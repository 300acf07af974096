import Dissection.Reassembly.Sequence

/-!
# Assemblers

An assembler collects the fragments of many datagrams, each under a key. A sequence ends when its
fragments cover the datagram, or when no fragment has come for longer than the window; time is the
greatest timestamp seen. A fragment for a key whose sequence has ended starts a new sequence, and
counts as late when the end is no longer ago than the window.
-/

namespace Dissection

structure AssemblyConfig where
  /-- How long a sequence may be idle. -/
  window : Duration := .ofSeconds 30
  /-- How many sequences may be open. The one idle for longest makes room for a new one. -/
  maxSequences : Nat := 4096
  /-- Whether the bytes of fragments are kept. -/
  retainPayload : Bool := true

/-- The fragment as it is stored: without its bytes when payloads are not kept. -/
def AssemblyConfig.stored (config : AssemblyConfig) (fragment : Fragment) : Fragment :=
  if config.retainPayload then fragment else { fragment with payload := none }

inductive AssemblyEvent (κ : Type) where
  | sequenceStart (key : κ) (time : Timestamp)
  | newFragment (key : κ) (offset length : Nat)
  | complete (sequence : FragmentSequence κ)
  | timeout (sequence : FragmentSequence κ)
  deriving DecidableEq

variable {κ : Type}

namespace AssemblyEvent

def key : AssemblyEvent κ → κ
  | .sequenceStart key _ => key
  | .newFragment key _ _ => key
  | .complete sequence => sequence.key
  | .timeout sequence => sequence.key

def isTerminal : AssemblyEvent κ → Bool
  | .complete _ => true
  | .timeout _ => true
  | _ => false

end AssemblyEvent

structure AssemblyStats where
  sequencesStarted : Nat := 0
  fragments : Nat := 0
  duplicates : Nat := 0
  overlaps : Nat := 0
  completed : Nat := 0
  timedOut : Nat := 0
  /-- Timeouts that made room for another sequence. -/
  evicted : Nat := 0
  lateFragments : Nat := 0
  deriving DecidableEq

namespace AssemblyStats

def add (a b : AssemblyStats) : AssemblyStats where
  sequencesStarted := a.sequencesStarted + b.sequencesStarted
  fragments := a.fragments + b.fragments
  duplicates := a.duplicates + b.duplicates
  overlaps := a.overlaps + b.overlaps
  completed := a.completed + b.completed
  timedOut := a.timedOut + b.timedOut
  evicted := a.evicted + b.evicted
  lateFragments := a.lateFragments + b.lateFragments

instance : Add AssemblyStats := ⟨add⟩

end AssemblyStats

/-- The end of a sequence: its key, and the clock when it ended. -/
structure Closing (κ : Type) where
  time : Timestamp
  key : κ
  deriving DecidableEq

structure Assembler (κ : Type) where
  config : AssemblyConfig
  /-- The open sequences, in idle order. -/
  sequences : List (FragmentSequence κ) := []
  /-- The keys without an open sequence whose last one ended recently, in the order of the ends. -/
  closings : List (Closing κ) := []
  clock : Clock := {}
  /-- How many sequences have been opened. -/
  opened : Nat := 0
  stats : AssemblyStats := {}

namespace Assembler

def now (assembler : Assembler κ) : Timestamp := assembler.clock.now

def size (assembler : Assembler κ) : Nat := assembler.sequences.length

/-- Notes that the given sequences ended at the present time. -/
def close (assembler : Assembler κ) (ended : List (FragmentSequence κ)) : Assembler κ :=
  { assembler with
    closings := assembler.closings ++ ended.map (fun sequence => ⟨assembler.now, sequence.key⟩) }

/-- Leaves `kept` open and times out `ended`. -/
def timeOut (assembler : Assembler κ) (ended kept : List (FragmentSequence κ)) :
    Assembler κ × List (AssemblyEvent κ) :=
  ({ assembler.close ended with
      sequences := kept
      stats := { assembler.stats with timedOut := assembler.stats.timedOut + ended.length } },
    ended.map (fun sequence => .timeout { sequence with status := .timedOut }))

/-- Observes a timestamp. Ends longer ago than the window are forgotten, then sequences idle for
longer than the window time out, in idle order. -/
def advance (assembler : Assembler κ) (time : Timestamp) : Assembler κ × List (AssemblyEvent κ) :=
  let clock := assembler.clock.observe time
  let window := assembler.config.window
  let isForgotten (closing : Closing κ) := isExpired clock.now closing.time window
  let closings := assembler.closings.dropWhile isForgotten
  { assembler with clock := clock, closings := closings }.timeOut
    (Idle.overdue clock.now window assembler.sequences)
    (Idle.current clock.now window assembler.sequences)

def placeBySerial (sequence : FragmentSequence κ) :
    List (FragmentSequence κ) → List (FragmentSequence κ)
  | [] => [sequence]
  | other :: rest =>
    if sequence.serial < other.serial then sequence :: other :: rest
    else other :: placeBySerial sequence rest

def inOpeningOrder (sequences : List (FragmentSequence κ)) : List (FragmentSequence κ) :=
  sequences.foldr placeBySerial []

/-- Times out all open sequences, in the order in which they were opened. -/
def flush (assembler : Assembler κ) : Assembler κ × List (AssemblyEvent κ) :=
  assembler.timeOut (inOpeningOrder assembler.sequences) []

/-- Times out the sequence idle for longest when there is no room for another one. -/
def makeRoom (assembler : Assembler κ) : Assembler κ × List (AssemblyEvent κ) :=
  if assembler.size < assembler.config.maxSequences then (assembler, [])
  else match assembler.sequences with
    | [] => (assembler, [])
    | first :: rest =>
      let stats := { assembler.stats with evicted := assembler.stats.evicted + 1 }
      { assembler with stats := stats }.timeOut [first] rest

variable [DecidableEq κ]

def get? (assembler : Assembler κ) (key : κ) : Option (FragmentSequence κ) :=
  assembler.sequences.find? (fun sequence => sequence.key = key)

def isRecentlyClosed (assembler : Assembler κ) (key : κ) : Bool :=
  assembler.closings.any (fun closing => closing.key = key)

def openSequence (assembler : Assembler κ) (key : κ) (time : Timestamp) :
    Assembler κ × List (AssemblyEvent κ) :=
  let late := if assembler.isRecentlyClosed key then 1 else 0
  let (roomy, evicted) := assembler.makeRoom
  let stats := roomy.stats
  ({ roomy with
      sequences := Idle.place (.start key time roomy.opened) roomy.sequences
      closings := roomy.closings.filter (fun closing => closing.key ≠ key)
      opened := roomy.opened + 1
      stats :=
        { stats with
          sequencesStarted := stats.sequencesStarted + 1
          lateFragments := stats.lateFragments + late } },
    evicted ++ [.sequenceStart key time])

def ensureOpen (assembler : Assembler κ) (key : κ) (time : Timestamp) :
    Assembler κ × List (AssemblyEvent κ) :=
  match assembler.get? key with
  | some _ => (assembler, [])
  | none => assembler.openSequence key time

/-- The assembler after a sequence has grown: it ends when it is covered, else it stays open. -/
def settle (assembler : Assembler κ) (sequence : FragmentSequence κ) :
    Assembler κ × List (AssemblyEvent κ) :=
  let others := assembler.sequences.filter (fun other => other.key ≠ sequence.key)
  if sequence.IsCovered then
    let stats := { assembler.stats with completed := assembler.stats.completed + 1 }
    ({ assembler.close [sequence] with sequences := others, stats := stats },
      [.complete { sequence with status := .complete }])
  else ({ assembler with sequences := Idle.place sequence others }, [])

def addFragment (assembler : Assembler κ) (key : κ) (fragment : Fragment) :
    Assembler κ × List (AssemblyEvent κ) :=
  let stats := { assembler.stats with fragments := assembler.stats.fragments + 1 }
  match assembler.get? key with
  | none => ({ assembler with stats := stats }, [])
  | some sequence =>
    match sequence.place fragment with
    | .duplicate =>
      ({ assembler with stats := { stats with duplicates := stats.duplicates + 1 } }, [])
    | .placed grown overlapping =>
      let overlaps := if overlapping then stats.overlaps + 1 else stats.overlaps
      let (settled, ending) :=
        { assembler with stats := { stats with overlaps := overlaps } }.settle grown
      (settled, .newFragment key fragment.offset fragment.length :: ending)

/-- Adds a fragment for a key. Its timestamp drives the clock, so other sequences may time out
first. -/
def insert (assembler : Assembler κ) (key : κ) (fragment : Fragment) :
    Assembler κ × List (AssemblyEvent κ) :=
  let (advanced, timeouts) := assembler.advance fragment.timestamp
  let (ready, opening) := advanced.ensureOpen key fragment.timestamp
  let (grown, added) := ready.addFragment key (assembler.config.stored fragment)
  (grown, timeouts ++ opening ++ added)

end Assembler

end Dissection
