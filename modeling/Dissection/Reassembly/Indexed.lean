import Dissection.KeyTable
import Dissection.Reassembly.Assembler

/-!
# Indexed assemblers

An assembler that has to find the sequence of a key, the sequence idle for longest and the last end
of a key at once keeps them apart: the open sequences by key, an index of them in idle order, the
time of the last end by key, and a queue of all ends in the order of time. The index leads expiry
to the sequences, and the queue says which ends are old enough to be forgotten.
-/

namespace Dissection

/-- The place of an open sequence in the index. -/
structure SequenceSlot (κ : Type) where
  lastFragmentAt : Timestamp
  serial : Nat
  key : κ
  deriving DecidableEq

variable {κ : Type}

instance : Idle (SequenceSlot κ) := ⟨fun slot => slot.lastFragmentAt, fun slot => slot.serial⟩

namespace SequenceSlot

/-- Takes the slot of a sequence out of an index. -/
def unfile (sequence : FragmentSequence κ) (slots : List (SequenceSlot κ)) :
    List (SequenceSlot κ) :=
  slots.filter (fun slot =>
    ¬ (slot.lastFragmentAt = sequence.lastFragmentAt ∧ slot.serial = sequence.serial))

/-- Files a sequence in an index, in place of the slot that is there. -/
def file (key : κ) (sequence : FragmentSequence κ) (slots : List (SequenceSlot κ)) :
    List (SequenceSlot κ) :=
  Idle.place ⟨sequence.lastFragmentAt, sequence.serial, key⟩ (unfile sequence slots)

theorem length_unfile_le (sequence : FragmentSequence κ) (slots : List (SequenceSlot κ)) :
    (unfile sequence slots).length ≤ slots.length := List.length_filter_le _ _

end SequenceSlot

structure IndexedAssembler (κ : Type) where
  config : AssemblyConfig
  /-- The open sequences by key. -/
  sequences : KeyTable κ (FragmentSequence κ) := {}
  /-- The index of the open sequences, in idle order. -/
  idleOrder : List (SequenceSlot κ) := []
  /-- The times at which the last sequences of keys ended, by key. -/
  recentlyClosed : KeyTable κ Timestamp := {}
  /-- The ends in the order in which they came, also those of keys with a later end. -/
  closedOrder : List (Closing κ) := []
  clock : Clock := {}
  /-- How many sequences have been opened. -/
  opened : Nat := 0
  stats : AssemblyStats := {}

namespace IndexedAssembler

def now (assembler : IndexedAssembler κ) : Timestamp := assembler.clock.now

def size (assembler : IndexedAssembler κ) : Nat := assembler.sequences.size

variable [DecidableEq κ]

def get? (assembler : IndexedAssembler κ) (key : κ) : Option (FragmentSequence κ) :=
  assembler.sequences.find? key

def markClosed (assembler : IndexedAssembler κ) (key : κ) : IndexedAssembler κ :=
  { assembler with
    recentlyClosed := assembler.recentlyClosed.insert key assembler.now
    closedOrder := assembler.closedOrder ++ [⟨assembler.now, key⟩] }

def timeOut (assembler : IndexedAssembler κ) (key : κ) :
    IndexedAssembler κ × Option (AssemblyEvent κ) :=
  match assembler.get? key with
  | none => (assembler, none)
  | some sequence =>
    let stats := assembler.stats
    ({ assembler with
        sequences := assembler.sequences.erase key
        idleOrder := SequenceSlot.unfile sequence assembler.idleOrder
        stats := { stats with timedOut := stats.timedOut + 1 } }.markClosed key,
      some (.timeout { sequence with status := .timedOut }))

theorem length_idleOrder_timeOut_le (assembler : IndexedAssembler κ) (key : κ) :
    (assembler.timeOut key).1.idleOrder.length ≤ assembler.idleOrder.length := by
  unfold timeOut
  split
  · exact Nat.le_refl _
  · exact SequenceSlot.length_unfile_le _ _

def timeOutAll : List κ → IndexedAssembler κ → IndexedAssembler κ × List (AssemblyEvent κ)
  | [], assembler => (assembler, [])
  | key :: rest, assembler =>
    let (swept, timeout) := assembler.timeOut key
    let (flushed, timeouts) := timeOutAll rest swept
    (flushed, timeout.toList ++ timeouts)

/-- Forgets an end, unless the last one of its key came later. -/
def forgetEnd (closed : KeyTable κ Timestamp) (closing : Closing κ) : KeyTable κ Timestamp :=
  if closed.find? closing.key = some closing.time then closed.erase closing.key else closed

/-- Goes through the ends from the front, and forgets them until it meets one within the window. -/
def forget (now : Timestamp) (window : Duration) :
    List (Closing κ) → KeyTable κ Timestamp → List (Closing κ) × KeyTable κ Timestamp
  | [], closed => ([], closed)
  | closing :: later, closed =>
    if isExpired now closing.time window then forget now window later (forgetEnd closed closing)
    else (closing :: later, closed)

/-- Goes through the index from the front, and times out sequences until it meets one that has not
been idle for too long. -/
def expire (assembler : IndexedAssembler κ) : IndexedAssembler κ × List (AssemblyEvent κ) :=
  match _hslots : assembler.idleOrder with
  | [] => (assembler, [])
  | oldest :: later =>
    if Idle.isOverdue assembler.now assembler.config.window oldest then
      let swept := { assembler with idleOrder := later }.timeOut oldest.key
      (swept.1.expire.1, swept.2.toList ++ swept.1.expire.2)
    else (assembler, [])
termination_by assembler.idleOrder.length
decreasing_by
  all_goals
    have hle := length_idleOrder_timeOut_le { assembler with idleOrder := later } oldest.key
    rw [_hslots]
    exact Nat.lt_succ_of_le hle

/-- Observes a timestamp. Ends longer ago than the window are forgotten, then sequences idle for
longer than the window time out. -/
def advance (assembler : IndexedAssembler κ) (time : Timestamp) :
    IndexedAssembler κ × List (AssemblyEvent κ) :=
  let clock := assembler.clock.observe time
  let (queue, closed) :=
    forget clock.now assembler.config.window assembler.closedOrder assembler.recentlyClosed
  { assembler with clock := clock, closedOrder := queue, recentlyClosed := closed }.expire

/-- Times out all open sequences, in the order in which they were opened. -/
def flush (assembler : IndexedAssembler κ) : IndexedAssembler κ × List (AssemblyEvent κ) :=
  timeOutAll ((Assembler.inOpeningOrder assembler.sequences.values).map FragmentSequence.key)
    assembler

def evictOldest (assembler : IndexedAssembler κ) : IndexedAssembler κ × Option (AssemblyEvent κ) :=
  match assembler.idleOrder with
  | [] => (assembler, none)
  | oldest :: _ =>
    let stats := { assembler.stats with evicted := assembler.stats.evicted + 1 }
    { assembler with stats := stats }.timeOut oldest.key

def makeRoom (assembler : IndexedAssembler κ) : IndexedAssembler κ × Option (AssemblyEvent κ) :=
  if assembler.config.maxSequences ≤ assembler.size then assembler.evictOldest
  else (assembler, none)

/-- The assembler before it opens a sequence for a key: the key has no last end any more, and the
sequence counts as late if it had one. -/
def reopened (assembler : IndexedAssembler κ) (key : κ) : IndexedAssembler κ :=
  let late := if (assembler.recentlyClosed.find? key).isSome then 1 else 0
  { assembler with
    recentlyClosed := assembler.recentlyClosed.erase key
    stats := { assembler.stats with
      lateFragments := assembler.stats.lateFragments + late } }

def openSequence (assembler : IndexedAssembler κ) (key : κ) (time : Timestamp) :
    IndexedAssembler κ × List (AssemblyEvent κ) :=
  let (roomy, evicted) := (assembler.reopened key).makeRoom
  let sequence := .start key time roomy.opened
  ({ roomy with
      sequences := roomy.sequences.insert key sequence
      idleOrder := SequenceSlot.file key sequence roomy.idleOrder
      opened := roomy.opened + 1
      stats := { roomy.stats with
        sequencesStarted := roomy.stats.sequencesStarted + 1 } },
    evicted.toList ++ [.sequenceStart key time])

def ensureOpen (assembler : IndexedAssembler κ) (key : κ) (time : Timestamp) :
    IndexedAssembler κ × List (AssemblyEvent κ) :=
  match assembler.get? key with
  | some _ => (assembler, [])
  | none => assembler.openSequence key time

/-- The index after a sequence has grown: its slot only moves when the time of its last fragment
does. -/
def reindex (assembler : IndexedAssembler κ) (key : κ) (sequence grown : FragmentSequence κ) :
    List (SequenceSlot κ) :=
  if grown.lastFragmentAt = sequence.lastFragmentAt then assembler.idleOrder
  else SequenceSlot.file key grown (SequenceSlot.unfile sequence assembler.idleOrder)

def settle (assembler : IndexedAssembler κ) (key : κ) (sequence : FragmentSequence κ) :
    IndexedAssembler κ × List (AssemblyEvent κ) :=
  if sequence.IsCovered then
    ({ assembler with
        sequences := assembler.sequences.erase key
        idleOrder := SequenceSlot.unfile sequence assembler.idleOrder
        stats := { assembler.stats with completed := assembler.stats.completed + 1 } }.markClosed
          key,
      [.complete { sequence with status := .complete }])
  else (assembler, [])

def addFragment (assembler : IndexedAssembler κ) (key : κ) (fragment : Fragment) :
    IndexedAssembler κ × List (AssemblyEvent κ) :=
  let stats := { assembler.stats with fragments := assembler.stats.fragments + 1 }
  match assembler.get? key with
  | none => ({ assembler with stats := stats }, [])
  | some sequence =>
    match sequence.place fragment with
    | .duplicate =>
      ({ assembler with stats := { stats with duplicates := stats.duplicates + 1 } }, [])
    | .placed grown overlapping =>
      let overlaps := if overlapping then stats.overlaps + 1 else stats.overlaps
      let (settled, ending) := { assembler with
        sequences := assembler.sequences.insert key grown
        idleOrder := assembler.reindex key sequence grown
        stats := { stats with overlaps := overlaps } }.settle key grown
      (settled, .newFragment key fragment.offset fragment.length :: ending)

/-- Adds a fragment for a key. Its timestamp drives the clock, so other sequences may time out
first. -/
def insert (assembler : IndexedAssembler κ) (key : κ) (fragment : Fragment) :
    IndexedAssembler κ × List (AssemblyEvent κ) :=
  let (advanced, timeouts) := assembler.advance fragment.timestamp
  let (ready, opening) := advanced.ensureOpen key fragment.timestamp
  let (grown, added) := ready.addFragment key (assembler.config.stored fragment)
  (grown, timeouts ++ opening ++ added)

end IndexedAssembler

end Dissection
