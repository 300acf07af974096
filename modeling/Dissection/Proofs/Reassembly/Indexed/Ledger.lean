import Dissection.Proofs.Reassembly.History
import Dissection.Proofs.Reassembly.Indexed.Timeout
import Mathlib.Algebra.GroupWithZero.Nat

/-!
# The ledger balances

The counters of an assembler are a summary of what it was asked and of what it returned. Each
sequence started is complete, timed out or still open; each fragment is a duplicate or was reported
as new; and each fragment that is no duplicate is held by an open sequence, or was carried away by
the event that ended its sequence.
-/

namespace Dissection

variable {κ : Type}

namespace AssemblyEvent

def isStart : AssemblyEvent κ → Bool
  | .sequenceStart _ _ => true
  | _ => false

def isComplete : AssemblyEvent κ → Bool
  | .complete _ => true
  | _ => false

/-- The number of fragments that the event carries. -/
def carried : AssemblyEvent κ → Nat
  | .complete sequence => sequence.fragments.length
  | .timeout sequence => sequence.fragments.length
  | _ => 0

end AssemblyEvent

def AssemblyOperation.isInsert : AssemblyOperation κ → Bool
  | .insert _ _ => true
  | _ => false

namespace FragmentSequence

def heldBy (sequences : List (FragmentSequence κ)) : Nat :=
  (sequences.map (fun sequence => sequence.fragments.length)).sum

theorem heldBy_perm {sequences others : List (FragmentSequence κ)} (h : sequences.Perm others) :
    heldBy sequences = heldBy others := (h.map _).sum_nat

@[simp] theorem heldBy_cons (sequence : FragmentSequence κ) (others : List (FragmentSequence κ)) :
    heldBy (sequence :: others) = sequence.fragments.length + heldBy others := List.sum_cons

@[simp] theorem heldBy_append (sequences others : List (FragmentSequence κ)) :
    heldBy (sequences ++ others) = heldBy sequences + heldBy others := by
  simp [heldBy]

end FragmentSequence

open AssemblyEvent FragmentSequence

/-- The counters agree with the open sequences, with the number of insertions, and with the events
that were returned. -/
structure AssemblyStats.Balanced (stats : AssemblyStats) (sequences : List (FragmentSequence κ))
    (insertions : Nat) (events : List (AssemblyEvent κ)) : Prop where
  open_eq : stats.sequencesStarted = stats.completed + stats.timedOut + sequences.length
  insertions_eq : stats.fragments = insertions
  new_eq : stats.fragments = stats.duplicates + events.countP isNewFragment
  started_eq : stats.sequencesStarted = events.countP isStart
  completed_eq : stats.completed = events.countP isComplete
  timedOut_eq : stats.timedOut = events.countP isTimeout
  evicted_le : stats.evicted ≤ stats.timedOut
  late_le : stats.lateFragments ≤ stats.sequencesStarted
  /-- Of the fragments that are no duplicates, each is held or has been carried away. -/
  held_eq : stats.fragments =
    stats.duplicates + (heldBy sequences + (events.map carried).sum)

namespace AssemblyStats

variable {stats : AssemblyStats} {sequences others : List (FragmentSequence κ)} {insertions : Nat}
  {events : List (AssemblyEvent κ)}

theorem Balanced.perm (h : stats.Balanced sequences insertions events)
    (hperm : others.Perm sequences) : stats.Balanced others insertions events :=
  { h with
    open_eq := hperm.length_eq ▸ h.open_eq
    held_eq := heldBy_perm hperm ▸ h.held_eq }

/-- Some sequences time out, none of them evicted or some or all. -/
theorem Balanced.timeOut {ended kept : List (FragmentSequence κ)}
    (h : stats.Balanced (ended ++ kept) insertions events) {evicted : Nat}
    (hevicted : evicted ≤ stats.evicted + ended.length) :
    Balanced { stats with timedOut := stats.timedOut + ended.length, evicted := evicted } kept
      insertions
      (events ++ ended.map (fun sequence => .timeout { sequence with status := .timedOut })) := by
  have hcarried : (ended.map (fun sequence =>
      carried (.timeout { sequence with status := .timedOut }))).sum = heldBy ended := rfl
  have hopen := h.open_eq
  have hheld := h.held_eq
  rw [List.length_append] at hopen
  rw [heldBy_append] at hheld
  cases h
  constructor <;>
    simp [isNewFragment, isStart, isComplete, isTimeout, List.countP_map, Function.comp_def,
      hcarried] <;>
    omega

/-- A sequence is opened, and counts as late or does not. -/
theorem Balanced.opening (h : stats.Balanced sequences insertions events)
    (sequence : FragmentSequence κ) (hempty : sequence.fragments = []) {late : Nat}
    (hlate : late ≤ 1) (key : κ) (time : Timestamp) :
    Balanced
      { stats with
        sequencesStarted := stats.sequencesStarted + 1
        lateFragments := stats.lateFragments + late }
      (sequence :: sequences) insertions (events ++ [.sequenceStart key time]) := by
  cases h
  constructor <;>
    simp [isNewFragment, isStart, isComplete, isTimeout, carried, hempty] <;>
    omega

theorem Balanced.duplicate (h : stats.Balanced sequences insertions events) :
    Balanced
      { stats with fragments := stats.fragments + 1, duplicates := stats.duplicates + 1 }
      sequences (insertions + 1) events := by
  cases h
  constructor <;> dsimp only <;> omega

/-- A sequence grows by a fragment, which may overlap others. -/
theorem Balanced.growing {sequence grown : FragmentSequence κ}
    (h : stats.Balanced (sequence :: others) insertions events)
    (hgrown : grown.fragments.length = sequence.fragments.length + 1)
    (overlaps : Nat) (key : κ) (offset length : Nat) :
    Balanced { stats with fragments := stats.fragments + 1, overlaps := overlaps }
      (grown :: others) (insertions + 1) (events ++ [.newFragment key offset length]) := by
  have hopen := h.open_eq
  have hheld := h.held_eq
  rw [List.length_cons] at hopen
  rw [heldBy_cons] at hheld
  cases h
  constructor <;>
    simp [isNewFragment, isStart, isComplete, isTimeout, carried] <;>
    omega

theorem Balanced.completing {sequence : FragmentSequence κ}
    (h : stats.Balanced (sequence :: others) insertions events) :
    Balanced { stats with completed := stats.completed + 1 } others insertions
      (events ++ [.complete { sequence with status := .complete }]) := by
  have hopen := h.open_eq
  have hheld := h.held_eq
  rw [List.length_cons] at hopen
  rw [heldBy_cons] at hheld
  cases h
  constructor <;>
    simp [isNewFragment, isStart, isComplete, isTimeout, carried] <;>
    omega

end AssemblyStats

namespace Assembler

/-- The books of the assembler balance, after so many insertions and these events. -/
def Balanced (assembler : Assembler κ) (insertions : Nat) (events : List (AssemblyEvent κ)) :
    Prop :=
  assembler.stats.Balanced assembler.sequences insertions events

variable {assembler : Assembler κ} {insertions : Nat} {events : List (AssemblyEvent κ)}

theorem Balanced.advance (h : assembler.Balanced insertions events) (time : Timestamp) :
    (assembler.advance time).1.Balanced insertions (events ++ (assembler.advance time).2) := by
  have hsplit := Idle.overdue_append_current (assembler.clock.observe time).now
    assembler.config.window assembler.sequences
  exact (AssemblyStats.Balanced.perm h (.of_eq hsplit)).timeOut (Nat.le_add_right _ _)

theorem Balanced.flush (h : assembler.Balanced insertions events) :
    assembler.flush.1.Balanced insertions (events ++ assembler.flush.2) := by
  have hsplit : (inOpeningOrder assembler.sequences ++ []).Perm assembler.sequences := by
    rw [List.append_nil]
    exact perm_inOpeningOrder assembler.sequences
  exact (AssemblyStats.Balanced.perm h hsplit).timeOut (Nat.le_add_right _ _)

theorem Balanced.makeRoom (h : assembler.Balanced insertions events) :
    assembler.makeRoom.1.Balanced insertions (events ++ assembler.makeRoom.2) := by
  rcases assembler.makeRoom_cases with ⟨_, heq⟩ | ⟨_, first, rest, hsequences, heq⟩
  · rw [heq, List.append_nil]
    exact h
  · rw [heq]
    have hsplit : ([first] ++ rest).Perm assembler.sequences := .of_eq hsequences.symm
    exact (AssemblyStats.Balanced.perm h hsplit).timeOut (Nat.le_refl _)

variable [DecidableEq κ]

theorem Balanced.ensureOpen (h : assembler.Balanced insertions events) (key : κ)
    (time : Timestamp) :
    (assembler.ensureOpen key time).1.Balanced insertions
      (events ++ (assembler.ensureOpen key time).2) := by
  cases hopen : assembler.get? key with
  | some sequence =>
    rw [ensureOpen_of_open hopen, List.append_nil]
    exact h
  | none =>
    have hlate : (if assembler.isRecentlyClosed key then 1 else 0) ≤ 1 := by split <;> omega
    have hopened := h.makeRoom.opening (.start key time assembler.makeRoom.1.opened) rfl hlate key
      time
    rw [ensureOpen_of_closed hopen, events_openSequence, ← List.append_assoc]
    exact hopened.perm (Idle.perm_place _ _)

theorem Balanced.addFragment (h : assembler.Balanced insertions events)
    (hdistinct : assembler.DistinctKeys) {key : κ} {sequence : FragmentSequence κ}
    (hopen : assembler.get? key = some sequence) (fragment : Fragment) :
    (assembler.addFragment key fragment).1.Balanced (insertions + 1)
      (events ++ (assembler.addFragment key fragment).2) := by
  cases hretains : sequence.retains fragment with
  | true =>
    simp only [Assembler.addFragment, hopen, place_of_retains hretains, List.append_nil]
    exact h.duplicate
  | false =>
    obtain ⟨hsequence, rfl⟩ := get?_mem hopen
    have hgrown : (sequence.extended fragment).fragments.length = sequence.fragments.length + 1 :=
      (Fragment.perm_place fragment sequence.fragments).length_eq
    have hgrowing := (AssemblyStats.Balanced.perm h (perm_others hdistinct hsequence)).growing
      hgrown
      (if sequence.isOverlappedBy fragment then assembler.stats.overlaps + 1
        else assembler.stats.overlaps)
      sequence.key fragment.offset fragment.length
    -- a sequence that is covered first grows, and is complete then
    by_cases hcovered : (sequence.extended fragment).IsCovered
    · simp only [Assembler.addFragment, hopen, place_of_not_retains hretains, settle, hcovered,
        if_true]
      rw [List.append_cons]
      exact hgrowing.completing
    · simp only [Assembler.addFragment, hopen, place_of_not_retains hretains, settle, hcovered,
        if_false]
      exact hgrowing.perm (Idle.perm_place _ _)

theorem Balanced.apply (h : assembler.Balanced insertions events)
    (hdistinct : assembler.DistinctKeys) (operation : AssemblyOperation κ) :
    (assembler.apply operation).1.Balanced
      (insertions + if operation.isInsert then 1 else 0)
      (events ++ (assembler.apply operation).2) := by
  cases operation with
  | insert key fragment =>
    have hready := (h.advance fragment.timestamp).ensureOpen key fragment.timestamp
    rw [List.append_assoc] at hready
    have hadded := hready.addFragment (hdistinct.ready key fragment.timestamp)
      (assembler.get?_ready key fragment.timestamp) (assembler.config.stored fragment)
    rw [List.append_assoc] at hadded
    exact hadded
  | advance time => exact h.advance time
  | flush => exact h.flush

/-- The books of a new assembler are empty, and every operation keeps the balance. -/
theorem balanced_after (config : AssemblyConfig) (operations : List (AssemblyOperation κ)) :
    ((ofConfig config).after operations).Balanced (operations.countP AssemblyOperation.isInsert)
      (((ofConfig config).calls operations).flatMap AssemblyCall.events) := by
  have hempty : (ofConfig config : Assembler κ).Balanced 0 [] := by
    constructor <;> rfl
  have hrun := run_induction (motive := fun current calls => current.DistinctKeys ∧
      current.Balanced (calls.countP (·.operation.isInsert)) (calls.flatMap AssemblyCall.events))
    (ofConfig config) ⟨.nil, hempty⟩ ?_ operations
  · have hcount := congrArg (List.countP AssemblyOperation.isInsert)
      (operations_calls (ofConfig config) operations)
    rw [List.countP_map] at hcount
    exact hcount ▸ hrun.2
  · rintro current calls operation ⟨hdistinct, h⟩
    refine ⟨hdistinct.apply operation, ?_⟩
    rw [List.flatMap_append, List.flatMap_singleton, List.countP_append, List.countP_singleton]
    exact h.apply hdistinct operation

end Assembler

namespace IndexedAssembler

variable [DecidableEq κ]

/-- After every run, and so after all of its calls, the counters agree with the sequences that are
open, with the number of insertions, and with the events that were returned. -/
theorem ledger_of_run (config : AssemblyConfig) (operations : List (AssemblyOperation κ)) :
    let indexed := (ofConfig config).after operations
    let events := ((ofConfig config).calls operations).flatMap AssemblyCall.events
    indexed.sequences.values.length = indexed.size ∧
      indexed.stats.Balanced indexed.sequences.values
        (operations.countP AssemblyOperation.isInsert) events := by
  intro indexed events
  have h : indexed.Represents ((Assembler.ofConfig config).after operations) :=
    represents_after config operations
  have hevents : events =
      ((Assembler.ofConfig config).calls operations).flatMap AssemblyCall.events := by
    rw [← calls_eq]
  have hbalanced := Assembler.balanced_after config operations
  rw [Assembler.Balanced, ← h.stats_eq, ← hevents] at hbalanced
  exact ⟨List.length_map _, hbalanced.perm h.values_perm⟩

end IndexedAssembler

end Dissection
