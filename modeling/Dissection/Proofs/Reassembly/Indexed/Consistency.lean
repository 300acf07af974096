import Dissection.Proofs.Reassembly.Sources
import Dissection.Proofs.Reassembly.Indexed.Run

/-!
# What the containers of an assembler agree on

The index of an indexed assembler lists exactly the open sequences, each of which stands under its
own key and has a fragment. No key is open and ended at once, and the queue of ends has all that the
table of last ends has.
-/

namespace Dissection

variable {κ : Type}

namespace Assembler

/-- How many sequences an assembler may have open: always one. -/
def capacity (assembler : Assembler κ) : Nat := max 1 assembler.config.maxSequences

theorem size_makeRoom_lt {assembler : Assembler κ} (h : assembler.size ≤ assembler.capacity) :
    assembler.makeRoom.1.size < assembler.capacity := by
  rcases assembler.makeRoom_cases with ⟨hroom | hempty, heq⟩ | ⟨_, first, rest, hsequences, heq⟩
  · rw [heq]
    exact Nat.lt_of_lt_of_le hroom (Nat.le_max_right _ _)
  · simp [heq, size, hempty, capacity]
  · rw [heq]
    simp only [size, hsequences, List.length_cons] at h
    exact h

variable [DecidableEq κ]

theorem size_ready_le {assembler : Assembler κ} (h : assembler.size ≤ assembler.capacity)
    (key : κ) (time : Timestamp) : (assembler.ready key time).size ≤ assembler.capacity := by
  have hadvanced : (assembler.advance time).1.size ≤ assembler.capacity :=
    Nat.le_trans (assembler.sequences_advance_sublist time).length_le h
  rw [ready]
  cases hopen : (assembler.advance time).1.get? key with
  | some sequence =>
    rw [ensureOpen_of_open hopen]
    exact hadvanced
  | none =>
    rw [ensureOpen_of_closed hopen, size, sequences_openSequence,
      (Idle.perm_place _ _).length_eq, List.length_cons]
    exact size_makeRoom_lt hadvanced

theorem size_addFragment_le {assembler : Assembler κ} (h : assembler.DistinctKeys) {key : κ}
    {sequence : FragmentSequence κ} (hopen : assembler.get? key = some sequence)
    (fragment : Fragment) : (assembler.addFragment key fragment).1.size ≤ assembler.size := by
  obtain ⟨hsequence, rfl⟩ := get?_mem hopen
  have hothers := (perm_others h hsequence).length_eq
  unfold size
  cases hretains : sequence.retains fragment with
  | true => rw [(addFragment_of_retains hopen hretains).1]
  | false =>
    by_cases hcovered : (sequence.extended fragment).IsCovered
    · rw [(addFragment_of_covered hopen hretains hcovered).1, ← hothers]
      exact Nat.le_succ _
    · rw [(addFragment_of_not_covered hopen hretains hcovered).1, ← hothers,
        (Idle.perm_place _ _).length_eq]
      exact Nat.le_refl _

theorem size_apply_le {assembler : Assembler κ} (hdistinct : assembler.DistinctKeys)
    (h : assembler.size ≤ assembler.capacity) (operation : AssemblyOperation κ) :
    (assembler.apply operation).1.size ≤ assembler.capacity := by
  cases operation with
  | insert key fragment =>
    exact Nat.le_trans
      (size_addFragment_le (hdistinct.ready key fragment.timestamp)
        (assembler.get?_ready key fragment.timestamp) _)
      (size_ready_le h key fragment.timestamp)
  | advance time => exact Nat.le_trans (assembler.sequences_advance_sublist time).length_le h
  | flush => exact Nat.zero_le _

theorem size_after_le (config : AssemblyConfig) (operations : List (AssemblyOperation κ)) :
    ((ofConfig config).after operations).size ≤ max 1 config.maxSequences := by
  have hrun := run_induction
    (motive := fun (current : Assembler κ) _ =>
      current.DistinctKeys ∧ current.size ≤ current.capacity)
    (ofConfig config) ⟨.nil, Nat.zero_le _⟩ ?_ operations
  · have hsize := hrun.2
    rwa [capacity, config_after] at hsize
  · rintro current calls operation ⟨hdistinct, h⟩
    refine ⟨hdistinct.apply operation, ?_⟩
    have hsize := size_apply_le hdistinct h operation
    rwa [capacity, ← config_apply current operation] at hsize

theorem collecting_after (config : AssemblyConfig) (operations : List (AssemblyOperation κ)) :
    ((ofConfig config).after operations : Assembler κ).Every
      (fun sequence => sequence.status = .collecting) :=
  every_after (fun _ _ _ => rfl) (fun _ _ h => h) config operations

theorem nonempty_after (config : AssemblyConfig) (operations : List (AssemblyOperation κ)) :
    ((ofConfig config).after operations : Assembler κ).Every
      (fun sequence => sequence.fragments ≠ []) := by
  intro sequence hsequence
  have hopen := (distinctKeys_after config operations).get?_eq_some_iff.2 ⟨hsequence, rfl⟩
  have hhistory := history_after config operations sequence.key
  rw [hopen] at hhistory
  generalize AssemblyEvent.ofKey sequence.key _ = events at hhistory
  cases hhistory with
  | going _ _ hholds =>
    intro hnone
    have hperm := hholds.perm
    rw [FragmentSequence.ranges, hnone, List.map_nil] at hperm
    exact hholds.ne_nil hperm.symm.eq_nil

end Assembler

namespace IndexedAssembler

variable [DecidableEq κ]

open Assembler (inOrder_after size_after_le collecting_after nonempty_after)

/-- The containers agree on which sequences are open and which keys have ended. -/
structure Consistent (indexed : IndexedAssembler κ) : Prop where
  /-- The index has one slot for each open sequence and nothing else. -/
  index_perm : indexed.idleOrder.Perm (indexed.sequences.entries.map
    (fun entry => ⟨entry.2.lastFragmentAt, entry.2.serial, entry.1⟩))
  index_ordered : indexed.idleOrder.Pairwise Idle.Before
  own_key : ∀ key sequence, indexed.get? key = some sequence → sequence.key = key
  collecting : ∀ key sequence, indexed.get? key = some sequence → sequence.status = .collecting
  nonempty : ∀ key sequence, indexed.get? key = some sequence → sequence.fragments ≠ []
  serial_lt : ∀ key sequence, indexed.get? key = some sequence → sequence.serial < indexed.opened
  serial_inj : ∀ key other sequence another, indexed.get? key = some sequence →
    indexed.get? other = some another → sequence.serial = another.serial → key = other
  size_le : indexed.size ≤ max 1 indexed.config.maxSequences
  open_or_closed : ∀ key, indexed.get? key = none ∨ indexed.recentlyClosed.find? key = none
  queue_sorted : indexed.closedOrder.Pairwise (fun a b => a.time ≤ b.time)
  queue_le : ∀ closing ∈ indexed.closedOrder, closing.time ≤ indexed.now
  queued : ∀ key time, indexed.recentlyClosed.find? key = some time →
    ⟨time, key⟩ ∈ indexed.closedOrder

section Represents

variable {indexed : IndexedAssembler κ} {assembler : Assembler κ}
  (h : indexed.Represents assembler) (horder : assembler.InOrder)

include h

theorem Represents.index_perm : indexed.idleOrder.Perm (indexed.sequences.entries.map
    (fun entry => ⟨entry.2.lastFragmentAt, entry.2.serial, entry.1⟩)) := by
  have hperm := h.sequences_perm.map
    (fun entry => SequenceSlot.mk entry.2.lastFragmentAt entry.2.serial entry.1)
  rw [List.map_map] at hperm
  rw [h.index_eq]
  exact hperm.symm

include horder

theorem Represents.serial_inj {key other : κ} {sequence another : FragmentSequence κ}
    (hopen : indexed.get? key = some sequence) (hother : indexed.get? other = some another)
    (hserial : sequence.serial = another.serial) : key = other := by
  obtain ⟨hsequence, rfl⟩ := h.get?_eq_some_iff.1 hopen
  obtain ⟨hanother, rfl⟩ := h.get?_eq_some_iff.1 hother
  rw [horder.eq_of_serial hsequence hanother hserial]

theorem Represents.open_or_closed (key : κ) :
    indexed.get? key = none ∨ indexed.recentlyClosed.find? key = none := by
  cases hopen : indexed.get? key with
  | none => exact .inl rfl
  | some sequence =>
    obtain ⟨hsequence, rfl⟩ := h.get?_eq_some_iff.1 hopen
    refine .inr (Option.eq_none_iff_forall_not_mem.2 ?_)
    intro time htime
    exact horder.ne_of_closed hsequence ((h.closed_iff _ time).1 htime) rfl

end Represents

/-- The containers agree after every run. -/
theorem consistent_after (config : AssemblyConfig) (operations : List (AssemblyOperation κ)) :
    ((ofConfig config).after operations).config = config ∧
      ((ofConfig config).after operations).Consistent := by
  have h := represents_after config operations
  have horder := inOrder_after config operations
  have hconfig := h.config_eq.trans (Assembler.config_after _ _)
  have hopen {key sequence}
      (hget : ((ofConfig config).after operations).get? key = some sequence) :=
    h.get?_eq_some_iff.1 hget
  refine ⟨hconfig, ?_⟩
  constructor
  · exact h.index_perm
  · rw [h.index_eq]
    exact List.pairwise_map.2 horder.ordered
  · exact fun key sequence hget => (hopen hget).2
  · exact fun key sequence hget => collecting_after config operations sequence (hopen hget).1
  · exact fun key sequence hget => nonempty_after config operations sequence (hopen hget).1
  · intro key sequence hget
    rw [h.opened_eq]
    exact horder.serial_lt sequence (hopen hget).1
  · exact fun key other sequence another => h.serial_inj horder
  · rw [h.size_eq, hconfig]
    exact size_after_le config operations
  · exact h.open_or_closed horder
  · exact h.queue_sorted
  · exact h.queue_le
  · exact fun key time htime => h.queued _ ((h.closed_iff key time).1 htime)

end IndexedAssembler

end Dissection
