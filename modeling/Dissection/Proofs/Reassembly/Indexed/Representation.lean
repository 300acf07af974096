import Dissection.Reassembly.Indexed
import Dissection.Proofs.Reassembly.Bookkeeping

/-!
# What an index stands for

An indexed assembler stands for a plain one: it holds the same open sequences by key, and its index
is their slots, in the same order. Its table of last ends holds the recent ends, and its queue, in
which older ends of the same keys are left behind, holds them as well.
-/

namespace Dissection

variable {κ : Type}

def FragmentSequence.slot (sequence : FragmentSequence κ) : SequenceSlot κ :=
  ⟨sequence.lastFragmentAt, sequence.serial, sequence.key⟩

namespace SequenceSlot

/-- A sequence comes before another one when its slot does. -/
theorem place_slot (sequence : FragmentSequence κ) (queue : List (FragmentSequence κ)) :
    Idle.place sequence.slot (queue.map FragmentSequence.slot) =
      (Idle.place sequence queue).map FragmentSequence.slot := by
  induction queue with
  | nil => rfl
  | cons other rest ih =>
    have hiff : Idle.Before sequence.slot other.slot ↔ Idle.Before sequence other := Iff.rfl
    by_cases h : Idle.Before sequence other
    · simp [Idle.place, hiff, h]
    · simp [Idle.place, hiff, h, ih]

theorem unfile_eq_self {sequence : FragmentSequence κ} {queue : List (FragmentSequence κ)}
    (h : ∀ other ∈ queue, other.serial ≠ sequence.serial) :
    unfile sequence (queue.map FragmentSequence.slot) = queue.map FragmentSequence.slot := by
  unfold unfile
  rw [List.filter_eq_self]
  intro slot hslot
  obtain ⟨other, hother, rfl⟩ := List.mem_map.1 hslot
  simpa [FragmentSequence.slot] using Or.inr (h other hother)

end SequenceSlot

namespace Assembler

variable {assembler : Assembler κ} (h : assembler.InOrder)

include h

theorem InOrder.unfile_slots [DecidableEq κ] {sequence : FragmentSequence κ}
    (hsequence : sequence ∈ assembler.sequences) :
    SequenceSlot.unfile sequence (assembler.sequences.map FragmentSequence.slot) =
      (assembler.others sequence.key).map FragmentSequence.slot := by
  rw [SequenceSlot.unfile, List.filter_map, others]
  congr 1
  refine List.filter_congr ?_
  intro other hother
  have hiff : other.lastFragmentAt = sequence.lastFragmentAt ∧ other.serial = sequence.serial ↔
      other.key = sequence.key := by
    constructor
    · rintro ⟨_, hserial⟩
      rw [h.eq_of_serial hother hsequence hserial]
    · intro hkey
      rw [h.distinct.eq_of_key_eq hother hsequence hkey]
      exact ⟨rfl, rfl⟩
  exact decide_eq_decide.2 (not_congr hiff)

end Assembler

namespace IndexedAssembler

open Assembler (InOrder)

/-- The two hold the same, the index of the open sequences apart. -/
structure Agrees [DecidableEq κ] (indexed : IndexedAssembler κ) (assembler : Assembler κ) :
    Prop where
  config_eq : indexed.config = assembler.config
  clock_eq : indexed.clock = assembler.clock
  opened_eq : indexed.opened = assembler.opened
  stats_eq : indexed.stats = assembler.stats
  sequences_perm : indexed.sequences.entries.Perm
    (assembler.sequences.map (fun sequence => (sequence.key, sequence)))
  closed_iff : ∀ key time, indexed.recentlyClosed.find? key = some time ↔
    ⟨time, key⟩ ∈ assembler.closings
  queued : ∀ closing ∈ assembler.closings, closing ∈ indexed.closedOrder
  queue_sorted : indexed.closedOrder.Pairwise (fun a b => a.time ≤ b.time)
  queue_le : ∀ closing ∈ indexed.closedOrder, closing.time ≤ indexed.now

/-- The indexed assembler stands for the plain one. -/
structure Represents [DecidableEq κ] (indexed : IndexedAssembler κ) (assembler : Assembler κ) :
    Prop extends Agrees indexed assembler where
  index_eq : indexed.idleOrder = assembler.sequences.map FragmentSequence.slot

variable [DecidableEq κ] {indexed : IndexedAssembler κ} {assembler : Assembler κ}

section Lookup

variable (h : indexed.Agrees assembler)

include h

theorem Agrees.now_eq : indexed.now = assembler.now := congrArg Clock.now h.clock_eq

theorem Agrees.size_eq : indexed.size = assembler.size := by
  simpa [size, KeyTable.size, Assembler.size] using h.sequences_perm.length_eq

theorem Agrees.values_perm : indexed.sequences.values.Perm assembler.sequences := by
  simpa [KeyTable.values, Function.comp_def] using h.sequences_perm.map Prod.snd

theorem Agrees.get?_eq_some_iff {key : κ} {sequence : FragmentSequence κ} :
    indexed.get? key = some sequence ↔ sequence ∈ assembler.sequences ∧ sequence.key = key := by
  rw [get?, KeyTable.find?_eq_some_iff, h.sequences_perm.mem_iff]
  simp only [List.mem_map, Prod.mk.injEq]
  constructor
  · rintro ⟨_, hmem, hkey, rfl⟩
    exact ⟨hmem, hkey⟩
  · rintro ⟨hmem, hkey⟩
    exact ⟨sequence, hmem, hkey, rfl⟩

theorem Agrees.get?_eq (hdistinct : assembler.DistinctKeys) (key : κ) :
    indexed.get? key = assembler.get? key := by
  ext sequence
  rw [h.get?_eq_some_iff, hdistinct.get?_eq_some_iff]

theorem Agrees.isSome_closed (key : κ) :
    (indexed.recentlyClosed.find? key).isSome = assembler.isRecentlyClosed key := by
  rw [Bool.eq_iff_iff, Option.isSome_iff_exists, Assembler.isRecentlyClosed, List.any_eq_true]
  constructor
  · rintro ⟨time, htime⟩
    exact ⟨⟨time, key⟩, (h.closed_iff key time).1 htime, by simp⟩
  · rintro ⟨⟨time, other⟩, hmem, hkey⟩
    obtain rfl : other = key := by simpa using hkey
    exact ⟨time, (h.closed_iff other time).2 hmem⟩

theorem Agrees.perm_erase (key : κ) : (indexed.sequences.erase key).entries.Perm
    ((assembler.others key).map (fun sequence => (sequence.key, sequence))) := by
  have hfilter := h.sequences_perm.filter (fun entry => entry.1 ≠ key)
  rwa [List.filter_map] at hfilter

/-- Other open sequences in both, and other counts. -/
theorem Agrees.holding {table : KeyTable κ (FragmentSequence κ)} {slots : List (SequenceSlot κ)}
    {queue : List (FragmentSequence κ)}
    (hperm : table.entries.Perm (queue.map (fun sequence => (sequence.key, sequence))))
    {counted stats : AssemblyStats} (hstats : counted = stats) :
    Agrees { indexed with sequences := table, idleOrder := slots, stats := counted }
      { assembler with sequences := queue, stats := stats } where
  config_eq := h.config_eq
  clock_eq := h.clock_eq
  opened_eq := h.opened_eq
  stats_eq := hstats
  sequences_perm := hperm
  closed_iff := h.closed_iff
  queued := h.queued
  queue_sorted := h.queue_sorted
  queue_le := h.queue_le

end Lookup

end IndexedAssembler

end Dissection
