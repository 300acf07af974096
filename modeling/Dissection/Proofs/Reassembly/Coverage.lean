import Dissection.Proofs.Reassembly.Completion

/-!
# Exact coverage

Fragments that hold every byte of a datagram once should complete it, in whatever order they came.
The assembler walks along them in the order of their offsets, and the walk takes them for the
datagram unless an empty fragment stands behind one that begins at the same offset: it came later,
it overlaps nothing, and no fragment ends where it begins. Without such a fragment a sequence is
complete exactly when it is exact, and no sequence that is exact stays open.
-/

namespace Dissection

namespace Fragment

/-- The second fragment is empty and begins where the first one, which is not empty, begins. -/
def Blocks (occupied empty : Fragment) : Prop :=
  empty.offset = occupied.offset ∧ empty.length = 0 ∧ 0 < occupied.length

instance (a b : Fragment) : Decidable (a.Blocks b) := inferInstanceAs (Decidable (_ ∧ _ ∧ _))

theorem Tile.pairwise_not_blocks {start stop : Nat} {fragments : List Fragment}
    (h : Tile start stop fragments) : fragments.Pairwise (fun a b => ¬ a.Blocks b) := by
  refine h.pairwise.imp ?_
  intro a b hle hblocks
  obtain ⟨hoffset, _, hlength⟩ := hblocks
  unfold Fragment.stop at hle
  omega

/-- Sorted fragments without a shared byte lie one behind the other, unless one of them blocks. -/
theorem pairwise_stop_le {fragments : List Fragment}
    (hsorted : fragments.Pairwise (fun a b => a.offset ≤ b.offset))
    (hdisjoint : fragments.Pairwise (fun a b => ¬ a.Overlaps b))
    (hfree : fragments.Pairwise (fun a b => ¬ a.Blocks b)) :
    fragments.Pairwise (fun a b => a.stop ≤ b.offset) := by
  refine ((hsorted.and hdisjoint).and hfree).imp ?_
  rintro a b ⟨⟨hle, hoverlaps⟩, hblocks⟩
  by_contra hbehind
  have hinside : b.offset < a.stop := Nat.lt_of_not_le hbehind
  -- as the two share no byte, the second one is empty and begins with the first
  have hempty : b.stop ≤ a.offset := Nat.le_of_not_lt (fun hlt => hoverlaps ⟨hlt, hinside⟩)
  apply hblocks
  unfold Fragment.stop at hinside hempty
  refine ⟨?_, ?_, ?_⟩ <;> omega

end Fragment

namespace FragmentSequence

variable {κ : Type}

/-- The fragments are the datagram, whose length is known: none ends behind it, and every byte of
it is in one of them. -/
structure Exact (sequence : FragmentSequence κ) (total : Nat) : Prop where
  clear : sequence.ambiguous = false
  told : sequence.totalLength = some total
  inside : ∀ fragment ∈ sequence.fragments, fragment.stop ≤ total
  covered : ∀ position < total, ∃ fragment ∈ sequence.fragments, fragment.Covers position

/-- Unless the sequence is ambiguous, no byte is in two of its fragments. -/
def Disjoint (sequence : FragmentSequence κ) : Prop :=
  sequence.ambiguous = false → sequence.fragments.Pairwise (fun a b => ¬ a.Overlaps b)

theorem Disjoint.extended {sequence : FragmentSequence κ} (h : sequence.Disjoint)
    (fragment : Fragment) : (sequence.extended fragment).Disjoint := by
  intro hclear
  have hparts : (sequence.ambiguous = false ∧ sequence.isOverlappedBy fragment = false) ∧
      sequence.isContradictedBy fragment = false := by
    simpa only [FragmentSequence.extended, Bool.or_eq_false_iff] using hclear
  obtain ⟨⟨hearlier, hoverlapped⟩, _⟩ := hparts
  have hapart : ∀ other ∈ sequence.fragments, ¬ other.Overlaps fragment := by
    simpa [isOverlappedBy] using hoverlapped
  have hsymm {a b : Fragment} (hab : ¬ a.Overlaps b) : ¬ b.Overlaps a := fun hba => hab hba.symm
  refine (Fragment.perm_place _ _).pairwise_iff hsymm |>.2 (List.pairwise_cons.2 ⟨?_, h hearlier⟩)
  intro other hother
  exact hsymm (hapart other hother)

/-- The walk along sorted fragments finds the datagram when they are exact and none blocks it. -/
theorem isCovered_iff_exact {sequence : FragmentSequence κ}
    (hsorted : sequence.fragments.Pairwise (fun a b => a.offset ≤ b.offset))
    (hdisjoint : sequence.Disjoint) :
    sequence.IsCovered ↔ (∃ total, sequence.Exact total) ∧
      sequence.fragments.Pairwise (fun a b => ¬ a.Blocks b) := by
  constructor
  · rintro ⟨hclear, total, htotal, htile⟩
    refine ⟨⟨total, hclear, htotal, htile.stop_le, ?_⟩, htile.pairwise_not_blocks⟩
    intro position hposition
    exact htile.exists_covering (Nat.zero_le _) hposition
  · rintro ⟨⟨total, hexact⟩, hfree⟩
    refine ⟨hexact.clear, total, hexact.told, Fragment.tile_of_covered (Nat.zero_le _)
      (Fragment.pairwise_stop_le hsorted (hdisjoint hexact.clear) hfree) ?_ ?_⟩
    · intro fragment hfragment
      exact ⟨Nat.zero_le _, hexact.inside fragment hfragment⟩
    · intro position _ hposition
      exact hexact.covered position hposition

/-- The sequence is not covered, and no byte is in two of its fragments unless it is ambiguous. -/
def IsPending (sequence : FragmentSequence κ) : Prop :=
  ¬ sequence.IsCovered ∧ sequence.Disjoint

theorem isPending_start (key : κ) (time : Timestamp) (serial : Nat) :
    (start key time serial).IsPending := by
  refine ⟨?_, fun _ => .nil⟩
  rintro ⟨_, total, htotal, _⟩
  cases htotal

end FragmentSequence

namespace Assembler

variable {κ : Type} [DecidableEq κ]

def AllPending (assembler : Assembler κ) : Prop :=
  ∀ sequence ∈ assembler.sequences, sequence.IsPending

theorem AllPending.target {assembler : Assembler κ} (h : assembler.AllPending) (key : κ)
    (time : Timestamp) : (assembler.target key time).IsPending := by
  rw [Assembler.target]
  cases hopen : (assembler.advance time).1.get? key with
  | none => exact FragmentSequence.isPending_start key time _
  | some sequence =>
    exact h sequence ((assembler.sequences_advance_sublist time).mem (get?_mem hopen).1)

theorem AllPending.insert {assembler : Assembler κ} (h : assembler.AllPending)
    (hdistinct : assembler.DistinctKeys) (key : κ) (fragment : Fragment) :
    (assembler.insert key fragment).1.AllPending := by
  intro sequence hsequence
  have htarget := h.target key fragment.timestamp
  rcases mem_sequences_insert hdistinct hsequence with
    ⟨hmem, _⟩ | ⟨_, rfl⟩ | ⟨hrepeats, rfl⟩
  · exact h sequence hmem
  · exact htarget
  · refine ⟨?_, htarget.2.extended _⟩
    intro hcovered
    have hclosed := get?_eq_none_iff.1 (get?_insert_of_covered hrepeats hcovered)
    exact hclosed _ hsequence (assembler.key_grown key fragment)

theorem AllPending.apply {assembler : Assembler κ} (h : assembler.AllPending)
    (hdistinct : assembler.DistinctKeys) (operation : AssemblyOperation κ) :
    (assembler.apply operation).1.AllPending := by
  cases operation with
  | insert key fragment => exact h.insert hdistinct key fragment
  | advance time =>
    intro sequence hsequence
    exact h sequence ((assembler.sequences_advance_sublist time).mem hsequence)
  | flush =>
    intro sequence hsequence
    cases hsequence

theorem allPending_after (config : AssemblyConfig) (operations : List (AssemblyOperation κ)) :
    ((ofConfig config).after operations).AllPending :=
  (run_induction (motive := fun current _ => current.DistinctKeys ∧ current.AllPending)
    (ofConfig config) ⟨.nil, fun _ h => nomatch h⟩
    (fun _ _ operation h => ⟨h.1.apply operation, h.2.apply h.1 operation⟩) operations).2

/-- A sequence is reported as complete by the insertion that makes it covered, and only then. -/
theorem exists_complete_iff (assembler : Assembler κ) (key : κ) (fragment : Fragment) :
    (∃ sequence, .complete sequence ∈ (assembler.insert key fragment).2) ↔
      assembler.repeats key fragment = false ∧ (assembler.grown key fragment).IsCovered := by
  constructor
  · rintro ⟨sequence, hsequence⟩
    obtain ⟨hrepeats, hcovered, _⟩ := complete_of_insert hsequence
    exact ⟨hrepeats, hcovered⟩
  · rintro ⟨hrepeats, hcovered⟩
    refine ⟨{ assembler.grown key fragment with status := .complete }, ?_⟩
    rw [events_insert, reported_of_covered hrepeats hcovered]
    exact List.mem_append_right _ (List.mem_cons_of_mem _ List.mem_cons_self)

/-- No completion is missed except where an empty fragment came behind one at its offset: a
sequence that is exact and still open holds such a fragment, and an insertion completes its
sequence exactly when it makes it exact without one. -/
theorem completes_iff_exact (config : AssemblyConfig) (operations : List (AssemblyOperation κ)) :
    let assembler := (ofConfig config).after operations
    (∀ sequence ∈ assembler.sequences, ∀ total, sequence.Exact total →
        ∃ a b, [a, b].Sublist sequence.fragments ∧ a.Blocks b) ∧
      ∀ key fragment, (∃ sequence, .complete sequence ∈ (assembler.insert key fragment).2) ↔
        assembler.repeats key fragment = false ∧
          (∃ total, (assembler.grown key fragment).Exact total) ∧
          (assembler.grown key fragment).fragments.Pairwise (fun a b => ¬ a.Blocks b) := by
  intro assembler
  have htracks : assembler.Tracks _ := tracks_after config operations
  have hpending : assembler.AllPending := allPending_after config operations
  constructor
  · intro sequence hsequence total hexact
    by_contra hnone
    have hfree : sequence.fragments.Pairwise (fun a b => ¬ a.Blocks b) := by
      rw [List.pairwise_iff_forall_sublist]
      intro a b hsublist hblocks
      exact hnone ⟨a, b, hsublist, hblocks⟩
    obtain ⟨huncovered, hdisjoint⟩ := hpending sequence hsequence
    have hsorted := (htracks sequence hsequence).sorted
    exact huncovered ((FragmentSequence.isCovered_iff_exact hsorted hdisjoint).2
      ⟨⟨total, hexact⟩, hfree⟩)
  · intro key fragment
    rw [exists_complete_iff]
    refine and_congr_right ?_
    intro hrepeats
    have hsorted := ((htracks.target key fragment).extended hrepeats).sorted
    exact FragmentSequence.isCovered_iff_exact hsorted
      ((hpending.target key fragment.timestamp).2.extended _)

section Blocked

/-- The first half of a datagram, an empty fragment at its offset, and the other half. -/
def blockedHalves : List (AssemblyOperation Nat) :=
  [.insert 7 (.ofPayload 0 [1, 2, 3, 4] true .zero), .insert 7 (.ofPayload 0 [] true .zero),
    .insert 7 (.ofPayload 4 [5, 6, 7, 8] false .zero)]

def blockedSequence : FragmentSequence Nat :=
  { key := 7
    fragments := [.ofPayload 0 [1, 2, 3, 4] true .zero, .ofPayload 0 [] true .zero,
      .ofPayload 4 [5, 6, 7, 8] false .zero]
    totalLength := some 8
    status := .collecting
    ambiguous := false
    firstFragmentAt := .zero
    lastFragmentAt := .zero
    serial := 0 }

theorem blockedSequence_exact : blockedSequence.Exact 8 where
  clear := rfl
  told := rfl
  inside := by decide
  covered := by decide

/-- The blocked datagram stays open although all of it is there. With the empty fragment in front
the same fragments complete it. -/
theorem blocked_stays_open :
    (∃ sequence ∈ ((ofConfig {}).after blockedHalves).sequences, sequence.Exact 8) ∧
      (∃ sequence, .complete sequence ∈
        (((ofConfig {}).after [.insert 7 (.ofPayload 0 [] true .zero),
          .insert 7 (.ofPayload 0 [1, 2, 3, 4] true .zero)]).insert 7
            (.ofPayload 4 [5, 6, 7, 8] false .zero)).2) := by
  refine ⟨⟨blockedSequence, by decide, blockedSequence_exact⟩,
    ⟨{ blockedSequence with
      status := .complete
      fragments := [.ofPayload 0 [] true .zero, .ofPayload 0 [1, 2, 3, 4] true .zero,
        .ofPayload 4 [5, 6, 7, 8] false .zero] }, by decide⟩⟩

theorem blocked_by_empty : ∃ a b, [a, b].Sublist blockedSequence.fragments ∧ a.Blocks b := by
  have hopen : blockedSequence ∈ ((ofConfig {}).after blockedHalves).sequences := by decide
  exact (completes_iff_exact {} blockedHalves).1 blockedSequence hopen 8 blockedSequence_exact

end Blocked

end Assembler

end Dissection
