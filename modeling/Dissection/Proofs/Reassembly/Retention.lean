import Dissection.Reassembly.Assembler
import Dissection.Proofs.Reassembly.Tiling

/-!
# What a sequence retains

`Collects` relates a sequence to all fragments that were offered to it since it was opened. Of
every range of bytes it retains the fragment that came first, in the order of the offsets, and it
knows the length of the datagram as soon as it retains a last fragment.
-/

namespace Dissection

namespace Fragment

/-- Fragments as they are made: with all of their bytes, or with none. -/
inductive Built : Fragment → Prop where
  | ofPayload (offset : Nat) (payload : Bytes) (more : Bool) (timestamp : Timestamp) :
      Built (.ofPayload offset payload more timestamp)
  | ofLength (offset length : Nat) (more : Bool) (timestamp : Timestamp) :
      Built (.ofLength offset length more timestamp)

theorem Built.hasBytes {fragment : Fragment} (h : fragment.Built)
    (hpayload : fragment.payload.isSome = true) : fragment.HasBytes := by
  cases h with
  | ofPayload offset payload more timestamp => exact ⟨payload, rfl, rfl⟩
  | ofLength offset length more timestamp => cases hpayload

theorem SameRange.refl (fragment : Fragment) : fragment.SameRange fragment := ⟨rfl, rfl⟩

theorem SameRange.symm {a b : Fragment} (h : a.SameRange b) : b.SameRange a :=
  ⟨h.1.symm, h.2.symm⟩

theorem SameRange.trans {a b c : Fragment} (hab : a.SameRange b) (hbc : b.SameRange c) :
    a.SameRange c :=
  ⟨hab.1.trans hbc.1, hab.2.trans hbc.2⟩

end Fragment

theorem AssemblyConfig.stored_sameRange (config : AssemblyConfig) (fragment : Fragment) :
    (config.stored fragment).SameRange fragment := by
  unfold stored
  split <;> exact ⟨rfl, rfl⟩

theorem AssemblyConfig.stored_of_retain {config : AssemblyConfig}
    (h : config.retainPayload = true) (fragment : Fragment) : config.stored fragment = fragment :=
  if_pos h

namespace FragmentSequence

variable {κ : Type}

/-- The sequence after a fragment whose range it did not retain. -/
def extended (sequence : FragmentSequence κ) (fragment : Fragment) : FragmentSequence κ :=
  { sequence with
    fragments := fragment.place sequence.fragments
    totalLength := sequence.totalAfter fragment
    ambiguous := sequence.ambiguous || sequence.isOverlappedBy fragment ||
      sequence.isContradictedBy fragment
    lastFragmentAt := max sequence.lastFragmentAt fragment.timestamp }

theorem retains_iff {sequence : FragmentSequence κ} {fragment : Fragment} :
    sequence.retains fragment = true ↔ ∃ other ∈ sequence.fragments, other.SameRange fragment := by
  simp [retains]

theorem place_of_retains {sequence : FragmentSequence κ} {fragment : Fragment}
    (h : sequence.retains fragment = true) : sequence.place fragment = .duplicate := by
  rw [place, if_pos h]

theorem place_of_not_retains {sequence : FragmentSequence κ} {fragment : Fragment}
    (h : sequence.retains fragment = false) :
    sequence.place fragment =
      .placed (sequence.extended fragment) (sequence.isOverlappedBy fragment) := by
  rw [place, if_neg (by simp [h])]
  rfl

theorem totalAfter_eq_some {sequence : FragmentSequence κ} {fragment : Fragment} {total : Nat}
    (h : sequence.totalAfter fragment = some total) :
    sequence.totalLength = some total ∨ fragment.more = false ∧ fragment.stop = total := by
  unfold totalAfter at h
  cases hmore : fragment.more with
  | true => exact .inl (by simpa [hmore] using h)
  | false =>
    cases hlength : sequence.totalLength with
    | none => exact .inr ⟨rfl, by simpa [hmore, hlength] using h⟩
    | some length => exact .inl (by simpa [hmore, hlength] using h)

theorem totalAfter_isSome {sequence : FragmentSequence κ} {fragment : Fragment}
    (h : fragment.more = false ∨ sequence.totalLength.isSome = true) :
    (sequence.totalAfter fragment).isSome = true := by
  unfold totalAfter
  cases hmore : fragment.more <;> cases hlength : sequence.totalLength <;> simp_all

/-- What a sequence holds when the fragments of `life` were offered to it, in this order. -/
structure Collects (config : AssemblyConfig) (life : List Fragment)
    (sequence : FragmentSequence κ) : Prop where
  sorted : sequence.fragments.Pairwise (fun a b => a.offset ≤ b.offset)
  distinct : sequence.fragments.Pairwise (fun a b => ¬ a.SameRange b)
  first_of_range : ∀ fragment ∈ sequence.fragments, ∃ first,
    life.find? (·.SameRange fragment) = some first ∧ config.stored first = fragment
  range_retained : ∀ offered ∈ life, ∃ fragment ∈ sequence.fragments, fragment.SameRange offered
  total_is_end : ∀ total, sequence.totalLength = some total →
    ∃ fragment ∈ sequence.fragments, fragment.more = false ∧ fragment.stop = total
  total_known : ∀ fragment ∈ sequence.fragments, fragment.more = false →
    sequence.totalLength.isSome = true

theorem Collects.start (config : AssemblyConfig) (key : κ) (time : Timestamp) (serial : Nat) :
    Collects config [] (.start key time serial) where
  sorted := .nil
  distinct := .nil
  first_of_range _ h := by cases h
  range_retained _ h := by cases h
  total_is_end _ h := by cases h
  total_known _ h := by cases h

variable {config : AssemblyConfig} {life : List Fragment} {sequence : FragmentSequence κ}

/-- A fragment whose range is retained leaves the sequence as it is. -/
theorem Collects.duplicate (h : sequence.Collects config life) {offered : Fragment}
    (hretains : sequence.retains (config.stored offered) = true) :
    sequence.Collects config (life ++ [offered]) where
  sorted := h.sorted
  distinct := h.distinct
  first_of_range fragment hfragment := by
    obtain ⟨first, hfirst, hstored⟩ := h.first_of_range fragment hfragment
    exact ⟨first, by rw [List.find?_append, hfirst, Option.some_or], hstored⟩
  range_retained fragment hfragment := by
    rcases List.mem_append.1 hfragment with hmem | hmem
    · exact h.range_retained fragment hmem
    · rw [List.mem_singleton] at hmem
      obtain ⟨other, hother, hrange⟩ := retains_iff.1 hretains
      exact ⟨other, hother, hmem ▸ hrange.trans (config.stored_sameRange offered)⟩
  total_is_end := h.total_is_end
  total_known := h.total_known

/-- A fragment of a new range is retained, as the first of its range. -/
theorem Collects.extended (h : sequence.Collects config life) {offered : Fragment}
    (hretains : sequence.retains (config.stored offered) = false) :
    (sequence.extended (config.stored offered)).Collects config (life ++ [offered]) := by
  have hrange := config.stored_sameRange offered
  have hnew : ∀ other ∈ sequence.fragments, ¬ other.SameRange (config.stored offered) := by
    intro other hother hsame
    have htrue := retains_iff.2 ⟨other, hother, hsame⟩
    rw [hretains] at htrue
    cases htrue
  have hfirst : life.find? (·.SameRange (config.stored offered)) = none := by
    rw [List.find?_eq_none]
    intro earlier hearlier hsame
    obtain ⟨other, hother, hother'⟩ := h.range_retained earlier hearlier
    exact hnew other hother (hother'.trans (by simpa using hsame))
  constructor
  case sorted => exact Fragment.pairwise_place h.sorted
  case distinct =>
    have hsymm {a b : Fragment} (hab : ¬ a.SameRange b) : ¬ b.SameRange a :=
      fun hba => hab hba.symm
    refine (Fragment.perm_place _ _).pairwise_iff hsymm |>.2 (List.pairwise_cons.2 ⟨?_, h.distinct⟩)
    intro other hother
    exact hsymm (hnew other hother)
  case first_of_range =>
    intro fragment hfragment
    rcases Fragment.mem_place.1 hfragment with rfl | hmem
    · refine ⟨offered, ?_, rfl⟩
      rw [List.find?_append, hfirst, Option.none_or, List.find?_singleton]
      exact if_pos (by simpa using hrange.symm)
    · obtain ⟨first, hfind, hstored⟩ := h.first_of_range fragment hmem
      exact ⟨first, by rw [List.find?_append, hfind, Option.some_or], hstored⟩
  case range_retained =>
    intro fragment hfragment
    rcases List.mem_append.1 hfragment with hmem | hmem
    · obtain ⟨other, hother, hsame⟩ := h.range_retained fragment hmem
      exact ⟨other, Fragment.mem_place.2 (.inr hother), hsame⟩
    · rw [List.mem_singleton] at hmem
      exact ⟨config.stored offered, Fragment.mem_place.2 (.inl rfl), hmem ▸ hrange⟩
  case total_is_end =>
    intro total htotal
    rcases totalAfter_eq_some htotal with hknown | ⟨hmore, hstop⟩
    · obtain ⟨fragment, hmem, hend⟩ := h.total_is_end total hknown
      exact ⟨fragment, Fragment.mem_place.2 (.inr hmem), hend⟩
    · exact ⟨config.stored offered, Fragment.mem_place.2 (.inl rfl), hmore, hstop⟩
  case total_known =>
    intro fragment hfragment hmore
    apply totalAfter_isSome
    rcases Fragment.mem_place.1 hfragment with rfl | hmem
    · exact .inl hmore
    · exact .inr (h.total_known fragment hmem hmore)

end FragmentSequence

end Dissection
