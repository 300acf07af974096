import Dissection.Proofs.Reassembly.Sources

/-!
# Ambiguous sequences

A sequence is ambiguous when a fragment clashed with one that had arrived before it: the two
overlap, both are last ones and end apart, or the earlier one is a last one and the later one ends
behind it. A fragment that lies behind the end of the datagram is not noticed when it arrives before
the first last one.
-/

namespace Dissection

namespace Fragment

/-- What the later of two fragments must not be when the earlier one has arrived. -/
def Clashes (earlier later : Fragment) : Prop :=
  earlier.Overlaps later ∨
    earlier.more = false ∧ later.more = false ∧ earlier.stop ≠ later.stop ∨
    earlier.more = false ∧ earlier.stop < later.stop

instance (earlier later : Fragment) : Decidable (earlier.Clashes later) :=
  inferInstanceAs (Decidable (_ ∨ _))

/-- The fragments without those of a range that has come before. -/
def firsts (fragments : List Fragment) : List Fragment :=
  fragments.foldl (fun kept fragment =>
    if kept.any (fun other => other.SameRange fragment) then kept else kept ++ [fragment]) []

theorem firsts_concat (fragments : List Fragment) (fragment : Fragment) :
    firsts (fragments ++ [fragment]) =
      if (firsts fragments).any (fun other => other.SameRange fragment) then firsts fragments
      else firsts fragments ++ [fragment] := by
  simp [firsts]

end Fragment

/-- Of two things in a list one comes before the other. -/
theorem pair_sublist_or {α : Type} {a b : α} {things : List α} (ha : a ∈ things) (hb : b ∈ things)
    (hne : a ≠ b) : [a, b].Sublist things ∨ [b, a].Sublist things := by
  induction things with
  | nil => cases ha
  | cons first rest ih =>
    rcases List.mem_cons.1 ha with rfl | ha'
    · have hb' := (List.mem_cons.1 hb).resolve_left hne.symm
      exact .inl (.cons_cons _ (List.singleton_sublist.2 hb'))
    · rcases List.mem_cons.1 hb with rfl | hb'
      · exact .inr (.cons_cons _ (List.singleton_sublist.2 ha'))
      · exact (ih ha' hb').imp (.cons _) (.cons _)

variable {κ : Type}

namespace FragmentSequence

/-- Two fragments overlap, or some disagree about the length of the datagram. -/
def Conflicting (sequence : FragmentSequence κ) : Prop :=
  (∃ a ∈ sequence.fragments, ∃ b ∈ sequence.fragments, a ≠ b ∧ a.Overlaps b) ∨
    (∃ a ∈ sequence.fragments, ∃ b ∈ sequence.fragments,
      a.more = false ∧ b.more = false ∧ a.stop ≠ b.stop) ∨
    ∃ final ∈ sequence.fragments, ∃ fragment ∈ sequence.fragments,
      final.more = false ∧ final.stop < fragment.stop

instance (sequence : FragmentSequence κ) : Decidable sequence.Conflicting :=
  inferInstanceAs (Decidable (_ ∨ _))

/-- What a sequence has made of the fragments of `life`, in the order in which they arrived. -/
structure Judges (config : AssemblyConfig) (life : List Fragment) (sequence : FragmentSequence κ) :
    Prop extends Collects config life sequence where
  agrees : sequence.Agrees
  perm : sequence.fragments.Perm (Fragment.firsts (life.map config.stored))
  clear_iff : sequence.ambiguous = false ↔
    (Fragment.firsts (life.map config.stored)).Pairwise (fun a b => ¬ a.Clashes b)

theorem Judges.start (config : AssemblyConfig) (key : κ) (time : Timestamp) (serial : Nat) :
    Judges config [] (.start key time serial) where
  toCollects := .start config key time serial
  agrees := agrees_start key time serial
  perm := .nil
  clear_iff := iff_of_true rfl .nil

variable {config : AssemblyConfig} {life : List Fragment} {sequence : FragmentSequence κ}
  (h : sequence.Judges config life)

include h

theorem Judges.retains_eq (fragment : Fragment) :
    (Fragment.firsts (life.map config.stored)).any (fun other => other.SameRange fragment) =
      sequence.retains fragment := (h.perm.any_eq).symm

/-- A fragment whose range is retained does not count as one that arrived. -/
theorem Judges.firsts_duplicate {fragment : Fragment}
    (hretains : sequence.retains (config.stored fragment) = true) :
    Fragment.firsts ((life ++ [fragment]).map config.stored) =
      Fragment.firsts (life.map config.stored) := by
  rw [List.map_append, List.map_singleton, Fragment.firsts_concat, h.retains_eq, if_pos hretains]

/-- A fragment of a new range is the last one that arrived. -/
theorem Judges.firsts_extended {fragment : Fragment}
    (hretains : sequence.retains (config.stored fragment) = false) :
    Fragment.firsts ((life ++ [fragment]).map config.stored) =
      Fragment.firsts (life.map config.stored) ++ [config.stored fragment] := by
  rw [List.map_append, List.map_singleton, Fragment.firsts_concat, h.retains_eq, hretains]
  rfl

theorem Judges.duplicate {fragment : Fragment}
    (hretains : sequence.retains (config.stored fragment) = true) :
    sequence.Judges config (life ++ [fragment]) := by
  have hfirsts := h.firsts_duplicate hretains
  exact ⟨h.toCollects.duplicate hretains, h.agrees, hfirsts ▸ h.perm, hfirsts ▸ h.clear_iff⟩

/-- Unless the sequence is ambiguous, a fragment contradicts the length of the datagram when it
contradicts a last fragment. -/
theorem Judges.isContradictedBy_iff (hclear : sequence.ambiguous = false) (fragment : Fragment) :
    sequence.isContradictedBy fragment = true ↔
      ∃ final ∈ sequence.fragments, final.more = false ∧
        (fragment.more = false ∧ final.stop ≠ fragment.stop ∨ final.stop < fragment.stop) := by
  cases htotal : sequence.totalLength with
  | none =>
    refine iff_of_false ?_ ?_
    · cases hmore : fragment.more <;> simp [isContradictedBy, totalAfter, htotal, hmore]
    · rintro ⟨final, hfinal, hlast, _⟩
      have hknown := h.total_known final hfinal hlast
      rw [htotal] at hknown
      cases hknown
  | some total =>
    obtain ⟨final, hfinal, hlast, rfl⟩ := h.total_is_end total htotal
    have hall : ∀ other ∈ sequence.fragments, other.more = false → other.stop = final.stop := by
      intro other hother hmore
      have hsame := h.agrees hclear other hother hmore
      rw [htotal] at hsame
      exact (Option.some.inj hsame).symm
    have hcode : sequence.isContradictedBy fragment = true ↔
        fragment.more = false ∧ final.stop ≠ fragment.stop ∨ final.stop < fragment.stop := by
      cases hmore : fragment.more <;> simp [isContradictedBy, totalAfter, htotal, hmore]
    rw [hcode]
    constructor
    · exact fun hcontradicts => ⟨final, hfinal, hlast, hcontradicts⟩
    · rintro ⟨other, hother, hmore, hcontradicts⟩
      rwa [hall other hother hmore] at hcontradicts

/-- Unless the sequence is ambiguous, the fragment that makes it so clashes with an earlier one. -/
theorem Judges.clashes_iff (hclear : sequence.ambiguous = false) (fragment : Fragment) :
    (sequence.isOverlappedBy fragment || sequence.isContradictedBy fragment) = true ↔
      ∃ earlier ∈ sequence.fragments, earlier.Clashes fragment := by
  rw [Bool.or_eq_true, h.isContradictedBy_iff hclear, isOverlappedBy, List.any_eq_true]
  simp only [decide_eq_true_eq, Fragment.Clashes, ← and_or_left, ← exists_or]

theorem Judges.extended {fragment : Fragment}
    (hretains : sequence.retains (config.stored fragment) = false) :
    (sequence.extended (config.stored fragment)).Judges config (life ++ [fragment]) := by
  have hfirsts := h.firsts_extended hretains
  refine ⟨h.toCollects.extended hretains, h.agrees.extended _, ?_, ?_⟩
  · rw [hfirsts]
    exact (Fragment.perm_place _ _).trans
      ((h.perm.cons _).trans (List.perm_append_singleton _ _).symm)
  · rw [hfirsts, List.pairwise_append]
    change (sequence.ambiguous || sequence.isOverlappedBy (config.stored fragment) ||
      sequence.isContradictedBy (config.stored fragment)) = false ↔ _
    cases hclear : sequence.ambiguous with
    | true =>
      refine iff_of_false (by simp) (fun hclashless => ?_)
      rw [h.clear_iff.2 hclashless.1] at hclear
      cases hclear
    | false =>
      have hearlier := h.clear_iff.1 hclear
      have hclashes := h.clashes_iff hclear (config.stored fragment)
      simp only [h.perm.mem_iff] at hclashes
      rw [Bool.false_or, Bool.eq_false_iff, Ne, hclashes]
      simp [hearlier]

theorem Judges.ambiguous_iff : sequence.ambiguous = true ↔
    ∃ earlier later, [earlier, later].Sublist (Fragment.firsts (life.map config.stored)) ∧
      earlier.Clashes later := by
  rw [← Bool.not_eq_false, h.clear_iff, List.pairwise_iff_forall_sublist]
  simp

theorem Judges.ne_of_sublist {a b : Fragment}
    (hpair : [a, b].Sublist (Fragment.firsts (life.map config.stored))) : a ≠ b := by
  have hdistinct :
      (Fragment.firsts (life.map config.stored)).Pairwise (fun a b => ¬ a.SameRange b) :=
    h.perm.pairwise_iff (fun hne hsame => hne hsame.symm) |>.1 h.distinct
  rintro rfl
  exact List.pairwise_iff_forall_sublist.1 hdistinct hpair (.refl a)

/-- A conflict is either noticed, or it is between a fragment and a last one that arrived later. -/
theorem Judges.conflicting_iff : sequence.Conflicting ↔
    sequence.ambiguous = true ∨
      ∃ fragment final, [fragment, final].Sublist (Fragment.firsts (life.map config.stored)) ∧
        final.more = false ∧ final.stop < fragment.stop := by
  rw [h.ambiguous_iff]
  have hpair {a b : Fragment} (ha : a ∈ sequence.fragments) (hb : b ∈ sequence.fragments)
      (hne : a ≠ b) := pair_sublist_or (h.perm.mem_iff.1 ha) (h.perm.mem_iff.1 hb) hne
  have hmem {a b : Fragment}
      (hsub : [a, b].Sublist (Fragment.firsts (life.map config.stored))) :
      a ∈ sequence.fragments ∧ b ∈ sequence.fragments :=
    ⟨h.perm.mem_iff.2 (hsub.mem (by simp)), h.perm.mem_iff.2 (hsub.mem (by simp))⟩
  constructor
  · rintro (⟨a, ha, b, hb, hne, hoverlaps⟩ | ⟨a, ha, b, hb, hlast, hlast', hstop⟩ |
      ⟨final, hfinal, fragment, hfragment, hlast, hstop⟩)
    · rcases hpair ha hb hne with hsub | hsub
      · exact .inl ⟨a, b, hsub, .inl hoverlaps⟩
      · exact .inl ⟨b, a, hsub, .inl hoverlaps.symm⟩
    · have hne : a ≠ b := fun heq => hstop (congrArg Fragment.stop heq)
      rcases hpair ha hb hne with hsub | hsub
      · exact .inl ⟨a, b, hsub, .inr (.inl ⟨hlast, hlast', hstop⟩)⟩
      · exact .inl ⟨b, a, hsub, .inr (.inl ⟨hlast', hlast, hstop.symm⟩)⟩
    · have hne : final ≠ fragment := fun heq =>
        Nat.ne_of_lt hstop (congrArg Fragment.stop heq)
      rcases hpair hfinal hfragment hne with hsub | hsub
      · exact .inl ⟨final, fragment, hsub, .inr (.inr ⟨hlast, hstop⟩)⟩
      · exact .inr ⟨fragment, final, hsub, hlast, hstop⟩
  · rintro (⟨earlier, later, hsub, hclash⟩ | ⟨fragment, final, hsub, hlast, hstop⟩)
    · obtain ⟨hearlier, hlater⟩ := hmem hsub
      rcases hclash with hoverlaps | ⟨hlast, hlast', hstop⟩ | ⟨hlast, hstop⟩
      · exact .inl ⟨earlier, hearlier, later, hlater, h.ne_of_sublist hsub, hoverlaps⟩
      · exact .inr (.inl ⟨earlier, hearlier, later, hlater, hlast, hlast', hstop⟩)
      · exact .inr (.inr ⟨earlier, hearlier, later, hlater, hlast, hstop⟩)
    · obtain ⟨hfragment, hfinal⟩ := hmem hsub
      exact .inr (.inr ⟨final, hfinal, fragment, hfragment, hlast, hstop⟩)

end FragmentSequence

namespace Assembler

variable [DecidableEq κ]

theorem judges_after (config : AssemblyConfig) (operations : List (AssemblyOperation κ)) :
    ((ofConfig config).after operations).Follows (FragmentSequence.Judges config)
      ((ofConfig config).calls operations) :=
  follows_after (FragmentSequence.Judges.start config) (fun _ _ _ h => h.duplicate)
    (fun _ _ _ h => h.extended) operations

/-- An open sequence is ambiguous exactly when one of its fragments clashes with one that arrived
before it. That is every conflict but one: a fragment that ends behind a last one is not noticed
when it arrived first. -/
theorem ambiguous_iff_clash (config : AssemblyConfig) (operations : List (AssemblyOperation κ))
    {key : κ} {sequence : FragmentSequence κ}
    (hopen : ((ofConfig config).after operations).get? key = some sequence) :
    let arrived := Fragment.firsts
      ((AssemblyCall.lifetime key ((ofConfig config).calls operations)).map config.stored)
    sequence.fragments.Perm arrived ∧
      (sequence.ambiguous = true ↔
        ∃ earlier later, [earlier, later].Sublist arrived ∧ earlier.Clashes later) ∧
      (sequence.Conflicting ↔ sequence.ambiguous = true ∨
        ∃ fragment final, [fragment, final].Sublist arrived ∧
          final.more = false ∧ final.stop < fragment.stop) := by
  obtain ⟨hmem, rfl⟩ := get?_mem hopen
  have hjudges := judges_after config operations sequence hmem
  exact ⟨hjudges.perm, hjudges.ambiguous_iff, hjudges.conflicting_iff⟩

section BehindEnd

/-- Eight bytes behind the end of the datagram, and then its only last fragment. -/
def behindEnd : List (AssemblyOperation Nat) :=
  [.insert 7 (.ofPayload 16 [1, 2, 3, 4, 5, 6, 7, 8] true .zero),
    .insert 7 (.ofPayload 8 [9, 10] false .zero)]

def behindEndSequence : FragmentSequence Nat :=
  { key := 7
    fragments := [.ofPayload 8 [9, 10] false .zero,
      .ofPayload 16 [1, 2, 3, 4, 5, 6, 7, 8] true .zero]
    totalLength := some 10
    status := .collecting
    ambiguous := false
    firstFragmentAt := .zero
    lastFragmentAt := .zero
    serial := 0 }

/-- The conflict goes unnoticed. The other way round it does not. -/
theorem behindEnd_unnoticed :
    ((ofConfig {}).after behindEnd).get? 7 = some behindEndSequence ∧
      behindEndSequence.Conflicting ∧ behindEndSequence.ambiguous = false ∧
      ((ofConfig {}).after behindEnd.reverse).get? 7 =
        some { behindEndSequence with ambiguous := true } := by decide

theorem behindEnd_clashless :
    ¬ ∃ earlier later,
      [earlier, later].Sublist (Fragment.firsts
        ((AssemblyCall.lifetime 7 ((ofConfig {}).calls behindEnd)).map
          (AssemblyConfig.stored {}))) ∧ earlier.Clashes later := by
  have hopen : ((ofConfig {}).after behindEnd).get? 7 = some behindEndSequence := by decide
  have hambiguous := (ambiguous_iff_clash {} behindEnd hopen).2.1
  exact fun hclash => Bool.false_ne_true (hambiguous.2 hclash)

end BehindEnd

end Assembler

end Dissection
