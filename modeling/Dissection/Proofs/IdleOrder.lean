import Dissection.IdleOrder
import Mathlib.Data.List.DropRight
import Mathlib.Data.List.Sort
import Mathlib.Data.List.TakeWhile

/-!
# Queues in idle order

What is idle for too long is in front of a queue in idle order, so a sweep that stops at the first
thing recent enough takes exactly that, and misses nothing. Things with serial numbers of their own
have one idle order only, which an insertion into the queue keeps.
-/

namespace Dissection

/-- What has expired does not become current by being older. -/
theorem isExpired_of_le {now early late : Timestamp} {limit : Duration} (hle : early ≤ late)
    (h : isExpired now late limit = true) : isExpired now early limit = true := by
  rw [Timestamp.le_def] at hle
  rw [isExpired_iff] at h ⊢
  exact Nat.lt_of_lt_of_le h (Nat.mul_le_mul_right _ (Nat.sub_le_sub_left hle _))

/-- What has expired does not become current by waiting. -/
theorem isExpired_of_now_le {now later last : Timestamp} {limit : Duration} (hle : now ≤ later)
    (h : isExpired now last limit = true) : isExpired later last limit = true := by
  rw [Timestamp.le_def] at hle
  rw [isExpired_iff] at h ⊢
  exact Nat.lt_of_lt_of_le h (Nat.mul_le_mul_right _ (Nat.sub_le_sub_right hle _))

/-- Nothing is as old at present as the limit allows not to be. -/
theorem isExpired_self (now : Timestamp) (limit : Duration) : isExpired now now limit = false := by
  rw [Bool.eq_false_iff, Ne, isExpired_iff, Nat.sub_self, Nat.zero_mul]
  exact Nat.not_lt_zero _

def IsLatest {α : Type} (timeOf : α → Timestamp) (things : List α) (latest : Timestamp) : Prop :=
  (∃ thing ∈ things, timeOf thing = latest) ∧ ∀ thing ∈ things, timeOf thing ≤ latest

theorem isLatest_singleton {α : Type} (timeOf : α → Timestamp) (thing : α) :
    IsLatest timeOf [thing] (timeOf thing) := by
  refine ⟨⟨thing, List.mem_singleton_self _, rfl⟩, ?_⟩
  intro other hother
  rw [List.mem_singleton.1 hother]
  exact Nat.le_refl _

/-- One more thing is the latest, or the others are as late. -/
theorem IsLatest.cons {α : Type} {timeOf : α → Timestamp} {things next : List α}
    {latest : Timestamp} (h : IsLatest timeOf things latest) {thing : α}
    (hnext : next.Perm (thing :: things)) : IsLatest timeOf next (max latest (timeOf thing)) := by
  obtain ⟨⟨last, hlast, htime⟩, hle⟩ := h
  constructor
  · rcases Timestamp.max_eq_or latest (timeOf thing) with hmax | hmax
    · exact ⟨last, hnext.mem_iff.2 (List.mem_cons_of_mem _ hlast), htime.trans hmax.symm⟩
    · exact ⟨thing, hnext.mem_iff.2 List.mem_cons_self, hmax.symm⟩
  · intro other hother
    rcases List.mem_cons.1 (hnext.mem_iff.1 hother) with rfl | hmem
    · exact Timestamp.le_max_right _ _
    · exact Nat.le_trans (hle other hmem) (Timestamp.le_max_left _ _)

theorem eq_toList_of_perm {α : Type} {things : List α} {thing : Option α}
    (h : things.Perm thing.toList) : things = thing.toList := by
  cases thing with
  | none => exact h.eq_nil
  | some thing => exact List.perm_singleton.1 h

theorem filter_eq_singleton {α β : Type} [DecidableEq β] {f : α → β} {things : List α}
    (hdistinct : things.Pairwise (fun a b => f a ≠ f b)) {thing : α} (h : thing ∈ things) :
    things.filter (fun other => decide (f other = f thing)) = [thing] := by
  induction things with
  | nil => cases h
  | cons first rest ih =>
    obtain ⟨hfirst, hrest⟩ := List.pairwise_cons.1 hdistinct
    rcases List.mem_cons.1 h with rfl | hmem
    · rw [List.filter_cons_of_pos (by simp), List.filter_eq_nil_iff.2]
      intro other hother
      simpa using (hfirst other hother).symm
    · rw [List.filter_cons_of_neg (by simpa using hfirst thing hmem)]
      exact ih hrest hmem

section Front

variable {α : Type} {p : α → Bool} {things : List α}

/-- When all that satisfies a condition is in front, the front is all that satisfies it. -/
theorem takeWhile_eq_filter (h : things.Pairwise (fun a b => p b = true → p a = true)) :
    things.takeWhile p = things.filter p := by
  induction things with
  | nil => rfl
  | cons first rest ih =>
    obtain ⟨hfirst, hrest⟩ := List.pairwise_cons.1 h
    by_cases hp : p first = true
    · rw [List.takeWhile_cons_of_pos hp, List.filter_cons_of_pos hp, ih hrest]
    · have hnone : rest.filter p = [] := by
        rw [List.filter_eq_nil_iff]
        exact fun other hother hlater => hp (hfirst other hother hlater)
      rw [List.takeWhile_cons_of_neg hp, List.filter_cons_of_neg hp, hnone]

theorem dropWhile_eq_filter (h : things.Pairwise (fun a b => p b = true → p a = true)) :
    things.dropWhile p = things.filter (!p ·) := by
  induction things with
  | nil => rfl
  | cons first rest ih =>
    obtain ⟨hfirst, hrest⟩ := List.pairwise_cons.1 h
    by_cases hp : p first = true
    · rw [List.dropWhile_cons_of_pos hp, List.filter_cons_of_neg (by simpa using hp), ih hrest]
    · have hall : rest.filter (!p ·) = rest := by
        rw [List.filter_eq_self]
        intro other hother
        simpa using fun hlater => hp (hfirst other hother hlater)
      rw [List.dropWhile_cons_of_neg hp, List.filter_cons_of_pos (by simpa using hp), hall]

end Front

namespace Idle

variable {α : Type} [Idle α]

theorem perm_place (thing : α) (queue : List α) : (place thing queue).Perm (thing :: queue) := by
  induction queue with
  | nil => exact .refl _
  | cons other rest ih =>
    by_cases h : Before thing other
    · rw [place, if_pos h]
    · rw [place, if_neg h]
      exact (ih.cons other).trans (.swap thing other rest)

/-- A thing put into the queue does not show where it is not looked for. -/
theorem filter_place {thing : α} {p : α → Bool} (h : p thing = false) (queue : List α) :
    (place thing queue).filter p = queue.filter p := by
  induction queue with
  | nil => simp [place, h]
  | cons other rest ih =>
    by_cases hbefore : Before thing other
    · rw [place, if_pos hbefore, List.filter_cons_of_neg (by simp [h])]
    · simp [place, hbefore, List.filter_cons, ih]

/-- The queue is in the order of the times at which its things were last active. -/
def Sorted (queue : List α) : Prop :=
  queue.Pairwise (fun a b => lastActive a ≤ lastActive b)

theorem Sorted.place {thing : α} {queue : List α} (h : Sorted queue) :
    Sorted (place thing queue) := by
  induction queue with
  | nil => exact List.pairwise_singleton _ _
  | cons other rest ih =>
    obtain ⟨hother, hrest⟩ := List.pairwise_cons.1 h
    unfold Idle.place
    split
    · next hbefore =>
      have hle : lastActive thing ≤ lastActive other := by
        simp only [Before, Timestamp.lt_def] at hbefore
        rw [Timestamp.le_def]
        rcases hbefore with hlt | ⟨heq, _⟩
        · exact Nat.le_of_lt hlt
        · exact Nat.le_of_eq (congrArg Timestamp.micros heq)
      refine List.pairwise_cons.2 ⟨?_, h⟩
      intro later hlater
      rcases List.mem_cons.1 hlater with rfl | hmem
      · exact hle
      · exact Nat.le_trans hle (hother later hmem)
    · next hbefore =>
      refine List.pairwise_cons.2 ⟨?_, ih hrest⟩
      intro later hlater
      rcases mem_place.1 hlater with rfl | hmem
      · exact Nat.le_of_not_lt (fun hlt => hbefore (.inl hlt))
      · exact hother later hmem

section Sweep

variable {queue : List α} (h : Sorted queue) (now : Timestamp) (limit : Duration)

include h

theorem Sorted.overdue_first :
    queue.Pairwise (fun a b => isOverdue now limit b = true → isOverdue now limit a = true) :=
  h.imp (fun hle => isExpired_of_le hle)

theorem Sorted.overdue_eq_filter : overdue now limit queue = queue.filter (isOverdue now limit) :=
  takeWhile_eq_filter (h.overdue_first now limit)

theorem Sorted.current_eq_filter :
    current now limit queue = queue.filter (!isOverdue now limit ·) :=
  dropWhile_eq_filter (h.overdue_first now limit)

end Sweep

theorem overdue_current (now : Timestamp) (limit : Duration) (queue : List α) :
    overdue now limit (current now limit queue) = [] := by
  have hsplit := overdue_append_current now limit (current now limit queue)
  have hcurrent : current now limit (current now limit queue) = current now limit queue :=
    List.dropWhile_idempotent _ _
  rw [hcurrent] at hsplit
  exact List.append_left_eq_self.1 hsplit

theorem Before.trans {a b c : α} (hab : Before a b) (hbc : Before b c) : Before a c := by
  simp only [Before, Timestamp.lt_def] at hab hbc ⊢
  rcases hab with hab | ⟨hab, hserial⟩
  · rcases hbc with hbc | ⟨hbc, _⟩
    · exact .inl (Nat.lt_trans hab hbc)
    · exact .inl (hbc ▸ hab)
  · rcases hbc with hbc | ⟨hbc, hserial'⟩
    · exact .inl (hab ▸ hbc)
    · exact .inr ⟨hab.trans hbc, Nat.lt_trans hserial hserial'⟩

theorem Before.asymm {a b : α} (hab : Before a b) : ¬ Before b a := by
  intro hba
  rcases hab.trans hba with h | ⟨_, h⟩
  · exact Nat.lt_irrefl _ h
  · exact Nat.lt_irrefl _ h

theorem Before.le {a b : α} (h : Before a b) : lastActive a ≤ lastActive b := by
  rcases h with h | ⟨h, _⟩
  · exact Nat.le_of_lt h
  · exact Nat.le_of_eq (congrArg Timestamp.micros h)

/-- Of two things with different serial numbers one comes first. -/
theorem before_of_not_before {a b : α} (hserial : serial a ≠ serial b) (h : ¬ Before a b) :
    Before b a := by
  simp only [Before, Timestamp.lt_def, not_or, not_and, Nat.not_lt] at h ⊢
  rcases Nat.lt_or_eq_of_le h.1 with hlt | heq
  · exact .inl hlt
  · have hsame := Timestamp.ext heq
    exact .inr ⟨hsame, Nat.lt_of_le_of_ne (h.2 hsame.symm) hserial.symm⟩

theorem sorted_of_before {queue : List α} (h : queue.Pairwise Before) : Sorted queue :=
  h.imp Before.le

theorem pairwise_place {thing : α} {queue : List α} (h : queue.Pairwise Before)
    (hnew : ∀ other ∈ queue, serial other ≠ serial thing) :
    (place thing queue).Pairwise Before := by
  induction queue with
  | nil => exact List.pairwise_singleton _ _
  | cons other rest ih =>
    obtain ⟨hother, hrest⟩ := List.pairwise_cons.1 h
    obtain ⟨hfirst, hlater⟩ := List.forall_mem_cons.1 hnew
    by_cases hbefore : Before thing other
    · rw [place, if_pos hbefore]
      refine List.pairwise_cons.2 ⟨?_, h⟩
      exact List.forall_mem_cons.2 ⟨hbefore, fun later hmem => hbefore.trans (hother later hmem)⟩
    · rw [place, if_neg hbefore]
      refine List.pairwise_cons.2 ⟨?_, ih hrest hlater⟩
      intro later hmem
      rcases mem_place.1 hmem with rfl | hmem
      · exact before_of_not_before hfirst.symm hbefore
      · exact hother later hmem

theorem eq_of_perm {queue other : List α} (hqueue : queue.Pairwise Before)
    (hother : other.Pairwise Before) (h : queue.Perm other) : queue = other :=
  h.eq_of_pairwise (fun _ _ _ _ hab hba => absurd hba hab.asymm) hqueue hother

/-- The things in the order of the times at which they were last active; those with the same time
stay in their order. -/
def arranged (things : List α) : List α :=
  things.insertionSort (fun a b => lastActive a ≤ lastActive b)

theorem perm_arranged (things : List α) : (arranged things).Perm things :=
  List.perm_insertionSort _ _

theorem pairwise_orderedInsert {thing : α} {queue : List α} (h : queue.Pairwise Before)
    (hfirst : ∀ other ∈ queue, serial thing < serial other) :
    (queue.orderedInsert (fun a b => lastActive a ≤ lastActive b) thing).Pairwise Before := by
  induction queue with
  | nil => exact List.pairwise_singleton _ _
  | cons other rest ih =>
    obtain ⟨hother, hrest⟩ := List.pairwise_cons.1 h
    obtain ⟨hserial, hlater⟩ := List.forall_mem_cons.1 hfirst
    by_cases hle : lastActive thing ≤ lastActive other
    · have hbefore : Before thing other := by
        rcases Nat.lt_or_eq_of_le hle with hlt | heq
        · exact .inl hlt
        · exact .inr ⟨Timestamp.ext heq, hserial⟩
      rw [List.orderedInsert_cons, if_pos hle]
      refine List.pairwise_cons.2 ⟨?_, h⟩
      exact List.forall_mem_cons.2 ⟨hbefore, fun later hmem => hbefore.trans (hother later hmem)⟩
    · rw [List.orderedInsert_cons, if_neg hle]
      refine List.pairwise_cons.2 ⟨?_, ih hrest hlater⟩
      intro later hmem
      rcases (List.mem_orderedInsert _).1 hmem with rfl | hmem
      · exact .inl (Nat.lt_of_not_le hle)
      · exact hother later hmem

/-- Things in the order of their serial numbers come into idle order. -/
theorem pairwise_arranged {things : List α} (h : things.Pairwise (fun a b => serial a < serial b)) :
    (arranged things).Pairwise Before := by
  induction things with
  | nil => exact .nil
  | cons first rest ih =>
    obtain ⟨hfirst, hrest⟩ := List.pairwise_cons.1 h
    refine pairwise_orderedInsert (ih hrest) ?_
    intro other hother
    exact hfirst other ((perm_arranged rest).subset hother)

end Idle

end Dissection
