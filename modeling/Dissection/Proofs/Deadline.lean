import Dissection.Proofs.IdleOrder
import Dissection.Reassembly.Sequence

/-!
# Deadlines

Whether something has been idle for too long can be told from the time that has passed, which is
counted in nanoseconds and starts at zero, or from its deadline, which is a whole number of
microseconds and stops at the largest timestamp. Both compare the same counts of microseconds, and
neither rounding nor a limit makes a difference. A sweep through a queue in idle order therefore
takes what is past its deadline, and nothing else.
-/

namespace Dissection

section Expiry

variable {now last : Timestamp} {limit : Duration}

/-- The time that has passed has no part of a microsecond, so one in the limit does not count. -/
theorem isExpired_iff_micros_lt :
    isExpired now last limit = true ↔ last.micros + limit.micros < now.micros := by
  rw [isExpired_iff, Duration.micros]
  omega

/-- No clock is past the largest timestamp, where a deadline that is out of range stops. -/
theorem Timestamp.after_lt_iff :
    last.after limit < now ↔ last.micros + limit.micros < now.micros := by
  have hnow := now.micros_lt
  rw [lt_def, micros_after]
  omega

theorem isExpired_iff_after_lt : isExpired now last limit = true ↔ last.after limit < now :=
  isExpired_iff_micros_lt.trans Timestamp.after_lt_iff.symm

/-- What has expired does not become current by a shorter limit. -/
theorem isExpired_of_limit_le {shorter : Duration} (hle : shorter.nanos ≤ limit.nanos)
    (h : isExpired now last limit = true) : isExpired now last shorter = true := by
  rw [isExpired_iff] at h ⊢
  exact Nat.lt_of_le_of_lt hle h

end Expiry

/-- A sweep that stops at the first sequence recent enough takes those past their deadline. -/
theorem Idle.Sorted.overdue_eq_past_deadline {κ : Type} {queue : List (FragmentSequence κ)}
    (h : Idle.Sorted queue) (now : Timestamp) (window : Duration) :
    Idle.overdue now window queue =
      queue.filter (fun sequence => decide (sequence.deadline window < now)) := by
  rw [h.overdue_eq_filter]
  refine List.filter_congr fun sequence _ => ?_
  rw [Bool.eq_iff_iff, decide_eq_true_iff]
  exact isExpired_iff_after_lt

/-- Something expires when the clock is past its deadline, be the deadline that of a time and a
limit or that of a fragment sequence. It stays expired when the clock goes on, when it was active
even earlier, and when the limit is shorter. -/
theorem expired_past_deadline (now last : Timestamp) (limit : Duration) :
    (isExpired now last limit = true ↔ last.after limit < now) ∧
      (∀ (κ : Type) (sequence : FragmentSequence κ),
        isExpired now sequence.lastFragmentAt limit = true ↔ sequence.deadline limit < now) ∧
      ∀ (later earlier : Timestamp) (shorter : Duration), now ≤ later → earlier ≤ last →
        shorter.nanos ≤ limit.nanos → isExpired now last limit = true →
        isExpired later earlier shorter = true := by
  refine ⟨isExpired_iff_after_lt, fun _ _ => isExpired_iff_after_lt, ?_⟩
  intro later earlier shorter hlater hearlier hshorter hexpired
  have hwaited : isExpired later last limit = true := isExpired_of_now_le hlater hexpired
  have holder : isExpired later earlier limit = true := isExpired_of_le hearlier hwaited
  exact isExpired_of_limit_le hshorter holder

/-- A limit a nanosecond short of the time between two timestamps near the ends of their range. -/
theorem expired_by_a_nanosecond :
    let now : Timestamp := .saturating 18446744073709551614
    let last : Timestamp := .saturating 7
    let limit : Duration := .ofParts 18446744073709 551606999
    let later : Timestamp := .saturating 18446744073709551615
    let earlier : Timestamp := .saturating 5
    let shorter : Duration := .ofParts 0 999
    (now ≤ later ∧ earlier ≤ last ∧ shorter.nanos ≤ limit.nanos ∧
        isExpired now last limit = true) ∧
      last.after limit < now ∧ isExpired later earlier shorter = true := by
  intro now last limit later earlier shorter
  have hlater : now ≤ later := by decide
  have hearlier : earlier ≤ last := by decide
  have hshorter : shorter.nanos ≤ limit.nanos := by decide
  have hexpired : isExpired now last limit = true := by decide
  obtain ⟨hdeadline, _, hmonotone⟩ := expired_past_deadline now last limit
  exact ⟨⟨hlater, hearlier, hshorter, hexpired⟩, hdeadline.1 hexpired,
    hmonotone later earlier shorter hlater hearlier hshorter hexpired⟩

end Dissection
