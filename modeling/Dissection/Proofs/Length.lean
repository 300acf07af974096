import Dissection.Length
import Dissection.Proofs.Wire.Bits

/-!
# Lengths in exact arithmetic

A length rule computes in 64 bits, where a product or a sum that is too great stops at the largest
number. No buffer comes near that number, so a length that has stopped there is as much too long as
the exact one, and what a rule gives can be told in arithmetic without limits. Here are also the two
reasons for which a rule asks for more bytes: they are missing, or it reads a field that no bytes
answer.
-/

namespace Dissection

namespace LengthRule

variable {protocol : ProtocolId} {offset available minimum length : Nat}

/-- A function of the rule that asks for more bytes asks for more than it was given. -/
def Honest (rule : LengthRule) : Prop :=
  ∀ measure, rule = .measured measure →
    ∀ tail shortfall, measure tail = .error shortfall → tail.length < shortfall.needed

/-- The rule reads a field that no bytes answer, and finds all bytes that it asks for. -/
def Unanswered (rule : LengthRule) (available : Nat) : Prop :=
  ∃ source scale bias minimum, rule = .fromField source scale bias minimum ∧ ¬ source.Readable ∧
    minimum ≤ available ∧ source.endBit ≤ 8 * available

/-- A rule asks for bytes that are there only when they do not help. -/
theorem needed_le_iff {rule : LengthRule} {tail : Bytes} {shortfall : Shortfall}
    (hhonest : rule.Honest) (h : rule.propose tail = .error shortfall) :
    shortfall.needed ≤ tail.length ↔ rule.Unanswered tail.length := by
  cases rule with
  | fixed length =>
    rw [propose] at h
    split at h
    · next hmissing =>
      cases h
      exact iff_of_false (Nat.not_le.2 hmissing) (by simp [Unanswered])
    · cases h
  | fromField source scale bias minimum =>
    rw [propose] at h
    split at h
    · next hmissing =>
      cases h
      refine iff_of_false (Nat.not_le.2 hmissing) ?_
      rintro ⟨_, _, _, _, ⟨⟩, -, hpresent, -⟩
      exact Nat.not_le.2 hmissing hpresent
    · next hpresent =>
      split at h
      · next error hread =>
        cases h
        have hunread : ¬ ∃ number, source.read tail = .ok number := by simp [hread]
        rw [BitField.exists_read_iff] at hunread
        constructor
        · intro hheld
          have hinside := BitField.endByte_le_iff.1 hheld
          exact ⟨source, scale, bias, minimum, rfl, fun hreadable => hunread ⟨hreadable, hinside⟩,
            Nat.le_of_not_lt hpresent, hinside⟩
        · rintro ⟨_, _, _, _, ⟨⟩, -, -, hinside⟩
          exact BitField.endByte_le_iff.2 hinside
      · cases h
  | remaining => cases h
  | measured measure =>
    rw [propose] at h
    split at h
    · next found hmeasure =>
      cases h
      exact iff_of_false (Nat.not_le.2 (hhonest measure rfl tail shortfall hmeasure))
        (by simp [Unanswered])
    · cases h

/-- A header is truncated when its rule asks for bytes. The report counts those that are there. -/
theorem resolve_eq_truncated_iff {rule : LengthRule} {protocol reported : ProtocolId}
    {data : Bytes} {offset place needed available : Nat} :
    rule.resolve protocol data offset = .error (.truncated reported place needed available) ↔
      rule.propose (data.drop offset) = .error ⟨needed⟩ ∧ reported = protocol ∧ place = offset ∧
        available = data.length - offset := by
  rw [resolve]
  cases rule.propose (data.drop offset) with
  | error shortfall =>
    obtain ⟨needed'⟩ := shortfall
    simp only [List.length_drop, Except.error.injEq, LengthError.truncated.injEq,
      Shortfall.mk.injEq]
    grind
  | ok proposal =>
    obtain ⟨length, minimum⟩ := proposal
    refine iff_of_false ?_ (by simp)
    by_cases hshort : length < minimum
    · simp [hshort]
    · by_cases hlong : (data.drop offset).length < length
      · simp only [if_neg hshort, if_pos hlong]
        simp
      · simp only [if_neg hshort, if_neg hlong]
        simp

end LengthRule

end Dissection
