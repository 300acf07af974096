import Dissection.Header

/-!
# Header lengths

A length rule tells how long a header is from the bytes that follow its start. A length that a
rule yields is never zero and never runs past the buffer; everything else is an error that says
what was missing or wrong.
-/

namespace Dissection

/-- How many bytes a measuring function needs before it can answer. -/
structure Shortfall where
  needed : Nat
  deriving DecidableEq

inductive LengthError where
  | truncated (protocol : ProtocolId) (offset needed available : Nat)
  | overrun (protocol : ProtocolId) (offset length available : Nat)
  | malformed (protocol : ProtocolId) (offset length minimum : Nat)
  | unregistered (protocol : ProtocolId) (offset : Nat)
  deriving DecidableEq

namespace LengthError

def protocol : LengthError → ProtocolId
  | .truncated protocol .. => protocol
  | .overrun protocol .. => protocol
  | .malformed protocol .. => protocol
  | .unregistered protocol _ => protocol

def isTruncated : LengthError → Bool
  | .truncated .. => true
  | _ => false

def message : LengthError → String
  | .truncated protocol offset needed available =>
    s!"{protocol.label}: truncated header at offset {offset} " ++
      s!"(need {needed} bytes, have {available})"
  | .overrun protocol offset length available =>
    s!"{protocol.label}: header length {length} at offset {offset} overruns buffer " ++
      s!"({available} bytes left)"
  | .malformed protocol offset length minimum =>
    s!"{protocol.label}: invalid header length {length} at offset {offset} (minimum {minimum})"
  | .unregistered protocol offset => s!"{protocol.label}: not registered (offset {offset})"

end LengthError

inductive LengthRule where
  /-- A constant. -/
  | fixed (length : Nat)
  /-- The number in the field `source`, times `scale`, plus `bias`; the first `minimum` bytes must
  be there before the field is read. -/
  | fromField (source : BitField) (scale bias minimum : Nat)
  /-- All bytes up to the end of the buffer. -/
  | remaining
  /-- What a function measures on the bytes from the start of the header on. -/
  | measured (measure : Bytes → Except Shortfall Nat)

namespace LengthRule

/-- Lengths are held in 64 bits and stop at the largest such number. -/
def saturate (length : Nat) : Nat := min length (UInt64.size - 1)

/-- A number times `scale`, plus `bias`. The product and the sum each stop at the largest number. -/
def linear (number scale bias : Nat) : Nat := saturate (saturate (number * scale) + bias)

/-- It makes no difference that the product stops before the sum does. -/
theorem linear_eq (number scale bias : Nat) :
    linear number scale bias = saturate (number * scale + bias) := by
  unfold linear saturate
  omega

/-- The length a rule proposes for a header that starts with `tail`, and the least length it may
have. An error is the number of bytes that would have been needed. -/
def propose (rule : LengthRule) (tail : Bytes) : Except Shortfall (Nat × Nat) :=
  match rule with
  | .fixed length => if tail.length < length then .error ⟨length⟩ else .ok (length, 1)
  | .fromField source scale bias minimum =>
    if tail.length < minimum then .error ⟨minimum⟩
    else match source.read tail with
      | .error _ => .error ⟨source.endByte⟩
      | .ok number => .ok (linear number scale bias, max minimum 1)
  | .remaining => .ok (tail.length, 1)
  | .measured measure => match measure tail with
    | .error shortfall => .error shortfall
    | .ok length => .ok (length, 1)

/-- The length of the header of `protocol` at `offset`, checked against its least length and
against the bytes that are there. -/
def resolve (rule : LengthRule) (protocol : ProtocolId) (data : Bytes) (offset : Nat) :
    Except LengthError Nat :=
  let tail := data.drop offset
  match rule.propose tail with
  | .error shortfall => .error (.truncated protocol offset shortfall.needed tail.length)
  | .ok (length, minimum) =>
    if length < minimum then .error (.malformed protocol offset length minimum)
    else if tail.length < length then .error (.overrun protocol offset length tail.length)
    else .ok length

theorem minimum_of_propose {rule : LengthRule} {tail : Bytes} {length minimum : Nat}
    (h : rule.propose tail = .ok (length, minimum)) : 1 ≤ minimum := by
  cases rule with
  | fixed constant =>
    by_cases hfit : tail.length < constant
    · simp [propose, hfit] at h
    · simp only [propose, if_neg hfit] at h
      cases h
      exact Nat.le_refl 1
  | fromField source scale bias least =>
    by_cases hfit : tail.length < least
    · simp [propose, hfit] at h
    · cases hread : source.read tail with
      | error _ => simp [propose, hfit, hread] at h
      | ok number =>
        simp only [propose, if_neg hfit, hread] at h
        cases h
        exact Nat.le_max_right least 1
  | remaining =>
    cases h
    exact Nat.le_refl 1
  | measured measure =>
    cases hmeasure : measure tail with
    | error _ => simp [propose, hmeasure] at h
    | ok measured =>
      simp only [propose, hmeasure] at h
      cases h
      exact Nat.le_refl 1

theorem resolve_bounds {rule : LengthRule} {protocol : ProtocolId} {data : Bytes}
    {offset length : Nat} (h : rule.resolve protocol data offset = .ok length) :
    1 ≤ length ∧ offset + length ≤ data.length := by
  simp only [resolve] at h
  split at h
  · simp at h
  · next proposed minimum hp =>
    have hmin := minimum_of_propose hp
    split at h
    · simp at h
    · split at h
      · simp at h
      · simp only [Except.ok.injEq] at h
        simp only [List.length_drop] at *
        omega

def firstByte : LengthRule :=
  .measured fun
    | [] => .error ⟨1⟩
    | first :: _ => .ok first.toNat

/-- The length of every header of the protocol, when it does not depend on the bytes. -/
def constant? : LengthRule → Option Nat
  | .fixed length => some length
  | _ => none

end LengthRule

end Dissection
