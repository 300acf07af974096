import Dissection.Field
import Dissection.Protocol

/-!
# Headers

A header record says which protocol occupies which bytes of a buffer. A view joins a record with
the buffer it lies in; offsets given to a view count from the start of its header, and no read
leaves the header.
-/

namespace Dissection

/-- The protocol `protocol` occupies the bytes `[offset, offset + length)`; `ordinal` counts the
earlier records of the same protocol. -/
structure HeaderRecord where
  protocol : ProtocolId
  offset : Nat
  length : Nat
  ordinal : Nat
  deriving DecidableEq

namespace HeaderRecord

/-- The first byte after the header. -/
def stop (record : HeaderRecord) : Nat := record.offset + record.length

def isPayload (record : HeaderRecord) : Bool := decide (record.protocol = .payload)

end HeaderRecord

structure HeaderView where
  data : Bytes
  record : HeaderRecord

def HeaderRecord.view? (record : HeaderRecord) (data : Bytes) : Option HeaderView :=
  if record.stop ≤ data.length then some ⟨data, record⟩ else none

theorem HeaderRecord.view?_eq_some_iff {record : HeaderRecord} {data : Bytes} {view : HeaderView} :
    record.view? data = some view ↔ record.stop ≤ data.length ∧ view = ⟨data, record⟩ := by
  unfold view?
  split
  · next h => simp [h, eq_comm]
  · next h => simp [h]

namespace HeaderView

def bytes (view : HeaderView) : Bytes := (view.data.drop view.record.offset).take view.record.length

def payload (view : HeaderView) : Bytes := view.data.drop view.record.stop

def length (view : HeaderView) : Nat := view.record.length

theorem length_bytes {view : HeaderView} (h : view.record.stop ≤ view.data.length) :
    view.bytes.length = view.length := by
  simp only [bytes, length, List.length_take, List.length_drop]
  unfold HeaderRecord.stop at h
  omega

def field (view : HeaderView) (field : BitField) : Except FieldError Nat := field.read view.bytes

/-- The error of a run of bytes that leaves the header: bit counts too large for their place in the
report are cut off. -/
def outside (view : HeaderView) (offset length : Nat) : FieldError :=
  .outOfBounds (min (offset * 8) (UInt64.size - 1)) (min (length * 8) 255) view.bytes.length

def bytesAt (view : HeaderView) (offset length : Nat) : Except FieldError Bytes :=
  match view.bytes.slice? offset length with
  | some piece => .ok piece
  | none => .error (view.outside offset length)

theorem bytesAt_eq_ok_iff {view : HeaderView} {offset length : Nat} {piece : Bytes} :
    view.bytesAt offset length = .ok piece ↔
      offset + length ≤ view.bytes.length ∧ (view.bytes.drop offset).take length = piece := by
  rw [← Bytes.slice?_eq_some_iff, bytesAt]
  split <;> simp_all

theorem toOption_bytesAt (view : HeaderView) (offset length : Nat) :
    (view.bytesAt offset length).toOption = view.bytes.slice? offset length := by
  rw [bytesAt]
  split <;> simp_all [Except.toOption]

def byte? (view : HeaderView) (offset : Nat) : Option Nat := view.bytes.byte? offset

def word? (view : HeaderView) (offset width : Nat) : Option Nat :=
  (view.bytesAt offset width).toOption.map Bytes.bigEndian

def bytesFrom (view : HeaderView) (offset : Nat) : Bytes := view.bytes.drop offset

end HeaderView

end Dissection
