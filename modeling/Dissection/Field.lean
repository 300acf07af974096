import Dissection.Bytes

/-!
# Bit fields

A field is a run of bits in a window of bytes. Bits are numbered in network order: bit 0 is the
most significant bit of the first byte. Reading a field either yields its number or says which of
three conditions the field or the window breaks.
-/

namespace Dissection

/-- A run of `bitLength` bits starting at bit `bitOffset` of a window. -/
structure BitField where
  bitOffset : Nat
  bitLength : Nat
  order : ByteOrder := .big
  deriving DecidableEq

inductive FieldError where
  | outOfBounds (bitOffset bitLength available : Nat)
  | invalidWidth (bitLength : Nat)
  | unalignedLittleEndian (bitOffset bitLength : Nat)
  deriving DecidableEq

def FieldError.message : FieldError → String
  | .outOfBounds bitOffset bitLength available =>
    s!"field bits {bitOffset}+{bitLength} outside a {available}-byte window"
  | .invalidWidth bitLength => s!"field width {bitLength} bits is not in 1..=64"
  | .unalignedLittleEndian bitOffset bitLength =>
    s!"little-endian field at bit {bitOffset} (width {bitLength}) is not byte aligned"

namespace BitField

def ofBytes (offset length : Nat) (order : ByteOrder := .big) : BitField :=
  ⟨offset * 8, length * 8, order⟩

def endBit (field : BitField) : Nat := field.bitOffset + field.bitLength

def firstByte (field : BitField) : Nat := field.bitOffset / 8

/-- One past the byte that holds the field's last bit. -/
def endByte (field : BitField) : Nat := (field.endBit + 7) / 8

theorem endByte_le_iff {field : BitField} {length : Nat} :
    field.endByte ≤ length ↔ field.endBit ≤ 8 * length := by
  unfold endByte
  omega

theorem endByte_ofBytes (offset length : Nat) (order : ByteOrder) :
    (ofBytes offset length order).endByte = offset + length := by
  simp only [endByte, endBit, ofBytes]
  omega

/-- The bytes of the window that hold some bit of the field. -/
def containing (field : BitField) (window : Bytes) : Bytes :=
  (window.drop field.firstByte).take (field.endByte - field.firstByte)

theorem containing_ofBytes (offset length : Nat) (order : ByteOrder) (window : Bytes) :
    (ofBytes offset length order).containing window = (window.drop offset).take length := by
  have hfirst : (ofBytes offset length order).firstByte = offset := Nat.mul_div_cancel _ (by decide)
  rw [containing, endByte_ofBytes, hfirst, Nat.add_sub_cancel_left]

/-- The number in the bytes that hold the field, put at the end of a lane of sixteen bytes. -/
def lane (field : BitField) (window : Bytes) : Nat := ((field.containing window).atEnd 16).bigEndian

/-- The number in the bytes that hold a field of whole bytes, put at the start of a lane of eight
bytes. -/
def wholeLane (field : BitField) (window : Bytes) : Nat :=
  ((field.containing window).atStart 8).littleEndian

def mask (field : BitField) : Nat := 1 <<< field.bitLength - 1

/-- The field's number once width and bounds are known to be right. In network order the bits behind
the field are shifted out of its lane, and those in front of it masked. -/
def extract (field : BitField) (window : Bytes) : Except FieldError Nat :=
  match field.order with
  | .big =>
    let trailing := 8 * field.endByte - field.endBit
    .ok ((field.lane window >>> trailing &&& field.mask) % UInt64.size)
  | .little =>
    if field.bitOffset % 8 = 0 ∧ field.bitLength % 8 = 0 then .ok (field.wholeLane window)
    else .error (.unalignedLittleEndian field.bitOffset field.bitLength)

/-- A field that is not too wide has the digits of the bytes that hold it. -/
theorem extract_eq {field : BitField} (h : field.bitLength ≤ 64) (window : Bytes) :
    field.extract window = match field.order with
      | .big => .ok ((field.containing window).bigEndian >>> (8 * field.endByte - field.endBit)
          % 1 <<< field.bitLength)
      | .little =>
        if field.bitOffset % 8 = 0 ∧ field.bitLength % 8 = 0 then
          .ok (field.containing window).littleEndian
        else
          .error (.unalignedLittleEndian field.bitOffset field.bitLength) := by
  have hnumber (digits : Nat) : digits % 2 ^ field.bitLength < UInt64.size :=
    Nat.lt_of_lt_of_le (Nat.mod_lt _ (Nat.two_pow_pos _)) (Nat.pow_le_pow_right (by decide) h)
  simp only [extract, lane, wholeLane, mask, Bytes.bigEndian_atEnd, Bytes.littleEndian_atStart,
    Nat.one_shiftLeft, Nat.and_two_pow_sub_one_eq_mod, Nat.mod_eq_of_lt (hnumber _)]

/-- Seven bits in front of a field of 64 bits make nine bytes, which leave room in the lane. -/
theorem length_lane {field : BitField} (h : field.bitLength ≤ 64) (window : Bytes) :
    ((field.containing window).atEnd 16).length = 16 := by
  rw [Bytes.atEnd, List.length_leftpad, containing, List.length_take]
  unfold endByte endBit firstByte
  omega

theorem length_wholeLane {field : BitField} (h : field.bitLength ≤ 64)
    (hwhole : field.bitOffset % 8 = 0 ∧ field.bitLength % 8 = 0) (window : Bytes) :
    ((field.containing window).atStart 8).length = 8 := by
  rw [Bytes.atStart, List.length_rightpad, containing, List.length_take]
  unfold endByte endBit firstByte
  omega

/-- The lane is a number of 128 bits. -/
theorem lane_lt {field : BitField} (h : field.bitLength ≤ 64) (window : Bytes) :
    field.lane window < 1 <<< 128 := by
  have hlarge := ((field.containing window).atEnd 16).bigEndian_lt
  rwa [length_lane h] at hlarge

theorem wholeLane_lt {field : BitField} (h : field.bitLength ≤ 64)
    (hwhole : field.bitOffset % 8 = 0 ∧ field.bitLength % 8 = 0) (window : Bytes) :
    field.wholeLane window < 1 <<< 64 := by
  have hlarge := ((field.containing window).atStart 8).littleEndian_lt
  rwa [length_wholeLane h hwhole] at hlarge

theorem extract_congr {field : BitField} {window window' : Bytes}
    (h : field.containing window' = field.containing window) :
    field.extract window' = field.extract window := by
  simp only [extract, lane, wholeLane, h]

/-- Reads the field from a window: the width is checked first, then the bounds, then alignment. -/
def read (field : BitField) (window : Bytes) : Except FieldError Nat :=
  if field.bitLength = 0 ∨ 64 < field.bitLength then
    .error (.invalidWidth field.bitLength)
  else if window.length < field.endByte then
    .error (.outOfBounds field.bitOffset field.bitLength window.length)
  else
    field.extract window

theorem endByte_le_of_read {field : BitField} {window : Bytes} {number : Nat}
    (h : field.read window = .ok number) : field.endByte ≤ window.length := by
  unfold read at h
  split at h
  · simp at h
  · split at h
    · simp at h
    · omega

end BitField

end Dissection
