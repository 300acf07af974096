import Dissection.Header
import Mathlib.Algebra.Group.Nat.Defs

/-!
# Numbers on the wire

A number is written with its most significant byte first. A bit field that lies in bytes written
this way reads back the digits of the number that are its own. A header that stands between other
bytes is what a view of it shows.
-/

namespace Dissection

namespace Bytes

/-- The last `width` bytes of a number, the most significant one first. -/
def ofNumber : (width : Nat) → Nat → Bytes
  | 0, _ => []
  | width + 1, number => ofNumber width (number / 256) ++ [number.toUInt8]

@[simp] theorem length_ofNumber (width number : Nat) : (ofNumber width number).length = width := by
  induction width generalizing number with
  | zero => rfl
  | succ width ih => simp [ofNumber, ih]

theorem bigEndian_ofNumber {width number : Nat} (h : number < 256 ^ width) :
    (ofNumber width number).bigEndian = number := by
  induction width generalizing number with
  | zero =>
    rw [Nat.pow_zero, Nat.lt_one_iff] at h
    rw [h]
    rfl
  | succ width ih =>
    have hrest : number / 256 < 256 ^ width := by
      rw [Nat.pow_succ] at h
      exact Nat.div_lt_of_lt_mul (by rwa [Nat.mul_comm])
    have hlast : number.toUInt8.toNat = number % 256 := rfl
    rw [ofNumber, bigEndian_concat, ih hrest, hlast]
    omega

/-- The digits in front of the last `width` do not matter. -/
theorem ofNumber_mod (width number : Nat) :
    ofNumber width (number % 256 ^ width) = ofNumber width number := by
  induction width generalizing number with
  | zero => rfl
  | succ width ih =>
    have hrest : number % 256 ^ (width + 1) / 256 = number / 256 % 256 ^ width := by
      rw [Nat.pow_succ, Nat.mul_comm, Nat.mod_mul_right_div_self]
    have hlast : (number % 256 ^ (width + 1)).toUInt8 = number.toUInt8 := by
      apply UInt8.toNat_inj.1
      change number % 256 ^ (width + 1) % 256 = number % 256
      exact Nat.mod_mod_of_dvd _ (Nat.dvd_mul_left 256 (256 ^ width))
    rw [ofNumber, ofNumber, hrest, hlast, ih]

end Bytes

namespace BitField

/-- The bits behind the field, in the last byte that holds some bit of it. -/
def trailing (field : BitField) : Nat := 8 * field.endByte - field.endBit

/-- A field reads its own digits of the number in the bytes that hold it. -/
theorem read_of_containing {field : BitField} {window : Bytes} {width number : Nat}
    (horder : field.order = .big) (hwidth : 0 < field.bitLength ∧ field.bitLength ≤ 64)
    (hfit : field.endByte ≤ window.length)
    (hcontaining : field.containing window = Bytes.ofNumber width number)
    (hnumber : number < 256 ^ width) :
    field.read window = .ok (number / 2 ^ field.trailing % 2 ^ field.bitLength) := by
  have hvalid : ¬ (field.bitLength = 0 ∨ 64 < field.bitLength) := by omega
  rw [read, if_neg hvalid, if_neg (Nat.not_lt.2 hfit), extract_eq hwidth.2, horder]
  simp only [hcontaining, Bytes.bigEndian_ofNumber hnumber, Nat.shiftRight_eq_div_pow,
    Nat.one_shiftLeft]
  rfl

theorem read_digits {field : BitField} {window : Bytes} (width number divisor modulus : Nat)
    {value : Nat} (horder : field.order = .big)
    (hwidth : 0 < field.bitLength ∧ field.bitLength ≤ 64) (hfit : field.endByte ≤ window.length)
    (hcontaining : field.containing window = .ofNumber width number)
    (hnumber : number < 256 ^ width) (hdivisor : 2 ^ field.trailing = divisor)
    (hmodulus : 2 ^ field.bitLength = modulus) (hvalue : number / divisor % modulus = value) :
    field.read window = .ok value := by
  rw [read_of_containing horder hwidth hfit hcontaining hnumber, hdivisor, hmodulus, hvalue]

theorem read_append {field : BitField} {window : Bytes} (h : field.endByte ≤ window.length)
    (more : Bytes) : field.read (window ++ more) = field.read window := by
  have hcontaining : field.containing (window ++ more) = field.containing window := by
    have hfirst : field.firstByte ≤ field.endByte := by
      unfold firstByte endByte endBit
      omega
    rw [containing, List.drop_append_of_le_length (by omega), List.take_append_of_le_length
      (by rw [List.length_drop]; omega), containing]
  have hmore : field.endByte ≤ (window ++ more).length := by
    rw [List.length_append]
    omega
  rw [read, read, if_neg (Nat.not_lt.2 h), if_neg (Nat.not_lt.2 hmore), extract_congr hcontaining]

/-- A field whose number can be read wherever its bytes are there. -/
structure WellFormed (field : BitField) : Prop where
  order : field.order = .big
  positive : 0 < field.bitLength
  narrow : field.bitLength ≤ 64

instance (field : BitField) : Decidable field.WellFormed :=
  decidable_of_iff (field.order = .big ∧ 0 < field.bitLength ∧ field.bitLength ≤ 64)
    ⟨fun h => ⟨h.1, h.2.1, h.2.2⟩, fun h => ⟨h.order, h.positive, h.narrow⟩⟩

theorem WellFormed.read_eq {field : BitField} {window : Bytes} (h : field.WellFormed)
    (hfit : field.endByte ≤ window.length) :
    field.read window = .ok ((field.containing window).bigEndian >>>
      (8 * field.endByte - field.endBit) % 1 <<< field.bitLength) := by
  have hwidth : ¬ (field.bitLength = 0 ∨ 64 < field.bitLength) := by
    have hpositive := h.positive
    have hnarrow := h.narrow
    omega
  rw [read, if_neg hwidth, if_neg (Nat.not_lt.2 hfit), extract_eq h.narrow, h.order]

theorem wellFormed_ofBytes {offset length : Nat} (hpositive : 0 < length) (hnarrow : length ≤ 8) :
    (ofBytes offset length).WellFormed := by
  constructor
  case order => rfl
  case positive =>
    change 0 < length * 8
    omega
  case narrow =>
    change length * 8 ≤ 64
    omega

/-- A field of whole bytes reads the number that these bytes spell. -/
theorem read_ofBytes {offset length : Nat} {window : Bytes} (hpositive : 0 < length)
    (hnarrow : length ≤ 8) (hfit : offset + length ≤ window.length) :
    (ofBytes offset length).read window =
      .ok (Bytes.bigEndian ((window.drop offset).take length)) := by
  have hend : (ofBytes offset length).endByte = offset + length := endByte_ofBytes _ _ _
  have hnone : 8 * (offset + length) - (ofBytes offset length).endBit = 0 := by
    simp only [endBit, ofBytes]
    omega
  have hlength : ((window.drop offset).take length).length = length := by
    rw [List.length_take, List.length_drop]
    omega
  have hlt := Bytes.bigEndian_lt ((window.drop offset).take length)
  have hbits : (ofBytes offset length).bitLength = 8 * length := Nat.mul_comm _ _
  rw [hlength] at hlt
  rw [(wellFormed_ofBytes hpositive hnarrow).read_eq (hend ▸ hfit), containing_ofBytes, hend, hnone,
    hbits, Nat.shiftRight_zero, Nat.mod_eq_of_lt hlt]

theorem read_byte {offset : Nat} {window : Bytes} {byte : UInt8}
    (h : window[offset]? = some byte) : (ofBytes offset 1).read window = .ok byte.toNat := by
  have hlength : offset < window.length := (List.getElem?_eq_some_iff.1 h).1
  have htake : (window.drop offset).take 1 = [byte] := by
    rw [List.take_one, List.head?_drop, h]
    rfl
  rw [read_ofBytes Nat.one_pos (by decide) hlength, htake, Bytes.bigEndian]
  simp

/-- A read depends on the bytes that hold the field, and on how many bytes there are. -/
theorem read_congr {field : BitField} {window window' : Bytes}
    (hlength : window'.length = window.length)
    (hbytes : ∀ index, field.firstByte ≤ index → index < field.endByte →
      window'[index]? = window[index]?) : field.read window' = field.read window := by
  have hcontaining : field.containing window' = field.containing window := by
    apply List.ext_getElem?
    intro index
    simp only [containing, List.getElem?_take, List.getElem?_drop]
    split
    · exact hbytes _ (Nat.le_add_right _ _) (by omega)
    · rfl
  rw [read, read, hlength, extract_congr hcontaining]

end BitField

/-- A read that succeeds hands its number on. -/
theorem FieldError.ok_bind {α β : Type} (value : α) (next : α → Except FieldError β) :
    (Except.ok value >>= next) = next value := rfl

theorem FieldError.bind_eq_ok_iff {α β : Type} {result : Except FieldError α}
    {next : α → Except FieldError β} {value : β} :
    (result >>= next) = .ok value ↔ ∃ between, result = .ok between ∧ next between = .ok value := by
  cases result with
  | error error => simp [bind, Except.bind]
  | ok between => simp [bind, Except.bind]

namespace FieldError

def Succeeds {α : Type} (result : Except FieldError α) : Prop := ∃ value, result = .ok value

theorem succeeds_pure {α : Type} (value : α) : Succeeds (pure value : Except FieldError α) :=
  ⟨value, rfl⟩

theorem Succeeds.bind {α β : Type} {result : Except FieldError α}
    {next : α → Except FieldError β} (h : Succeeds result)
    (hnext : ∀ value, Succeeds (next value)) : Succeeds (result >>= next) := by
  obtain ⟨value, rfl⟩ := h
  exact hnext value

theorem Succeeds.map {α β : Type} {result : Except FieldError α} (h : Succeeds result)
    (f : α → β) : Succeeds (result.map f) := by
  obtain ⟨value, rfl⟩ := h
  exact ⟨f value, rfl⟩

end FieldError

theorem toNat_beq_one (flag : Bool) : (flag.toNat == 1) = flag := by
  cases flag <;> rfl

namespace HeaderView

variable {view : HeaderView} {least : Nat}

theorem succeeds_field (h : least ≤ view.bytes.length) {field : BitField}
    (hfield : field.WellFormed ∧ field.endByte ≤ least) : FieldError.Succeeds (view.field field) :=
  ⟨_, hfield.1.read_eq (Nat.le_trans hfield.2 h)⟩

theorem succeeds_bytesAt (h : least ≤ view.bytes.length) {offset length : Nat}
    (hstop : offset + length ≤ least) : FieldError.Succeeds (view.bytesAt offset length) :=
  ⟨_, bytesAt_eq_ok_iff.2 ⟨Nat.le_trans hstop h, rfl⟩⟩

variable {front block rest : Bytes} {record : HeaderRecord}

theorem bytes_of_append (hoffset : record.offset = front.length)
    (hlength : record.length = block.length) :
    HeaderView.bytes ⟨front ++ (block ++ rest), record⟩ = block := by
  rw [bytes, hoffset, hlength, List.drop_left, List.take_left]

theorem payload_of_append (hoffset : record.offset = front.length)
    (hlength : record.length = block.length) :
    HeaderView.payload ⟨front ++ (block ++ rest), record⟩ = rest := by
  rw [payload, HeaderRecord.stop, hoffset, hlength, ← List.append_assoc, ← List.length_append,
    List.drop_left]

end HeaderView

end Dissection
