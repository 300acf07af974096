import Dissection.Field
import Mathlib.Algebra.BigOperators.Ring.Finset
import Mathlib.Data.Nat.Bitwise

/-!
# The bits of a field

The bits of a byte string are numbered from the most significant bit of its first byte on. A number
that the bytes spell in network order has these bits as its binary digits, so a field that is cut
out of such a number has the bits of the window at its place as digits, and no others. A field in
the opposite order is made of whole bytes, and its number is the sum of what they are worth.
-/

namespace Dissection

namespace Bytes

/-- The bit with a number, bit 0 being the most significant bit of the first byte. There are no set
bits behind the last byte. -/
def bit (bytes : Bytes) (index : Nat) : Bool :=
  (bytes.getD (index / 8) 0).toNat.testBit (7 - index % 8)

/-- The digits of a number in network order are the bits of its bytes. -/
theorem testBit_bigEndian (bytes : Bytes) {index : Nat} (h : index < 8 * bytes.length) :
    bytes.bigEndian.testBit (8 * bytes.length - 1 - index) = bytes.bit index := by
  induction bytes using List.reverseRecOn with
  | nil => simp at h
  | append_singleton bytes last ih =>
    rw [List.length_append, List.length_singleton] at h ⊢
    rw [bigEndian_concat, Nat.mul_comm, Nat.testBit_two_pow_mul_add (i := 8) _ last.toNat_lt]
    by_cases hearlier : index < 8 * bytes.length
    · have hdigit : 8 * (bytes.length + 1) - 1 - index - 8 = 8 * bytes.length - 1 - index := by
        omega
      have hbyte : index / 8 < bytes.length := by omega
      rw [if_neg (by omega), hdigit, ih hearlier, bit, bit, List.getD_append _ _ _ _ hbyte]
    · have hbyte : index / 8 = bytes.length := by omega
      have hdigit : 8 * (bytes.length + 1) - 1 - index = 7 - index % 8 := by omega
      rw [if_pos (by omega), hdigit, bit, hbyte, List.getD_append_right _ _ _ _ (Nat.le_refl _),
        Nat.sub_self]
      rfl

/-- Every byte of a number in the opposite order is worth its power of 256. -/
theorem littleEndian_eq_sum (bytes : Bytes) :
    bytes.littleEndian =
      ∑ index ∈ Finset.range bytes.length, (bytes.getD index 0).toNat * 256 ^ index := by
  induction bytes with
  | nil => rfl
  | cons first bytes ih =>
    rw [littleEndian_cons, ih, List.length_cons, Finset.sum_range_succ', Finset.mul_sum,
      Nat.add_comm]
    congr 1
    · refine Finset.sum_congr rfl fun index _ => ?_
      rw [List.getD_cons_succ, Nat.pow_succ]
      exact (Nat.mul_left_comm _ _ _).trans (by rw [Nat.mul_comm 256])
    · simp

/-- A number of so many digits is determined by them. -/
theorem eq_of_digits {width number number' : Nat} (hnumber : number < 2 ^ width)
    (hnumber' : number' < 2 ^ width)
    (h : ∀ digit < width, number'.testBit digit = number.testBit digit) : number' = number := by
  refine Nat.eq_of_testBit_eq fun digit => ?_
  by_cases hdigit : digit < width
  · exact h digit hdigit
  · have hpower : 2 ^ width ≤ 2 ^ digit :=
      Nat.pow_le_pow_right (by decide) (Nat.le_of_not_lt hdigit)
    rw [Nat.testBit_lt_two_pow (Nat.lt_of_lt_of_le hnumber hpower),
      Nat.testBit_lt_two_pow (Nat.lt_of_lt_of_le hnumber' hpower)]

/-- Bytes are the same when their bits are. -/
theorem getD_eq_of_bits {bytes bytes' : Bytes} {index : Nat}
    (h : ∀ digit < 8, bytes'.bit (8 * index + digit) = bytes.bit (8 * index + digit)) :
    bytes'.getD index 0 = bytes.getD index 0 := by
  refine UInt8.toNat_inj.1
    (eq_of_digits (UInt8.toNat_lt _) (UInt8.toNat_lt _) fun digit hdigit => ?_)
  have hbyte : (8 * index + (7 - digit)) / 8 = index := by omega
  have hplace : 7 - (8 * index + (7 - digit)) % 8 = digit := by omega
  have hbits := h (7 - digit) (by omega)
  rwa [bit, bit, hbyte, hplace] at hbits

end Bytes

namespace BitField

/-- A field whose number can be read wherever its bytes are there. In network order it may begin and
end anywhere. -/
structure Readable (field : BitField) : Prop where
  positive : 0 < field.bitLength
  narrow : field.bitLength ≤ 64
  aligned : field.order = .little → field.bitOffset % 8 = 0 ∧ field.bitLength % 8 = 0

/-- What the read of a field from a window comes to, told from the bits and the bytes of the window:
a width that no number has, bits that are not there, an order that needs whole bytes, or a
number. -/
inductive Reads (field : BitField) (window : Bytes) : Except FieldError Nat → Prop
  | invalidWidth (hwidth : field.bitLength = 0 ∨ 64 < field.bitLength) :
      Reads field window (.error (.invalidWidth field.bitLength))
  | outOfBounds (hwidth : 0 < field.bitLength ∧ field.bitLength ≤ 64)
      (houtside : 8 * window.length < field.bitOffset + field.bitLength) :
      Reads field window (.error (.outOfBounds field.bitOffset field.bitLength window.length))
  | unaligned (hwidth : 0 < field.bitLength ∧ field.bitLength ≤ 64)
      (hinside : field.bitOffset + field.bitLength ≤ 8 * window.length)
      (horder : field.order = .little)
      (hparts : ¬ (field.bitOffset % 8 = 0 ∧ field.bitLength % 8 = 0)) :
      Reads field window (.error (.unalignedLittleEndian field.bitOffset field.bitLength))
  | bits {number : Nat} (hwidth : 0 < field.bitLength ∧ field.bitLength ≤ 64)
      (hinside : field.bitOffset + field.bitLength ≤ 8 * window.length)
      (horder : field.order = .big) (hnumber : number < 2 ^ field.bitLength)
      (hbits : ∀ index < field.bitLength,
        number.testBit (field.bitLength - 1 - index) = window.bit (field.bitOffset + index)) :
      Reads field window (.ok number)
  | bytes (hwidth : 0 < field.bitLength ∧ field.bitLength ≤ 64)
      (hinside : field.bitOffset + field.bitLength ≤ 8 * window.length)
      (horder : field.order = .little)
      (hwhole : field.bitOffset % 8 = 0 ∧ field.bitLength % 8 = 0) :
      Reads field window (.ok (∑ index ∈ Finset.range (field.bitLength / 8),
        (window.getD (field.bitOffset / 8 + index) 0).toNat * 256 ^ index))

section Window

variable {field : BitField} {window : Bytes}

theorem getD_containing {index : Nat} (h : index < field.endByte - field.firstByte) :
    (field.containing window).getD index 0 = window.getD (field.firstByte + index) 0 := by
  rw [List.getD_eq_getElem?_getD, List.getD_eq_getElem?_getD, containing, List.getElem?_take,
    if_pos h, List.getElem?_drop]

theorem length_containing (h : field.endBit ≤ 8 * window.length) :
    (field.containing window).length = field.endByte - field.firstByte := by
  have hend := endByte_le_iff.2 h
  rw [containing, List.length_take, List.length_drop]
  omega

/-- The bits of the bytes that hold the field are bits of the window. -/
theorem bit_containing {index : Nat} (h : index < 8 * (field.endByte - field.firstByte)) :
    (field.containing window).bit index = window.bit (8 * field.firstByte + index) := by
  have hbyte : (8 * field.firstByte + index) / 8 = field.firstByte + index / 8 := by omega
  have hplace : (8 * field.firstByte + index) % 8 = index % 8 := by omega
  rw [Bytes.bit, Bytes.bit, hbyte, hplace, getD_containing (by omega)]

/-- The digits of a field in network order are the bits at its place. -/
theorem testBit_extract (hinside : field.endBit ≤ 8 * window.length) {index : Nat}
    (hindex : index < field.bitLength) :
    ((field.containing window).bigEndian >>> (8 * field.endByte - field.endBit)
        % 1 <<< field.bitLength).testBit (field.bitLength - 1 - index) =
      window.bit (field.bitOffset + index) := by
  have hspan : 8 * field.firstByte + field.bitOffset % 8 = field.bitOffset ∧
      field.endBit ≤ 8 * field.endByte ∧ field.firstByte ≤ field.endByte := by
    unfold firstByte endByte endBit
    omega
  have hend : field.endBit = field.bitOffset + field.bitLength := rfl
  have hlength := length_containing hinside
  -- where the bit stands in the bytes that hold the field, and in the number they spell
  have hplace : field.bitOffset % 8 + index < 8 * (field.containing window).length := by omega
  have hdigit : 8 * field.endByte - field.endBit + (field.bitLength - 1 - index) =
      8 * (field.containing window).length - 1 - (field.bitOffset % 8 + index) := by omega
  have hbit : 8 * field.firstByte + (field.bitOffset % 8 + index) = field.bitOffset + index := by
    omega
  rw [Nat.one_shiftLeft, Nat.testBit_mod_two_pow, Nat.testBit_shiftRight, hdigit,
    Bytes.testBit_bigEndian _ hplace, bit_containing (hlength ▸ hplace), hbit]
  have hshown : field.bitLength - 1 - index < field.bitLength := by omega
  rw [decide_eq_true hshown, Bool.true_and]

/-- The number of a field of whole bytes in the opposite order is the sum of these bytes. -/
theorem littleEndian_containing (hinside : field.endBit ≤ 8 * window.length)
    (hwhole : field.bitOffset % 8 = 0 ∧ field.bitLength % 8 = 0) :
    (field.containing window).littleEndian = ∑ index ∈ Finset.range (field.bitLength / 8),
      (window.getD (field.bitOffset / 8 + index) 0).toNat * 256 ^ index := by
  have hspan : field.endByte - field.firstByte = field.bitLength / 8 := by
    unfold endByte endBit firstByte
    omega
  rw [Bytes.littleEndian_eq_sum, length_containing hinside, hspan]
  refine Finset.sum_congr rfl fun index hindex => ?_
  rw [getD_containing (hspan ▸ Finset.mem_range.1 hindex)]
  rfl

theorem reads_read (field : BitField) (window : Bytes) :
    field.Reads window (field.read window) := by
  rw [read]
  split
  · next hwidth => exact .invalidWidth hwidth
  · next hnumber =>
    have hwidth : 0 < field.bitLength ∧ field.bitLength ≤ 64 := by omega
    split
    · next houtside => exact .outOfBounds hwidth (Nat.lt_of_not_le (mt endByte_le_iff.2
        (Nat.not_le.2 houtside)))
    · next hheld =>
      have hinside : field.endBit ≤ 8 * window.length := endByte_le_iff.1 (Nat.le_of_not_lt hheld)
      rw [extract_eq hwidth.2]
      split
      · next horder =>
        refine .bits hwidth hinside horder ?_ fun index hindex => testBit_extract hinside hindex
        rw [Nat.one_shiftLeft]
        exact Nat.mod_lt _ (Nat.two_pow_pos _)
      · next horder =>
        split
        · next hwhole =>
          rw [littleEndian_containing hinside hwhole]
          exact .bytes hwidth hinside horder hwhole
        · next hparts => exact .unaligned hwidth hinside horder hparts

/-- The rules leave a read no choice: they ask for one width, one place and one order at a time, and
a number is determined by its digits. -/
theorem Reads.unique {result result' : Except FieldError Nat} (h : field.Reads window result)
    (h' : field.Reads window result') : result' = result := by
  cases h with
  | invalidWidth hwidth =>
    cases h' with
    | invalidWidth => rfl
    | outOfBounds | unaligned | bits | bytes => omega
  | outOfBounds hwidth houtside =>
    cases h' with
    | outOfBounds => rfl
    | invalidWidth | unaligned | bits | bytes => omega
  | unaligned hwidth hinside horder hparts =>
    cases h' with
    | invalidWidth | outOfBounds => omega
    | unaligned => rfl
    | bits _ _ horder' => cases horder.symm.trans horder'
    | bytes _ _ _ hwhole => exact absurd hwhole hparts
  | bytes hwidth hinside horder hwhole =>
    cases h' with
    | invalidWidth | outOfBounds => omega
    | unaligned _ _ _ hparts => exact absurd hwhole hparts
    | bits _ _ horder' => cases horder.symm.trans horder'
    | bytes => rfl
  | @bits number hwidth hinside horder hnumber hbits =>
    cases h' with
    | invalidWidth | outOfBounds => omega
    | unaligned _ _ horder' | bytes _ _ horder' => cases horder.symm.trans horder'
    | @bits number' _ _ _ hnumber' hbits' =>
      refine congrArg Except.ok (Bytes.eq_of_digits hnumber hnumber' fun digit hdigit => ?_)
      have hplace : field.bitLength - 1 - (field.bitLength - 1 - digit) = digit := by omega
      have hsame := hbits (field.bitLength - 1 - digit) (by omega)
      have hsame' := hbits' (field.bitLength - 1 - digit) (by omega)
      rw [hplace] at hsame hsame'
      rw [hsame, hsame']

theorem read_eq_iff_reads {result : Except FieldError Nat} :
    field.read window = result ↔ field.Reads window result :=
  ⟨fun h => h ▸ reads_read field window, fun h => h.unique (reads_read field window)⟩

/-- A window that has the same bits at the place of the field reads as the other does. -/
theorem Reads.congr {window' : Bytes} {result : Except FieldError Nat}
    (hinside : field.endBit ≤ 8 * window.length) (hinside' : field.endBit ≤ 8 * window'.length)
    (hbits : ∀ index, field.bitOffset ≤ index → index < field.endBit →
      window'.bit index = window.bit index) (h : field.Reads window result) :
    field.Reads window' result := by
  unfold endBit at hinside hinside' hbits
  cases h with
  | invalidWidth hwidth => exact .invalidWidth hwidth
  | outOfBounds _ houtside => omega
  | unaligned hwidth _ horder hparts => exact .unaligned hwidth hinside' horder hparts
  | bits hwidth _ horder hnumber hdigits =>
    refine .bits hwidth hinside' horder hnumber fun index hindex => ?_
    rw [hdigits index hindex, hbits _ (Nat.le_add_right _ _) (by omega)]
  | bytes hwidth _ horder hwhole =>
    have hsame (index : Nat) (hindex : index < field.bitLength / 8) :
        window.getD (field.bitOffset / 8 + index) 0 =
          window'.getD (field.bitOffset / 8 + index) 0 :=
      Bytes.getD_eq_of_bits fun digit hdigit => (hbits _ (by omega) (by omega)).symm
    have hsum : ∑ index ∈ Finset.range (field.bitLength / 8),
          (window.getD (field.bitOffset / 8 + index) 0).toNat * 256 ^ index =
        ∑ index ∈ Finset.range (field.bitLength / 8),
          (window'.getD (field.bitOffset / 8 + index) 0).toNat * 256 ^ index :=
      Finset.sum_congr rfl fun index hindex => by rw [hsame index (Finset.mem_range.1 hindex)]
    rw [hsum]
    exact .bytes hwidth hinside' horder hwhole

end Window

theorem exists_read_iff {field : BitField} {window : Bytes} :
    (∃ number, field.read window = .ok number) ↔
      field.Readable ∧ field.endBit ≤ 8 * window.length := by
  simp only [read_eq_iff_reads]
  constructor
  · rintro ⟨number, h⟩
    cases h with
    | bits hwidth hinside horder => exact ⟨⟨hwidth.1, hwidth.2, by simp [horder]⟩, hinside⟩
    | bytes hwidth hinside _ hwhole => exact ⟨⟨hwidth.1, hwidth.2, fun _ => hwhole⟩, hinside⟩
  · rintro ⟨⟨hpositive, hnarrow, haligned⟩, hinside⟩
    cases hread : field.read window with
    | ok number => exact ⟨number, read_eq_iff_reads.1 hread⟩
    | error error =>
      cases read_eq_iff_reads.1 hread with
      | invalidWidth => omega
      | outOfBounds _ houtside => exact absurd hinside (Nat.not_le.2 houtside)
      | unaligned _ _ horder hparts => exact absurd (haligned horder) hparts

/-- Reading a field is what the bits of the window say: the first of the three conditions that does
not hold, or the one number with these digits. Bits outside the field make no difference between
windows that hold it. -/
theorem read_bit_by_bit (field : BitField) (window : Bytes) :
    (∀ result, field.read window = result ↔ field.Reads window result) ∧
      ∀ window' : Bytes, field.endBit ≤ 8 * window.length → field.endBit ≤ 8 * window'.length →
        (∀ index, field.bitOffset ≤ index → index < field.endBit →
          window'.bit index = window.bit index) →
        field.read window' = field.read window :=
  ⟨fun _ => read_eq_iff_reads, fun _ hinside hinside' hbits =>
    read_eq_iff_reads.2 ((reads_read field window).congr hinside hinside' hbits)⟩

/-- A field of 64 bits that stands in nine bytes, with different bits around it. -/
theorem nine_bytes_read :
    let field : BitField := ⟨1, 64, .big⟩
    let window : Bytes := [127, 255, 255, 255, 255, 255, 255, 255, 128]
    let window' : Bytes := [255, 255, 255, 255, 255, 255, 255, 255, 255]
    (field.endBit ≤ 8 * window.length ∧ field.endBit ≤ 8 * window'.length ∧
        ∀ index, field.bitOffset ≤ index → index < field.endBit →
          window'.bit index = window.bit index) ∧
      field.Reads window (.ok (2 ^ 64 - 1)) ∧ field.read window' = field.read window := by
  intro field window window'
  have hinside : field.endBit ≤ 8 * window.length := by decide
  have hinside' : field.endBit ≤ 8 * window'.length := by decide
  have hbits : ∀ index, field.bitOffset ≤ index → index < field.endBit →
      window'.bit index = window.bit index := by decide +kernel
  have hread : field.read window = .ok (2 ^ 64 - 1) := by decide +kernel
  have hexact := read_bit_by_bit field window
  exact ⟨⟨hinside, hinside', hbits⟩, (hexact.1 _).1 hread, hexact.2 window' hinside hinside' hbits⟩

end BitField

end Dissection
