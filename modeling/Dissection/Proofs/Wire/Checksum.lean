import Dissection.Layer.Ipv4
import Dissection.Proofs.Wire.Bits
import Dissection.Proofs.Wire.Field
import Mathlib.Algebra.Order.BigOperators.Group.List
import Mathlib.Algebra.Order.Ring.Nat
import Mathlib.Data.Nat.ModEq

/-!
# Checksums of headers

Folding carries keeps a sum modulo 65535 and leaves zero alone, so the ones' complement sum of a
byte string is zero only when all bytes are, and 65535 when the words add up to another multiple of
it. Up to 65537 words add up in 32 bits without a loss. A header is made valid by writing the
complement of its sum, and one bit more or less is never worth a multiple of 65535.
-/

namespace Dissection

namespace Bytes

/-- Puts a piece in the place of the bytes from `offset` on. -/
def overwrite (bytes : Bytes) (offset : Nat) (piece : Bytes) : Bytes :=
  bytes.take offset ++ (piece ++ bytes.drop (offset + piece.length))

/-- Turns over the bit with a number, bit 0 being the most significant bit of the first byte. -/
def flipBit (bytes : Bytes) (index : Nat) : Bytes :=
  bytes.modify (index / 8) (· ^^^ (2 ^ (7 - index % 8) : Nat).toUInt8)

variable {bytes piece : Bytes} {offset index : Nat}

theorem length_overwrite (h : offset + piece.length ≤ bytes.length) :
    (bytes.overwrite offset piece).length = bytes.length := by
  simp [overwrite]
  omega

theorem overwrite_append_left (front bytes piece : Bytes) (offset : Nat) :
    (front ++ bytes).overwrite (front.length + offset) piece =
      front ++ bytes.overwrite offset piece := by
  simp [overwrite, Nat.add_assoc, List.take_length_add_append, List.drop_length_add_append]

theorem overwrite_append_right (h : offset + piece.length ≤ bytes.length) (rest : Bytes) :
    (bytes ++ rest).overwrite offset piece = bytes.overwrite offset piece ++ rest := by
  have hstart : offset ≤ bytes.length := by omega
  simp [overwrite, List.take_append_of_le_length hstart, List.drop_append_of_le_length h]

@[simp] theorem length_flipBit (bytes : Bytes) (index : Nat) :
    (bytes.flipBit index).length = bytes.length := by
  simp [flipBit]

theorem toNat_toUInt8_two_pow {digit : Nat} (h : digit < 8) :
    (2 ^ digit : Nat).toUInt8.toNat = 2 ^ digit :=
  Nat.mod_eq_of_lt (Nat.pow_lt_pow_right (by decide) h)

/-- The one bit is turned over, and no other. -/
theorem bit_flipBit (h : index < 8 * bytes.length) (other : Nat) :
    (bytes.flipBit index).bit other = (bytes.bit other ^^ decide (other = index)) := by
  have hmask := toNat_toUInt8_two_pow (show 7 - index % 8 < 8 by omega)
  simp only [bit, flipBit, List.getD_eq_getElem?_getD, List.getElem?_modify]
  by_cases hbyte : index / 8 = other / 8
  · have hinside : other / 8 < bytes.length := by omega
    have hplace : (7 - index % 8 = 7 - other % 8) ↔ other = index := by omega
    simp [hbyte, hinside, hmask, Nat.testBit_two_pow, hplace]
  · have hother : other ≠ index := fun heq => hbyte (by rw [heq])
    simp [hbyte, hother]

end Bytes

namespace HeaderView

def overwrite (view : HeaderView) (offset : Nat) (piece : Bytes) : HeaderView :=
  { view with data := view.data.overwrite (view.record.offset + offset) piece }

def flipBit (view : HeaderView) (index : Nat) : HeaderView :=
  { view with data := view.data.flipBit (8 * view.record.offset + index) }

variable {view : HeaderView} {offset index : Nat} {piece : Bytes}

/-- The buffer is what lies before the header, the header, and what lies behind it. -/
theorem exists_parts (h : view.record.stop ≤ view.data.length) :
    ∃ front rest, front.length = view.record.offset ∧
      view.data = front ++ (view.bytes ++ rest) := by
  refine ⟨view.data.take view.record.offset, view.payload, ?_, ?_⟩
  · unfold HeaderRecord.stop at h
    simp
    omega
  · rw [bytes, payload, HeaderRecord.stop, ← List.drop_drop, List.take_append_drop,
      List.take_append_drop]

theorem bytes_overwrite (h : view.record.stop ≤ view.data.length)
    (hpiece : offset + piece.length ≤ view.length) :
    (view.overwrite offset piece).bytes = view.bytes.overwrite offset piece := by
  have hbytes := length_bytes h
  obtain ⟨front, rest, hfront, hdata⟩ := exists_parts h
  have hinside : offset + piece.length ≤ view.bytes.length := by omega
  rw [overwrite, hdata, ← hfront, Bytes.overwrite_append_left, Bytes.overwrite_append_right hinside]
  exact bytes_of_append hfront.symm (by rw [Bytes.length_overwrite hinside, hbytes]; rfl)

theorem bytes_flipBit (view : HeaderView) (index : Nat) :
    (view.flipBit index).bytes = view.bytes.flipBit index := by
  have hbyte : (8 * view.record.offset + index) / 8 = view.record.offset + index / 8 := by omega
  have hplace : (8 * view.record.offset + index) % 8 = index % 8 := by omega
  ext1 place
  simp only [flipBit, bytes, Bytes.flipBit, hbyte, hplace, List.getElem?_take, List.getElem?_drop,
    List.getElem?_modify, Nat.add_left_cancel_iff]
  split <;> simp

end HeaderView

namespace Internet

theorem foldCarries_le (sum : Nat) : foldCarries sum ≤ 65535 := by
  fun_induction foldCarries sum with
  | case1 sum hsmall => exact hsmall
  | case2 sum hlarge ih => exact ih

theorem foldCarries_mod (sum : Nat) : foldCarries sum % 65535 = sum % 65535 := by
  fun_induction foldCarries sum with
  | case1 => rfl
  | case2 sum hlarge ih =>
    rw [ih]
    omega

theorem foldCarries_eq_zero_iff {sum : Nat} : foldCarries sum = 0 ↔ sum = 0 := by
  fun_induction foldCarries sum with
  | case1 => rfl
  | case2 sum hlarge ih =>
    rw [ih]
    omega

variable {bytes piece front back : Bytes}

theorem length_words (bytes : Bytes) : (words bytes).length = (bytes.length + 1) / 2 := by
  fun_induction words bytes with
  | case1 => rfl
  | case2 high => simp
  | case3 high low rest ih =>
    simp only [List.length_cons, ih]
    omega

theorem word_lt_of_mem {word : Nat} (h : word ∈ words bytes) : word < 65536 := by
  fun_induction words bytes with
  | case1 => cases h
  | case2 high =>
    have hhigh := high.toNat_lt
    obtain rfl := List.mem_singleton.1 h
    omega
  | case3 high low rest ih =>
    have hhigh := high.toNat_lt
    have hlow := low.toNat_lt
    rcases List.mem_cons.1 h with rfl | hrest
    · omega
    · exact ih hrest

/-- Words whose sum has 32 bits are added up without a loss. -/
theorem toNat_accumulate {words : List Nat} (h : words.sum < 2 ^ 32) :
    (accumulate words).toNat = words.sum := by
  induction words using List.reverseRecOn with
  | nil => rfl
  | append_singleton words last ih =>
    rw [List.sum_append, List.sum_singleton] at h ⊢
    have hstep : accumulate (words ++ [last]) = accumulate words + last.toUInt32 := by
      simp [accumulate]
    have hlast : last.toUInt32.toNat = last := Nat.mod_eq_of_lt (by omega)
    rw [hstep, UInt32.toNat_add, ih (by omega), hlast, Nat.mod_eq_of_lt h]

theorem sum_words_lt (h : bytes.length ≤ 131074) (count : Nat) :
    ((words bytes).take count).sum < 2 ^ 32 := by
  have hbound : ((words bytes).take count).sum ≤ ((words bytes).take count).length • 65535 :=
    List.sum_le_card_nsmul _ _ fun word hword =>
      Nat.le_of_lt_succ (word_lt_of_mem (List.mem_of_mem_take hword))
  rw [List.length_take, length_words, nsmul_eq_mul] at hbound
  push_cast at hbound
  omega

theorem onesComplementSum_eq (h : bytes.length ≤ 131074) :
    onesComplementSum bytes = foldCarries (words bytes).sum := by
  have hsum := sum_words_lt h (words bytes).length
  rw [List.take_length] at hsum
  rw [onesComplementSum, toNat_accumulate hsum]

/-- A byte string sums to 65535 when its words add up to a multiple of it, but for zero. -/
theorem onesComplementSum_eq_max_iff (h : bytes.length ≤ 131074) :
    onesComplementSum bytes = 65535 ↔ 0 < (words bytes).sum ∧ (words bytes).sum % 65535 = 0 := by
  have hle := foldCarries_le (words bytes).sum
  have hmod := foldCarries_mod (words bytes).sum
  have hzero := @foldCarries_eq_zero_iff (words bytes).sum
  rw [onesComplementSum_eq h]
  omega

theorem sum_words_eq_zero_iff : (words bytes).sum = 0 ↔ ∀ byte ∈ bytes, byte = 0 := by
  have hzero (byte : UInt8) : byte.toNat = 0 ↔ byte = 0 := by
    rw [← UInt8.toNat_inj]
    rfl
  fun_induction words bytes with
  | case1 => simp
  | case2 high => simp [hzero]
  | case3 high low rest ih => simp [hzero, and_assoc, ih]

theorem words_append (h : front.length % 2 = 0) :
    words (front ++ back) = words front ++ words back := by
  fun_induction words front with
  | case1 => rfl
  | case2 high => simp at h
  | case3 high low rest ih =>
    have hrest : rest.length % 2 = 0 := by simpa [Nat.add_assoc] using h
    simp [words, ih hrest]

theorem words_pair (h : piece.length = 2) :
    words (piece ++ back) = piece.bigEndian :: words back := by
  obtain ⟨high, low, rfl⟩ := List.length_eq_two.1 h
  simp [words, Bytes.bigEndian]

/-- Two bytes in the place of a word add what they spell to the sum without the word. -/
theorem sum_words_overwrite {offset : Nat} (heven : offset % 2 = 0) (hpiece : piece.length = 2)
    (h : offset + 2 ≤ bytes.length) :
    (words (bytes.overwrite offset piece)).sum =
      (words (bytes.overwrite offset [0, 0])).sum + piece.bigEndian := by
  have hfront : (bytes.take offset).length % 2 = 0 := by
    rw [List.length_take]
    omega
  have hzero (rest : Bytes) : words ([0, 0] ++ rest) = 0 :: words rest := rfl
  simp only [Bytes.overwrite, words_append hfront, words_pair hpiece, hpiece, hzero,
    List.length_cons, List.length_nil, Nat.reduceAdd, List.sum_append, List.sum_cons]
  omega

/-- What a unit of the byte with this index is worth in the sum. -/
def weight (index : Nat) : Nat := if index % 2 = 0 then 256 else 1

theorem sum_words_replace (front back : Bytes) (byte byte' : UInt8) :
    (words (front ++ byte' :: back)).sum + weight front.length * byte.toNat =
      (words (front ++ byte :: back)).sum + weight front.length * byte'.toNat := by
  fun_induction words front with
  | case1 =>
    cases back with
    | nil => simp [words, weight]; omega
    | cons low back => simp [words, weight]; omega
  | case2 high => simp [words, weight]; omega
  | case3 high low rest ih =>
    have hweight : weight (rest.length + 1 + 1) = weight rest.length := by
      simp [weight, Nat.add_assoc]
    simp only [List.cons_append, words, List.sum_cons, List.length_cons, hweight]
    omega

/-- A bit that is turned over is worth its power of two, more or less. -/
theorem xor_two_pow (number digit : Nat) :
    (number ^^^ 2 ^ digit) = number + 2 ^ digit ∨ (number ^^^ 2 ^ digit) + 2 ^ digit = number := by
  induction digit generalizing number with
  | zero =>
    rcases Nat.even_or_odd number with heven | hodd
    · exact .inl (Nat.xor_one_of_even heven)
    · right
      obtain ⟨half, hhalf⟩ := id hodd
      rw [Nat.pow_zero, Nat.xor_one_of_odd hodd]
      omega
  | succ digit ih =>
    have hhalf := @Nat.xor_div_two number (2 ^ (digit + 1))
    have hlast := @Nat.xor_mod_two_eq number (2 ^ (digit + 1))
    have hrest := ih (number / 2)
    rw [Nat.pow_succ, Nat.mul_div_cancel _ (by decide)] at hhalf
    rw [Nat.pow_succ] at hlast ⊢
    omega

/-- Turning over a bit changes the sum by a number that is no multiple of 65535. -/
theorem sum_words_flipBit {index : Nat} (h : index < 8 * bytes.length) :
    ∃ change, 0 < change ∧ change < 65535 ∧
      ((words (bytes.flipBit index)).sum = (words bytes).sum + change ∨
        (words (bytes.flipBit index)).sum + change = (words bytes).sum) := by
  have hinside : index / 8 < bytes.length := by omega
  have hmask := Bytes.toNat_toUInt8_two_pow (show 7 - index % 8 < 8 by omega)
  have hsplit :
      bytes = bytes.take (index / 8) ++ bytes[index / 8] :: bytes.drop (index / 8 + 1) := by
    simp
  have hflip := List.modify_eq_take_cons_drop (f := (· ^^^ (2 ^ (7 - index % 8) : Nat).toUInt8))
    hinside
  have hsum := sum_words_replace (bytes.take (index / 8)) (bytes.drop (index / 8 + 1))
    bytes[index / 8] (bytes[index / 8] ^^^ (2 ^ (7 - index % 8) : Nat).toUInt8)
  rw [← hsplit, ← hflip, UInt8.toNat_xor, hmask] at hsum
  have hdigit : 2 ^ (7 - index % 8) ≤ 2 ^ 7 := Nat.pow_le_pow_right (by decide) (by omega)
  have hpositive : 0 < 2 ^ (7 - index % 8) := Nat.two_pow_pos _
  have hweight : weight (bytes.take (index / 8)).length = 256 ∨
      weight (bytes.take (index / 8)).length = 1 := by
    unfold weight
    split <;> simp
  have hxor := xor_two_pow bytes[index / 8].toNat (7 - index % 8)
  refine ⟨weight (bytes.take (index / 8)).length * 2 ^ (7 - index % 8), ?_, ?_, ?_⟩
  · rcases hweight with hweight | hweight <;> rw [hweight] <;> omega
  · rcases hweight with hweight | hweight <;> rw [hweight] <;> omega
  · change (words (bytes.flipBit index)).sum + _ = _ at hsum
    rcases hweight with hweight | hweight <;> rw [hweight] at hsum ⊢ <;> omega

end Internet

/-- Writes the complement of the sum that the header has without its checksum. -/
def Ipv4.withChecksum (view : HeaderView) : HeaderView :=
  let sum := Internet.onesComplementSum (view.overwrite 10 [0, 0]).bytes
  view.overwrite 10 (.ofNumber 2 (~~~ sum.toUInt16).toNat)

namespace Internet

/-- What the ones' complement sum says about a byte string. -/
structure SumsUp (bytes : Bytes) : Prop where
  /-- No carry is lost, however many of the words have been added up. -/
  exact : ∀ count, (accumulate ((words bytes).take count)).toNat = ((words bytes).take count).sum
  le : onesComplementSum bytes ≤ 65535
  eq_zero_iff : onesComplementSum bytes = 0 ↔ ∀ byte ∈ bytes, byte = 0
  modEq : onesComplementSum bytes ≡ (words bytes).sum [MOD 65535]

theorem sumsUp_of_length {bytes : Bytes} (h : bytes.length ≤ 131074) : SumsUp bytes where
  exact count := toNat_accumulate (sum_words_lt h count)
  le := by
    rw [onesComplementSum_eq h]
    exact foldCarries_le _
  eq_zero_iff := by rw [onesComplementSum_eq h, foldCarries_eq_zero_iff, sum_words_eq_zero_iff]
  modEq := by
    rw [onesComplementSum_eq h]
    exact foldCarries_mod _

section Header

variable {view : HeaderView}

theorem isChecksumValid_iff (h : view.bytes.length ≤ 131074) :
    Ipv4.isChecksumValid view = true ↔
      0 < (words view.bytes).sum ∧ (words view.bytes).sum % 65535 = 0 := by
  rw [Ipv4.isChecksumValid, beq_iff_eq]
  exact onesComplementSum_eq_max_iff h

/-- The sum without the checksum and its complement add up to a multiple of 65535. -/
theorem isChecksumValid_withChecksum (hfit : view.record.stop ≤ view.data.length)
    (hlength : view.length ≤ 131074) (hroom : 12 ≤ view.length) :
    Ipv4.isChecksumValid (Ipv4.withChecksum view) = true := by
  have hbytes := HeaderView.length_bytes hfit
  have hzeroed : (view.overwrite 10 [0, 0]).bytes = view.bytes.overwrite 10 [0, 0] :=
    HeaderView.bytes_overwrite hfit hroom
  have hzeroedLength : (view.bytes.overwrite 10 [0, 0]).length = view.bytes.length :=
    Bytes.length_overwrite (hbytes ▸ hroom)
  let sum := (words (view.bytes.overwrite 10 [0, 0])).sum
  let complement : Bytes := .ofNumber 2 (~~~ (foldCarries sum).toUInt16).toNat
  have hcomplement : complement.length = 2 := Bytes.length_ofNumber 2 _
  have hwritten : (Ipv4.withChecksum view).bytes = view.bytes.overwrite 10 complement := by
    rw [Ipv4.withChecksum, hzeroed, onesComplementSum_eq (by omega),
      HeaderView.bytes_overwrite hfit (by rw [Bytes.length_ofNumber]; exact hroom)]
  have hle := foldCarries_le sum
  have hmod := foldCarries_mod sum
  have hzero := @foldCarries_eq_zero_iff sum
  have hvalue : complement.bigEndian = 65535 - foldCarries sum := by
    have hsum : (foldCarries sum).toUInt16.toNat = foldCarries sum := Nat.mod_eq_of_lt (by omega)
    rw [Bytes.bigEndian_ofNumber (UInt16.toNat_lt _), UInt16.toNat_not, hsum]
    rfl
  have hsum : (words (view.bytes.overwrite 10 complement)).sum = sum + complement.bigEndian :=
    sum_words_overwrite rfl hcomplement (hbytes ▸ hroom)
  rw [isChecksumValid_iff, hwritten, hsum, hvalue]
  · omega
  · rw [hwritten, Bytes.length_overwrite] <;> omega

theorem isChecksumValid_flipBit (hlength : view.bytes.length ≤ 131074)
    (hvalid : Ipv4.isChecksumValid view = true) {index : Nat}
    (hindex : index < 8 * view.bytes.length) :
    Ipv4.isChecksumValid (view.flipBit index) = false := by
  obtain ⟨change, hpositive, hsmall, hchange⟩ := sum_words_flipBit hindex
  have hbytes := HeaderView.bytes_flipBit view index
  have hsum := (isChecksumValid_iff hlength).1 hvalid
  rw [← Bool.not_eq_true, isChecksumValid_iff (by rwa [hbytes, Bytes.length_flipBit]), hbytes]
  omega

end Header

/-- The sum of at most 131074 bytes is computed without a loss, is zero for zeros alone, and is the
sum of the words modulo 65535. A header that the complement of its sum is written into has a valid
checksum, and a header with a valid checksum has none when any one of its bits is turned over. -/
theorem checksum_detects :
    (∀ bytes : Bytes, bytes.length ≤ 131074 → SumsUp bytes) ∧
      ∀ view : HeaderView, view.record.stop ≤ view.data.length → view.length ≤ 131074 →
        (12 ≤ view.length → Ipv4.isChecksumValid (Ipv4.withChecksum view) = true) ∧
        (Ipv4.isChecksumValid view = true →
          ∀ index < 8 * view.length, Ipv4.isChecksumValid (view.flipBit index) = false) := by
  refine ⟨fun bytes => sumsUp_of_length, fun view hfit hlength => ?_⟩
  have hbytes := HeaderView.length_bytes hfit
  refine ⟨isChecksumValid_withChecksum hfit hlength, fun hvalid index hindex => ?_⟩
  exact isChecksumValid_flipBit (hbytes ▸ hlength) hvalid (hbytes ▸ hindex)

/-- A header of twenty bytes without its checksum, behind one byte and in front of two. -/
def unsealed : HeaderView where
  data := [0xff, 0x45, 0x00, 0x00, 0x1c, 0x1c, 0x46, 0x20, 0x02, 0x40, 0x11, 0x00, 0x00, 0xc0, 0xa8,
    0x00, 0x01, 0xc0, 0xa8, 0x00, 0xc7, 0xaa, 0xbb]
  record := ⟨⟨4⟩, 1, 20, 0⟩

theorem unsealed_checksum_detects :
    unsealed.bytes.length ≤ 131074 ∧ SumsUp unsealed.bytes ∧
      Ipv4.isChecksumValid unsealed = false ∧
      Ipv4.isChecksumValid (Ipv4.withChecksum unsealed) = true ∧
      ∀ index < 160, Ipv4.isChecksumValid ((Ipv4.withChecksum unsealed).flipBit index) = false := by
  obtain ⟨hsums, hheaders⟩ := checksum_detects
  have hlength : unsealed.bytes.length ≤ 131074 := by decide
  have hinvalid : Ipv4.isChecksumValid unsealed = false := by
    rw [← Bool.not_eq_true, isChecksumValid_iff hlength]
    decide
  have hsealed := (hheaders unsealed (by decide) (by decide)).1 (by decide)
  have hdata : (Ipv4.withChecksum unsealed).data.length = unsealed.data.length :=
    Bytes.length_overwrite (by rw [Bytes.length_ofNumber]; decide)
  have hfit :
      (Ipv4.withChecksum unsealed).record.stop ≤ (Ipv4.withChecksum unsealed).data.length := by
    rw [hdata]
    decide
  have hflipped := (hheaders (Ipv4.withChecksum unsealed) hfit (by decide)).2 hsealed
  exact ⟨hlength, hsums unsealed.bytes hlength, hinvalid, hsealed, hflipped⟩

end Internet

end Dissection
