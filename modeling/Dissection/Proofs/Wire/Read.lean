import Dissection.Proofs.Wire.Field

/-!
# Two ways to read a number

A number of whole bytes can be read as a slice of its bytes or as a bit field. The two check the
bounds and put the bytes together in ways of their own, one with an end that is counted in 64 bits
and the other with a lane that the bytes are moved into. They accept the same places and give the
same numbers. A header is read like a buffer of its own, so none of its reads reaches a byte outside
it.
-/

namespace Dissection

/-- A plain read and the read of a field come to the same: a number, or bytes that are not there. -/
structure SameRead (plain : Option Nat) (field : Except FieldError Nat) : Prop where
  number : ∀ number, plain = some number ↔ field = .ok number
  outside : plain = none ↔ ∃ bitOffset bitLength available,
    field = .error (.outOfBounds bitOffset bitLength available)

namespace BitField

variable {offset width : Nat} {order : ByteOrder} {window : Bytes}

/-- A field of whole bytes reads the number that these spell in its order, wherever it lies. -/
theorem read_ofBytes_eq (hpositive : 0 < width) (hnarrow : width ≤ 8) :
    (ofBytes offset width order).read window = match window.slice? offset width with
      | some piece => .ok (piece.value order)
      | none => .error (.outOfBounds (offset * 8) (width * 8) window.length) := by
  have hwidth : ¬ ((ofBytes offset width order).bitLength = 0 ∨
      64 < (ofBytes offset width order).bitLength) := by
    simp only [ofBytes]
    omega
  by_cases hfit : offset + width ≤ window.length
  · have hslice := Bytes.slice?_eq_some_iff.2 ⟨hfit, rfl⟩
    rw [hslice]
    cases order with
    | big => exact read_ofBytes hpositive hnarrow hfit
    | little =>
      have hnarrow' : (ofBytes offset width .little).bitLength ≤ 64 := by omega
      rw [read, if_neg hwidth, endByte_ofBytes, if_neg (Nat.not_lt.2 hfit), extract_eq hnarrow',
        containing_ofBytes]
      simp [ofBytes, Bytes.value]
  · have hslice := Bytes.slice?_eq_none_iff.2 (Nat.lt_of_not_le hfit)
    rw [hslice, read, if_neg hwidth, endByte_ofBytes, if_pos (Nat.lt_of_not_le hfit)]
    rfl

theorem sameRead_ofBytes (order : ByteOrder) (hpositive : 0 < width) (hnarrow : width ≤ 8) :
    SameRead ((window.slice? offset width).map (Bytes.value order))
      ((ofBytes offset width order).read window) := by
  rw [read_ofBytes_eq hpositive hnarrow]
  cases window.slice? offset width with
  | none => exact ⟨by simp, by simp⟩
  | some piece => exact ⟨by simp, by simp⟩

end BitField

namespace Bytes

theorem slice?_one (data : Bytes) (offset : Nat) :
    data.slice? offset 1 = data[offset]?.map ([·]) := by
  by_cases hfit : offset < data.length
  · have htake : (data.drop offset).take 1 = [data[offset]] := by
      rw [List.take_one, List.head?_drop, List.getElem?_eq_getElem hfit, Option.toList_some]
    rw [slice?_eq_some_iff.2 ⟨hfit, htake⟩, List.getElem?_eq_getElem hfit, Option.map_some]
  · have hnone : data.length ≤ offset := Nat.le_of_not_lt hfit
    rw [slice?_eq_none_iff.2 (Nat.lt_succ_of_le hnone), List.getElem?_eq_none hnone,
      Option.map_none]

theorem byte?_eq (data : Bytes) (offset : Nat) :
    data.byte? offset = (data.slice? offset 1).map (value .big) := by
  rw [byte?, slice?_one, Option.map_map]
  congr 1
  funext byte
  simp [value, bigEndian]

/-- A read whose bits have numbers of 64 bits ends at such a place. -/
theorem word?_eq {offset width : Nat} (hbits : 8 * (offset + 8) < 2 ^ 64) (hnarrow : width ≤ 8)
    (data : Bytes) (order : ByteOrder) :
    data.word? offset width order = (data.slice? offset width).map (value order) := by
  have hstop : offset + width < UInt64.size := by
    rw [UInt64.size]
    omega
  rw [word?, checkedSlice?_of_lt hstop]

end Bytes

namespace HeaderView

variable {view : HeaderView} {offset length : Nat}

theorem sameRead_byte? (view : HeaderView) (offset : Nat) :
    SameRead (view.byte? offset) (view.field (.ofBytes offset 1)) := by
  rw [byte?, Bytes.byte?_eq]
  exact BitField.sameRead_ofBytes .big Nat.one_pos (by decide)

theorem sameRead_word? (view : HeaderView) (offset : Nat) {width : Nat} (hpositive : 0 < width)
    (hnarrow : width ≤ 8) :
    SameRead (view.word? offset width) (view.field (.ofBytes offset width)) := by
  rw [word?, toOption_bytesAt]
  exact BitField.sameRead_ofBytes .big hpositive hnarrow

theorem exists_bytesAt_iff (hrecord : view.record.stop ≤ view.data.length) :
    (∃ piece, view.bytesAt offset length = .ok piece) ↔ offset + length ≤ view.record.length := by
  have hbytes : view.bytes.length = view.record.length := length_bytes hrecord
  simp only [bytesAt_eq_ok_iff, hbytes, exists_and_left, exists_eq', and_true]

/-- The bytes are those at their places in the buffer, and these places are the header's own. -/
theorem getElem?_of_bytesAt (hrecord : view.record.stop ≤ view.data.length) {piece : Bytes}
    (h : view.bytesAt offset length = .ok piece) :
    piece.length = length ∧ ∀ index < length,
      view.record.offset + offset + index < view.record.stop ∧
        piece[index]? = view.data[view.record.offset + offset + index]? := by
  obtain ⟨hfit, rfl⟩ := bytesAt_eq_ok_iff.1 h
  have hbytes : view.bytes.length = view.record.length := length_bytes hrecord
  constructor
  · rw [List.length_take, List.length_drop]
    omega
  · intro index hindex
    have hinside : offset + index < view.record.length := by omega
    constructor
    · rw [HeaderRecord.stop]
      omega
    · rw [List.getElem?_take, if_pos hindex, List.getElem?_drop, bytes, List.getElem?_take,
        if_pos hinside, List.getElem?_drop, Nat.add_assoc]

end HeaderView

/-- Numbers and single bytes come out the same from plain reads and from fields, for a buffer in
both orders and for every header that fits into it. A header yields the bytes that it has, also when
their end is counted in 64 bits, and no others. -/
theorem plain_reads_agree (data : Bytes) :
    (∀ offset width order, 8 * (offset + 8) < 2 ^ 64 → 0 < width → width ≤ 8 →
        SameRead (data.word? offset width order)
          ((BitField.ofBytes offset width order).read data)) ∧
      ∀ (record : HeaderRecord) (view : HeaderView), record.view? data = some view → ∀ offset,
        SameRead (view.byte? offset) (view.field (.ofBytes offset 1)) ∧
        (∀ width, 0 < width → width ≤ 8 →
          SameRead (view.word? offset width) (view.field (.ofBytes offset width))) ∧
        ∀ length,
          ((∃ piece, view.bytesAt offset length = .ok piece) ↔ offset + length ≤ record.length) ∧
          (∀ piece, view.bytesAt offset length = .ok piece → piece.length = length ∧
            ∀ index < length, record.offset + offset + index < record.stop ∧
              piece[index]? = data[record.offset + offset + index]?) ∧
          (data.length < UInt64.size →
            view.bytes.checkedSlice? offset length = (view.bytesAt offset length).toOption) := by
  constructor
  · intro offset width order hbits hpositive hnarrow
    rw [Bytes.word?_eq hbits hnarrow]
    exact BitField.sameRead_ofBytes order hpositive hnarrow
  · intro record view hview offset
    obtain ⟨hrecord, rfl⟩ := HeaderRecord.view?_eq_some_iff.1 hview
    refine ⟨HeaderView.sameRead_byte? _ offset, fun width => HeaderView.sameRead_word? _ offset, ?_⟩
    intro length
    refine ⟨HeaderView.exists_bytesAt_iff hrecord,
      fun piece => HeaderView.getElem?_of_bytesAt hrecord, ?_⟩
    intro hdata
    have hbytes : (HeaderView.bytes ⟨data, record⟩).length < UInt64.size := by
      rw [HeaderView.length_bytes hrecord]
      exact Nat.lt_of_le_of_lt (Nat.le_trans (Nat.le_add_left _ _) hrecord) hdata
    rw [HeaderView.toOption_bytesAt, Bytes.checkedSlice?_eq_slice? hbytes]

/-- A header of four bytes in a buffer of six, a number in each order, and a run of bytes whose end
64 bits do not hold. -/
theorem window_reads_agree :
    let data : Bytes := [255, 69, 0, 28, 222, 173]
    let record : HeaderRecord := ⟨⟨1⟩, 1, 4, 0⟩
    let view : HeaderView := ⟨data, record⟩
    (8 * (2 + 8) < 2 ^ 64 ∧ record.view? data = some view ∧ view.bytesAt 1 2 = .ok [0, 28] ∧
        data.length < UInt64.size) ∧
      (BitField.ofBytes 2 2 .little).read data = .ok 7168 ∧
      view.field (.ofBytes 1 1) = .ok 0 ∧ view.field (.ofBytes 1 2) = .ok 28 ∧
      (∀ index < 2, record.offset + 1 + index < record.stop ∧
        [0, 28][index]? = data[record.offset + 1 + index]?) ∧
      (view.bytesAt (2 ^ 64 - 1) 2).toOption = none := by
  intro data record view
  have hview : record.view? data = some view := if_pos (by decide)
  have hpiece : view.bytesAt 1 2 = .ok [0, 28] := by
    rw [HeaderView.bytesAt_eq_ok_iff]
    decide
  have hdata : data.length < UInt64.size := by decide
  obtain ⟨hbuffer, hheader⟩ := plain_reads_agree data
  obtain ⟨hbyte, hword, hbytes⟩ := hheader record view hview 1
  have hoverflow := ((hheader record view hview (2 ^ 64 - 1)).2.2 2).2.2 hdata
  refine ⟨⟨by decide, hview, hpiece, hdata⟩, ?_, ?_, ?_, ((hbytes 2).2.1 _ hpiece).2, ?_⟩
  · exact ((hbuffer 2 2 .little (by decide) (by decide) (by decide)).number 7168).1 (by decide)
  · exact (hbyte.number 0).1 (by decide)
  · exact ((hword 2 (by decide) (by decide)).number 28).1 (by decide)
  · exact hoverflow.symm.trans (by decide)

end Dissection
