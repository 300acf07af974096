/-!
# Byte strings

A captured buffer is a list of bytes. A slice that would leave the buffer is absent, so no read
can go past the end. Numbers are read from a slice in either byte order.
-/

namespace Dissection

abbrev Bytes := List UInt8

inductive ByteOrder where
  | big
  | little
  deriving DecidableEq

namespace Bytes

/-- The bytes `[start, start + length)`, when the buffer holds all of them. -/
def slice? (data : Bytes) (start length : Nat) : Option Bytes :=
  if start + length ≤ data.length then some ((data.drop start).take length) else none

theorem slice?_eq_some_iff {data piece : Bytes} {start length : Nat} :
    slice? data start length = some piece ↔
      start + length ≤ data.length ∧ (data.drop start).take length = piece := by
  simp [slice?]

theorem slice?_eq_none_iff {data : Bytes} {start length : Nat} :
    slice? data start length = none ↔ data.length < start + length := by
  simp [slice?]

/-- The bytes `[start, stop)`, when the two places are in order and lie in the buffer. -/
def range? (data : Bytes) (start stop : Nat) : Option Bytes :=
  if start ≤ stop ∧ stop ≤ data.length then some ((data.drop start).take (stop - start)) else none

theorem range?_add (data : Bytes) (start length : Nat) :
    data.range? start (start + length) = data.slice? start length := by
  simp [range?, slice?]

/-- The sum of two counts, when 64 bits hold it. -/
def checkedSum? (a b : Nat) : Option Nat := if a + b < UInt64.size then some (a + b) else none

/-- A slice whose end is counted in 64 bits. When they do not hold it, there is no slice. -/
def checkedSlice? (data : Bytes) (start length : Nat) : Option Bytes :=
  (checkedSum? start length).bind (data.range? start)

theorem checkedSlice?_of_lt {start length : Nat} (h : start + length < UInt64.size)
    (data : Bytes) : data.checkedSlice? start length = data.slice? start length := by
  rw [checkedSlice?, checkedSum?, if_pos h, Option.bind_some, range?_add]

/-- An end that 64 bits do not hold lies behind a buffer whose bytes they count. -/
theorem checkedSlice?_eq_slice? {data : Bytes} (h : data.length < UInt64.size)
    (start length : Nat) : data.checkedSlice? start length = data.slice? start length := by
  by_cases hsum : start + length < UInt64.size
  · exact checkedSlice?_of_lt hsum data
  · rw [checkedSlice?, checkedSum?, if_neg hsum, Option.bind_none, eq_comm, slice?_eq_none_iff]
    omega

def remaining (data : Bytes) (offset : Nat) : Nat := data.length - offset

/-- The number whose base-256 digits are the bytes, most significant first. -/
def bigEndian (bytes : Bytes) : Nat := bytes.foldl (fun value byte => value * 256 + byte.toNat) 0

/-- The number whose base-256 digits are the bytes, least significant first. -/
def littleEndian (bytes : Bytes) : Nat := bytes.foldr (fun byte value => byte.toNat + 256 * value) 0

@[simp] theorem bigEndian_nil : bigEndian [] = 0 := rfl

theorem bigEndian_concat (bytes : Bytes) (last : UInt8) :
    bigEndian (bytes ++ [last]) = bigEndian bytes * 256 + last.toNat := by
  simp [bigEndian]

@[simp] theorem littleEndian_nil : littleEndian [] = 0 := rfl

@[simp] theorem littleEndian_cons (first : UInt8) (bytes : Bytes) :
    littleEndian (first :: bytes) = first.toNat + 256 * littleEndian bytes := rfl

theorem littleEndian_reverse (bytes : Bytes) : littleEndian bytes.reverse = bigEndian bytes := by
  simp only [littleEndian, bigEndian, List.foldr_reverse]
  congr 1
  funext value byte
  omega

theorem littleEndian_lt (bytes : Bytes) : littleEndian bytes < 1 <<< (8 * bytes.length) := by
  induction bytes with
  | nil => simp
  | cons first bytes ih =>
    have hfirst := first.toNat_lt
    simp only [Nat.one_shiftLeft, Nat.pow_mul, littleEndian_cons, List.length_cons,
      Nat.pow_succ] at ih ⊢
    omega

theorem bigEndian_lt (bytes : Bytes) : bigEndian bytes < 1 <<< (8 * bytes.length) := by
  rw [← littleEndian_reverse, ← List.length_reverse]
  exact littleEndian_lt _

/-- The bytes at the end of a lane that is zero in front of them. -/
def atEnd (width : Nat) (bytes : Bytes) : Bytes := bytes.leftpad width 0

/-- The bytes at the start of a lane that is zero behind them. -/
def atStart (width : Nat) (bytes : Bytes) : Bytes := bytes.rightpad width 0

theorem littleEndian_atStart (width : Nat) (bytes : Bytes) :
    (bytes.atStart width).littleEndian = bytes.littleEndian := by
  rw [atStart, List.rightpad]
  generalize width - bytes.length = count
  induction bytes with
  | nil =>
    rw [List.nil_append]
    induction count with
    | zero => rfl
    | succ count ih =>
      rw [List.replicate_succ, littleEndian_cons, ih]
      rfl
  | cons first bytes ih => rw [List.cons_append, littleEndian_cons, ih, littleEndian_cons]

theorem bigEndian_atEnd (width : Nat) (bytes : Bytes) :
    (bytes.atEnd width).bigEndian = bytes.bigEndian := by
  have hreverse : (bytes.atEnd width).reverse = Bytes.atStart width bytes.reverse := by
    simp [atEnd, atStart, List.leftpad, List.rightpad]
  rw [← littleEndian_reverse, hreverse, littleEndian_atStart, littleEndian_reverse]

def value (order : ByteOrder) (bytes : Bytes) : Nat :=
  match order with
  | .big => bigEndian bytes
  | .little => littleEndian bytes

def byte? (data : Bytes) (offset : Nat) : Option Nat := data[offset]?.map UInt8.toNat

/-- The unsigned number of `width` bytes at `offset`, when the buffer holds all of them. -/
def word? (data : Bytes) (offset width : Nat) (order : ByteOrder) : Option Nat :=
  (data.checkedSlice? offset width).map (value order)

end Bytes

end Dissection
