import Dissection.Bytes
import Mathlib.Data.List.Basic

/-!
# Bytes that change places

An exchange lets two runs of bytes of a buffer change places. When several are made, one after the
other, and no two of them touch a common byte, a byte that one of them touches ends up where this
one takes it, and a byte that none of them touches stays where it is.
-/

namespace Dissection

/-- The `length` bytes from `first` on and as many from `second` on. -/
structure Exchange where
  first : Nat
  second : Nat
  length : Nat

namespace Exchange

def Touches (exchange : Exchange) (index : Nat) : Prop :=
  exchange.first ≤ index ∧ index < exchange.first + exchange.length ∨
    exchange.second ≤ index ∧ index < exchange.second + exchange.length

instance (exchange : Exchange) (index : Nat) : Decidable (exchange.Touches index) :=
  inferInstanceAs (Decidable (_ ∨ _))

/-- Where the byte was that is at `index` afterwards. -/
def origin (exchange : Exchange) (index : Nat) : Nat :=
  if exchange.first ≤ index ∧ index < exchange.first + exchange.length then
    exchange.second + (index - exchange.first)
  else if exchange.second ≤ index ∧ index < exchange.second + exchange.length then
    exchange.first + (index - exchange.second)
  else index

def apply (data : Bytes) (exchange : Exchange) : Bytes :=
  data.mapIdx (fun index byte => data.getD (exchange.origin index) byte)

def Fits (exchange : Exchange) (size : Nat) : Prop := ∀ index, exchange.Touches index → index < size

def Apart (a b : Exchange) : Prop := ∀ index, a.Touches index → ¬ b.Touches index

variable {exchange : Exchange} {data : Bytes} {index : Nat}

theorem origin_of_not_touches (h : ¬ exchange.Touches index) : exchange.origin index = index := by
  obtain ⟨hfirst, hsecond⟩ := not_or.1 h
  rw [origin, if_neg hfirst, if_neg hsecond]

theorem touches_origin (h : exchange.Touches index) :
    exchange.Touches (exchange.origin index) := by
  rw [origin]
  split
  · exact .inr (by omega)
  · next hfirst =>
    have hsecond := h.resolve_left hfirst
    rw [if_pos hsecond]
    exact .inl (by omega)

@[simp] theorem length_apply (data : Bytes) (exchange : Exchange) :
    (apply data exchange).length = data.length := List.length_mapIdx

theorem getElem?_apply_of_not_touches (h : ¬ exchange.Touches index) :
    (apply data exchange)[index]? = data[index]? := by
  rw [apply, List.getElem?_mapIdx, origin_of_not_touches h]
  cases hbyte : data[index]? with
  | none => rfl
  | some byte => simp [hbyte]

theorem getElem?_apply_of_touches (hfit : exchange.Fits data.length) (h : exchange.Touches index) :
    (apply data exchange)[index]? = data[exchange.origin index]? := by
  have hindex := hfit index h
  have horigin := hfit _ (touches_origin h)
  rw [apply, List.getElem?_mapIdx, List.getElem?_eq_getElem hindex,
    List.getElem?_eq_getElem horigin]
  simp [horigin]

variable {exchanges : List Exchange}

@[simp] theorem length_foldl_apply (exchanges : List Exchange) (data : Bytes) :
    (exchanges.foldl apply data).length = data.length := by
  induction exchanges generalizing data with
  | nil => rfl
  | cons exchange rest ih => rw [List.foldl_cons, ih, length_apply]

theorem getElem?_foldl_of_not_touches (h : ∀ exchange ∈ exchanges, ¬ exchange.Touches index) :
    (exchanges.foldl apply data)[index]? = data[index]? := by
  induction exchanges generalizing data with
  | nil => rfl
  | cons exchange rest ih =>
    obtain ⟨hfirst, hrest⟩ := List.forall_mem_cons.1 h
    rw [List.foldl_cons, ih hrest, getElem?_apply_of_not_touches hfirst]

theorem getElem?_foldl_of_touches (hapart : exchanges.Pairwise Apart)
    (hfit : ∀ exchange ∈ exchanges, exchange.Fits data.length) (hmem : exchange ∈ exchanges)
    (h : exchange.Touches index) :
    (exchanges.foldl apply data)[index]? = data[exchange.origin index]? := by
  induction exchanges generalizing data with
  | nil => cases hmem
  | cons other rest ih =>
    obtain ⟨hother, hrest⟩ := List.pairwise_cons.1 hapart
    rw [List.foldl_cons]
    rcases List.mem_cons.1 hmem with rfl | hlater
    · rw [getElem?_foldl_of_not_touches (fun later hlater => hother later hlater index h),
        getElem?_apply_of_touches (hfit _ hmem) h]
    · -- what comes before leaves both runs alone
      have huntouched : ¬ other.Touches (exchange.origin index) := fun htouches =>
        hother exchange hlater _ htouches (touches_origin h)
      rw [ih hrest (fun later hlater => by
        rw [length_apply]
        exact hfit later (List.mem_cons_of_mem _ hlater)) hlater,
        getElem?_apply_of_not_touches huntouched]

theorem take_drop_foldl (hapart : exchanges.Pairwise Apart)
    (hfit : ∀ exchange ∈ exchanges, exchange.Fits data.length) (hmem : exchange ∈ exchanges)
    (hruns : exchange.first + exchange.length ≤ exchange.second) :
    ((exchanges.foldl apply data).drop exchange.first).take exchange.length =
        (data.drop exchange.second).take exchange.length ∧
      ((exchanges.foldl apply data).drop exchange.second).take exchange.length =
        (data.drop exchange.first).take exchange.length := by
  have hmoved (offset : Nat) (hoffset : offset < exchange.length) :
      (exchanges.foldl apply data)[exchange.first + offset]? = data[exchange.second + offset]? ∧
        (exchanges.foldl apply data)[exchange.second + offset]? =
          data[exchange.first + offset]? := by
    have hfirst : exchange.origin (exchange.first + offset) = exchange.second + offset := by
      rw [origin, if_pos (by omega), Nat.add_sub_cancel_left]
    have hsecond : exchange.origin (exchange.second + offset) = exchange.first + offset := by
      rw [origin, if_neg (by omega), if_pos (by omega), Nat.add_sub_cancel_left]
    rw [getElem?_foldl_of_touches hapart hfit hmem (.inl (by omega)), hfirst,
      getElem?_foldl_of_touches hapart hfit hmem (.inr (by omega)), hsecond]
    exact ⟨rfl, rfl⟩
  constructor
  · apply List.ext_getElem?
    intro offset
    simp only [List.getElem?_take, List.getElem?_drop]
    split
    · next hoffset => exact (hmoved offset hoffset).1
    · rfl
  · apply List.ext_getElem?
    intro offset
    simp only [List.getElem?_take, List.getElem?_drop]
    split
    · next hoffset => exact (hmoved offset hoffset).2
    · rfl

end Exchange

end Dissection
