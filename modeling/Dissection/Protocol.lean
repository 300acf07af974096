/-!
# Protocol identifiers

Protocols are numbered with 16 bits; number 0 stands for the bytes that no protocol claimed. A set
of identifiers is kept as a strictly ascending list, so two sets with the same members are equal.
-/

namespace Dissection

structure ProtocolId where
  number : UInt16
  deriving DecidableEq

namespace ProtocolId

/-- The pseudo-protocol of unclaimed bytes. -/
def payload : ProtocolId := ⟨0⟩

def index (id : ProtocolId) : Nat := id.number.toNat

def ofIndex (index : Nat) : ProtocolId := ⟨index.toUInt16⟩

theorem index_lt (id : ProtocolId) : id.index < 65536 := id.number.toNat_lt

theorem index_inj {a b : ProtocolId} : a.index = b.index ↔ a = b := by
  cases a
  cases b
  simp [index, UInt16.toNat_inj]

theorem index_ofIndex {index : Nat} (h : index < 65536) : (ofIndex index).index = index := by
  simp [ProtocolId.index, ofIndex, Nat.mod_eq_of_lt h]

def label (id : ProtocolId) : String := s!"#{id.index}"

end ProtocolId

/-- Adds an identifier to an ascending list unless it is there already. -/
def ascendingInsert (id : ProtocolId) : List ProtocolId → List ProtocolId
  | [] => [id]
  | other :: rest =>
    if id.index < other.index then id :: other :: rest
    else if id = other then other :: rest
    else other :: ascendingInsert id rest

theorem mem_ascendingInsert {x id : ProtocolId} {ids : List ProtocolId} :
    x ∈ ascendingInsert id ids ↔ x = id ∨ x ∈ ids := by
  induction ids with
  | nil => simp [ascendingInsert]
  | cons other rest ih =>
    unfold ascendingInsert
    split
    · simp
    · split
      · next h => simp [h]
      · simp only [List.mem_cons, ih]
        constructor <;> rintro (h | h | h) <;> simp [h]

theorem pairwise_ascendingInsert {id : ProtocolId} {ids : List ProtocolId}
    (h : ids.Pairwise (fun a b => a.index < b.index)) :
    (ascendingInsert id ids).Pairwise (fun a b => a.index < b.index) := by
  induction ids with
  | nil => simp [ascendingInsert]
  | cons other rest ih =>
    obtain ⟨hother, hrest⟩ := List.pairwise_cons.1 h
    unfold ascendingInsert
    split
    · next hlt =>
      refine List.pairwise_cons.2 ⟨fun x hx => ?_, h⟩
      rcases List.mem_cons.1 hx with rfl | hx
      · exact hlt
      · exact Nat.lt_trans hlt (hother x hx)
    · next hge =>
      split
      · exact h
      · next hne =>
        refine List.pairwise_cons.2 ⟨fun x hx => ?_, ih hrest⟩
        rcases mem_ascendingInsert.1 hx with rfl | hx
        · have := mt ProtocolId.index_inj.1 hne
          omega
        · exact hother x hx

structure ProtocolSet where
  ids : List ProtocolId
  ascending : ids.Pairwise (fun a b => a.index < b.index)
  deriving DecidableEq

namespace ProtocolSet

def empty : ProtocolSet := ⟨[], .nil⟩

def insert (set : ProtocolSet) (id : ProtocolId) : ProtocolSet :=
  ⟨ascendingInsert id set.ids, pairwise_ascendingInsert set.ascending⟩

def contains (set : ProtocolSet) (id : ProtocolId) : Bool := decide (id ∈ set.ids)

def size (set : ProtocolSet) : Nat := set.ids.length

def isEmpty (set : ProtocolSet) : Bool := set.ids.isEmpty

/-- The set of the identifiers of a list, in any order and with repetitions. -/
def ofList (ids : List ProtocolId) : ProtocolSet := ids.foldl insert empty

@[simp] theorem contains_empty (id : ProtocolId) : empty.contains id = false := by
  simp [contains, empty]

@[simp] theorem contains_insert (set : ProtocolSet) (new id : ProtocolId) :
    (set.insert new).contains id = (decide (id = new) || set.contains id) := by
  simp [contains, insert, mem_ascendingInsert]

end ProtocolSet

end Dissection
