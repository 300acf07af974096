import Dissection.Binding
import Dissection.Length
import Dissection.Flow.Field

/-!
# Protocol tables

A protocol is described by its names, its length rule, the protocols that may follow it and the
fields it adds to flow keys. A table holds the registered protocols in ascending order of their
numbers. A text refers to a protocol by its exact name first, and else to the protocol with the
lowest number that has it as a nickname.
-/

namespace Dissection

structure BindingDeclaration where
  target : String
  priority : Int
  predicate : Predicate

structure ProtocolDescriptor where
  requestedId : Option ProtocolId
  name : String
  nickname : String
  length : LengthRule
  bindings : List BindingDeclaration
  flowFields : List FlowField

/-- The registered protocols, in ascending order of their numbers. -/
structure ProtocolTable where
  entries : List (ProtocolId × ProtocolDescriptor)

namespace ProtocolTable

def lookup (table : ProtocolTable) (id : ProtocolId) : Option ProtocolDescriptor :=
  table.entries.lookup id

def contains (table : ProtocolTable) (id : ProtocolId) : Bool := (table.lookup id).isSome

def named? (table : ProtocolTable) (name : String) : Option ProtocolId :=
  (table.entries.find? (fun entry => entry.2.name == name)).map Prod.fst

/-- The lowest number of a protocol with this nickname. -/
def nicknamed? (table : ProtocolTable) (name : String) : Option ProtocolId :=
  (table.entries.find? (fun entry => entry.2.nickname == name)).map Prod.fst

def resolve? (table : ProtocolTable) (name : String) : Option ProtocolId :=
  (table.named? name).or (table.nicknamed? name)

def size (table : ProtocolTable) : Nat := table.entries.length

/-- One more than the greatest registered number. -/
def capacity (table : ProtocolTable) : Nat :=
  table.entries.foldl (fun capacity entry => max capacity (entry.1.index + 1)) 0

/-- Adds an entry behind the entries with smaller numbers. -/
def place (id : ProtocolId) (descriptor : ProtocolDescriptor) :
    List (ProtocolId × ProtocolDescriptor) → List (ProtocolId × ProtocolDescriptor)
  | [] => [(id, descriptor)]
  | entry :: rest =>
    if id.index < entry.1.index then (id, descriptor) :: entry :: rest
    else entry :: place id descriptor rest

def insert (table : ProtocolTable) (id : ProtocolId) (descriptor : ProtocolDescriptor) :
    ProtocolTable :=
  ⟨place id descriptor table.entries⟩

theorem contains_of_mem {table : ProtocolTable} {entry : ProtocolId × ProtocolDescriptor}
    (h : entry ∈ table.entries) : table.contains entry.1 := by
  change (table.entries.lookup entry.1).isSome
  rw [List.lookup_isSome_iff]
  exact ⟨entry, h, beq_self_eq_true entry.1⟩

/-- A text only ever refers to a registered protocol. -/
theorem contains_of_resolve? {table : ProtocolTable} {name : String} {id : ProtocolId}
    (h : table.resolve? name = some id) : table.contains id := by
  rw [resolve?, Option.or_eq_some_iff] at h
  rcases h with h | ⟨_, h⟩ <;>
  · obtain ⟨entry, hentry, rfl⟩ := Option.map_eq_some_iff.1 h
    exact contains_of_mem (List.mem_of_find?_eq_some hentry)

end ProtocolTable

end Dissection
