import Dissection.KeyTable
import Dissection.Registry.Frozen
import Dissection.Registry.Graph

/-!
# Indexed registries

A registry that is asked for protocols by number and by name keeps a slot for every number up to the
greatest one it has given out, and the numbers by name. The next number to try is counted along, so
that a registration without a request need not go through all slots. Freezing turns the pending
bindings into a graph and keeps the slots and the names.
-/

namespace Dissection

/-- The slots of protocols, by number. -/
abbrev ProtocolSlots := List (Option ProtocolDescriptor)

namespace ProtocolSlots

def lookup (slots : ProtocolSlots) (id : ProtocolId) : Option ProtocolDescriptor :=
  slots[id.index]?.join

def size (slots : ProtocolSlots) : Nat := slots.countP Option.isSome

/-- Puts a protocol into the slot of a number, behind as many free slots as are missing. -/
def store (slots : ProtocolSlots) (id : ProtocolId) (descriptor : ProtocolDescriptor) :
    ProtocolSlots :=
  (slots.rightpad (id.index + 1) none).set id.index (some descriptor)

/-- The first number from `candidate` on whose slot is free. Behind the greatest number of 16 bits
there is none. -/
def firstFree (slots : ProtocolSlots) (candidate : Nat) : Except RegistryError Nat :=
  if _htaken : slots[candidate]?.join.isSome then
    if candidate = 65535 then .error .idSpaceExhausted else slots.firstFree (candidate + 1)
  else .ok candidate
termination_by slots.length - candidate
decreasing_by
  have hinside : candidate < slots.length := Nat.lt_of_not_le fun hbeyond => by
    simp [List.getElem?_eq_none hbeyond] at _htaken
  omega

/-- The lowest number of a protocol with this nickname. -/
def nicknamed? (slots : ProtocolSlots) (nickname : String) : Option ProtocolId :=
  (slots.findIdx? (fun slot => slot.any (·.nickname == nickname))).map ProtocolId.ofIndex

/-- The protocol a text refers to: the one with exactly this name, else the lowest number with this
nickname. -/
def resolve? (slots : ProtocolSlots) (names : KeyTable String ProtocolId) (text : String) :
    Option ProtocolId :=
  (names.find? text).or (slots.nicknamed? text)

end ProtocolSlots

structure IndexedRegistry where
  slots : ProtocolSlots
  names : KeyTable String ProtocolId
  pending : List PendingBinding
  /-- The number at which the search for a free one begins. -/
  nextId : Nat

/-- An indexed registry whose bindings are resolved. -/
structure IndexedFrozen where
  slots : ProtocolSlots
  names : KeyTable String ProtocolId
  graph : BindingGraph

namespace IndexedRegistry

/-- The registry that only knows the pseudo-protocol of unclaimed bytes. -/
def empty : IndexedRegistry where
  slots := [some Registry.payloadDescriptor]
  names := KeyTable.insert {} Registry.payloadDescriptor.name .payload
  pending := []
  nextId := 1

def lookup (registry : IndexedRegistry) (id : ProtocolId) : Option ProtocolDescriptor :=
  registry.slots.lookup id

def resolve? (registry : IndexedRegistry) (text : String) : Option ProtocolId :=
  registry.slots.resolve? registry.names text

/-- A number for a name that does not ask for one. The greatest number of all is never given out. -/
def allocate (registry : IndexedRegistry) : Except RegistryError ProtocolId :=
  match registry.slots.firstFree registry.nextId with
  | .error error => .error error
  | .ok candidate =>
    if candidate = 65535 then .error .idSpaceExhausted else .ok (.ofIndex candidate)

def assignId (registry : IndexedRegistry) (descriptor : ProtocolDescriptor) :
    Except RegistryError ProtocolId :=
  match descriptor.requestedId with
  | some requested =>
    if requested = .payload then .error (.reservedId requested)
    else match registry.lookup requested with
      | some existing => .error (.idCollision requested existing.name descriptor.name)
      | none => .ok requested
  | none => registry.allocate

def add (registry : IndexedRegistry) (id : ProtocolId) (descriptor : ProtocolDescriptor) :
    IndexedRegistry where
  slots := registry.slots.store id { descriptor with bindings := [] }
  names := registry.names.insert descriptor.name id
  pending := registry.pending ++ descriptor.bindings.map (⟨descriptor.name, ·⟩)
  nextId := max registry.nextId (min (id.index + 1) 65535)

def register (registry : IndexedRegistry) (descriptor : ProtocolDescriptor) :
    IndexedRegistry × Except RegistryError ProtocolId :=
  match registry.names.find? descriptor.name with
  | some existing =>
    match descriptor.requestedId with
    | some requested =>
      if requested = existing then (registry, .ok existing)
      else (registry, .error (.nameConflict descriptor.name existing requested))
    | none => (registry, .ok existing)
  | none =>
    match registry.assignId descriptor with
    | .ok id => (registry.add id descriptor, .ok id)
    | .error error => (registry, .error error)

def registerAll (registry : IndexedRegistry) :
    List ProtocolDescriptor → IndexedRegistry × Except RegistryError Unit
  | [] => (registry, .ok ())
  | descriptor :: rest =>
    match registry.register descriptor with
    | (next, .ok _) => next.registerAll rest
    | (next, .error error) => (next, .error error)

def addBinding (registry : IndexedRegistry) (source target : String) (priority : Int)
    (predicate : Predicate) : IndexedRegistry :=
  { registry with pending := registry.pending ++ [⟨source, ⟨target, priority, predicate⟩⟩] }

def edge (registry : IndexedRegistry) (sequence : Nat) (pending : PendingBinding) :
    Except RegistryError Binding :=
  let declaration := pending.declaration
  match registry.resolve? pending.source, registry.resolve? declaration.target with
  | some source, some target =>
    if target = .payload then .error (.payloadBinding pending.source)
    else .ok ⟨source, target, declaration.priority, sequence, declaration.predicate⟩
  | _, _ => .error (.unresolvedBinding pending.source declaration.target)

def edges (registry : IndexedRegistry) (sequence : Nat) :
    List PendingBinding → Except RegistryError (List Binding)
  | [] => .ok []
  | pending :: rest =>
    match registry.edge sequence pending with
    | .error error => .error error
    | .ok first =>
      match registry.edges (sequence + 1) rest with
      | .error error => .error error
      | .ok later => .ok (first :: later)

def freeze (registry : IndexedRegistry) : Except RegistryError IndexedFrozen :=
  match registry.edges 0 registry.pending with
  | .error error => .error error
  | .ok edges => .ok ⟨registry.slots, registry.names, .ofEdges registry.slots.length edges⟩

end IndexedRegistry

namespace IndexedFrozen

def lookup (registry : IndexedFrozen) (id : ProtocolId) : Option ProtocolDescriptor :=
  registry.slots.lookup id

def contains (registry : IndexedFrozen) (id : ProtocolId) : Bool := (registry.lookup id).isSome

def resolve? (registry : IndexedFrozen) (text : String) : Option ProtocolId :=
  registry.slots.resolve? registry.names text

def bindingsFrom (registry : IndexedFrozen) (source : ProtocolId) : List Binding :=
  registry.graph.bindingsFrom source

end IndexedFrozen

end Dissection
