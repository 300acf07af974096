import Dissection.Registry.Table

/-!
# Registration

A registry collects protocols and bindings by name. A name is registered once: registering it again
answers the number it has. Bindings may name protocols that are registered later; they are resolved
when the registry is frozen.
-/

namespace Dissection

structure PendingBinding where
  source : String
  declaration : BindingDeclaration

inductive RegistryError where
  | idCollision (id : ProtocolId) (existing requested : String)
  | nameConflict (name : String) (existing requested : ProtocolId)
  | unresolvedBinding (source target : String)
  | payloadBinding (source : String)
  | reservedId (id : ProtocolId)
  | idSpaceExhausted
  deriving DecidableEq

def RegistryError.message : RegistryError → String
  | .idCollision id existing requested =>
    s!"protocol id {id.label} already belongs to `{existing}`, cannot register `{requested}`"
  | .nameConflict name existing requested =>
    s!"protocol `{name}` is registered as {existing.label}, " ++
      s!"re-registration asked for {requested.label}"
  | .unresolvedBinding source target =>
    s!"binding `{source}` -> `{target}` references an unregistered protocol"
  | .payloadBinding source => s!"binding from `{source}` targets the payload pseudo-protocol"
  | .reservedId id => s!"protocol id {id.label} is reserved"
  | .idSpaceExhausted => "protocol id space exhausted"

structure Registry where
  table : ProtocolTable
  pending : List PendingBinding

namespace Registry

def payloadDescriptor : ProtocolDescriptor where
  requestedId := some .payload
  name := "payload"
  nickname := "payload"
  length := .remaining
  bindings := []
  flowFields := []

/-- The registry that only knows the pseudo-protocol of unclaimed bytes. -/
def empty : Registry := ⟨⟨[(.payload, payloadDescriptor)]⟩, []⟩

/-- The number for a name that is not registered yet: the requested one if it is free, else the
one after the greatest registered number. The greatest number of all is never given out. -/
def assignId (registry : Registry) (descriptor : ProtocolDescriptor) :
    Except RegistryError ProtocolId :=
  match descriptor.requestedId with
  | some requested =>
    if requested = .payload then .error (.reservedId requested)
    else match registry.table.lookup requested with
      | some existing => .error (.idCollision requested existing.name descriptor.name)
      | none => .ok requested
  | none =>
    if registry.table.capacity < 65535 then .ok (.ofIndex registry.table.capacity)
    else .error .idSpaceExhausted

/-- Adds a protocol under a number, and its bindings behind the pending ones. -/
def add (registry : Registry) (id : ProtocolId) (descriptor : ProtocolDescriptor) : Registry where
  table := registry.table.insert id { descriptor with bindings := [] }
  pending := registry.pending ++ descriptor.bindings.map (⟨descriptor.name, ·⟩)

/-- Registers a protocol. The bindings of a descriptor whose name is known are ignored. -/
def register (registry : Registry) (descriptor : ProtocolDescriptor) :
    Registry × Except RegistryError ProtocolId :=
  match registry.table.named? descriptor.name with
  | some existing =>
    match descriptor.requestedId with
    | some requested =>
      if requested = existing then (registry, .ok existing)
      else (registry, .error (.nameConflict descriptor.name existing requested))
    | none => (registry, .ok existing)
  | none =>
    match registry.assignId descriptor with
    | .ok id => (registry.add id descriptor, .ok id)
    | .error error => (registry, .error error)

/-- Registers protocols in turn, up to the first that is refused. -/
def registerAll (registry : Registry) :
    List ProtocolDescriptor → Registry × Except RegistryError Unit
  | [] => (registry, .ok ())
  | descriptor :: rest =>
    match registry.register descriptor with
    | (next, .ok _) => next.registerAll rest
    | (next, .error error) => (next, .error error)

def addBinding (registry : Registry) (source target : String) (priority : Int)
    (predicate : Predicate) : Registry :=
  { registry with pending := registry.pending ++ [⟨source, ⟨target, priority, predicate⟩⟩] }

end Registry

end Dissection
