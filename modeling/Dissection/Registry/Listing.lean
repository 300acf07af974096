import Dissection.Registry.Frozen
import Dissection.Text.Quoted
import Dissection.Text.Shown

/-!
# Listings

How protocols, edges and registries are shown to people.
-/

namespace Dissection

open Text (showRecord)

def ProtocolId.describe (id : ProtocolId) : String := s!"ProtocolId({id.index})"

def ByteOrder.describe : ByteOrder → String
  | .big => "Big"
  | .little => "Little"

def BitField.describe (field : BitField) : String :=
  showRecord "BitField"
    [("bit_offset", toString field.bitOffset), ("bit_length", toString field.bitLength),
      ("order", field.order.describe)]

def LengthRule.describe : LengthRule → String
  | .fixed length => s!"Fixed({length})"
  | .fromField source scale bias minimum =>
    showRecord "Field"
      [("field", source.describe), ("scale", toString scale), ("bias", toString bias),
        ("min", toString minimum)]
  | .remaining => "Remaining"
  | .measured _ => "Custom"

namespace FlowField

def showSpan (offset length : Nat) : String :=
  showRecord "ByteSpan" [("offset", toString offset), ("len", toString length)]

def describe : FlowField → String
  | .fixed offset length => s!"Fixed({showSpan offset length})"
  | .reversible source destination length =>
    showRecord "Reversible"
      [("src", showSpan source length), ("dst", showSpan destination length)]

end FlowField

def ProtocolDescriptor.describe (descriptor : ProtocolDescriptor) : String :=
  let requested := match descriptor.requestedId with
    | some id => s!"Some({id.describe})"
    | none => "None"
  let flowFields := ", ".intercalate (descriptor.flowFields.map FlowField.describe)
  showRecord "ProtocolDescriptor"
    [("requested_id", requested), ("name", Text.Quoted.quote descriptor.name),
      ("nicname", Text.Quoted.quote descriptor.nickname), ("length", descriptor.length.describe),
      ("bindings", toString descriptor.bindings.length),
      ("flow_fields", s!"[{flowFields}]")]

def Binding.describe (edge : Binding) : String :=
  showRecord "Binding"
    [("source", edge.source.describe), ("target", edge.target.describe),
      ("priority", toString edge.priority), ("sequence", toString edge.sequence)]

namespace FrozenRegistry

def name? (registry : FrozenRegistry) (id : ProtocolId) : Option String :=
  (registry.lookup id).map (·.name)

def describe (registry : FrozenRegistry) : String :=
  showRecord "FrozenRegistry"
    [("protocols", toString registry.table.size), ("bindings", toString registry.edges.length)]

/-- One line for an edge, below the line of its source. -/
def edgeLine (registry : FrozenRegistry) (edge : Binding) : String :=
  let name := (registry.name? edge.target).getD "?"
  s!"    -> {edge.target.label} {name} priority={edge.priority}\n"

/-- One line for a protocol, and one for every edge that leaves it. -/
def protocolLines (registry : FrozenRegistry) (entry : ProtocolId × ProtocolDescriptor) :
    List String :=
  let (id, descriptor) := entry
  let rule := descriptor.length.describe
  s!"{id.label} {descriptor.name} ({descriptor.nickname}) {rule}\n" ::
    (registry.bindingsFrom id).map registry.edgeLine

/-- All protocols in the order of their numbers, each with its edges in the order in which they are
tried. -/
def listing (registry : FrozenRegistry) : String :=
  .join (registry.table.entries.flatMap registry.protocolLines)

end FrozenRegistry

end Dissection
