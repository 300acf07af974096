import Dissection.Scan

/-!
# Flow keys

A flow is told apart by the protocols of its headers, the bytes that are the same in both
directions, and its two endpoints. All source bytes form one endpoint and all destination bytes the
other; the lower endpoint is stored first, so a packet and its reply have the same identity and
differ in their direction alone.
-/

namespace Dissection

/-- Whether a packet travels from the lower endpoint to the upper one or back. -/
inductive FlowDirection where
  | forward
  | reverse
  deriving DecidableEq

def FlowDirection.flip : FlowDirection → FlowDirection
  | .forward => .reverse
  | .reverse => .forward

/-- What both directions of a flow have in common. -/
structure FlowIdentity where
  protocols : List ProtocolId
  fixed : Bytes
  lower : Bytes
  upper : Bytes
  deriving DecidableEq

structure FlowKey where
  identity : FlowIdentity
  direction : FlowDirection
  deriving DecidableEq

inductive FlowPart where
  | protocol (id : ProtocolId)
  | fixed (bytes : Bytes)
  | pair (source destination : Bytes)

namespace FlowPart

def protocol? : FlowPart → Option ProtocolId
  | .protocol id => some id
  | _ => none

def fixedBytes : FlowPart → Bytes
  | .fixed bytes => bytes
  | _ => []

def sourceBytes : FlowPart → Bytes
  | .pair source _ => source
  | _ => []

def destinationBytes : FlowPart → Bytes
  | .pair _ destination => destination
  | _ => []

end FlowPart

namespace FlowKey

/-- Stores two endpoints with the lower one first. -/
def orient (protocols : List ProtocolId) (fixed source destination : Bytes) : FlowKey :=
  if source ≤ destination then ⟨⟨protocols, fixed, source, destination⟩, .forward⟩
  else ⟨⟨protocols, fixed, destination, source⟩, .reverse⟩

/-- The key of a packet whose headers add the given parts; without any there is none. -/
def ofParts? (parts : List FlowPart) : Option FlowKey :=
  let protocols := parts.filterMap FlowPart.protocol?
  let fixed := parts.flatMap FlowPart.fixedBytes
  let source := parts.flatMap FlowPart.sourceBytes
  let destination := parts.flatMap FlowPart.destinationBytes
  if protocols = [] ∧ fixed = [] ∧ source = [] then none
  else some (orient protocols fixed source destination)

def source (key : FlowKey) : Bytes :=
  match key.direction with
  | .forward => key.identity.lower
  | .reverse => key.identity.upper

def destination (key : FlowKey) : Bytes :=
  match key.direction with
  | .forward => key.identity.upper
  | .reverse => key.identity.lower

def reverse (key : FlowKey) : FlowKey := { key with direction := key.direction.flip }

@[simp] theorem source_orient (protocols : List ProtocolId) (fixed source destination : Bytes) :
    (orient protocols fixed source destination).source = source := by
  by_cases h : source ≤ destination
  · rw [orient, if_pos h]
    rfl
  · rw [orient, if_neg h]
    rfl

@[simp] theorem destination_orient (protocols : List ProtocolId)
    (fixed source destination : Bytes) :
    (orient protocols fixed source destination).destination = destination := by
  by_cases h : source ≤ destination
  · rw [orient, if_pos h]
    rfl
  · rw [orient, if_neg h]
    rfl

end FlowKey

/-- The part a flow field adds, when the header holds all its bytes. -/
def HeaderView.flowPart? (view : HeaderView) : FlowField → Option FlowPart
  | .fixed offset length => (view.bytes.slice? offset length).map .fixed
  | .reversible source destination length =>
    match view.bytes.slice? source length, view.bytes.slice? destination length with
    | some sent, some received => some (.pair sent received)
    | _, _ => none

namespace FrozenRegistry

/-- What a header adds to the key of its packet: nothing when its protocol has no flow fields. -/
def flowParts? (registry : FrozenRegistry) (data : Bytes) (record : HeaderRecord) :
    Option (List FlowPart) := do
  let descriptor ← registry.lookup record.protocol
  if descriptor.flowFields = [] then return []
  let view ← record.view? data
  let parts ← descriptor.flowFields.mapM view.flowPart?
  return .protocol record.protocol :: parts

/-- The flow key of a scanned packet. There is none when no header adds to it, or when a declared
field lies outside its header. -/
def flowKey? (registry : FrozenRegistry) (chain : HeaderChain) (data : Bytes) : Option FlowKey := do
  let parts ← chain.headers.mapM (registry.flowParts? data)
  FlowKey.ofParts? parts.flatten

end FrozenRegistry

end Dissection
