import Dissection.Flow.Key
import Mathlib.Data.List.Basic

/-!
# The flow that a packet shows

The headers of a packet show the protocols that have flow fields and the bytes in these fields, one
field after the other. The flow key of the packet is made of them, provided that every header holds
its fields. The key runs the fields together, but it keeps the protocols, and these say where each
field begins: two packets have keys of the same identity exactly when they show the same flow, or
one shows what the other does with every source and destination exchanged.
-/

namespace Dissection

/-- The `length` bytes from `offset` on, counted from the start of a header. -/
structure Span where
  offset : Nat
  length : Nat

namespace Span

def stop (span : Span) : Nat := span.offset + span.length

def bytes (span : Span) (data : Bytes) (record : HeaderRecord) : Bytes :=
  (data.drop (record.offset + span.offset)).take span.length

variable (span : Span) {data : Bytes} {record : HeaderRecord}

theorem length_bytes (hspan : span.stop ≤ record.length) (hrecord : record.stop ≤ data.length) :
    (span.bytes data record).length = span.length := by
  unfold stop at hspan
  unfold HeaderRecord.stop at hrecord
  simp only [bytes, List.length_take, List.length_drop]
  omega

theorem bytes_congr {data' : Bytes} (h : ∀ index < span.stop, span.offset ≤ index →
    data'[record.offset + index]? = data[record.offset + index]?) :
    span.bytes data' record = span.bytes data record := by
  apply List.ext_getElem?
  intro index
  simp only [bytes, List.getElem?_take, List.getElem?_drop]
  split
  · next hindex =>
    rw [Nat.add_assoc]
    exact h _ (Nat.add_lt_add_left hindex _) (Nat.le_add_right _ _)
  · rfl

theorem slice?_of_le (hspan : span.stop ≤ record.length) (hrecord : record.stop ≤ data.length) :
    (HeaderView.bytes ⟨data, record⟩).slice? span.offset span.length =
      some (span.bytes data record) := by
  have hlength : (HeaderView.bytes ⟨data, record⟩).length = record.length :=
    HeaderView.length_bytes hrecord
  unfold stop at hspan
  rw [Bytes.slice?_eq_some_iff, hlength]
  refine ⟨hspan, ?_⟩
  rw [HeaderView.bytes, List.drop_take, List.take_take, List.drop_drop,
    Nat.min_eq_left (Nat.le_sub_of_add_le' hspan)]
  rfl

theorem slice?_of_lt (hspan : record.length < span.stop) (hrecord : record.stop ≤ data.length) :
    (HeaderView.bytes ⟨data, record⟩).slice? span.offset span.length = none := by
  have hlength : (HeaderView.bytes ⟨data, record⟩).length = record.length :=
    HeaderView.length_bytes hrecord
  rw [Bytes.slice?_eq_none_iff, hlength]
  exact hspan

end Span

namespace FlowField

def fixed? : FlowField → Option Span
  | .fixed offset length => some ⟨offset, length⟩
  | .reversible .. => none

def source? : FlowField → Option Span
  | .fixed .. => none
  | .reversible source _ length => some ⟨source, length⟩

def destination? : FlowField → Option Span
  | .fixed .. => none
  | .reversible _ destination length => some ⟨destination, length⟩

def stop : FlowField → Nat
  | .fixed offset length => offset + length
  | .reversible source destination length => max source destination + length

/-- What the field adds to the key of a packet, when the header holds it. -/
def part (data : Bytes) (record : HeaderRecord) : FlowField → FlowPart
  | .fixed offset length => .fixed (Span.bytes ⟨offset, length⟩ data record)
  | .reversible source destination length =>
    .pair (Span.bytes ⟨source, length⟩ data record) (Span.bytes ⟨destination, length⟩ data record)

theorem stop_of_fixed? {field : FlowField} {span : Span} (h : field.fixed? = some span) :
    span.stop ≤ field.stop := by
  cases field <;> cases h
  exact Nat.le_refl _

theorem stop_of_source? {field : FlowField} {span : Span} (h : field.source? = some span) :
    span.stop ≤ field.stop := by
  cases field <;> cases h
  exact Nat.add_le_add_right (Nat.le_max_left _ _) _

theorem stop_of_destination? {field : FlowField} {span : Span}
    (h : field.destination? = some span) : span.stop ≤ field.stop := by
  cases field <;> cases h
  exact Nat.add_le_add_right (Nat.le_max_right _ _) _

/-- A source is as long as its destination. -/
theorem length_source? (field : FlowField) :
    field.source?.map Span.length = field.destination?.map Span.length := by
  cases field <;> rfl

variable {data : Bytes} {record : HeaderRecord}

theorem flowPart?_of_le {field : FlowField} (hfield : field.stop ≤ record.length)
    (hrecord : record.stop ≤ data.length) :
    HeaderView.flowPart? ⟨data, record⟩ field = some (field.part data record) := by
  cases field with
  | fixed offset length =>
    rw [HeaderView.flowPart?, Span.slice?_of_le ⟨offset, length⟩ hfield hrecord]
    rfl
  | reversible source destination length =>
    have hsource := Nat.le_trans (stop_of_source? rfl) hfield
    have hdestination := Nat.le_trans (stop_of_destination? rfl) hfield
    rw [HeaderView.flowPart?, Span.slice?_of_le ⟨source, length⟩ hsource hrecord,
      Span.slice?_of_le ⟨destination, length⟩ hdestination hrecord]
    rfl

theorem flowPart?_of_lt {field : FlowField} (hfield : record.length < field.stop)
    (hrecord : record.stop ≤ data.length) : HeaderView.flowPart? ⟨data, record⟩ field = none := by
  cases field with
  | fixed offset length =>
    rw [HeaderView.flowPart?, Span.slice?_of_lt ⟨offset, length⟩ hfield hrecord]
    rfl
  | reversible source destination length =>
    rw [HeaderView.flowPart?]
    split
    · next sent received hsent hreceived =>
      rw [Bytes.slice?_eq_some_iff, HeaderView.length_bytes hrecord] at hsent hreceived
      have hlength : (HeaderView.mk data record).length = record.length := rfl
      rw [stop] at hfield
      omega
    · rfl

theorem flowPart?_eq (field : FlowField) (hrecord : record.stop ≤ data.length) :
    HeaderView.flowPart? ⟨data, record⟩ field =
      if field.stop ≤ record.length then some (field.part data record) else none := by
  split
  · next hfield => exact flowPart?_of_le hfield hrecord
  · next hfield => exact flowPart?_of_lt (Nat.lt_of_not_le hfield) hrecord

end FlowField

/-- What the headers of a packet show of its flow: the protocols that have flow fields, and the
bytes in these fields. -/
structure ObservedFlow where
  protocols : List ProtocolId
  fixed : List Bytes
  sources : List Bytes
  destinations : List Bytes
  deriving DecidableEq

namespace ObservedFlow

/-- The same flow in the other direction: all sources and destinations change places at once. -/
def exchanged (flow : ObservedFlow) : ObservedFlow :=
  { flow with sources := flow.destinations, destinations := flow.sources }

def source (flow : ObservedFlow) : Bytes := flow.sources.flatten

def destination (flow : ObservedFlow) : Bytes := flow.destinations.flatten

def key (flow : ObservedFlow) : FlowKey :=
  .orient flow.protocols flow.fixed.flatten flow.source flow.destination

end ObservedFlow

namespace FrozenRegistry

/-- The flow fields of a protocol, none for a protocol that is not registered. -/
def flowFields (registry : FrozenRegistry) (protocol : ProtocolId) : List FlowField :=
  (registry.lookup protocol).elim [] (·.flowFields)

def flowBytes (registry : FrozenRegistry) (span? : FlowField → Option Span) (data : Bytes)
    (headers : List HeaderRecord) : List Bytes :=
  headers.flatMap (fun record =>
    ((registry.flowFields record.protocol).filterMap span?).map (·.bytes data record))

def observe (registry : FrozenRegistry) (data : Bytes) (headers : List HeaderRecord) :
    ObservedFlow where
  protocols := (headers.map (·.protocol)).filter (registry.flowFields · ≠ [])
  fixed := registry.flowBytes FlowField.fixed? data headers
  sources := registry.flowBytes FlowField.source? data headers
  destinations := registry.flowBytes FlowField.destination? data headers

/-- The header belongs to a registered protocol and holds all its flow fields. -/
def HoldsFields (registry : FrozenRegistry) (data : Bytes) (record : HeaderRecord) : Prop :=
  registry.contains record.protocol ∧
    (registry.flowFields record.protocol ≠ [] → record.stop ≤ data.length) ∧
    ∀ field ∈ registry.flowFields record.protocol, field.stop ≤ record.length

instance (registry : FrozenRegistry) (data : Bytes) (record : HeaderRecord) :
    Decidable (registry.HoldsFields data record) :=
  inferInstanceAs (Decidable (_ ∧ _ ∧ _))

def parts (registry : FrozenRegistry) (data : Bytes) (record : HeaderRecord) : List FlowPart :=
  if registry.flowFields record.protocol = [] then []
  else .protocol record.protocol ::
    (registry.flowFields record.protocol).map (FlowField.part data record)

variable {registry : FrozenRegistry} {data : Bytes} {record : HeaderRecord}
  {headers : List HeaderRecord}

theorem flowFields_of_lookup {descriptor : ProtocolDescriptor} {protocol : ProtocolId}
    (h : registry.lookup protocol = some descriptor) :
    registry.flowFields protocol = descriptor.flowFields := by
  rw [flowFields, h]
  rfl

/-- A function that has a value exactly where `holds` does is total on a list exactly when `holds`
holds of all its members. -/
theorem mapM_eq_ite {α β : Type} {f : α → Option β} (holds : α → Prop) [DecidablePred holds]
    (value : α → β) (hf : ∀ x, f x = if holds x then some (value x) else none) (xs : List α) :
    xs.mapM f = if ∀ x ∈ xs, holds x then some (xs.map value) else none := by
  induction xs with
  | nil => rfl
  | cons x xs ih =>
    rw [List.mapM_cons, ih, hf]
    by_cases hx : holds x
    · by_cases hxs : ∀ x ∈ xs, holds x
      · rw [if_pos hx, if_pos hxs, if_pos (List.forall_mem_cons.2 ⟨hx, hxs⟩)]
        rfl
      · rw [if_pos hx, if_neg hxs, if_neg (fun h => hxs (List.forall_mem_cons.1 h).2)]
        rfl
    · rw [if_neg hx, if_neg (fun h => hx (List.forall_mem_cons.1 h).1)]
      rfl

theorem flowParts?_eq (registry : FrozenRegistry) (data : Bytes) (record : HeaderRecord) :
    registry.flowParts? data record =
      if registry.HoldsFields data record then some (registry.parts data record) else none := by
  cases hlookup : registry.lookup record.protocol with
  | none =>
    have hunknown : ¬ registry.HoldsFields data record := by
      intro h
      have hcontains : (registry.lookup record.protocol).isSome := h.1
      simp [hlookup] at hcontains
    rw [if_neg hunknown]
    simp [flowParts?, hlookup]
  | some descriptor =>
    have hfields := flowFields_of_lookup hlookup
    have hcontains : registry.contains record.protocol :=
      Option.isSome_iff_exists.2 ⟨descriptor, hlookup⟩
    by_cases hempty : descriptor.flowFields = []
    · simp [flowParts?, hlookup, HoldsFields, parts, hfields, hempty, hcontains]
    · by_cases hrecord : record.stop ≤ data.length
      · have hview : record.view? data = some ⟨data, record⟩ :=
          HeaderRecord.view?_eq_some_iff.2 ⟨hrecord, rfl⟩
        have hmap := mapM_eq_ite _ _ (fun field => FlowField.flowPart?_eq field hrecord)
          descriptor.flowFields
        by_cases hfit : ∀ field ∈ descriptor.flowFields, field.stop ≤ record.length
        · rw [if_pos hfit] at hmap
          simp [flowParts?, hlookup, HoldsFields, parts, hfields, hempty, hcontains, hrecord, hview,
            hmap]
          exact hfit
        · rw [if_neg hfit] at hmap
          simp [flowParts?, hlookup, HoldsFields, hfields, hempty, hview, hmap, hfit]
      · simp [flowParts?, hlookup, HoldsFields, hfields, hempty, hrecord, HeaderRecord.view?]

theorem protocol?_parts (registry : FrozenRegistry) (data : Bytes) (headers : List HeaderRecord) :
    (headers.flatMap (registry.parts data)).filterMap FlowPart.protocol? =
      (registry.observe data headers).protocols := by
  have hnone (data : Bytes) (record : HeaderRecord) (fields : List FlowField) :
      (fields.map (FlowField.part data record)).filterMap FlowPart.protocol? = [] := by
    rw [List.filterMap_map, List.filterMap_eq_nil_iff]
    intro field _
    cases field <;> rfl
  induction headers with
  | nil => rfl
  | cons record rest ih =>
    simp only [observe] at ih ⊢
    rw [List.flatMap_cons, List.filterMap_append, ih, List.map_cons]
    by_cases h : registry.flowFields record.protocol = []
    · simp [parts, h]
    · simp [parts, h, hnone, FlowPart.protocol?]

/-- The bytes of one kind in the parts are those in the spans of that kind. -/
theorem flatMap_parts (bytes : FlowPart → Bytes) (span? : FlowField → Option Span)
    (hprotocol : ∀ id, bytes (.protocol id) = [])
    (hfield : ∀ data record field,
      bytes (FlowField.part data record field) = ((span? field).map (·.bytes data record)).getD [])
    (registry : FrozenRegistry) (data : Bytes) (headers : List HeaderRecord) :
    (headers.flatMap (registry.parts data)).flatMap bytes =
      (registry.flowBytes span? data headers).flatten := by
  have hfields (record : HeaderRecord) (fields : List FlowField) :
      (fields.map (FlowField.part data record)).flatMap bytes =
        ((fields.filterMap span?).map (·.bytes data record)).flatten := by
    induction fields with
    | nil => rfl
    | cons field rest ih =>
      rw [List.map_cons, List.flatMap_cons, ih, hfield, List.filterMap_cons]
      cases span? field <;> simp
  induction headers with
  | nil => rfl
  | cons record rest ih =>
    rw [List.flatMap_cons, List.flatMap_append, ih, flowBytes, flowBytes, List.flatMap_cons,
      List.flatten_append, ← hfields]
    congr 1
    by_cases h : registry.flowFields record.protocol = []
    · simp [parts, h]
    · simp [parts, h, hprotocol]

/-- A packet without contributing protocols shows no bytes either. -/
theorem flowBytes_of_no_protocols {span? : FlowField → Option Span}
    (h : (registry.observe data headers).protocols = []) :
    registry.flowBytes span? data headers = [] := by
  simp only [observe, List.filter_eq_nil_iff, List.forall_mem_map] at h
  rw [flowBytes, List.flatMap_eq_nil_iff]
  intro record hrecord
  have hfields := h record hrecord
  simp only [ne_eq, decide_not, Bool.not_eq_true', decide_eq_false_iff_not, not_not] at hfields
  rw [hfields]
  rfl

/-- A packet has a flow key exactly when every header holds its flow fields and some header has
any, and the key is that of the flow it shows. -/
theorem flowKey?_eq (registry : FrozenRegistry) (chain : HeaderChain) (data : Bytes) :
    registry.flowKey? chain data =
      if (∀ record ∈ chain.headers, registry.HoldsFields data record) ∧
          (registry.observe data chain.headers).protocols ≠ [] then
        some (registry.observe data chain.headers).key
      else none := by
  have hparts := mapM_eq_ite _ _ (registry.flowParts?_eq data) chain.headers
  by_cases hheld : ∀ record ∈ chain.headers, registry.HoldsFields data record
  · have hfixed := flatMap_parts FlowPart.fixedBytes FlowField.fixed? (fun _ => rfl)
      (fun _ _ field => by cases field <;> rfl) registry data chain.headers
    have hsource := flatMap_parts FlowPart.sourceBytes FlowField.source? (fun _ => rfl)
      (fun _ _ field => by cases field <;> rfl) registry data chain.headers
    have hdestination := flatMap_parts FlowPart.destinationBytes FlowField.destination?
      (fun _ => rfl) (fun _ _ field => by cases field <;> rfl) registry data chain.headers
    rw [if_pos hheld] at hparts
    have hkey : registry.flowKey? chain data =
        FlowKey.ofParts? (chain.headers.flatMap (registry.parts data)) := by
      rw [flowKey?, hparts]
      rfl
    rw [hkey, FlowKey.ofParts?, protocol?_parts, hfixed, hsource, hdestination]
    by_cases hnone : (registry.observe data chain.headers).protocols = []
    · simp [hnone, flowBytes_of_no_protocols hnone]
    · rw [if_neg (fun h => hnone h.1), if_pos ⟨hheld, hnone⟩]
      rfl
  · rw [if_neg hheld] at hparts
    rw [if_neg (fun h => hheld h.1), flowKey?, hparts]
    rfl

end FrozenRegistry

end Dissection
