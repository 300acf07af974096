import Dissection.Proofs.Flow.Observed
import Dissection.Layer.Catalogue
import Mathlib.Data.List.Flatten

/-!
# What flow keys identify

The fields of a flow run together in its key, but the protocols are kept, and with them the length
of every field: packets whose keys have the same identity show the same flow, or one shows what the
other does with every source and destination exchanged at once. Which of the two it is can be told
from the directions of the keys.
-/

namespace Dissection

namespace FlowKey

variable {protocols protocols' : List ProtocolId}
  {fixed fixed' source source' destination destination' : Bytes}

/-- Endpoints are stored by their order, so exchanging them is all that the identity forgets. -/
theorem identity_orient_eq_iff :
    (orient protocols fixed source destination).identity =
        (orient protocols' fixed' source' destination').identity ↔
      protocols = protocols' ∧ fixed = fixed' ∧
        (source = source' ∧ destination = destination' ∨
          source = destination' ∧ destination = source') := by
  by_cases h : source ≤ destination
  · by_cases h' : source' ≤ destination'
    · have hequal : source = destination' → destination = source' → source = source' := by
        rintro rfl rfl
        exact List.le_antisymm h h'
      simp only [orient, if_pos h, if_pos h', FlowIdentity.mk.injEq]
      grind
    · have hdistinct : source = source' → destination = destination' → False := by
        rintro rfl rfl
        exact h' h
      simp only [orient, if_pos h, if_neg h', FlowIdentity.mk.injEq]
      grind
  · by_cases h' : source' ≤ destination'
    · have hdistinct : source = source' → destination = destination' → False := by
        rintro rfl rfl
        exact h h'
      simp only [orient, if_neg h, if_pos h', FlowIdentity.mk.injEq]
      grind
    · have hdistinct : source = destination' → destination = source' → False := by
        rintro rfl rfl
        exact (List.le_total _ _).elim h h'
      simp only [orient, if_neg h, if_neg h', FlowIdentity.mk.injEq]
      grind

theorem direction_orient_eq_iff :
    (orient protocols fixed source destination).direction =
        (orient protocols' fixed' source' destination').direction ↔
      (source ≤ destination ↔ source' ≤ destination') := by
  by_cases h : source ≤ destination <;> by_cases h' : source' ≤ destination' <;>
    simp [orient, h, h']

/-- Two endpoints are in order both ways round only when they are equal. -/
theorem le_comm_iff : (source ≤ destination ↔ destination ≤ source) ↔ source = destination := by
  constructor
  · intro h
    rcases List.le_total source destination with hle | hle
    · exact List.le_antisymm hle (h.1 hle)
    · exact List.le_antisymm (h.2 hle) hle
  · rintro rfl
    rfl

/-- Among keys of one identity, the direction tells an exchange of different endpoints. -/
theorem direction_orient_ne_iff
    (hends : source = source' ∧ destination = destination' ∨
      source = destination' ∧ destination = source') :
    (orient protocols fixed source destination).direction ≠
        (orient protocols' fixed' source' destination').direction ↔
      source ≠ destination ∧ source = destination' ∧ destination = source' := by
  rw [Ne, direction_orient_eq_iff]
  rcases hends with ⟨rfl, rfl⟩ | ⟨rfl, rfl⟩
  · simp only [not_true_eq_false, false_iff]
    rintro ⟨hne, heq, _⟩
    exact hne heq
  · simp [le_comm_iff]

end FlowKey

namespace ObservedFlow

@[simp] theorem key_source (flow : ObservedFlow) : flow.key.source = flow.source :=
  FlowKey.source_orient _ _ _ _

@[simp] theorem key_destination (flow : ObservedFlow) :
    flow.key.destination = flow.destination :=
  FlowKey.destination_orient _ _ _ _

end ObservedFlow

namespace FrozenRegistry

/-- The lengths of one kind of span in the flow fields of a protocol. -/
def spanLengths (registry : FrozenRegistry) (span? : FlowField → Option Span)
    (protocol : ProtocolId) : List Nat :=
  (registry.flowFields protocol).filterMap (fun field => (span? field).map Span.length)

variable {registry : FrozenRegistry} {data : Bytes} {headers : List HeaderRecord}

/-- When the headers hold their flow fields, the contributing protocols tell how long the bytes in
each of them are. -/
theorem lengths_flowBytes (span? : FlowField → Option Span)
    (hspan : ∀ field span, span? field = some span → span.stop ≤ field.stop)
    (hheld : ∀ record ∈ headers, registry.HoldsFields data record) :
    (registry.flowBytes span? data headers).map List.length =
      (registry.observe data headers).protocols.flatMap (registry.spanLengths span?) := by
  induction headers with
  | nil => rfl
  | cons record rest ih =>
    obtain ⟨hrecord, hrest⟩ := List.forall_mem_cons.1 hheld
    have hlater := ih hrest
    simp only [flowBytes, observe] at hlater ⊢
    rw [List.flatMap_cons, List.map_append, hlater, List.map_cons, List.filter_cons]
    by_cases hempty : registry.flowFields record.protocol = []
    · simp [hempty]
    · have hlengths : (((registry.flowFields record.protocol).filterMap span?).map
          (·.bytes data record)).map List.length =
            registry.spanLengths span? record.protocol := by
        rw [spanLengths, List.map_map, ← List.map_filterMap]
        apply List.map_congr_left
        intro span hmem
        obtain ⟨field, hfield, hsome⟩ := List.mem_filterMap.1 hmem
        exact span.length_bytes (Nat.le_trans (hspan field span hsome) (hrecord.2.2 field hfield))
          (hrecord.2.1 hempty)
      rw [hlengths]
      simp [hempty]

end FrozenRegistry

namespace ObservedFlow

/-- Every field has the length that the protocols say. -/
structure Fits (registry : FrozenRegistry) (flow : ObservedFlow) : Prop where
  fixed : flow.fixed.map List.length =
    flow.protocols.flatMap (registry.spanLengths FlowField.fixed?)
  sources : flow.sources.map List.length =
    flow.protocols.flatMap (registry.spanLengths FlowField.source?)
  destinations : flow.destinations.map List.length =
    flow.protocols.flatMap (registry.spanLengths FlowField.source?)

variable {registry : FrozenRegistry} {flow other : ObservedFlow}

theorem Fits.exchanged (h : flow.Fits registry) : flow.exchanged.Fits registry :=
  ⟨h.fixed, h.destinations, h.sources⟩

/-- The protocols tell where the fields begin that run together in a key. -/
theorem Fits.eq (h : flow.Fits registry) (h' : other.Fits registry)
    (hprotocols : flow.protocols = other.protocols)
    (hfixed : flow.fixed.flatten = other.fixed.flatten) (hsource : flow.source = other.source)
    (hdestination : flow.destination = other.destination) : flow = other := by
  have hfields : flow.fixed = other.fixed := by
    rw [List.eq_iff_flatten_eq, h.fixed, h'.fixed, hprotocols]
    exact ⟨hfixed, rfl⟩
  have hsources : flow.sources = other.sources := by
    rw [List.eq_iff_flatten_eq, h.sources, h'.sources, hprotocols]
    exact ⟨hsource, rfl⟩
  have hdestinations : flow.destinations = other.destinations := by
    rw [List.eq_iff_flatten_eq, h.destinations, h'.destinations, hprotocols]
    exact ⟨hdestination, rfl⟩
  cases flow
  cases other
  simp_all

theorem ends_of_eq_or (h : flow = other ∨ flow = other.exchanged) :
    flow.source = other.source ∧ flow.destination = other.destination ∨
      flow.source = other.destination ∧ flow.destination = other.source := by
  rcases h with rfl | rfl
  · exact .inl ⟨rfl, rfl⟩
  · exact .inr ⟨rfl, rfl⟩

theorem Fits.identity_key_eq_iff (h : flow.Fits registry) (h' : other.Fits registry) :
    flow.key.identity = other.key.identity ↔ flow = other ∨ flow = other.exchanged := by
  rw [key, key, FlowKey.identity_orient_eq_iff]
  constructor
  · rintro ⟨hprotocols, hfixed, ⟨hsource, hdestination⟩ | ⟨hsource, hdestination⟩⟩
    · exact .inl (h.eq h' hprotocols hfixed hsource hdestination)
    · exact .inr (h.eq h'.exchanged hprotocols hfixed hsource hdestination)
  · intro hflow
    refine ⟨?_, ?_, ends_of_eq_or hflow⟩
    · rcases hflow with rfl | rfl <;> rfl
    · rcases hflow with rfl | rfl <;> rfl

end ObservedFlow

namespace FrozenRegistry

variable {registry : FrozenRegistry} {data : Bytes} {headers : List HeaderRecord}

theorem fits_observe (hheld : ∀ record ∈ headers, registry.HoldsFields data record) :
    (registry.observe data headers).Fits registry where
  fixed := lengths_flowBytes FlowField.fixed? (fun _ _ => FlowField.stop_of_fixed?) hheld
  sources := lengths_flowBytes FlowField.source? (fun _ _ => FlowField.stop_of_source?) hheld
  destinations := by
    have hlengths :=
      lengths_flowBytes FlowField.destination? (fun _ _ => FlowField.stop_of_destination?) hheld
    have hsame : registry.spanLengths FlowField.destination? =
        registry.spanLengths FlowField.source? := by
      funext protocol
      simp only [spanLengths, FlowField.length_source?]
    rw [hsame] at hlengths
    exact hlengths

theorem of_flowKey?_eq_some {chain : HeaderChain} {key : FlowKey}
    (h : registry.flowKey? chain data = some key) :
    (∀ record ∈ chain.headers, registry.HoldsFields data record) ∧
      (registry.observe data chain.headers).key = key := by
  rw [flowKey?_eq] at h
  split at h
  · next hheld => exact ⟨hheld.1, Option.some.inj h⟩
  · cases h

/-- Two packets with flow keys over one registry have keys of the same identity exactly when they
show the same flow, field by field, or one shows what the other does with all sources and
destinations exchanged. A key gives its packet's own endpoints, and of two keys of the same
identity the directions differ exactly when different endpoints are exchanged. -/
theorem same_identity_iff_same_flow (registry : FrozenRegistry) (config₁ config₂ : ScanConfig)
    (root₁ root₂ : ProtocolId) (data₁ data₂ : Bytes) (key₁ key₂ : FlowKey)
    (h₁ : registry.flowKey? (registry.scan config₁ root₁ data₁) data₁ = some key₁)
    (h₂ : registry.flowKey? (registry.scan config₂ root₂ data₂) data₂ = some key₂) :
    let flow₁ := registry.observe data₁ (registry.scan config₁ root₁ data₁).headers
    let flow₂ := registry.observe data₂ (registry.scan config₂ root₂ data₂).headers
    (key₁.identity = key₂.identity ↔ flow₁ = flow₂ ∨ flow₁ = flow₂.exchanged) ∧
      (key₁.source = flow₁.sources.flatten ∧ key₁.destination = flow₁.destinations.flatten) ∧
      (key₂.source = flow₂.sources.flatten ∧ key₂.destination = flow₂.destinations.flatten) ∧
      (key₁.identity = key₂.identity → (key₁.direction ≠ key₂.direction ↔
        key₁.source ≠ key₁.destination ∧
          key₁.source = key₂.destination ∧ key₁.destination = key₂.source)) := by
  intro flow₁ flow₂
  obtain ⟨hheld₁, rfl⟩ := of_flowKey?_eq_some h₁
  obtain ⟨hheld₂, rfl⟩ := of_flowKey?_eq_some h₂
  have hidentity := (fits_observe hheld₁).identity_key_eq_iff (fits_observe hheld₂)
  refine ⟨hidentity, ⟨flow₁.key_source, flow₁.key_destination⟩,
    ⟨flow₂.key_source, flow₂.key_destination⟩, fun hsame => ?_⟩
  rw [ObservedFlow.key_source, ObservedFlow.key_destination, ObservedFlow.key_source,
    ObservedFlow.key_destination]
  exact FlowKey.direction_orient_ne_iff (ObservedFlow.ends_of_eq_or (hidentity.1 hsame))

/-- A datagram of UDP, captured with its link header. -/
def question : Bytes :=
  [2, 0, 0, 0, 0, 2, 2, 0, 0, 0, 0, 1, 8, 0,
    69, 0, 0, 28, 0, 1, 0, 0, 64, 17, 0, 0, 10, 0, 0, 1, 10, 0, 0, 2,
    192, 0, 0, 53, 0, 8, 0, 0]

/-- The reply to it, captured without a link header and with an option in its IPv4 header. -/
def answer : Bytes :=
  [70, 0, 0, 32, 0, 9, 0, 0, 57, 17, 0, 0, 10, 0, 0, 2, 10, 0, 0, 1, 148, 4, 0, 0,
    0, 53, 192, 0, 0, 8, 0, 0]

def questionKey : FlowKey :=
  ⟨⟨[BuiltIn.ipv4.id, BuiltIn.udp.id], [17], [10, 0, 0, 1, 192, 0], [10, 0, 0, 2, 0, 53]⟩,
    .forward⟩

theorem answer_of_question :
    builtIn.flowKey? (builtIn.scan {} BuiltIn.ethernet.id question) question = some questionKey ∧
      builtIn.flowKey? (builtIn.scan {} BuiltIn.ipv4.id answer) answer = some questionKey.reverse ∧
      (builtIn.observe question (builtIn.scan {} BuiltIn.ethernet.id question).headers =
          builtIn.observe answer (builtIn.scan {} BuiltIn.ipv4.id answer).headers ∨
        builtIn.observe question (builtIn.scan {} BuiltIn.ethernet.id question).headers =
          (builtIn.observe answer (builtIn.scan {} BuiltIn.ipv4.id answer).headers).exchanged) ∧
      questionKey.source ≠ questionKey.destination := by
  have hquestion : builtIn.flowKey? (builtIn.scan {} BuiltIn.ethernet.id question) question =
      some questionKey := by
    decide +kernel
  have hanswer : builtIn.flowKey? (builtIn.scan {} BuiltIn.ipv4.id answer) answer =
      some questionKey.reverse := by
    decide +kernel
  have h := same_identity_iff_same_flow builtIn {} {} BuiltIn.ethernet.id BuiltIn.ipv4.id question
    answer questionKey questionKey.reverse hquestion hanswer
  exact ⟨hquestion, hanswer, h.1.1 rfl, ((h.2.2.2 rfl).1 (by decide)).1⟩

end FrozenRegistry

end Dissection
