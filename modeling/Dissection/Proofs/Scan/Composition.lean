import Dissection.Proofs.Scan.Layout
import Dissection.Proofs.Scan.Limits

/-!
# The bytes behind a header are scanned on their own

When every edge judges the bytes of the current header and the bytes behind it, and nothing else, a
scan treats what follows the first header as a buffer of its own. Its chain is the first header and
the chain of the rest, moved to its place: offsets count from the start of the whole buffer, and
ordinals count the headers of the whole chain.
-/

namespace Dissection

namespace HeaderRecord

/-- The record in a buffer with `distance` more bytes in front. -/
def shifted (record : HeaderRecord) (distance : Nat) : HeaderRecord :=
  { record with offset := distance + record.offset }

@[simp] theorem stop_shifted (record : HeaderRecord) (distance : Nat) :
    (record.shifted distance).stop = distance + record.stop :=
  Nat.add_assoc distance record.offset record.length

/-- The record with the ordinal that it has behind the records `earlier`. -/
def numberedBehind (record : HeaderRecord) (earlier : List HeaderRecord) : HeaderRecord :=
  { record with ordinal := earlier.countP (·.protocol = record.protocol) }

/-- The records with the ordinals that they have in a row behind the records `earlier`. -/
def renumber (earlier : List HeaderRecord) : List HeaderRecord → List HeaderRecord
  | [] => []
  | record :: rest =>
    record.numberedBehind earlier :: renumber (earlier ++ [record.numberedBehind earlier]) rest

theorem renumber_append (earlier records more : List HeaderRecord) :
    renumber earlier (records ++ more) =
      renumber earlier records ++ renumber (earlier ++ renumber earlier records) more := by
  induction records generalizing earlier with
  | nil => simp [renumber]
  | cons record rest ih => simp [renumber, ih]

theorem stopAfter_renumber (start : Nat) (earlier records : List HeaderRecord) :
    stopAfter start (renumber earlier records) = stopAfter start records := by
  induction records generalizing start earlier with
  | nil => rfl
  | cons record rest ih =>
    rw [renumber, stopAfter_cons, stopAfter_cons, ih]
    rfl

theorem stopAfter_shifted (start distance : Nat) (records : List HeaderRecord) :
    stopAfter (distance + start) (records.map (·.shifted distance)) =
      distance + stopAfter start records := by
  induction records generalizing start with
  | nil => rfl
  | cons record rest ih => rw [List.map_cons, stopAfter_cons, stopAfter_cons, stop_shifted, ih]

end HeaderRecord

open HeaderRecord (renumber stopAfter)

def LengthError.shifted (error : LengthError) (distance : Nat) : LengthError :=
  match error with
  | .truncated protocol offset needed available =>
    .truncated protocol (distance + offset) needed available
  | .overrun protocol offset length available =>
    .overrun protocol (distance + offset) length available
  | .malformed protocol offset length minimum =>
    .malformed protocol (distance + offset) length minimum
  | .unregistered protocol offset => .unregistered protocol (distance + offset)

def Termination.shifted (termination : Termination) (distance : Nat) : Termination :=
  match termination with
  | .length error => .length (error.shifted distance)
  | other => other

def Diagnostic.shifted (diagnostic : Diagnostic) (distance : Nat) : Diagnostic :=
  { diagnostic with offset := distance + diagnostic.offset }

/-- The walk in a buffer with `distance` more bytes in front, which hold the headers `earlier`. -/
def Walk.shifted (walk : Walk) (earlier : List HeaderRecord) (distance : Nat) : Walk :=
  ⟨renumber earlier (walk.headers.map (·.shifted distance)), walk.termination.shifted distance,
    walk.diagnostics.map (·.shifted distance)⟩

theorem LengthRule.resolve_shifted (rule : LengthRule) (protocol : ProtocolId) (data : Bytes)
    (distance offset : Nat) :
    rule.resolve protocol data (distance + offset) =
      (rule.resolve protocol (data.drop distance) offset).mapError (·.shifted distance) := by
  simp only [resolve, List.drop_drop]
  split
  · rfl
  · split
    · rfl
    · split <;> rfl

/-- The answer depends on the bytes of the current header and the bytes behind it alone. -/
def Predicate.Local (predicate : Predicate) : Prop :=
  ∀ context context' : BindingContext, context.current.stop ≤ context.data.length →
    context'.current.stop ≤ context'.data.length → context'.view.bytes = context.view.bytes →
      context'.payload = context.payload → predicate context' = predicate context

theorem Predicate.Judges.isLocal {predicate : Predicate} {fields : List BitField}
    (h : predicate.Judges fields) : predicate.Local := by
  intro context context' _ _ hbytes _
  refine h.congr context context' fun field _ => ?_
  exact congrArg field.read hbytes

theorem Http.isLocal_detect : Predicate.Local Http.detect := by
  intro context context' _ _ hbytes hpayload
  have hports : Ports.ofView context'.view = Ports.ofView context.view := by
    simp only [Ports.ofView, HeaderView.field, hbytes]
  rw [detect, detect, hports, hpayload]

theorem BindingContext.faults_shifted {context inner : BindingContext} {edges : List Binding}
    {distance : Nat} (hsame : ∀ edge ∈ edges, edge.predicate context = edge.predicate inner)
    (hoffset : context.current.offset = distance + inner.current.offset) :
    context.faults edges = (inner.faults edges).map (·.shifted distance) := by
  rw [faults, faults, List.map_filterMap]
  apply List.filterMap_congr
  intro edge hedge
  rw [fault?, fault?, hsame edge hedge, hoffset]
  cases edge.predicate inner <;> rfl

namespace FrozenRegistry

/-- Every edge judges the current header and the bytes behind it alone. -/
def IsLocal (registry : FrozenRegistry) : Prop := ∀ edge ∈ registry.edges, edge.predicate.Local

variable {registry : FrozenRegistry} {data : Bytes} {distance : Nat} {before : List HeaderRecord}
  {protocol : ProtocolId} {offset : Nat} {current : HeaderRecord}

/-- A header that is placed in the bytes behind `distance` is placed in the whole buffer, whatever
headers lie before it. -/
theorem Places.shifted (h : registry.Places (data.drop distance) before protocol offset current)
    (earlier : List HeaderRecord) :
    registry.Places data earlier protocol (distance + offset)
      ((current.shifted distance).numberedBehind earlier) := by
  obtain ⟨descriptor, length, hlookup, hlength, rfl⟩ := h
  refine ⟨descriptor, length, hlookup, ?_, rfl⟩
  rw [LengthRule.resolve_shifted, hlength]
  rfl

theorem IsLocal.predicate_shifted (hlocal : registry.IsLocal)
    (hplaced : registry.Places (data.drop distance) before protocol offset current)
    (earlier : List HeaderRecord) :
    ∀ edge ∈ registry.bindingsFrom protocol,
      edge.predicate ⟨data, earlier, (current.shifted distance).numberedBehind earlier⟩ =
        edge.predicate ⟨data.drop distance, before, current⟩ := by
  intro edge hedge
  refine hlocal edge (mem_bindingsFrom.1 hedge).1 _ _ hplaced.inside.2
    (hplaced.shifted earlier).inside.2 ?_ ?_
  · simp only [BindingContext.view, HeaderView.bytes, List.drop_drop]
    rfl
  · have hstop := current.stop_shifted distance
    simp only [BindingContext.payload, BindingContext.view, HeaderView.payload, List.drop_drop,
      ← hstop]
    rfl

/-- What the rules allow over the bytes behind `distance` they allow over the whole buffer, whatever
headers lie before them. -/
theorem Follows.shifted {limit : Nat} {outcome : Walk} (hlocal : registry.IsLocal)
    (h : registry.Follows (data.drop distance) limit before protocol offset outcome) :
    ∀ (earlier : List HeaderRecord) (wider : Nat), wider + before.length = limit + earlier.length →
      registry.Follows data wider earlier protocol (distance + offset)
        (outcome.shifted earlier distance) := by
  have hends {current : HeaderRecord} (earlier : List HeaderRecord) :
      data.length ≤ ((current.shifted distance).numberedBehind earlier).stop ↔
        (data.drop distance).length ≤ current.stop := by
    have hstop : ((current.shifted distance).numberedBehind earlier).stop =
        distance + current.stop := current.stop_shifted distance
    rw [hstop, List.length_drop]
    omega
  induction h with
  | limited hfull => exact fun earlier wider hwider => .limited (by omega)
  | unplaced hroom hlookup hlength =>
    intro earlier wider hwider
    refine .unplaced (by omega) hlookup ?_
    rw [LengthRule.resolve_shifted, hlength]
    rfl
  | ended hroom hplaced hend =>
    intro earlier wider hwider
    exact .ended (by omega) (hplaced.shifted earlier) ((hends earlier).2 hend)
  | unbound hroom hplaced hrest hnone =>
    intro earlier wider hwider
    have hsame := hlocal.predicate_shifted hplaced earlier
    have hspace : earlier.length < wider := by omega
    have hunbound := Follows.unbound hspace (hplaced.shifted earlier)
      (Nat.lt_of_not_le (mt (hends earlier).1 (Nat.not_le.2 hrest)))
      (fun edge hedge => by
        rw [hsame edge hedge]
        exact hnone edge hedge)
    rwa [BindingContext.faults_shifted hsame rfl] at hunbound
  | @bound before _ _ current _ _ hroom hplaced hrest hwins hlater ih =>
    intro earlier wider hwider
    have hsame := hlocal.predicate_shifted hplaced earlier
    have hlater' := ih (earlier ++ [(current.shifted distance).numberedBehind earlier]) wider
      (by simp only [List.length_append, List.length_singleton]; omega)
    rw [← HeaderRecord.stop_shifted] at hlater'
    have hspace : earlier.length < wider := by omega
    have hbound := Follows.bound hspace (hplaced.shifted earlier)
      (Nat.lt_of_not_le (mt (hends earlier).1 (Nat.not_le.2 hrest))) (hwins.congr hsame) hlater'
    rwa [BindingContext.faults_shifted
      (fun edge hedge => hsame edge (List.mem_filter.1 hedge).1) rfl, Walk.shifted,
      ← List.map_append] at hbound

/-- The first header of a scan is placed at the start of the buffer. -/
theorem exists_of_head?_headers {config : ScanConfig} {root : ProtocolId} {first : HeaderRecord}
    (h : (registry.scan config root data).headers.head? = some first) :
    (registry.contains root = true ∧ root ≠ .payload ∧ data ≠ []) ∧ 0 < config.headerLimit ∧
      registry.Places data [] root 0 first := by
  rcases registry.walks_or_constant root data with ⟨hroot, hpayload, hdata⟩ | ⟨chain, hnone, hchain⟩
  · have hfollows := registry.follows_scan config root data hroot hpayload hdata
    have hwalk : (registry.scan config root data).walk.headers.head? = some first := h
    refine ⟨⟨hroot, hpayload, hdata⟩, ?_⟩
    generalize (registry.scan config root data).walk = walk at hfollows hwalk
    cases hfollows with
    | limited | unplaced => cases hwalk
    | ended hroom hplaced | unbound hroom hplaced | bound hroom hplaced =>
      cases hwalk
      exact ⟨hroom, hplaced⟩
  · rw [hchain, HeaderChain.headers, hnone] at h
    cases h

/-- The record of the unclaimed bytes moves with the headers before it. -/
theorem unclaimed_shifted {walk inner : Walk} {earlier : List HeaderRecord}
    (hclaimed : ∀ record ∈ earlier, record.isPayload = false)
    (hstop : stopAfter 0 walk.headers = distance + stopAfter 0 inner.headers)
    (htermination : walk.termination = inner.termination.shifted distance) :
    unclaimed walk data.length =
      renumber earlier
        ((unclaimed inner (data.drop distance).length).map (·.shifted distance)) := by
  have hopen : (walk.termination = .noBinding ∨ walk.termination = .depthLimit) ∧
      stopAfter 0 walk.headers < data.length ↔
        (inner.termination = .noBinding ∨ inner.termination = .depthLimit) ∧
          stopAfter 0 inner.headers < (data.drop distance).length := by
    rw [htermination, hstop, List.length_drop]
    refine and_congr ?_ (by omega)
    cases inner.termination <;> simp [Termination.shifted]
  have hcount : earlier.countP (·.protocol = .payload) = 0 := by
    rw [List.countP_eq_zero]
    intro record hrecord
    have hrecord := hclaimed record hrecord
    simpa [HeaderRecord.isPayload] using hrecord
  by_cases hrest : (inner.termination = .noBinding ∨ inner.termination = .depthLimit) ∧
      stopAfter 0 inner.headers < (data.drop distance).length
  · have hleft : unclaimed walk data.length = [_] := if_pos (hopen.2 hrest)
    have hright : unclaimed inner (data.drop distance).length = [_] := if_pos hrest
    have hlength : data.length - stopAfter 0 walk.headers =
        (data.drop distance).length - stopAfter 0 inner.headers := by
      rw [hstop, List.length_drop]
      omega
    rw [hleft, hright]
    simp only [List.map_cons, List.map_nil, renumber, HeaderRecord.numberedBehind,
      HeaderRecord.shifted, hcount]
    exact congrArg (fun record => [record])
      (by rw [HeaderRecord.mk.injEq]; exact ⟨rfl, hstop, hlength, rfl⟩)
  · have hleft : unclaimed walk data.length = [] := if_neg (mt hopen.1 hrest)
    have hright : unclaimed inner (data.drop distance).length = [] := if_neg hrest
    rw [hleft, hright]
    rfl

theorem isLocal_builtIn : builtIn.IsLocal := by
  intro edge hedge
  have hsources : ∀ edge ∈ builtIn.edges, edge.source ≠ .payload := by decide
  obtain ⟨known, hknown⟩ :=
    exists_builtIn (builtIn.edges_admitted edge hedge).1 (hsources edge hedge)
  have hfrom : edge ∈ builtIn.bindingsFrom known.id := mem_bindingsFrom.2 ⟨hedge, hknown⟩
  by_cases htcp : known = .tcp
  · rw [htcp, bindingsFrom_tcp, List.mem_singleton] at hfrom
    rw [hfrom]
    exact Http.isLocal_detect
  · exact (judges_edge htcp edge hfrom).isLocal

/-- Behind the first header the rules allow the same walk over the bytes that follow it. -/
theorem walk_composes (hlocal : registry.IsLocal) {config : ScanConfig}
    (hlimit : config.maxHeaders ≤ 65535) {root : ProtocolId} {first : HeaderRecord}
    (hfirst : (registry.scan config root data).headers.head? = some first)
    (hrest : first.stop < data.length) {winner : Binding}
    (hwins : BindingContext.Wins ⟨data, [], first⟩ (registry.bindingsFrom root) winner) :
    let inner := registry.scan { config with maxHeaders := config.maxHeaders - 1 } winner.target
      (data.drop first.stop)
    (registry.scan config root data).walk =
      (inner.walk.shifted [first] first.stop).behind first
        (BindingContext.faults ⟨data, [], first⟩
          ((registry.bindingsFrom root).filter (·.Before winner))) := by
  intro inner
  obtain ⟨⟨hroot, hpayload, hdata⟩, hroom, hplaced⟩ := exists_of_head?_headers hfirst
  have htarget := target_of_mem_bindingsFrom hwins.tried
  have hbytes : data.drop first.stop ≠ [] := mt List.drop_eq_nil_iff.1 (Nat.not_le.2 hrest)
  have hfollows := registry.follows_scan { config with maxHeaders := config.maxHeaders - 1 }
    winner.target (data.drop first.stop) htarget.1 htarget.2 hbytes
  have hlater := hfollows.shifted hlocal [first] config.headerLimit (by
    simp only [ScanConfig.headerLimit, List.length_nil, List.length_singleton] at hroom ⊢
    omega)
  symm
  exact (follows_iff_scan registry config root data hroot hpayload hdata _).1
    (.bound hroom hplaced hrest hwins hlater)

/-- When all edges are local, the chain of a buffer whose first header is followed by another one is
the first header and the chain of the bytes behind it, scanned with one header less to commit and
moved behind the first one. -/
theorem scan_composes (hlocal : registry.IsLocal) {config : ScanConfig}
    (hlimit : config.maxHeaders ≤ 65535) {root : ProtocolId} {first : HeaderRecord}
    (hfirst : (registry.scan config root data).headers.head? = some first)
    (hrest : first.stop < data.length) {winner : Binding}
    (hwins : BindingContext.Wins ⟨data, [], first⟩ (registry.bindingsFrom root) winner) :
    let inner := registry.scan { config with maxHeaders := config.maxHeaders - 1 } winner.target
      (data.drop first.stop)
    registry.scan config root data =
      ⟨data.length,
        first :: renumber [first] (inner.records.map (·.shifted first.stop)),
        inner.termination.shifted first.stop,
        BindingContext.faults ⟨data, [], first⟩
            ((registry.bindingsFrom root).filter (·.Before winner)) ++
          inner.diagnostics.map (·.shifted first.stop)⟩ := by
  intro inner
  obtain ⟨⟨hroot, hpayload, hdata⟩, -, -⟩ := exists_of_head?_headers hfirst
  have htarget := target_of_mem_bindingsFrom hwins.tried
  have hbytes : data.drop first.stop ≠ [] := mt List.drop_eq_nil_iff.1 (Nat.not_le.2 hrest)
  have hrecords : inner.records = inner.headers ++
      (if config.emitPayload then unclaimed inner.walk (data.drop first.stop).length else []) :=
    congrArg HeaderChain.records
      (scan_eq_walk registry _ winner.target (data.drop first.stop) htarget.1 htarget.2 hbytes)
  have hwalk : (registry.scan config root data).walk =
      (inner.walk.shifted [first] first.stop).behind first _ :=
    walk_composes hlocal hlimit hfirst hrest hwins
  have hclaimed : ∀ record ∈ (registry.scan config root data).walk.headers,
      record.isPayload = false := by
    intro record hrecord
    simpa using (List.mem_filter.1 hrecord).2
  have hstop : stopAfter 0 (registry.scan config root data).walk.headers =
      first.stop + stopAfter 0 inner.walk.headers := by
    rw [hwalk, Walk.behind, HeaderRecord.stopAfter_cons, Walk.shifted,
      HeaderRecord.stopAfter_renumber]
    exact HeaderRecord.stopAfter_shifted 0 first.stop inner.headers
  have htermination : (registry.scan config root data).walk.termination =
      inner.walk.termination.shifted first.stop := congrArg Walk.termination hwalk
  rw [scan_eq_walk registry config root data hroot hpayload hdata]
  dsimp only
  rw [unclaimed_shifted hclaimed hstop htermination, hwalk, hrecords, List.map_append,
    HeaderRecord.renumber_append]
  by_cases hemit : config.emitPayload = true
  · simp only [hemit, if_true]
    rfl
  · simp only [if_neg hemit]
    rfl

/-- The header behind two tags is cut off. The chain behind the first tag has one tag, at offset 0
and with ordinal 0, and an error at offset 4. -/
theorem tagged_twice_composes :
    let data : Bytes := [0, 1, 0x81, 0, 0, 2, 8, 0, 0x45, 0]
    let tag : HeaderRecord := ⟨BuiltIn.vlan.id, 0, Vlan.headerLength, 0⟩
    let edge : Binding := ⟨BuiltIn.vlan.id, BuiltIn.vlan.id, 0, 7,
      .fieldIn Vlan.etherType [EtherType.vlan, EtherType.providerVlan]⟩
    (builtIn.IsLocal ∧ ({} : ScanConfig).maxHeaders ≤ 65535 ∧
        (builtIn.scan {} BuiltIn.vlan.id data).headers.head? = some tag ∧ tag.stop < data.length ∧
        BindingContext.Wins ⟨data, [], tag⟩ (builtIn.bindingsFrom BuiltIn.vlan.id) edge) ∧
      builtIn.scan {} BuiltIn.vlan.id data =
        ⟨10, [tag, ⟨BuiltIn.vlan.id, 4, Vlan.headerLength, 1⟩],
          .length (.truncated BuiltIn.ipv4.id 8 20 2), []⟩ := by
  intro data tag edge
  have hlimit : ({} : ScanConfig).maxHeaders ≤ 65535 := by decide
  have hfirst : (builtIn.scan {} BuiltIn.vlan.id data).headers.head? = some tag := by
    decide +kernel
  have hrest : tag.stop < data.length := by decide
  have hwins : BindingContext.Wins ⟨data, [], tag⟩ (builtIn.bindingsFrom BuiltIn.vlan.id) edge := by
    constructor
    case tried => exact .tail _ (.tail _ (.tail _ (.head _)))
    case holds => decide +kernel
    case first => decide
  exact ⟨⟨isLocal_builtIn, hlimit, hfirst, hrest, hwins⟩,
    (scan_composes isLocal_builtIn hlimit hfirst hrest hwins).trans (by decide +kernel)⟩

end FrozenRegistry

end Dissection
