import Dissection.Proofs.Scan.BuiltIn
import Dissection.Proofs.Scan.Shape
import Dissection.Proofs.Wire.Field
import Mathlib.Data.List.Basic

/-!
# The layout of built-in headers

The length rule of a built-in protocol guarantees a least number of bytes, and the fields that
decide what follows a header lie in these. All edges of the built-in registry but the one to HTTP
judge nothing else, so no edge ever fails, and a scan leaves no diagnostics.
-/

namespace Dissection

theorem LengthRule.resolve_eq_ok_iff {rule : LengthRule} {protocol : ProtocolId} {data : Bytes}
    {offset length : Nat} :
    rule.resolve protocol data offset = .ok length ↔
      ∃ minimum, rule.propose (data.drop offset) = .ok (length, minimum) ∧ minimum ≤ length ∧
        length ≤ (data.drop offset).length := by
  rw [resolve]
  cases hproposed : rule.propose (data.drop offset) with
  | error shortfall => simp
  | ok proposal =>
    obtain ⟨proposed, minimum⟩ := proposal
    by_cases hleast : proposed < minimum
    · simp only [hleast, if_true]
      grind
    · by_cases hfit : (data.drop offset).length < proposed
      · simp only [hleast, hfit, if_true, if_false]
        grind
      · simp only [hleast, hfit, if_false]
        grind

theorem LengthRule.propose_measured_iff {measure : Bytes → Except Shortfall Nat} {tail : Bytes}
    {length minimum : Nat} :
    (LengthRule.measured measure).propose tail = .ok (length, minimum) ↔
      measure tail = .ok length ∧ minimum = 1 := by
  rw [propose]
  cases measure tail with
  | error shortfall => simp
  | ok measured => simp [eq_comm]

namespace BindingContext

section Congr

variable {context context' : BindingContext} {edges : List Binding} {winner : Binding}
  (hsame : ∀ edge ∈ edges, edge.predicate context' = edge.predicate context)

include hsame

/-- Contexts in which the edges give the same answers have the same winner. -/
theorem Wins.congr (h : context.Wins edges winner) : context'.Wins edges winner where
  tried := h.tried
  holds := (hsame winner h.tried).trans h.holds
  first edge hedge hbefore := by
    rw [hsame edge hedge]
    exact h.first edge hedge hbefore

theorem faults_congr (hoffset : context'.current.offset = context.current.offset) :
    context'.faults edges = context.faults edges := by
  apply List.filterMap_congr
  intro edge hedge
  rw [fault?, fault?, hsame edge hedge, hoffset]

end Congr

end BindingContext

namespace Predicate

/-- The predicate judges the numbers in some fields of the current header, and nothing else. -/
structure Judges (predicate : Predicate) (fields : List BitField) : Prop where
  answers : ∀ context : BindingContext,
    (∀ field ∈ fields, ∃ number, context.field field = .ok number) →
      ∃ holds, predicate context = .ok holds
  congr : ∀ context context' : BindingContext,
    (∀ field ∈ fields, context'.field field = context.field field) →
      predicate context' = predicate context

variable {predicate first second : Predicate} {fields more : List BitField}

theorem Judges.mono (h : predicate.Judges fields) (hsubset : fields ⊆ more) :
    predicate.Judges more where
  answers context hfields := h.answers context (fun field hfield => hfields field (hsubset hfield))
  congr context context' hfields :=
    h.congr context context' (fun field hfield => hfields field (hsubset hfield))

theorem judges_onField (field : BitField) (accepts : Nat → Bool) :
    (onField field accepts).Judges [field] where
  answers context hfields := by
    obtain ⟨number, hnumber⟩ := hfields field List.mem_cons_self
    exact ⟨accepts number, by rw [onField, hnumber]⟩
  congr context context' hfields := by
    rw [onField, onField, hfields field List.mem_cons_self]

theorem Judges.both (hfirst : first.Judges fields) (hsecond : second.Judges fields) :
    (both first second).Judges fields where
  answers context hfields := by
    obtain ⟨holds, hanswer⟩ := hfirst.answers context hfields
    unfold Predicate.both
    rw [hanswer]
    cases holds with
    | true => exact hsecond.answers context hfields
    | false => exact ⟨false, rfl⟩
  congr context context' hfields := by
    unfold Predicate.both
    rw [hfirst.congr context context' hfields, hsecond.congr context context' hfields]

end Predicate

theorem Http.detect_eq {context : BindingContext} {source destination : Nat}
    (hsource : context.field Ports.source = .ok source)
    (hdestination : context.field Ports.destination = .ok destination) :
    detect context = .ok ((ports.contains source || ports.contains destination) &&
      looksLikeMessage context.payload) := by
  have hports : Ports.ofView context.view = .ok (source, destination) :=
    FieldError.bind_eq_ok_iff.2
      ⟨source, hsource, FieldError.bind_eq_ok_iff.2 ⟨destination, hdestination, rfl⟩⟩
  rw [detect, hports]

namespace BuiltIn

def leastLength : BuiltIn → Nat
  | .ethernet => Ethernet.headerLength
  | .vlan => Vlan.headerLength
  | .arp => Arp.fixedLength
  | .ipv4 => Ipv4.minimumLength
  | .ipv6 => Ipv6.headerLength
  | .ipv6Fragment => Ipv6Fragment.headerLength
  | .icmp => Icmp.headerLength
  | .tcp => Tcp.minimumLength
  | .udp => Udp.headerLength
  | .http => 1

/-- The fields that the edges from a protocol judge. -/
def dispatch : BuiltIn → List BitField
  | .ethernet => [Ethernet.etherType]
  | .vlan => [Vlan.etherType]
  | .ipv4 => [Ipv4.protocol, Ipv4.fragmentOffset]
  | .ipv6 => [Ipv6.nextHeader]
  | .ipv6Fragment => [Ipv6Fragment.nextHeader, Ipv6Fragment.fragmentOffset]
  | .tcp => [Ports.source, Ports.destination]
  | _ => []

theorem dispatch_inside (protocol : BuiltIn) :
    ∀ field ∈ protocol.dispatch, field.WellFormed ∧ field.endByte ≤ protocol.leastLength := by
  cases protocol <;> decide

theorem judges_bindings (protocol : BuiltIn) :
    ∀ declaration ∈ protocol.bindings, declaration.predicate.Judges protocol.dispatch := by
  have htype (field : BitField) :
      ∀ declaration ∈ EtherType.bindings field, declaration.predicate.Judges [field] := by
    simp only [EtherType.bindings, List.forall_mem_cons]
    simp [Predicate.fieldEquals, Predicate.fieldIn, Predicate.judges_onField]
  have hcarries (next offset : BitField) (target : BuiltIn) (number : Nat) :
      (Internet.carries next offset target number).predicate.Judges [next, offset] :=
    ((Predicate.judges_onField next _).mono (by simp)).both
      ((Predicate.judges_onField offset _).mono (by simp))
  cases protocol with
  | ethernet => exact htype _
  | vlan => exact htype _
  | ipv4 => simp [bindings, Ipv4.bindings, dispatch, hcarries]
  | ipv6 =>
    simp [bindings, Ipv6.bindings, dispatch, Predicate.fieldEquals, Predicate.judges_onField]
  | ipv6Fragment => simp [bindings, Ipv6Fragment.bindings, dispatch, hcarries]
  | arp | icmp | tcp | udp | http => simp [bindings]

theorem measure_bounds {tail : Bytes} {length : Nat} (h : Arp.measure tail = .ok length) :
    ∃ hardware protocol : UInt8, tail[4]? = some hardware ∧ tail[5]? = some protocol ∧
      length = Arp.fixedLength + 2 * hardware.toNat + 2 * protocol.toNat := by
  rw [Arp.measure] at h
  split at h
  · next hardware protocol hhardware hprotocol =>
    cases h
    exact ⟨hardware, protocol, hhardware, hprotocol, rfl⟩
  · cases h

theorem leastLength_le (protocol : BuiltIn) {id : ProtocolId} {data : Bytes} {offset length : Nat}
    (h : protocol.lengthRule.resolve id data offset = .ok length) :
    protocol.leastLength ≤ length := by
  obtain ⟨minimum, hproposed, hminimum, -⟩ := LengthRule.resolve_eq_ok_iff.1 h
  have hfixed (constant : Nat)
      (hproposed : (LengthRule.fixed constant).propose (data.drop offset) =
        .ok (length, minimum)) : constant ≤ length := by
    rw [LengthRule.propose] at hproposed
    split at hproposed
    · cases hproposed
    · cases hproposed
      exact Nat.le_refl _
  cases protocol with
  | ethernet | vlan | ipv6 | ipv6Fragment | icmp | udp => exact hfixed _ hproposed
  | ipv4 | tcp =>
    obtain ⟨number, -, -, hleast⟩ := LengthRule.exists_of_resolve_fromField h
    exact hleast
  | arp =>
    obtain ⟨hardware, address, -, -, rfl⟩ :=
      measure_bounds (LengthRule.propose_measured_iff.1 hproposed).1
    exact Nat.le_add_right_of_le (Nat.le_add_right _ _)
  | http => exact (LengthRule.resolve_bounds h).1

end BuiltIn

namespace FrozenRegistry

/-- Apart from the pseudo-protocol of unclaimed bytes, the built-in protocols are all there are. -/
theorem exists_builtIn {id : ProtocolId} (hcontains : builtIn.contains id = true)
    (hpayload : id ≠ .payload) : ∃ protocol : BuiltIn, id = protocol.id := by
  have hids : builtIn.table.entries.map Prod.fst = .payload :: BuiltIn.all.map BuiltIn.id := rfl
  have hlookup : (builtIn.table.entries.lookup id).isSome = true := hcontains
  obtain ⟨entry, hentry, heq⟩ := List.lookup_isSome_iff.1 hlookup
  have hmem : id ∈ builtIn.table.entries.map Prod.fst :=
    List.mem_map.2 ⟨entry, hentry, (eq_of_beq heq).symm⟩
  rw [hids, List.mem_cons, List.mem_map] at hmem
  obtain ⟨protocol, -, rfl⟩ := hmem.resolve_left hpayload
  exact ⟨protocol, rfl⟩

theorem exists_builtIn_target {source : ProtocolId} {edge : Binding}
    (h : edge ∈ builtIn.bindingsFrom source) : ∃ protocol : BuiltIn, edge.target = protocol.id :=
  exists_builtIn (target_of_mem_bindingsFrom h).1 (target_of_mem_bindingsFrom h).2

/-- The predicates of the edges from a protocol are those of its declarations, and from TCP there
is one more. -/
theorem predicates_builtIn (protocol : BuiltIn) :
    (builtIn.bindingsFrom protocol.id).map (·.predicate) =
      protocol.bindings.map (·.predicate) ++ if protocol = .tcp then [Http.detect] else [] := by
  cases protocol <;> rfl

theorem bindingsFrom_tcp :
    builtIn.bindingsFrom BuiltIn.tcp.id =
      [⟨BuiltIn.tcp.id, BuiltIn.http.id, 0, 20, Http.detect⟩] := rfl

theorem judges_edge {protocol : BuiltIn} (hprotocol : protocol ≠ .tcp) :
    ∀ edge ∈ builtIn.bindingsFrom protocol.id, edge.predicate.Judges protocol.dispatch := by
  intro edge hedge
  have hmem : edge.predicate ∈ (builtIn.bindingsFrom protocol.id).map (·.predicate) :=
    List.mem_map_of_mem hedge
  rw [predicates_builtIn, if_neg hprotocol, List.append_nil] at hmem
  obtain ⟨declaration, hdeclaration, heq⟩ := List.mem_map.1 hmem
  exact heq ▸ protocol.judges_bindings declaration hdeclaration

variable {data : Bytes} {earlier : List HeaderRecord} {offset : Nat} {current : HeaderRecord}

theorem resolve_of_places {protocol : BuiltIn}
    (h : builtIn.Places data earlier protocol.id offset current) :
    protocol.lengthRule.resolve protocol.id data offset = .ok current.length ∧
      current = ⟨protocol.id, offset, current.length,
        earlier.countP (·.protocol = protocol.id)⟩ := by
  obtain ⟨descriptor, length, hlookup, hlength, rfl⟩ := h
  obtain ⟨known, hknown, hrule⟩ := lookup_builtIn protocol
  rw [hknown] at hlookup
  rw [← Option.some.inj hlookup, hrule] at hlength
  exact ⟨hlength, rfl⟩

theorem Places.leastLength_le {protocol : BuiltIn}
    (h : builtIn.Places data earlier protocol.id offset current) :
    protocol.leastLength ≤ current.length :=
  protocol.leastLength_le (resolve_of_places h).1

theorem Places.field_of_dispatch {protocol : BuiltIn}
    (h : builtIn.Places data earlier protocol.id offset current) :
    ∀ field ∈ protocol.dispatch,
      ∃ number, BindingContext.field ⟨data, earlier, current⟩ field = .ok number := by
  intro field hfield
  have hlength : (HeaderView.bytes ⟨data, current⟩).length = current.length :=
    HeaderView.length_bytes h.inside.2
  exact HeaderView.succeeds_field (hlength ▸ h.leastLength_le)
    (protocol.dispatch_inside field hfield)

/-- No edge from a header that was placed fails. -/
theorem Places.answers {protocol : BuiltIn}
    (h : builtIn.Places data earlier protocol.id offset current) :
    ∀ edge ∈ builtIn.bindingsFrom protocol.id,
      ∃ holds, edge.predicate ⟨data, earlier, current⟩ = .ok holds := by
  intro edge hedge
  have hfields := h.field_of_dispatch
  by_cases hprotocol : protocol = .tcp
  · subst hprotocol
    rw [bindingsFrom_tcp, List.mem_singleton] at hedge
    obtain ⟨source, hsource⟩ := hfields Ports.source (by decide)
    obtain ⟨destination, hdestination⟩ := hfields Ports.destination (by decide)
    subst hedge
    exact ⟨_, Http.detect_eq hsource hdestination⟩
  · exact (judges_edge hprotocol edge hedge).answers _ hfields

/-- Every header of a scan belongs to a built-in protocol, whose rule has found its length. -/
theorem exists_protocol_of_scan {config : ScanConfig} {root : ProtocolId} {record : HeaderRecord}
    (h : record ∈ (builtIn.scan config root data).headers) :
    ∃ protocol : BuiltIn, record.protocol = protocol.id ∧ record.stop ≤ data.length ∧
      protocol.lengthRule.resolve protocol.id data record.offset = .ok record.length := by
  obtain ⟨before, hplaced⟩ := exists_places_of_scan h
  have hpayload : record.protocol ≠ .payload := by
    have hclaimed := (List.mem_filter.1 h).2
    simpa [HeaderRecord.isPayload] using hclaimed
  obtain ⟨protocol, hprotocol⟩ := exists_builtIn hplaced.registered hpayload
  have hinside := hplaced.inside.2
  rw [hprotocol] at hplaced
  exact ⟨protocol, hprotocol, hinside, (resolve_of_places hplaced).1⟩

/-- A walk over built-in protocols leaves no diagnostics. -/
theorem Follows.diagnostics_eq_nil {limit : Nat} {protocol : ProtocolId} {outcome : Walk}
    (h : builtIn.Follows data limit earlier protocol offset outcome)
    (hprotocol : ∃ known : BuiltIn, protocol = known.id) : outcome.diagnostics = [] := by
  have hquiet {earlier : List HeaderRecord} {protocol : BuiltIn} {offset : Nat}
      {current : HeaderRecord}
      (hplaced : builtIn.Places data earlier protocol.id offset current)
      (edges : List Binding) (hedges : edges ⊆ builtIn.bindingsFrom protocol.id) :
      BindingContext.faults ⟨data, earlier, current⟩ edges = [] := by
    rw [BindingContext.faults, List.filterMap_eq_nil_iff]
    intro edge hedge
    obtain ⟨holds, hanswer⟩ := hplaced.answers edge (hedges hedge)
    rw [BindingContext.fault?, hanswer]
  induction h with
  | limited | unplaced | ended => rfl
  | unbound _ hplaced _ _ =>
    obtain ⟨known, rfl⟩ := hprotocol
    exact hquiet hplaced _ (List.Subset.refl _)
  | bound _ hplaced _ hwins _ ih =>
    obtain ⟨known, rfl⟩ := hprotocol
    have hlater := ih (exists_builtIn_target hwins.tried)
    rw [hquiet hplaced _ List.filter_sublist.subset, hlater]
    rfl

theorem diagnostics_scan (config : ScanConfig) (root : BuiltIn) (data : Bytes) :
    (builtIn.scan config root.id data).diagnostics = [] := by
  have hroot := contains_builtIn root
  have hpayload := builtIn_ne_payload root
  by_cases hdata : data = []
  · rw [scan, if_neg (by simp [hroot, hpayload]), if_pos hdata]
  · exact (builtIn.follows_scan config root.id data hroot hpayload hdata).diagnostics_eq_nil
      ⟨root, rfl⟩

end FrozenRegistry

end Dissection
