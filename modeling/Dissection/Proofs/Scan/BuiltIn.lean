import Dissection.Layer.Catalogue
import Dissection.Proofs.Scan.Rules

/-!
# Scans over the built-in protocols

A scan commits no header outside a set of protocols that no edge leaves. In the built-in registry
this tells what a scan may find behind an IPv4 header: nothing behind a later fragment, and no other
internet header unless the datagram is a tunnel.
-/

namespace Dissection

namespace Predicate

variable {context : BindingContext}

theorem both_eq_true_iff {first second : Predicate} :
    both first second context = .ok true ↔ first context = .ok true ∧ second context = .ok true := by
  unfold both
  split
  · next h => simp [h]
  · next h =>
    have hfirst : first context ≠ .ok true := h
    simp [hfirst]

theorem fieldEquals_eq_true_iff {field : BitField} {number : Nat} :
    fieldEquals field number context = .ok true ↔ context.field field = .ok number := by
  unfold fieldEquals onField
  split
  · next h => simp [h]
  · next h => simp [h]

end Predicate

theorem LengthRule.resolve_fixed {data : Bytes} {offset length : Nat} (protocol : ProtocolId)
    (hlength : 1 ≤ length) (hfit : offset + length ≤ data.length) :
    (LengthRule.fixed length).resolve protocol data offset = .ok length := by
  have htail : ¬ (data.drop offset).length < length := by
    rw [List.length_drop]
    omega
  simp only [resolve, propose, if_neg htail]
  rw [if_neg (Nat.not_lt.2 hlength)]

theorem LengthRule.resolve_fromField {source : BitField} {scale bias minimum number offset : Nat}
    {data : Bytes} (protocol : ProtocolId) (hread : source.read (data.drop offset) = .ok number)
    (hlength : max minimum 1 ≤ number * scale + bias) (hsize : number * scale + bias < UInt64.size)
    (hfit : offset + (number * scale + bias) ≤ data.length) :
    (LengthRule.fromField source scale bias minimum).resolve protocol data offset =
      .ok (number * scale + bias) := by
  have htail : (data.drop offset).length = data.length - offset := List.length_drop
  have henough : ¬ (data.drop offset).length < minimum := by omega
  have hsaturate : linear number scale bias = number * scale + bias :=
    (linear_eq number scale bias).trans (Nat.min_eq_left (by omega))
  simp only [resolve, propose, if_neg henough, hread, hsaturate]
  rw [if_neg (Nat.not_lt.2 hlength), if_neg (by omega)]

theorem LengthRule.exists_of_resolve_fromField {source : BitField} {scale bias minimum : Nat}
    {protocol : ProtocolId} {data : Bytes} {offset length : Nat}
    (h : (fromField source scale bias minimum).resolve protocol data offset = .ok length) :
    ∃ number, source.read (data.drop offset) = .ok number ∧
      saturate (number * scale + bias) = length ∧ minimum ≤ length := by
  simp only [resolve, propose] at h
  split at h
  · cases h
  · next proposed least hproposed =>
    split at hproposed
    · cases hproposed
    · split at hproposed
      · cases hproposed
      · next number hread =>
        cases hproposed
        split at h
        · cases h
        · next hleast =>
          split at h
          · cases h
          · cases h
            exact ⟨number, hread, (linear_eq number scale bias).symm, by omega⟩

namespace HeaderChain

/-- The records of a protocol are those of its headers. -/
theorem filter_headers (chain : HeaderChain) {protocol : ProtocolId} (h : protocol ≠ .payload) :
    chain.headers.filter (·.protocol = protocol) =
      chain.records.filter (·.protocol = protocol) := by
  rw [headers, List.filter_filter]
  apply List.filter_congr
  intro record _
  by_cases hprotocol : record.protocol = protocol
  · simp [HeaderRecord.isPayload, hprotocol, h]
  · simp [hprotocol]

/-- A search from the inside that accepts no payload finds the same among the headers. -/
theorem find?_headers (chain : HeaderChain) {wanted : HeaderRecord → Bool}
    (h : ∀ record, wanted record = true → record.isPayload = false) :
    chain.headers.reverse.find? wanted = chain.records.reverse.find? wanted := by
  rw [headers, ← List.filter_reverse, List.find?_filter]
  congr 1
  funext record
  cases hwanted : wanted record with
  | false => simp
  | true => simp [h record hwanted]

end HeaderChain

namespace FrozenRegistry

section Walks

variable {registry : FrozenRegistry} {data : Bytes} {limit : Nat} {earlier : List HeaderRecord}
  {protocol : ProtocolId} {offset : Nat} {current : HeaderRecord} {outcome : Walk}

/-- No header lies outside a set of protocols that no edge leaves. -/
theorem Follows.stays (h : registry.Follows data limit earlier protocol offset outcome)
    {inside : ProtocolId → Prop}
    (hclosed : ∀ edge ∈ registry.edges, inside edge.source → inside edge.target)
    (hprotocol : inside protocol) : ∀ record ∈ outcome.headers, inside record.protocol := by
  induction h with
  | limited | unplaced => simp
  | ended _ hplaced _ => simpa [hplaced.protocol_eq] using hprotocol
  | unbound _ hplaced _ _ => simpa [hplaced.protocol_eq] using hprotocol
  | bound _ hplaced _ hwins _ ih =>
    obtain ⟨hedge, hsource⟩ := mem_bindingsFrom.1 hwins.tried
    have htarget := hclosed _ hedge (hsource ▸ hprotocol)
    rw [List.forall_mem_cons, hplaced.protocol_eq]
    exact ⟨hprotocol, ih htarget⟩

theorem Places.ordinal_eq (h : registry.Places data earlier protocol offset current) :
    current.ordinal = earlier.countP (·.protocol = current.protocol) := by
  obtain ⟨_, _, _, _, rfl⟩ := h
  rfl

/-- The ordinals count on from the headers committed already. -/
theorem Follows.ordinal_ge (h : registry.Follows data limit earlier protocol offset outcome) :
    ∀ record ∈ outcome.headers,
      earlier.countP (·.protocol = record.protocol) ≤ record.ordinal := by
  induction h with
  | limited | unplaced => simp
  | ended _ hplaced _ => simpa using Nat.le_of_eq hplaced.ordinal_eq.symm
  | unbound _ hplaced _ _ => simpa using Nat.le_of_eq hplaced.ordinal_eq.symm
  | bound _ hplaced _ _ _ ih =>
    rw [List.forall_mem_cons]
    refine ⟨Nat.le_of_eq hplaced.ordinal_eq.symm, fun record hrecord => ?_⟩
    have hlater := ih record hrecord
    rw [List.countP_append] at hlater
    omega

theorem headers_of_wins {winner : Binding} (budget : Nat)
    (hplaced : registry.Places data earlier protocol offset current)
    (hrest : current.stop < data.length)
    (hwins : BindingContext.Wins ⟨data, earlier, current⟩ (registry.bindingsFrom protocol) winner) :
    (registry.walk data (budget + 1) earlier protocol offset).headers =
      current ::
        (registry.walk data budget (earlier ++ [current]) winner.target current.stop).headers :=
  congrArg Walk.headers (walk_of_wins budget hplaced hrest hwins)

/-- Behind a header there is nothing, or what follows along its winning edge. -/
theorem exists_inner_of_places (budget : Nat)
    (hplaced : registry.Places data earlier protocol offset current) :
    ∃ inner, (registry.walk data (budget + 1) earlier protocol offset).headers = current :: inner ∧
      (inner = [] ∨ ∃ winner,
        BindingContext.Wins ⟨data, earlier, current⟩ (registry.bindingsFrom protocol) winner ∧
        inner =
          (registry.walk data budget (earlier ++ [current]) winner.target current.stop).headers) := by
  by_cases hend : data.length ≤ current.stop
  · rw [walk_of_end budget hplaced hend]
    exact ⟨[], rfl, .inl rfl⟩
  · have hrest := Nat.lt_of_not_le hend
    rcases BindingContext.none_or_wins ⟨data, earlier, current⟩ _
      (registry.bindingsFrom_ranked protocol) with hnone | ⟨winner, hwins⟩
    · rw [walk_of_none budget hplaced hrest hnone]
      exact ⟨[], rfl, .inl rfl⟩
    · exact ⟨_, headers_of_wins budget hplaced hrest hwins, .inr ⟨winner, hwins, rfl⟩⟩

/-- Every header was placed behind the ones before it. -/
theorem Follows.places {limit : Nat} {earlier : List HeaderRecord} {protocol : ProtocolId}
    {offset : Nat} {outcome : Walk}
    (h : registry.Follows data limit earlier protocol offset outcome) :
    ∀ record ∈ outcome.headers,
      ∃ before, registry.Places data before record.protocol record.offset record := by
  have hplace {earlier : List HeaderRecord} {protocol : ProtocolId} {offset : Nat}
      {record : HeaderRecord} (h : registry.Places data earlier protocol offset record) :
      ∃ before, registry.Places data before record.protocol record.offset record := by
    obtain ⟨descriptor, length, hlookup, hlength, rfl⟩ := h
    exact ⟨earlier, descriptor, length, hlookup, hlength, rfl⟩
  induction h with
  | limited | unplaced => simp
  | ended _ hplaced _ => simpa using hplace hplaced
  | unbound _ hplaced _ _ => simpa using hplace hplaced
  | bound _ hplaced _ _ _ ih =>
    rw [List.forall_mem_cons]
    exact ⟨hplace hplaced, ih⟩

/-- A scan without a proper root or without bytes commits no header; every other one follows the
rules. -/
theorem headers_nil_or_follows (registry : FrozenRegistry) (config : ScanConfig) (root : ProtocolId)
    (data : Bytes) : (registry.scan config root data).headers = [] ∨
      registry.Follows data config.headerLimit [] root 0 (registry.scan config root data).walk := by
  by_cases hroot : registry.contains root ∧ root ≠ .payload
  · by_cases hdata : data = []
    · rw [scan, if_neg (by simp [hroot]), if_pos hdata]
      exact .inl rfl
    · exact .inr (follows_scan registry config root data hroot.1 hroot.2 hdata)
  · rw [scan, if_pos (by simpa [Decidable.imp_iff_not_or] using hroot)]
    exact .inl rfl

theorem exists_places_of_scan {config : ScanConfig} {root : ProtocolId} {record : HeaderRecord}
    (h : record ∈ (registry.scan config root data).headers) :
    ∃ before, registry.Places data before record.protocol record.offset record := by
  rcases headers_nil_or_follows registry config root data with hnone | hfollows
  · rw [hnone] at h
    cases h
  · exact hfollows.places record h

end Walks

theorem lookup_builtIn (protocol : BuiltIn) :
    ∃ descriptor, builtIn.lookup protocol.id = some descriptor ∧
      descriptor.length = protocol.lengthRule := by
  cases protocol <;> exact ⟨_, rfl, rfl⟩

theorem contains_builtIn (protocol : BuiltIn) : builtIn.contains protocol.id = true := by
  obtain ⟨descriptor, hlookup, -⟩ := lookup_builtIn protocol
  exact Option.isSome_iff_exists.2 ⟨descriptor, hlookup⟩

theorem builtIn_ne_payload (protocol : BuiltIn) : protocol.id ≠ .payload := by
  cases protocol <;> decide

theorem places_builtIn (protocol : BuiltIn) {data : Bytes} {earlier : List HeaderRecord}
    {offset length : Nat}
    (hlength : protocol.lengthRule.resolve protocol.id data offset = .ok length) :
    builtIn.Places data earlier protocol.id offset
      ⟨protocol.id, offset, length, earlier.countP (·.protocol = protocol.id)⟩ := by
  obtain ⟨descriptor, hlookup, hrule⟩ := lookup_builtIn protocol
  exact ⟨descriptor, length, hlookup, hrule ▸ hlength, rfl⟩

theorem bindingsFrom_ethernet :
    builtIn.bindingsFrom BuiltIn.ethernet.id =
      [⟨BuiltIn.ethernet.id, BuiltIn.ipv4.id, 0, 0,
          .fieldEquals Ethernet.etherType EtherType.ipv4⟩,
        ⟨BuiltIn.ethernet.id, BuiltIn.ipv6.id, 0, 1,
          .fieldEquals Ethernet.etherType EtherType.ipv6⟩,
        ⟨BuiltIn.ethernet.id, BuiltIn.arp.id, 0, 2,
          .fieldEquals Ethernet.etherType EtherType.arp⟩,
        ⟨BuiltIn.ethernet.id, BuiltIn.vlan.id, 0, 3,
          .fieldIn Ethernet.etherType [EtherType.vlan, EtherType.providerVlan]⟩] := rfl

/-- The record of the header that a frame starts with. -/
def link : HeaderRecord := ⟨BuiltIn.ethernet.id, 0, Ethernet.headerLength, 0⟩

/-- A scan of a frame goes on behind the link header along its winning edge. -/
theorem headers_behind_link {config : ScanConfig} {data : Bytes} {budget : Nat} {winner : Binding}
    (hbudget : config.headerLimit = budget + 1) (hrest : Ethernet.headerLength < data.length)
    (hwins : BindingContext.Wins ⟨data, [], link⟩ (builtIn.bindingsFrom BuiltIn.ethernet.id)
      winner) :
    (builtIn.scan config BuiltIn.ethernet.id data).headers =
      link :: (builtIn.walk data budget [link] winner.target Ethernet.headerLength).headers := by
  have hdata : data ≠ [] := List.ne_nil_of_length_pos (Nat.zero_lt_of_lt hrest)
  have hstop : link.stop = Ethernet.headerLength := Nat.zero_add _
  have hplaced : builtIn.Places data [] BuiltIn.ethernet.id 0 link :=
    places_builtIn .ethernet (LengthRule.resolve_fixed _ (by decide) (by omega))
  rw [headers_scan builtIn config _ data rfl (by decide) hdata, hbudget,
    headers_of_wins budget hplaced (hstop ▸ hrest) hwins, List.nil_append, hstop]

def ipv4Edge (sequence : Nat) (target : BuiltIn) (number : Nat) : Binding :=
  ⟨BuiltIn.ipv4.id, target.id, 0, sequence,
    .both (.fieldEquals Ipv4.protocol number) (.fieldEquals Ipv4.fragmentOffset 0)⟩

theorem bindingsFrom_ipv4 :
    builtIn.bindingsFrom BuiltIn.ipv4.id =
      [ipv4Edge 8 .tcp Internet.Number.tcp, ipv4Edge 9 .udp Internet.Number.udp,
        ipv4Edge 10 .icmp Internet.Number.icmp, ipv4Edge 11 .ipv4 Internet.Number.ipv4,
        ipv4Edge 12 .ipv6 Internet.Number.ipv6] := rfl

/-- The protocols above the internet layer. -/
def IsTransport (protocol : ProtocolId) : Prop := BuiltIn.icmp.id.index ≤ protocol.index

instance (protocol : ProtocolId) : Decidable (IsTransport protocol) :=
  inferInstanceAs (Decidable (_ ≤ _))

/-- From a transport protocol no edge leads back to the internet layer. -/
theorem transport_closed :
    ∀ edge ∈ builtIn.edges, IsTransport edge.source → IsTransport edge.target := by
  decide

theorem ipv4_wins {context : BindingContext}
    (htype : context.field Ethernet.etherType = .ok EtherType.ipv4) :
    context.Wins (builtIn.bindingsFrom BuiltIn.ethernet.id)
      ⟨BuiltIn.ethernet.id, BuiltIn.ipv4.id, 0, 0,
        .fieldEquals Ethernet.etherType EtherType.ipv4⟩ := by
  rw [bindingsFrom_ethernet]
  refine ⟨List.mem_cons_self, Predicate.fieldEquals_eq_true_iff.2 htype, ?_⟩
  intro edge hedge hbefore
  simp only [List.mem_cons, List.not_mem_nil, or_false] at hedge
  rcases hedge with rfl | rfl | rfl | rfl <;> exact absurd hbefore (by decide)

theorem of_wins_ipv4 {context : BindingContext} {winner : Binding}
    (h : context.Wins (builtIn.bindingsFrom BuiltIn.ipv4.id) winner) :
    context.field Ipv4.fragmentOffset = .ok 0 ∧ ∃ number,
      context.field Ipv4.protocol = .ok number ∧ (number = Internet.Number.ipv4 ∨
        number = Internet.Number.ipv6 ∨ IsTransport winner.target) := by
  have hedge : ∃ sequence target number, winner = ipv4Edge sequence target number ∧
      (number = Internet.Number.ipv4 ∨ number = Internet.Number.ipv6 ∨ IsTransport target.id) := by
    have htried := h.tried
    simp only [bindingsFrom_ipv4, List.mem_cons, List.not_mem_nil, or_false] at htried
    rcases htried with rfl | rfl | rfl | rfl | rfl <;> exact ⟨_, _, _, rfl, by decide⟩
  obtain ⟨sequence, target, number, rfl, hnumber⟩ := hedge
  have hholds := Predicate.both_eq_true_iff.1 h.holds
  rw [Predicate.fieldEquals_eq_true_iff, Predicate.fieldEquals_eq_true_iff] at hholds
  exact ⟨hholds.2, number, hholds.1, hnumber⟩

/-- What holds of a header that a scan finds somewhere behind an outermost IPv4 header. -/
structure Exposed (outer : HeaderView) (record : HeaderRecord) : Prop where
  inner : record.protocol = BuiltIn.ipv4.id → 0 < record.ordinal
  first : outer.field Ipv4.fragmentOffset = .ok 0
  carried : ∃ number, outer.field Ipv4.protocol = .ok number ∧ (number = Internet.Number.ipv4 ∨
    number = Internet.Number.ipv6 ∨ IsTransport record.protocol)

/-- The headers of an Ethernet frame that carries an IPv4 datagram. -/
theorem exists_exposed {config : ScanConfig} {data : Bytes} {length : Nat}
    (hlimit : 2 ≤ config.maxHeaders)
    (htype : Ethernet.etherType.read (data.take Ethernet.headerLength) = .ok EtherType.ipv4)
    (hlength : BuiltIn.ipv4.lengthRule.resolve BuiltIn.ipv4.id data Ethernet.headerLength =
      .ok length) :
    let outer : HeaderRecord := ⟨BuiltIn.ipv4.id, Ethernet.headerLength, length, 0⟩
    ∃ inner, (builtIn.scan config BuiltIn.ethernet.id data).headers = link :: outer :: inner ∧
      ∀ record ∈ inner, Exposed ⟨data, outer⟩ record := by
  intro outer
  have hbounds := LengthRule.resolve_bounds hlength
  have houter : builtIn.Places data [link] BuiltIn.ipv4.id Ethernet.headerLength outer :=
    places_builtIn .ipv4 hlength
  -- two headers are within the limit: the link and the datagram
  obtain ⟨budget, hbudget⟩ : ∃ budget, config.headerLimit = budget + 2 :=
    ⟨config.headerLimit - 2, by unfold ScanConfig.headerLimit; omega⟩
  obtain ⟨inner, hinner, hbehind⟩ := exists_inner_of_places budget houter
  refine ⟨inner, ?_, ?_⟩
  · rw [headers_behind_link hbudget (by omega) (ipv4_wins htype)]
    exact congrArg (link :: ·) hinner
  · rcases hbehind with rfl | ⟨winner, hwins, rfl⟩
    · simp
    · intro record hrecord
      obtain ⟨hfirst, number, hnumber, hcarried⟩ := of_wins_ipv4 hwins
      have hfollows := builtIn.follows_walk data (budget + 2) budget [link, outer] winner.target
        outer.stop (Nat.add_comm 2 budget) (target_of_mem_bindingsFrom hwins.tried).1
      refine ⟨?_, hfirst, number, hnumber, ?_⟩
      · intro hprotocol
        have hordinal := hfollows.ordinal_ge record hrecord
        rw [hprotocol] at hordinal
        exact hordinal
      · refine hcarried.imp_right (Or.imp_right fun htransport => ?_)
        exact hfollows.stays transport_closed htransport record hrecord

end FrozenRegistry

end Dissection
