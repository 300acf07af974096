import Dissection.Proofs.Scan.Decoding
import Dissection.Reassembly.Ipv4

/-!
# Fragments in a scan

Only the first fragment of a datagram shows the header that the datagram carries, so every edge
from IPv4 and from the fragment header of IPv6 asks for an offset of zero. A header of a later
fragment is therefore the innermost one of its chain, and where IPv4 fragments are looked for from
the inside outwards it is found first.
-/

namespace Dissection

namespace HeaderChain

/-- The record is that of a header of `protocol` in the chain, which reads as `header`. -/
structure Shows {α : Type} (chain : HeaderChain) (data : Bytes) (protocol : BuiltIn)
    (read : HeaderView → Except FieldError α) (record : HeaderRecord) (header : α) : Prop where
  committed : record ∈ chain.headers
  protocol_eq : record.protocol = protocol.id
  read_eq : read ⟨data, record⟩ = .ok header

/-- The record is that of the last header, with at most a record of unclaimed bytes behind it. -/
structure EndsAt (chain : HeaderChain) (record : HeaderRecord) : Prop where
  last : chain.lastHeader? = some record
  unclaimed : ∃ before rest, chain.records = before ++ record :: rest ∧ rest.length ≤ 1 ∧
    ∀ payload ∈ rest, payload.isPayload = true

/-- What the headers of fragments mean for a chain over the buffer `data`, and for the fragment that
is taken from it. -/
structure LaterFragmentsLast (chain : HeaderChain) (data : Bytes) (time : Timestamp) : Prop where
  ipv4_read : ∀ record ∈ chain.headers, record.protocol = BuiltIn.ipv4.id →
    ∃ header, chain.Shows data .ipv4 Ipv4.Header.ofView record header
  ipv6_read : ∀ record ∈ chain.headers, record.protocol = BuiltIn.ipv6Fragment.id →
    ∃ header, chain.Shows data .ipv6Fragment Ipv6Fragment.Header.ofView record header
  ipv4_last : ∀ record header, chain.Shows data .ipv4 Ipv4.Header.ofView record header →
    header.fragmentOffset ≠ 0 → chain.EndsAt record
  ipv6_last : ∀ record header,
    chain.Shows data .ipv6Fragment Ipv6Fragment.Header.ofView record header →
    header.fragmentOffset ≠ 0 → chain.EndsAt record
  fragment_iff : (Ipv4.fragment? chain data time).isSome = true ↔
    ∃ record header, chain.Shows data .ipv4 Ipv4.Header.ofView record header ∧
      (header.moreFragments = true ∨ header.fragmentOffset ≠ 0)
  fragment : ∀ record header, chain.Shows data .ipv4 Ipv4.Header.ofView record header →
    header.fragmentOffset ≠ 0 → Ipv4.fragment? chain data time =
      some (⟨header.source, header.destination, header.identification, header.protocol⟩,
        .ofPayload (8 * header.fragmentOffset)
          ((data.drop record.stop).take (header.totalLength - record.length))
          header.moreFragments time)

end HeaderChain

namespace Ipv4

def headerAt? (data : Bytes) (record : HeaderRecord) : Option Header :=
  (record.view? data).bind (fun view => (Header.ofView view).toOption)

/-- The innermost IPv4 header of a packet that belongs to a fragment, with its record. -/
def fragmentHeader? (chain : HeaderChain) (data : Bytes) : Option (HeaderRecord × Header) :=
  (chain.records.filter (fun record => record.protocol = BuiltIn.ipv4.id)).reverse.findSome?
    (fun record =>
      ((headerAt? data record).filter Header.isFragment).map (fun header => (record, header)))

variable {chain : HeaderChain} {data : Bytes} {record : HeaderRecord} {header : Header}

theorem headerAt?_eq_some_iff (hstop : record.stop ≤ data.length) :
    headerAt? data record = some header ↔ Header.ofView ⟨data, record⟩ = .ok header := by
  rw [headerAt?, HeaderRecord.view?_eq_some_iff.2 ⟨hstop, rfl⟩, Option.bind_some]
  cases Header.ofView ⟨data, record⟩ <;> simp [Except.toOption]

theorem fields_of_ofView {view : HeaderView} {header : Header}
    (h : Header.ofView view = .ok header) :
    view.field headerWords = .ok header.headerWords ∧
      view.field totalLength = .ok header.totalLength ∧
      view.field fragmentOffset = .ok header.fragmentOffset := by
  simp only [Header.ofView, FieldError.bind_eq_ok_iff] at h
  obtain ⟨_, _, words, hwords, _, _, _, _, total, htotal, _, _, _, _, _, _, offset, hoffset, _, _, _,
    _, _, _, _, _, _, _, hheader⟩ := h
  cases hheader
  exact ⟨hwords, htotal, hoffset⟩

/-- The fragment is what the innermost header of a fragment makes of the bytes behind it. -/
theorem fragment?_eq (chain : HeaderChain) (data : Bytes) (time : Timestamp) :
    fragment? chain data time =
      (fragmentHeader? chain data).map (fun (record, header) =>
        (header.fragmentKey,
          .ofPayload header.fragmentStart
            ((data.drop record.stop).take (header.totalLength - record.length))
            header.moreFragments time)) := by
  rw [fragmentHeader?, List.map_findSome?, fragment?]
  congr 1
  funext record
  rw [Function.comp_apply, Option.map_map, headerAt?]
  cases hview : record.view? data with
  | none => rfl
  | some view =>
    obtain ⟨_, rfl⟩ := HeaderRecord.view?_eq_some_iff.1 hview
    rw [Option.bind_some, Option.bind_some, fragmentOfView?]
    cases hheader : Header.ofView ⟨data, record⟩ with
    | error error => rfl
    | ok header =>
      have hpayload : datagramPayload ⟨data, record⟩ =
          .ok ((data.drop record.stop).take (header.totalLength - record.length)) := by
        rw [datagramPayload, (fields_of_ofView hheader).2.1]
        rfl
      rw [hpayload]
      by_cases hfragment : header.isFragment = true
      · simp [Except.toOption, Option.filter, hfragment]
      · simp [Except.toOption, Option.filter, hfragment]

variable (hinside : ∀ record ∈ chain.records, record.stop ≤ data.length)

include hinside

/-- A header in the buffer is found when it belongs to a fragment. -/
theorem headerAt?_filter_eq_some_iff (hrecord : record ∈ chain.headers) :
    (headerAt? data record).filter Header.isFragment = some header ↔
      Header.ofView ⟨data, record⟩ = .ok header ∧ header.isFragment = true := by
  rw [Option.filter_eq_some_iff, headerAt?_eq_some_iff (hinside _ (List.mem_filter.1 hrecord).1)]

theorem isSome_fragmentHeader?_iff :
    (fragmentHeader? chain data).isSome = true ↔ ∃ record header,
      chain.Shows data .ipv4 Header.ofView record header ∧ header.isFragment = true := by
  rw [fragmentHeader?, ← HeaderChain.filter_headers _ (by decide), List.isSome_findSome?,
    List.any_eq_true]
  constructor
  · rintro ⟨record, hrecord, hsome⟩
    rw [List.mem_reverse, List.mem_filter, decide_eq_true_iff] at hrecord
    rw [Option.isSome_map] at hsome
    obtain ⟨header, hheader⟩ := Option.isSome_iff_exists.1 hsome
    rw [headerAt?_filter_eq_some_iff hinside hrecord.1] at hheader
    exact ⟨record, header, ⟨hrecord.1, hrecord.2, hheader.1⟩, hheader.2⟩
  · rintro ⟨record, header, hshows, hfragment⟩
    have hheader := (headerAt?_filter_eq_some_iff hinside hshows.committed).2
      ⟨hshows.read_eq, hfragment⟩
    refine ⟨record, ?_, by rw [hheader]; rfl⟩
    rw [List.mem_reverse, List.mem_filter, decide_eq_true_iff]
    exact ⟨hshows.committed, hshows.protocol_eq⟩

/-- The last header is the first one looked at. -/
theorem fragmentHeader?_of_last (hlast : chain.lastHeader? = some record)
    (hshows : chain.Shows data .ipv4 Header.ofView record header)
    (hfragment : header.isFragment = true) :
    fragmentHeader? chain data = some (record, header) := by
  obtain ⟨front, hheaders⟩ := List.getLast?_eq_some_iff.1 hlast
  have hheader := (headerAt?_filter_eq_some_iff hinside hshows.committed).2
    ⟨hshows.read_eq, hfragment⟩
  rw [fragmentHeader?, ← HeaderChain.filter_headers _ (by decide), hheaders, List.filter_append,
    List.filter_cons_of_pos (by simpa using hshows.protocol_eq), List.filter_nil,
    List.reverse_append, List.reverse_singleton, List.singleton_append, List.findSome?_cons,
    hheader]
  rfl

end Ipv4

theorem Ipv6Fragment.fragmentOffset_of_ofView {view : HeaderView} {header : Header}
    (h : Header.ofView view = .ok header) :
    view.field fragmentOffset = .ok header.fragmentOffset := by
  simp only [Header.ofView, FieldError.bind_eq_ok_iff] at h
  obtain ⟨_, _, offset, hoffset, _, _, _, _, hheader⟩ := h
  cases hheader
  exact hoffset

namespace FrozenRegistry

variable {registry : FrozenRegistry} {config : ScanConfig} {root : ProtocolId} {data : Bytes}
  {limit : Nat} {earlier : List HeaderRecord} {protocol : ProtocolId} {offset : Nat}
  {outcome : Walk} {record : HeaderRecord}

/-- A header none of whose edges wins is the last one. -/
theorem Follows.getLast?_of_unbound
    (h : registry.Follows data limit earlier protocol offset outcome)
    (hrecord : record ∈ outcome.headers)
    (hnone : ∀ before winner, ¬ BindingContext.Wins ⟨data, before, record⟩
      (registry.bindingsFrom record.protocol) winner) :
    outcome.headers.getLast? = some record := by
  induction h with
  | limited | unplaced => cases hrecord
  | ended | unbound =>
    rw [List.mem_singleton.1 hrecord]
    rfl
  | bound _ hplaced _ hwins _ ih =>
    rcases List.mem_cons.1 hrecord with rfl | hlater
    · rw [← hplaced.protocol_eq] at hwins
      exact absurd hwins (hnone _ _)
    · rw [List.getLast?_cons, ih hlater]
      rfl

theorem endsAt_of_unbound (hrecord : record ∈ (registry.scan config root data).headers)
    (hnone : ∀ before winner, ¬ BindingContext.Wins ⟨data, before, record⟩
      (registry.bindingsFrom record.protocol) winner) :
    (registry.scan config root data).EndsAt record := by
  have hlast : (registry.scan config root data).lastHeader? = some record := by
    rcases headers_nil_or_follows registry config root data with hempty | hfollows
    · rw [hempty] at hrecord
      cases hrecord
    · exact hfollows.getLast?_of_unbound hrecord hnone
  obtain ⟨front, hheaders⟩ := List.getLast?_eq_some_iff.1 hlast
  obtain ⟨rest, hrecords, hlength, hrest⟩ := exists_unclaimed registry config root data
  refine ⟨hlast, front, rest, ?_, hlength, fun payload hpayload => ?_⟩
  · rw [hrecords, hheaders, List.append_assoc, List.singleton_append]
  · simpa [HeaderRecord.isPayload] using (hrest payload hpayload).1

/-- Where every edge asks for the offset zero, a header with another offset is the last one. -/
theorem endsAt_of_offset (known : BuiltIn) (htcp : known ≠ .tcp) {fragmentOffset : BitField}
    {place : Nat} (hbindings : ∀ binding ∈ known.bindings, ∃ next target number,
      binding = Internet.carries next fragmentOffset target number)
    (hrecord : record ∈ (builtIn.scan config root data).headers)
    (hprotocol : record.protocol = known.id)
    (hplace : (HeaderView.mk data record).field fragmentOffset = .ok place) (hlater : place ≠ 0) :
    (builtIn.scan config root data).EndsAt record := by
  refine endsAt_of_unbound hrecord fun before winner hwins => ?_
  have hpredicate := List.mem_map_of_mem (f := Binding.predicate) hwins.tried
  rw [hprotocol, predicates_builtIn, if_neg htcp, List.append_nil, List.mem_map] at hpredicate
  obtain ⟨binding, hbinding, hsame⟩ := hpredicate
  obtain ⟨next, target, number, rfl⟩ := hbindings binding hbinding
  have hholds := hwins.holds
  rw [← hsame, Internet.carries, Predicate.both_eq_true_iff, Predicate.fieldEquals_eq_true_iff,
    Predicate.fieldEquals_eq_true_iff] at hholds
  have hzero : (HeaderView.mk data record).field fragmentOffset = .ok 0 := hholds.2
  rw [hplace] at hzero
  exact hlater (Except.ok.inj hzero)

/-- A header of a later fragment ends its chain, and the fragment of a packet is the one of such a
header if there is any, whatever stack of tunnels and tags it lies in. -/
theorem later_fragments_last (config : ScanConfig) (root : BuiltIn) (data : Bytes)
    (time : Timestamp) :
    (builtIn.scan config root.id data).LaterFragmentsLast data time := by
  have hinside : ∀ record ∈ (builtIn.scan config root.id data).records,
      record.stop ≤ data.length := fun record => stop_le_of_scan
  have hlast : ∀ record header,
      (builtIn.scan config root.id data).Shows data .ipv4 Ipv4.Header.ofView record header →
      header.fragmentOffset ≠ 0 → (builtIn.scan config root.id data).EndsAt record := by
    intro record header hshows hlater
    refine endsAt_of_offset .ipv4 (by decide) ?_ hshows.committed hshows.protocol_eq
      (Ipv4.fields_of_ofView hshows.read_eq).2.2 hlater
    intro binding hbinding
    simp only [BuiltIn.bindings, Ipv4.bindings, List.mem_cons, List.not_mem_nil, or_false]
      at hbinding
    rcases hbinding with rfl | rfl | rfl | rfl | rfl <;> exact ⟨_, _, _, rfl⟩
  constructor
  case ipv4_last => exact hlast
  case ipv4_read =>
    intro record hrecord hprotocol
    obtain ⟨header, hheader⟩ := Ipv4.succeeds_ofView (leastLength_le_of_scan hrecord hprotocol)
    exact ⟨header, hrecord, hprotocol, hheader⟩
  case ipv6_read =>
    intro record hrecord hprotocol
    obtain ⟨header, hheader⟩ :=
      Ipv6Fragment.succeeds_ofView (leastLength_le_of_scan hrecord hprotocol)
    exact ⟨header, hrecord, hprotocol, hheader⟩
  case ipv6_last =>
    intro record header hshows hlater
    refine endsAt_of_offset .ipv6Fragment (by decide) ?_ hshows.committed hshows.protocol_eq
      (Ipv6Fragment.fragmentOffset_of_ofView hshows.read_eq) hlater
    intro binding hbinding
    simp only [BuiltIn.bindings, Ipv6Fragment.bindings, List.mem_cons, List.not_mem_nil, or_false]
      at hbinding
    rcases hbinding with rfl | rfl <;> exact ⟨_, _, _, rfl⟩
  case fragment_iff =>
    rw [Ipv4.fragment?_eq, Option.isSome_map, Ipv4.isSome_fragmentHeader?_iff hinside]
    simp [Ipv4.Header.isFragment]
  case fragment =>
    intro record header hshows hlater
    have hfragment : header.isFragment = true := by simp [Ipv4.Header.isFragment, hlater]
    have hstart : 8 * header.fragmentOffset = header.fragmentStart := Nat.mul_comm _ _
    rw [Ipv4.fragment?_eq, Ipv4.fragmentHeader?_of_last hinside (hlast _ _ hshows hlater).last
      hshows hfragment, hstart]
    rfl

/-- A frame with the second eight bytes of a datagram, and one byte of padding. -/
def laterFrame : Bytes :=
  [2, 0, 0, 0, 0, 2, 2, 0, 0, 0, 0, 1, 8, 0] ++
    [69, 0, 0, 28, 0, 7, 0, 1, 64, 17, 0, 0, 10, 0, 0, 1, 10, 0, 0, 2] ++
    [1, 2, 3, 4, 5, 6, 7, 8, 0]

def laterHeader : Ipv4.Header :=
  ⟨4, 5, 0, 0, 28, 7, false, false, 1, 64, Internet.Number.udp, 0, [10, 0, 0, 1], [10, 0, 0, 2], []⟩

theorem laterFrame_shows :
    (builtIn.scan {} BuiltIn.ethernet.id laterFrame).Shows laterFrame .ipv4 Ipv4.Header.ofView
      ⟨BuiltIn.ipv4.id, 14, 20, 0⟩ laterHeader :=
  ⟨by decide +kernel, rfl, by decide +kernel⟩

/-- The number of UDP in its header leads no further, and the padding is no part of the fragment. -/
theorem laterFrame_ends :
    (builtIn.scan {} BuiltIn.ethernet.id laterFrame).EndsAt ⟨BuiltIn.ipv4.id, 14, 20, 0⟩ ∧
      Ipv4.fragment? (builtIn.scan {} BuiltIn.ethernet.id laterFrame) laterFrame .zero =
        some (⟨[10, 0, 0, 1], [10, 0, 0, 2], 7, Internet.Number.udp⟩,
          .ofPayload 8 [1, 2, 3, 4, 5, 6, 7, 8] false .zero) :=
  have hlast := later_fragments_last {} .ethernet laterFrame .zero
  ⟨hlast.ipv4_last _ _ laterFrame_shows (by decide),
    hlast.fragment _ _ laterFrame_shows (by decide)⟩

end FrozenRegistry

end Dissection
