import Dissection.Proofs.Flow.Exchanged
import Dissection.Proofs.Scan.Decoding

/-!
# A reply is scanned like its packet

What a scan over the built-in protocols reads of a header is the same in a reply: the bytes that
tell its length, and the fields that decide what follows it. Only the detection of HTTP looks at
bytes that a reply has exchanged, and it treats both ports alike. So a packet and its reply have the
same chain, and their flow keys have the same identity and exchanged endpoints.
-/

namespace Dissection

theorem LengthRule.resolve_congr {rule : LengthRule} {protocol : ProtocolId} {data data' : Bytes}
    {offset : Nat} (hlength : data'.length = data.length)
    (hproposed : rule.propose (data'.drop offset) = rule.propose (data.drop offset)) :
    rule.resolve protocol data' offset = rule.resolve protocol data offset := by
  simp only [resolve, hproposed, List.length_drop, hlength]

namespace BuiltIn

/-- The bytes that tell how long a header is. The head of a message is measured on all bytes. -/
def sizing : BuiltIn → List Nat
  | .arp => [4, 5]
  | .ipv4 => [0]
  | .tcp => [12]
  | _ => []

/-- A reply has the same byte at this index of the header. -/
def Keeps (protocol : BuiltIn) (index : Nat) : Prop :=
  ∀ field ∈ protocol.flowFields, ¬ field.Moves index

instance (protocol : BuiltIn) (index : Nat) : Decidable (protocol.Keeps index) :=
  inferInstanceAs (Decidable (∀ _ ∈ _, _))

theorem keeps_sizing (protocol : BuiltIn) :
    ∀ index ∈ protocol.sizing, index < protocol.leastLength ∧ protocol.Keeps index := by
  cases protocol <;> decide

theorem keeps_dispatch (protocol : BuiltIn) : protocol ≠ .tcp →
    ∀ field ∈ protocol.dispatch, ∀ index < field.endByte, field.firstByte ≤ index →
      protocol.Keeps index := by
  cases protocol <;> decide

theorem orderly_flowFields (protocol : BuiltIn) : FlowField.Orderly protocol.flowFields := by
  constructor
  case runs => cases protocol <;> simp [flowFields, FlowField.exchange?]
  case apart => cases protocol <;> simp [flowFields, FlowField.Moves]
  case fixed =>
    cases protocol <;> simp [flowFields, FlowField.fixed?, FlowField.Moves, Span.stop]
    omega

theorem propose_congr {protocol : BuiltIn} {tail tail' : Bytes} (hprotocol : protocol ≠ .http)
    (hlength : tail'.length = tail.length)
    (hbytes : ∀ index ∈ protocol.sizing, tail'[index]? = tail[index]?) :
    protocol.lengthRule.propose tail' = protocol.lengthRule.propose tail := by
  have hfromField (source : BitField) (scale bias minimum : Nat)
      (hsizing : ∀ index < source.endByte, source.firstByte ≤ index → index ∈ protocol.sizing) :
      (LengthRule.fromField source scale bias minimum).propose tail' =
        (LengthRule.fromField source scale bias minimum).propose tail := by
    have hread : source.read tail' = source.read tail :=
      BitField.read_congr hlength
        (fun index hfirst hlast => hbytes index (hsizing index hlast hfirst))
    simp only [LengthRule.propose, hlength, hread]
  cases protocol with
  | ethernet | vlan | ipv6 | ipv6Fragment | icmp | udp =>
    simp only [lengthRule, LengthRule.propose, hlength]
  | arp =>
    simp only [lengthRule, LengthRule.propose, Arp.measure, hbytes 4 (by decide),
      hbytes 5 (by decide)]
  | ipv4 => exact hfromField _ _ _ _ (by decide)
  | tcp => exact hfromField _ _ _ _ (by decide)
  | http => exact absurd rfl hprotocol

end BuiltIn

/-- A field of whole bytes shows the number that these bytes of the header spell. -/
theorem HeaderView.field_ofBytes {data : Bytes} {record : HeaderRecord} {offset length : Nat}
    (hpositive : 0 < length) (hnarrow : length ≤ 8) (hfit : offset + length ≤ record.length)
    (hstop : record.stop ≤ data.length) :
    HeaderView.field ⟨data, record⟩ (.ofBytes offset length) =
      .ok (Span.bytes ⟨offset, length⟩ data record).bigEndian := by
  have hslice := Span.slice?_of_le ⟨offset, length⟩ hfit hstop
  obtain ⟨hinside, hbytes⟩ := Bytes.slice?_eq_some_iff.1 hslice
  rw [HeaderView.field, BitField.read_ofBytes hpositive hnarrow hinside, hbytes]

namespace FrozenRegistry

def IsHttp (protocol : ProtocolId) : Prop := protocol = BuiltIn.http.id

instance (protocol : ProtocolId) : Decidable (IsHttp protocol) :=
  inferInstanceAs (Decidable (_ = _))

theorem http_closed : ∀ edge ∈ builtIn.edges, IsHttp edge.source → IsHttp edge.target := by
  decide

variable {data data' : Bytes} {limit : Nat} {earlier later : List HeaderRecord}
  {protocol : ProtocolId} {known : BuiltIn} {offset : Nat} {current : HeaderRecord} {outcome : Walk}

/-- Messages have no flow fields, so a reply has the same bytes from the first message on. -/
theorem Follows.drop_eq_of_http
    (h : builtIn.Follows data limit earlier protocol offset outcome)
    (hexchanged : builtIn.Exchanged data data' offset outcome.headers)
    (hprotocol : IsHttp protocol) : data'.drop offset = data.drop offset := by
  refine hexchanged.drop_eq h.contiguous fun record hrecord => ?_
  have hhttp : record.protocol = BuiltIn.http.id := h.stays http_closed hprotocol record hrecord
  rw [hhttp]
  rfl

section Places

variable (hplaced : builtIn.Places data earlier known.id offset current)
  (hexchanged : builtIn.Exchanged data data' offset (current :: later))

include hplaced hexchanged

theorem kept_of_keeps {index : Nat} (hindex : index < current.length) (hkeeps : known.Keeps index) :
    data'[offset + index]? = data[offset + index]? := by
  have hkept := hexchanged.kept current List.mem_cons_self index hindex
  rw [hplaced.protocol_eq, flowFields_builtIn, hplaced.offset_eq] at hkept
  exact hkept hkeeps

/-- The header has the same length in the reply. -/
theorem places_exchanged (hhttp : IsHttp known.id → data'.drop offset = data.drop offset) :
    builtIn.Places data' earlier known.id offset current := by
  obtain ⟨hlength, hcurrent⟩ := resolve_of_places hplaced
  have hproposed : known.lengthRule.propose (data'.drop offset) =
      known.lengthRule.propose (data.drop offset) := by
    by_cases hknown : known = .http
    · rw [hhttp (congrArg BuiltIn.id hknown)]
    · refine BuiltIn.propose_congr hknown ?_ fun index hindex => ?_
      · rw [List.length_drop, List.length_drop, hexchanged.length]
      · obtain ⟨hleast, hkeeps⟩ := known.keeps_sizing index hindex
        rw [List.getElem?_drop, List.getElem?_drop]
        exact kept_of_keeps hplaced hexchanged (Nat.lt_of_lt_of_le hleast hplaced.leastLength_le)
          hkeeps
  rw [hcurrent]
  exact places_builtIn known ((LengthRule.resolve_congr hexchanged.length hproposed).trans hlength)

theorem field_exchanged (hknown : known ≠ .tcp) :
    ∀ field ∈ known.dispatch, BindingContext.field ⟨data', earlier, current⟩ field =
      BindingContext.field ⟨data, earlier, current⟩ field := by
  intro field hfield
  have hend := (known.dispatch_inside field hfield).2
  apply BitField.read_congr
  · simp only [BindingContext.view, HeaderView.bytes, List.length_take, List.length_drop,
      hexchanged.length]
  · intro index hfirst hlast
    have hindex : index < current.length :=
      Nat.lt_of_lt_of_le hlast (Nat.le_trans hend hplaced.leastLength_le)
    simp only [BindingContext.view, HeaderView.bytes, List.getElem?_take_of_lt hindex,
      List.getElem?_drop, hplaced.offset_eq]
    exact kept_of_keeps hplaced hexchanged hindex
      (known.keeps_dispatch hknown field hfield index hlast hfirst)

/-- The detection of HTTP asks whether either port is one of its own. -/
theorem detect_exchanged (hknown : known = .tcp)
    (hpayload : data'.drop current.stop = data.drop current.stop) :
    Http.detect ⟨data', earlier, current⟩ = Http.detect ⟨data, earlier, current⟩ := by
  subst hknown
  have hfit : Tcp.minimumLength ≤ current.length := hplaced.leastLength_le
  have hstop := hplaced.inside.2
  have hstop' : current.stop ≤ data'.length := hexchanged.length ▸ hstop
  have hports := hexchanged.moved current List.mem_cons_self (.reversible 0 2 2) (by
    rw [hplaced.protocol_eq]
    decide)
  have hport (offset : Nat) (hoffset : offset + 2 ≤ 4) {buffer : Bytes}
      (hbuffer : current.stop ≤ buffer.length) :
      BindingContext.field ⟨buffer, earlier, current⟩ (.ofBytes offset 2) =
        .ok (Span.bytes ⟨offset, 2⟩ buffer current).bigEndian :=
    HeaderView.field_ofBytes (by decide) (by decide)
      (Nat.le_trans hoffset (Nat.le_trans (by decide) hfit)) hbuffer
  have hsource : Span.bytes ⟨0, 2⟩ data' current = Span.bytes ⟨2, 2⟩ data current :=
    Option.some.inj hports.1
  have hdestination : Span.bytes ⟨2, 2⟩ data' current = Span.bytes ⟨0, 2⟩ data current :=
    Option.some.inj hports.2
  have hrest : BindingContext.payload ⟨data', earlier, current⟩ =
      BindingContext.payload ⟨data, earlier, current⟩ := hpayload
  rw [Http.detect_eq (hport 0 (by decide) hstop') (hport 2 (by decide) hstop'),
    Http.detect_eq (hport 0 (by decide) hstop) (hport 2 (by decide) hstop), hsource, hdestination,
    hrest, Bool.or_comm]

theorem predicate_exchanged
    (hpayload : known = .tcp → data'.drop current.stop = data.drop current.stop) :
    ∀ edge ∈ builtIn.bindingsFrom known.id,
      edge.predicate ⟨data', earlier, current⟩ = edge.predicate ⟨data, earlier, current⟩ := by
  intro edge hedge
  by_cases hknown : known = .tcp
  · have hdetect := detect_exchanged hplaced hexchanged hknown (hpayload hknown)
    rw [hknown, bindingsFrom_tcp, List.mem_singleton] at hedge
    rw [hedge]
    exact hdetect
  · exact (judges_edge hknown edge hedge).congr _ _ (field_exchanged hplaced hexchanged hknown)

end Places

/-- What the rules allow for a packet they allow for its reply. -/
theorem Follows.exchanged (h : builtIn.Follows data limit earlier protocol offset outcome)
    (hprotocol : ∃ known : BuiltIn, protocol = known.id)
    (hexchanged : builtIn.Exchanged data data' offset outcome.headers) :
    builtIn.Follows data' limit earlier protocol offset outcome := by
  induction h with
  | limited hfull => exact .limited hfull
  | unplaced hroom hlookup hlength =>
    have hdrop := hexchanged.drop_eq trivial (by simp)
    exact .unplaced hroom hlookup
      ((LengthRule.resolve_congr hexchanged.length (by rw [hdrop])).trans hlength)
  | ended hroom hplaced hend =>
    obtain ⟨known, rfl⟩ := hprotocol
    have hhttp := (Follows.ended hroom hplaced hend).drop_eq_of_http hexchanged
    exact .ended hroom (places_exchanged hplaced hexchanged hhttp) (hexchanged.length ▸ hend)
  | unbound hroom hplaced hrest hnone =>
    obtain ⟨known, rfl⟩ := hprotocol
    have hhttp := (Follows.unbound hroom hplaced hrest hnone).drop_eq_of_http hexchanged
    have hsame := predicate_exchanged hplaced hexchanged
      (fun _ => hexchanged.tail.drop_eq trivial (by simp))
    have hunbound := Follows.unbound hroom (places_exchanged hplaced hexchanged hhttp)
      (hexchanged.length ▸ hrest) (fun edge hedge => by
        rw [hsame edge hedge]
        exact hnone edge hedge)
    rwa [BindingContext.faults_congr hsame rfl] at hunbound
  | bound hroom hplaced hrest hwins hlater ih =>
    obtain ⟨known, rfl⟩ := hprotocol
    have hhttp := (Follows.bound hroom hplaced hrest hwins hlater).drop_eq_of_http hexchanged
    -- behind TCP there are messages alone, so detection sees the same bytes
    have hpayload (hknown : known = .tcp) := hlater.drop_eq_of_http hexchanged.tail (by
      have honly := hwins.tried
      rw [hknown, bindingsFrom_tcp, List.mem_singleton] at honly
      rw [honly]
      rfl)
    have hsame := predicate_exchanged hplaced hexchanged hpayload
    have hbound := Follows.bound hroom (places_exchanged hplaced hexchanged hhttp)
      (hexchanged.length ▸ hrest) (hwins.congr hsame)
      (ih (exists_builtIn_target hwins.tried) hexchanged.tail)
    rwa [BindingContext.faults_congr (fun edge hedge => hsame edge (List.mem_filter.1 hedge).1) rfl]
      at hbound

theorem scan_eq_of_exchanged {config : ScanConfig} {root : BuiltIn}
    (h : builtIn.Exchanged data data' 0 (builtIn.scan config root.id data).headers) :
    builtIn.scan config root.id data' = builtIn.scan config root.id data := by
  by_cases hdata : data = []
  · have hdata' : data' = [] := List.eq_nil_of_length_eq_zero (by rw [h.length, hdata]; rfl)
    rw [hdata, hdata']
  · have hdata' : data' ≠ [] := fun hnil =>
      hdata (List.eq_nil_of_length_eq_zero (by rw [← h.length, hnil]; rfl))
    have hroot := contains_builtIn root
    have hpayload := builtIn_ne_payload root
    have hfollows := builtIn.follows_scan config root.id data hroot hpayload hdata
    have hwalk := hfollows.eq_walk config.headerLimit (Nat.zero_add _)
    have hwalk' := (hfollows.exchanged ⟨root, rfl⟩ h).eq_walk config.headerLimit (Nat.zero_add _)
    rw [scan_of_registered builtIn config root.id data' hroot hpayload hdata', ← hwalk', hwalk,
      scan_of_registered builtIn config root.id data hroot hpayload hdata, h.length]

theorem orderly_of_scan {config : ScanConfig} {root : ProtocolId} {record : HeaderRecord}
    (h : record ∈ (builtIn.scan config root data).headers) :
    FlowField.Orderly (builtIn.flowFields record.protocol) := by
  obtain ⟨protocol, hprotocol, -⟩ := exists_protocol_of_scan h
  rw [hprotocol, flowFields_builtIn]
  exact protocol.orderly_flowFields

theorem exchanged_scan (config : ScanConfig) (root : BuiltIn) (data : Bytes) :
    builtIn.Exchanged data (builtIn.reply data (builtIn.scan config root.id data).headers) 0
      (builtIn.scan config root.id data).headers := by
  refine exchanged_reply ?_ (fun _ => holdsFields_of_scan) (fun _ => orderly_of_scan)
  rcases headers_nil_or_follows builtIn config root.id data with hnone | hfollows
  · rw [hnone]
    trivial
  · exact hfollows.contiguous

end FrozenRegistry

/-- What the flow key of a packet and that of its reply have to do with each other. -/
structure FlowKey.AnsweredBy (key answer : FlowKey) : Prop where
  identity : answer.identity = key.identity
  source : answer.source = key.destination
  destination : answer.destination = key.source
  direction : answer.direction ≠ key.direction ↔ key.source ≠ key.destination

theorem ObservedFlow.answeredBy_exchanged (flow : ObservedFlow) :
    flow.key.AnsweredBy flow.exchanged.key where
  identity := FlowKey.identity_orient_eq_iff.2 ⟨rfl, rfl, .inr ⟨rfl, rfl⟩⟩
  source := by
    rw [key_source, key_destination]
    rfl
  destination := by
    rw [key_source, key_destination]
    rfl
  direction := by
    have hends : flow.source = flow.exchanged.destination ∧
        flow.destination = flow.exchanged.source := ⟨rfl, rfl⟩
    rw [key_source, key_destination, ne_comm, key, key,
      FlowKey.direction_orient_ne_iff (.inr hends), and_iff_left hends]

namespace FrozenRegistry

/-- A reply, made by exchanging in place the source and the destination of every flow field in the
headers of a packet, has the same chain of headers. It has a flow key exactly when the packet has
one, and then the keys have the same identity, and the endpoints have changed places. -/
theorem scan_reply (config : ScanConfig) (root : BuiltIn) (data : Bytes) :
    let chain := builtIn.scan config root.id data
    let answer := builtIn.reply data chain.headers
    builtIn.scan config root.id answer = chain ∧
      Option.Rel FlowKey.AnsweredBy (builtIn.flowKey? chain data)
        (builtIn.flowKey? (builtIn.scan config root.id answer) answer) := by
  intro chain answer
  have hexchanged : builtIn.Exchanged data answer 0 chain.headers :=
    exchanged_scan config root data
  have hscan : builtIn.scan config root.id answer = chain := scan_eq_of_exchanged hexchanged
  have hheld : ∀ record ∈ chain.headers, builtIn.HoldsFields data record :=
    fun _ => holdsFields_of_scan
  have hheld' : ∀ record ∈ chain.headers, builtIn.HoldsFields answer record := by
    rw [← hscan]
    exact fun _ => holdsFields_of_scan
  have hobserve := hexchanged.observe_eq hheld (fun _ => orderly_of_scan)
  refine ⟨hscan, ?_⟩
  rw [hscan, flowKey?_eq, flowKey?_eq, hobserve]
  by_cases hprotocols : (builtIn.observe data chain.headers).protocols = []
  · rw [if_neg (fun h => h.2 hprotocols), if_neg (fun h => h.2 hprotocols)]
    exact .none
  · rw [if_pos ⟨hheld, hprotocols⟩, if_pos ⟨hheld', hprotocols⟩]
    exact .some (ObservedFlow.answeredBy_exchanged _)

end FrozenRegistry

end Dissection
