import Dissection.Proofs.Reassembly.Sources
import Dissection.Proofs.Scan.Fragment
import Dissection.Proofs.Session.Run
import Dissection.Proofs.Wire.Ethernet
import Dissection.Proofs.Wire.Ipv4

/-!
# Captures cut short

A capture may keep only the first bytes of a packet. The fragment of such a packet has the bytes
that were captured, however many its header declares: a datagram whose last fragment was cut short
is completed with the end of the capture for its own.
-/

namespace Dissection

theorem BitField.lt_of_read {field : BitField} {window : Bytes} {number : Nat}
    (horder : field.order = .big) (h : field.read window = .ok number) :
    number < 2 ^ field.bitLength := by
  unfold read at h
  split at h
  · cases h
  · next hwidth =>
    split at h
    · cases h
    · rw [extract_eq (by omega), horder] at h
      cases h
      rw [Nat.one_shiftLeft]
      exact Nat.mod_lt _ (Nat.two_pow_pos _)

namespace FrozenRegistry

variable {data : Bytes}

/-- An IPv4 header is as long as it says. -/
theorem ipv4_length {config : ScanConfig} {root : ProtocolId} {record : HeaderRecord}
    (h : record ∈ (builtIn.scan config root data).headers)
    (hprotocol : record.protocol = BuiltIn.ipv4.id) {words : Nat}
    (hwords : (HeaderView.mk data record).field Ipv4.headerWords = .ok words) :
    record.length = 4 * words := by
  obtain ⟨before, descriptor, length, hlookup, hlength, hrecord⟩ := exists_places_of_scan h
  obtain ⟨known, hknown, hrule⟩ := lookup_builtIn .ipv4
  rw [hprotocol, hknown] at hlookup
  rw [← Option.some.inj hlookup, hrule] at hlength
  have hbounds := LengthRule.resolve_bounds hlength
  obtain ⟨number, hread, hsaturated, hminimum⟩ := LengthRule.exists_of_resolve_fromField hlength
  have hnumber : number < 16 := BitField.lt_of_read rfl hread
  have hscaled : LengthRule.saturate (number * 4 + 0) = 4 * number := by
    unfold LengthRule.saturate UInt64.size
    omega
  -- the rule read the number in front of all that is left, the view in the header alone
  have hheader : (data.drop record.offset).take length ++ (data.drop record.offset).drop length =
      data.drop record.offset := List.take_append_drop _ _
  have hfit : Ipv4.headerWords.endByte ≤ ((data.drop record.offset).take length).length := by
    rw [List.length_take, List.length_drop]
    change 1 ≤ _
    omega
  have hsame : length = record.length := by rw [hrecord]
  rw [← hheader, BitField.read_append hfit, hsame] at hread
  have hwords' : Ipv4.headerWords.read ((data.drop record.offset).take record.length) =
      .ok words := hwords
  rw [hwords'] at hread
  rw [← hsame, ← hsaturated, hscaled, Except.ok.inj hread]

end FrozenRegistry

namespace Ipv4

/-- The bytes that the header says follow it, none when it does not even claim its own length. -/
def Header.declaredLength (header : Header) : Nat := header.totalLength - 4 * header.headerWords

theorem length_of_fragmentHeader? {config : ScanConfig} {root : ProtocolId} {data : Bytes}
    {record : HeaderRecord} {header : Header}
    (h : fragmentHeader? (FrozenRegistry.builtIn.scan config root data) data =
      some (record, header)) : record.length = 4 * header.headerWords := by
  obtain ⟨found, hfound, hsome⟩ := List.exists_of_findSome?_eq_some h
  obtain ⟨shown, hshown, heq⟩ := Option.map_eq_some_iff.1 hsome
  cases heq
  rw [List.mem_reverse, ← HeaderChain.filter_headers _ (by decide), List.mem_filter] at hfound
  have hstop : record.stop ≤ data.length :=
    FrozenRegistry.stop_le_of_scan (List.mem_filter.1 hfound.1).1
  have hheader := (headerAt?_eq_some_iff hstop).1 (Option.mem_filter_iff.1 hshown).1
  exact FrozenRegistry.ipv4_length hfound.1 (of_decide_eq_true hfound.2)
    (fields_of_ofView hheader).1

end Ipv4

/-- Storing a fragment without its bytes leaves it a last one or not. -/
theorem AssemblyConfig.more_stored (config : AssemblyConfig) (fragment : Fragment) :
    (config.stored fragment).more = fragment.more := by
  unfold stored
  split <;> rfl

namespace Session

/-- The header of the packet's IPv4 fragment, and how many bytes were captured behind it. -/
def ipv4Header? (session : Session) (packet : Packet) : Option (Ipv4.Header × Nat) :=
  (Ipv4.fragmentHeader? (session.chainOf packet) packet.data).map
    (fun (record, header) => (header, packet.data.length - record.stop))

/-- The packet brings the fragment: its header names the datagram and the place of the fragment, and
of the bytes declared there the fragment has those that were captured. -/
structure Brings (session : Session) (packet : Packet) (key : Ipv4.FragmentKey)
    (fragment : Fragment) (header : Ipv4.Header) (captured : Nat) : Prop where
  header_eq : session.ipv4Header? packet = some (header, captured)
  key_eq : header.fragmentKey = key
  offset_eq : fragment.offset = header.fragmentStart
  more_eq : fragment.more = header.moreFragments
  length_eq : fragment.length = min header.declaredLength captured

/-- All bytes that the header of the packet's fragment declares were captured. -/
def CapturedWhole (session : Session) (packet : Packet) : Prop :=
  ∀ header captured, session.ipv4Header? packet = some (header, captured) →
    header.declaredLength ≤ captured

section Captures

variable {root : ProtocolId} {config : SessionConfig}

theorem brings_of_fragment {packet : Packet} {key : Ipv4.FragmentKey} {fragment : Fragment}
    (h : (start .builtIn root config).ipv4Fragment? packet = some (key, fragment)) :
    ∃ header captured,
      (start .builtIn root config).Brings packet key fragment header captured := by
  rw [ipv4Fragment?, Ipv4.fragment?_eq] at h
  obtain ⟨⟨record, header⟩, hheader, heq⟩ := Option.map_eq_some_iff.1 h
  cases heq
  have hlength := Ipv4.length_of_fragmentHeader? hheader
  refine ⟨header, packet.data.length - record.stop, ?_, rfl, rfl, rfl, ?_⟩
  · rw [ipv4Header?, hheader]
    rfl
  · rw [Ipv4.Header.declaredLength, ← hlength]
    exact (List.length_take).trans (congrArg _ List.length_drop)

/-- What is stored of a fragment comes from the same packet. -/
theorem Brings.stored {session : Session} {packet : Packet} {key : Ipv4.FragmentKey}
    {fragment : Fragment} {header : Ipv4.Header} {captured : Nat}
    (h : session.Brings packet key fragment header captured) (config : AssemblyConfig) :
    session.Brings packet key (config.stored fragment) header captured := by
  obtain ⟨hoffset, hlength⟩ := config.stored_sameRange fragment
  exact ⟨h.header_eq, h.key_eq, hoffset.trans h.offset_eq,
    (config.more_stored fragment).trans h.more_eq, hlength.trans h.length_eq⟩

theorem sourced_of_output (hassembles : config.assemblesIpv4 = true) {packets : List Packet}
    {output : ProcessedPacket} (houtput : output ∈ (start .builtIn root config).outputs packets)
    {done : FragmentSequence Ipv4.FragmentKey} (hdone : .complete done ∈ output.ipv4Events) :
    done.Sourced config.assembly (ipv4Family.requests (start .builtIn root config) packets) := by
  have hnew : ipv4Family.assembler (start .builtIn root config) =
      some (.ofConfig config.assembly) := if_pos hassembles
  obtain ⟨call, hcall, hevents⟩ := Family.exists_call_of_output hnew houtput
  exact Assembler.sourced_of_call hcall (hevents ▸ hdone)

/-- Every fragment of a complete datagram comes from a packet of the capture, which places it, and
has what was captured of the bytes declared there; the last fragments tell the length of the
datagram. So the datagram is as long as the headers declare when the packets were captured whole. -/
theorem completed_from_captures (hassembles : config.assemblesIpv4 = true) {packets : List Packet}
    {output : ProcessedPacket} (houtput : output ∈ (start .builtIn root config).outputs packets)
    {done : FragmentSequence Ipv4.FragmentKey} (hdone : .complete done ∈ output.ipv4Events) :
    let session := start .builtIn root config
    (∀ fragment ∈ done.fragments, ∃ packet ∈ packets, ∃ header captured,
        session.Brings packet done.key fragment header captured) ∧
      (∃ final ∈ done.fragments, final.more = false) ∧
      (∀ final ∈ done.fragments, final.more = false → done.totalLength = some final.stop) ∧
      ((∀ packet ∈ packets, session.CapturedWhole packet) →
        ∀ fragment ∈ done.fragments, ∃ packet ∈ packets, ∃ header captured,
          session.Brings packet done.key fragment header captured ∧
          fragment.length = header.declaredLength ∧
          (header.moreFragments = false →
            done.totalLength = some (header.fragmentStart + header.declaredLength))) := by
  intro session
  have hsourced := sourced_of_output hassembles houtput hdone
  have hbrought : ∀ fragment ∈ done.fragments, ∃ packet ∈ packets, ∃ header captured,
      session.Brings packet done.key fragment header captured := by
    intro fragment hfragment
    obtain ⟨offered, hrequest, rfl⟩ := hsourced.inserted fragment hfragment
    obtain ⟨packet, hpacket, hoffered⟩ := Family.exists_packet_of_insert hrequest
    obtain ⟨header, captured, hbrings⟩ := brings_of_fragment hoffered
    exact ⟨packet, hpacket, header, captured, hbrings.stored config.assembly⟩
  refine ⟨hbrought, hsourced.told, hsourced.agreed, ?_⟩
  intro hwhole fragment hfragment
  obtain ⟨packet, hpacket, header, captured, hbrings⟩ := hbrought fragment hfragment
  have hlength : fragment.length = header.declaredLength :=
    hbrings.length_eq.trans (Nat.min_eq_left (hwhole packet hpacket _ _ hbrings.header_eq))
  refine ⟨packet, hpacket, header, captured, hbrings, hlength, ?_⟩
  intro hfinal
  rw [hsourced.agreed fragment hfragment (hbrings.more_eq.trans hfinal), Fragment.stop,
    hbrings.offset_eq, hlength]

end Captures

section Snapped

/-- A capture of IPv4 fragments between Ethernet hosts. -/
def snapping : Session :=
  start .builtIn BuiltIn.ethernet.id { assemblesIpv4 := true }

def snappedLink : Ethernet.Header := ⟨⟨[2, 0, 0, 0, 0, 2]⟩, ⟨[2, 0, 0, 0, 0, 1]⟩, EtherType.ipv4⟩

/-- The header of a fragment of eight bytes. -/
def snappedHeader (more : Bool) (place : Nat) : Ipv4.Header :=
  ⟨4, 5, 0, 0, 28, 7, false, more, place, 64, Internet.Number.udp, 0, [10, 0, 0, 1], [10, 0, 0, 2],
    []⟩

def wholePacket : Packet where
  data := snappedLink.encode ++ ((snappedHeader true 0).encode false ++
    [0, 53, 0, 53, 0, 16, 0, 0])

/-- Of the second half of the datagram four bytes were captured. -/
def snappedPacket : Packet where
  data := snappedLink.encode ++ ((snappedHeader false 1).encode false ++ [1, 2, 3, 4])
  wireLength := some 42

def snappedOutput : ProcessedPacket := ((snapping.process wholePacket).1.process snappedPacket).2

def snappedDatagram : FragmentSequence Ipv4.FragmentKey where
  key := ⟨[10, 0, 0, 1], [10, 0, 0, 2], 7, Internet.Number.udp⟩
  fragments := [.ofPayload 0 [0, 53, 0, 53, 0, 16, 0, 0] true .zero,
    .ofPayload 8 [1, 2, 3, 4] false .zero]
  totalLength := some 12
  status := .complete
  ambiguous := false
  firstFragmentAt := .zero
  lastFragmentAt := .zero
  serial := 0

theorem snappedOutput_mem : snappedOutput ∈ snapping.outputs [wholePacket, snappedPacket] :=
  List.mem_cons_of_mem _ List.mem_cons_self

theorem snapped_complete : .complete snappedDatagram ∈ snappedOutput.ipv4Events := by
  decide +kernel

theorem snapped_from_captures :
    snappedOutput ∈ snapping.outputs [wholePacket, snappedPacket] ∧
      .complete snappedDatagram ∈ snappedOutput.ipv4Events ∧
      ∀ fragment ∈ snappedDatagram.fragments, ∃ packet ∈ [wholePacket, snappedPacket],
        ∃ header captured, snapping.Brings packet snappedDatagram.key fragment header captured :=
  ⟨snappedOutput_mem, snapped_complete,
    (completed_from_captures rfl snappedOutput_mem snapped_complete).1⟩

/-- A capture cut short makes a datagram complete that is shorter than its last header declares. -/
theorem snapped_is_short :
    snappedOutput ∈ snapping.outputs [wholePacket, snappedPacket] ∧
      .complete snappedDatagram ∈ snappedOutput.ipv4Events ∧
      snappedDatagram.totalLength = some 12 ∧
      snappedDatagram.fragments.map (fun fragment => (fragment.more, fragment.length)) =
        [(true, 8), (false, 4)] ∧
      snapping.ipv4Header? snappedPacket = some (snappedHeader false 1, 4) ∧
      (snappedHeader false 1).moreFragments = false ∧
      (snappedHeader false 1).declaredLength = 8 ∧
      (snappedHeader false 1).fragmentStart + (snappedHeader false 1).declaredLength = 16 := by
  refine ⟨snappedOutput_mem, snapped_complete, rfl, rfl, ?_, rfl, rfl, rfl⟩
  decide +kernel

end Snapped

end Session

end Dissection
