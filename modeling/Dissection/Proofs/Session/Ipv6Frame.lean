import Dissection.Proofs.Reassembly.Pieces
import Dissection.Proofs.Scan.Ipv6Chain
import Dissection.Proofs.Wire.Ethernet
import Dissection.Proofs.Wire.Ipv6
import Dissection.Session

/-!
# Ethernet frames that carry pieces of an IPv6 datagram

Every piece of a datagram travels in a frame of its own, behind an IPv6 header and a fragment header
that says where the piece belongs. Behind these a scan finds transport protocols at most, so the
frame yields the piece whatever the datagram carries.
-/

namespace Dissection

variable {datagram : Bytes} {cut : Cut datagram}

theorem Ipv4.fragment?_of_no_header {chain : HeaderChain} {data : Bytes} {time : Timestamp}
    (h : ∀ record ∈ chain.headers, record.protocol ≠ BuiltIn.ipv4.id) :
    Ipv4.fragment? chain data time = none := by
  have hnone : chain.records.filter (·.protocol = BuiltIn.ipv4.id) = [] := by
    rw [← HeaderChain.filter_headers _ (by decide), List.filter_eq_nil_iff]
    simpa using h
  rw [fragment?, hnone]
  rfl

namespace Ipv6

/-- Behind the fragment header of a datagram there is no other header of the two kinds. -/
theorem fragmentRecords?_eq {chain : HeaderChain} {link front fragment : HeaderRecord}
    {inner : List HeaderRecord} (hheaders : chain.headers = link :: front :: fragment :: inner)
    (hfront : front.protocol = BuiltIn.ipv6.id)
    (hfragment : fragment.protocol = BuiltIn.ipv6Fragment.id)
    (horder : front.stop ≤ fragment.offset)
    (hinner : ∀ record ∈ inner, FrozenRegistry.IsTransport record.protocol) :
    fragmentRecords? chain = some (fragment, front) := by
  have hinternet (protocol : ProtocolId) (hprotocol : ¬ FrozenRegistry.IsTransport protocol) :
      ∀ record ∈ inner.reverse, record.protocol ≠ protocol := by
    rintro record hrecord rfl
    exact hprotocol (hinner record (List.mem_reverse.1 hrecord))
  have hrecords : chain.headers.reverse = inner.reverse ++ [fragment, front, link] := by
    rw [hheaders]
    simp
  have hfind : chain.records.reverse.find? (·.protocol = BuiltIn.ipv6Fragment.id) =
      some fragment := by
    rw [← chain.find?_headers, hrecords, List.find?_append, List.find?_eq_none.2]
    · simp [hfragment]
    · simpa using hinternet BuiltIn.ipv6Fragment.id (by decide)
    · intro record hrecord
      rw [HeaderRecord.isPayload, of_decide_eq_true hrecord]
      rfl
  have hbefore : chain.records.reverse.find? (fun record =>
      record.protocol = BuiltIn.ipv6.id ∧ record.stop ≤ fragment.offset) = some front := by
    have hother : BuiltIn.ipv6Fragment.id ≠ BuiltIn.ipv6.id := by decide
    rw [← chain.find?_headers, hrecords, List.find?_append, List.find?_eq_none.2]
    · simp [hfragment, hother, hfront, horder]
    · intro record hrecord
      simp [hinternet BuiltIn.ipv6.id (by decide) record hrecord]
    · intro record hrecord
      rw [HeaderRecord.isPayload, (of_decide_eq_true hrecord).1]
      rfl
  simp only [fragmentRecords?, Option.bind_eq_bind, hfind, Option.bind_some, hbefore]
  rfl

/-- The headers belong in front of the piece that arrives: they name the datagram and tell the place
and the length of the piece. -/
structure Heads (header : Header) (fragmentHeader : Ipv6Fragment.Header) (key : FragmentKey)
    (arrival : Arrival cut) : Prop where
  fits : header.Fits
  fragment_fits : fragmentHeader.Fits
  source_eq : header.source = key.source
  destination_eq : header.destination = key.destination
  identification_eq : fragmentHeader.identification = key.identification
  nextHeader_eq : header.nextHeader = Internet.Number.ipv6Fragment
  payloadLength_eq : header.payloadLength = Ipv6Fragment.headerLength + arrival.fragment.length
  fragmentOffset_eq : fragmentHeader.fragmentOffset = arrival.fragment.offset / 8
  moreFragments_eq : fragmentHeader.moreFragments = arrival.fragment.more

/-- An Ethernet frame with a piece of a datagram. The reserved bits of the fragment header may hold
anything. -/
structure Frame (key : FragmentKey) (cut : Cut datagram) extends Arrival cut where
  link : Ethernet.Header
  link_fits : link.Fits
  link_ipv6 : link.etherType = EtherType.ipv6
  header : Header
  fragmentHeader : Ipv6Fragment.Header
  heads : Heads header fragmentHeader key toArrival
  reservedByte : Nat
  reserved : Fin 4
  padding : Bytes
  wireLength : Option Nat

namespace Frame

open FrozenRegistry (front extension)

variable {key : FragmentKey} (frame : Frame key cut)

def encodedFragmentHeader : Bytes :=
  frame.fragmentHeader.encode frame.reservedByte frame.reserved

def data : Bytes :=
  frame.link.encode ++ (frame.header.encode ++
    (frame.encodedFragmentHeader ++ (cut.pieces[frame.index] ++ frame.padding)))

def packet : Packet := ⟨frame.data, frame.time, frame.wireLength⟩

theorem length_header : frame.header.encode.length = headerLength :=
  Header.length_encode frame.heads.fits

/-- The bytes in front of the fragment header. -/
theorem length_before :
    (frame.link.encode ++ frame.header.encode).length = Ethernet.headerLength + headerLength := by
  rw [List.length_append, Ethernet.Header.length_encode frame.link_fits, length_header]

theorem data_eq : frame.data = (frame.link.encode ++ frame.header.encode) ++
    (frame.encodedFragmentHeader ++ (cut.pieces[frame.index] ++ frame.padding)) :=
  (List.append_assoc ..).symm

theorem bytes_front : HeaderView.bytes ⟨frame.data, front⟩ = frame.header.encode :=
  HeaderView.bytes_of_append (Ethernet.Header.length_encode frame.link_fits).symm
    frame.length_header.symm

theorem bytes_extension :
    HeaderView.bytes ⟨frame.data, extension⟩ = frame.encodedFragmentHeader := by
  rw [data_eq]
  exact HeaderView.bytes_of_append frame.length_before.symm rfl

theorem payload_extension : HeaderView.payload ⟨frame.data, extension⟩ =
    cut.pieces[frame.index] ++ frame.padding := by
  rw [data_eq]
  exact HeaderView.payload_of_append frame.length_before.symm rfl

theorem length_data : frame.data.length =
    extension.stop + (cut.pieces[frame.index].length + frame.padding.length) := by
  have hfragment : frame.encodedFragmentHeader.length = Ipv6Fragment.headerLength := rfl
  rw [data_eq, List.length_append, length_before, List.length_append, hfragment,
    List.length_append, ← Nat.add_assoc]
  rfl

theorem view?_front : front.view? frame.data = some ⟨frame.data, front⟩ := by
  refine HeaderRecord.view?_eq_some_iff.2 ⟨?_, rfl⟩
  have horder : front.stop ≤ extension.stop := by decide
  rw [length_data]
  omega

theorem view?_extension : extension.view? frame.data = some ⟨frame.data, extension⟩ := by
  refine HeaderRecord.view?_eq_some_iff.2 ⟨?_, rfl⟩
  rw [length_data]
  omega

theorem fragmentPayload_eq :
    fragmentPayload frame.data extension front frame.header.payloadLength =
      cut.pieces[frame.index] := by
  have hend : min (front.stop + frame.header.payloadLength) frame.data.length - extension.stop =
      cut.pieces[frame.index].length := by
    have hpayload : front.stop + frame.header.payloadLength =
        extension.stop + cut.pieces[frame.index].length := by
      rw [frame.heads.payloadLength_eq, ← Nat.add_assoc]
      rfl
    rw [hpayload, length_data, Nat.min_eq_left (by omega), Nat.add_sub_cancel_left]
  rw [fragmentPayload, hend]
  change (HeaderView.payload ⟨frame.data, extension⟩).take _ = _
  rw [payload_extension, List.take_left]

theorem fragmentStart_eq (haligned : cut.Aligned) :
    frame.fragmentHeader.fragmentStart = frame.fragment.offset := by
  rw [Ipv6Fragment.Header.fragmentStart, frame.heads.fragmentOffset_eq,
    Nat.div_mul_cancel (haligned.dvd_offset frame.toArrival)]

section Scan

variable {config : ScanConfig} (hlimit : 3 ≤ config.maxHeaders)

include hlimit

theorem exists_headers :
    ∃ inner, (FrozenRegistry.builtIn.scan config BuiltIn.ethernet.id frame.data).headers =
        FrozenRegistry.link :: front :: extension :: inner ∧
      ∀ record ∈ inner, FrozenRegistry.IsTransport record.protocol := by
  refine FrozenRegistry.exists_behind_fragment hlimit ?_ ?_ ?_
  · rw [data, List.take_left' (Ethernet.Header.length_encode frame.link_fits),
      Ethernet.Header.read_etherType frame.link_fits, frame.link_ipv6]
  · rw [bytes_front, read_nextHeader frame.heads.fits, frame.heads.nextHeader_eq]
  · rw [length_data]
    exact Nat.le_add_right ..

theorem fragment?_eq (haligned : cut.Aligned) :
    fragment? (FrozenRegistry.builtIn.scan config BuiltIn.ethernet.id frame.data) frame.data
      frame.time = some (key, frame.fragment) := by
  obtain ⟨inner, hheaders, hinner⟩ := frame.exists_headers hlimit
  have hkey : (⟨frame.header.source, frame.header.destination,
      frame.fragmentHeader.identification⟩ : FragmentKey) = key := by
    rw [frame.heads.source_eq, frame.heads.destination_eq, frame.heads.identification_eq]
  have hfront : Header.ofView ⟨frame.data, front⟩ = .ok frame.header :=
    Header.ofView_encode frame.heads.fits frame.bytes_front
  have hextension : Ipv6Fragment.Header.ofView ⟨frame.data, extension⟩ = .ok frame.fragmentHeader :=
    Ipv6Fragment.Header.ofView_encode frame.heads.fragment_fits frame.bytes_extension
  rw [fragment?, fragmentRecords?_eq hheaders rfl rfl (by decide) hinner]
  simp only [Option.bind_eq_bind, Option.bind_some, view?_front, view?_extension, hfront,
    hextension, Except.toOption, fragmentPayload_eq, frame.fragmentStart_eq haligned, hkey,
    frame.heads.moreFragments_eq]
  rfl

theorem ipv4Fragment?_eq_none :
    Ipv4.fragment? (FrozenRegistry.builtIn.scan config BuiltIn.ethernet.id frame.data) frame.data
      frame.time = none := by
  obtain ⟨inner, hheaders, hinner⟩ := frame.exists_headers hlimit
  apply Ipv4.fragment?_of_no_header
  intro record hrecord
  rw [hheaders] at hrecord
  simp only [List.mem_cons] at hrecord
  rcases hrecord with rfl | rfl | rfl | hbehind
  · decide
  · decide
  · decide
  · intro hprotocol
    have htransport := hinner record hbehind
    rw [hprotocol] at htransport
    exact absurd htransport (by decide)

end Scan

def plainHeader (key : FragmentKey) (arrival : Arrival cut) : Header where
  version := 6
  trafficClass := 0
  flowLabel := 0
  payloadLength := Ipv6Fragment.headerLength + arrival.fragment.length
  nextHeader := Internet.Number.ipv6Fragment
  hopLimit := 64
  source := key.source
  destination := key.destination

/-- The fragment header in front of a piece of a datagram of the protocol. -/
def plainFragmentHeader (key : FragmentKey) (arrival : Arrival cut) (protocol : Nat) :
    Ipv6Fragment.Header where
  nextHeader := protocol
  fragmentOffset := arrival.fragment.offset / 8
  moreFragments := arrival.fragment.more
  identification := key.identification

/-- The pieces of a datagram below the limit of the format have headers that fit. -/
theorem plain_heads {key : FragmentKey} (arrival : Arrival cut) {protocol : Nat}
    (hsource : key.source.length = 16) (hdestination : key.destination.length = 16)
    (hidentification : key.identification < 4294967296) (hprotocol : protocol < 256)
    (hdatagram : Ipv6Fragment.headerLength + datagram.length < 65536) :
    Heads (plainHeader key arrival) (plainFragmentHeader key arrival protocol) key arrival := by
  have hstop := arrival.stop_le
  unfold Fragment.stop at hstop
  unfold Ipv6Fragment.headerLength at hdatagram
  have hlength : Ipv6Fragment.headerLength + arrival.fragment.length < 65536 := by
    unfold Ipv6Fragment.headerLength
    omega
  have hoffset : arrival.fragment.offset / 8 < 8192 := by omega
  exact {
    fits := {
      version := of_decide_eq_true rfl
      trafficClass := of_decide_eq_true rfl
      flowLabel := of_decide_eq_true rfl
      payloadLength := hlength
      nextHeader := of_decide_eq_true rfl
      hopLimit := of_decide_eq_true rfl
      source := hsource
      destination := hdestination }
    fragment_fits := ⟨hprotocol, hoffset, hidentification⟩
    source_eq := rfl
    destination_eq := rfl
    identification_eq := rfl
    nextHeader_eq := rfl
    payloadLength_eq := rfl
    fragmentOffset_eq := rfl
    moreFragments_eq := rfl }

def plain {key : FragmentKey} (arrival : Arrival cut) (protocol : Nat) (reserved : Fin 4)
    (padding : Bytes)
    (heads : Heads (plainHeader key arrival) (plainFragmentHeader key arrival protocol) key
      arrival) : Frame key cut where
  toArrival := arrival
  link := ⟨⟨[2, 0, 0, 0, 0, 2]⟩, ⟨[2, 0, 0, 0, 0, 1]⟩, EtherType.ipv6⟩
  link_fits := ⟨rfl, rfl, by decide⟩
  link_ipv6 := rfl
  header := plainHeader key arrival
  fragmentHeader := plainFragmentHeader key arrival protocol
  heads := heads
  reservedByte := 0
  reserved := reserved
  padding := padding
  wireLength := none

end Frame

end Ipv6

end Dissection
