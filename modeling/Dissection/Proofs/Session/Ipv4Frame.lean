import Dissection.Proofs.Reassembly.Pieces
import Dissection.Proofs.Scan.BuiltIn
import Dissection.Proofs.Wire.Ethernet
import Dissection.Proofs.Wire.Ipv4
import Dissection.Session

/-!
# Ethernet frames that carry pieces of an IPv4 datagram

Every piece of a datagram travels in a frame of its own, behind an IPv4 header that says where the
piece belongs. A scan of the frame finds that header and maybe others behind it. The fragment it
yields is the piece itself, unless an inner header belongs to a fragment, too.
-/

namespace Dissection

variable {datagram : Bytes} {cut : Cut datagram}

theorem Ipv6.fragment?_of_no_header {chain : HeaderChain} {data : Bytes} {time : Timestamp}
    (h : ∀ record ∈ chain.headers, record.protocol ≠ BuiltIn.ipv6Fragment.id) :
    Ipv6.fragment? chain data time = none := by
  have hnone : chain.records.filter (·.protocol = BuiltIn.ipv6Fragment.id) = [] := by
    rw [← HeaderChain.filter_headers _ (by decide), List.filter_eq_nil_iff]
    simpa using h
  have hfind : chain.records.reverse.find? (·.protocol = BuiltIn.ipv6Fragment.id) = none := by
    rw [List.find?_eq_none]
    intro record hrecord
    exact List.filter_eq_nil_iff.1 hnone record (List.mem_reverse.1 hrecord)
  simp [fragment?, fragmentRecords?, hfind]

namespace Ipv4

/-- The header belongs in front of the piece that arrives: it names the datagram and tells the place
and the length of the piece. -/
structure Header.Heads (header : Header) (key : FragmentKey) (arrival : Arrival cut) : Prop where
  fits : header.Fits
  key_eq : header.fragmentKey = key
  totalLength_eq : header.totalLength = 4 * header.headerWords + arrival.fragment.length
  fragmentOffset_eq : header.fragmentOffset = arrival.fragment.offset / 8
  moreFragments_eq : header.moreFragments = arrival.fragment.more

section Heads

variable {header : Header} {key : FragmentKey} {arrival : Arrival cut}
  (h : header.Heads key arrival)

include h

theorem Header.Heads.fragmentStart_eq (haligned : cut.Aligned) :
    header.fragmentStart = arrival.fragment.offset := by
  rw [Header.fragmentStart, h.fragmentOffset_eq, Nat.div_mul_cancel (haligned.dvd_offset arrival)]

/-- A datagram in several pieces is not whole in any of them. -/
theorem Header.Heads.isFragment (haligned : cut.Aligned) (hpieces : 2 ≤ cut.pieces.length) :
    header.isFragment = true := by
  by_cases hmore : arrival.index + 1 < cut.pieces.length
  · rw [Header.isFragment, h.moreFragments_eq]
    simp [Arrival.fragment, Fragment.ofPayload, hmore]
  · have hstart := h.fragmentStart_eq haligned
    have hpos := arrival.offset_pos (by omega)
    have hoffset : header.fragmentOffset ≠ 0 := by
      intro hzero
      rw [Header.fragmentStart, hzero] at hstart
      omega
    simp [Header.isFragment, hoffset]

end Heads

/-- No IPv4 header behind the outermost one belongs to a fragment. -/
def InnerWhole (chain : HeaderChain) (data : Bytes) : Prop :=
  ∀ record ∈ chain.headers, record.protocol = BuiltIn.ipv4.id → 0 < record.ordinal →
    ∀ header, Header.ofView ⟨data, record⟩ = .ok header → header.isFragment = false

theorem fragmentOfView?_of_whole {time : Timestamp} {view : HeaderView}
    (h : ∀ header, Header.ofView view = .ok header → header.isFragment = false) :
    fragmentOfView? time view = none := by
  unfold fragmentOfView?
  split
  · next header payload hheader hpayload => simp [h header hheader]
  · rfl

/-- An Ethernet frame with a piece of a datagram. -/
structure Frame (key : FragmentKey) (cut : Cut datagram) extends Arrival cut where
  link : Ethernet.Header
  link_fits : link.Fits
  link_ipv4 : link.etherType = EtherType.ipv4
  header : Header
  heads : header.Heads key toArrival
  reserved : Bool
  padding : Bytes
  wireLength : Option Nat

namespace Frame

variable {key : FragmentKey} (frame : Frame key cut)

def data : Bytes :=
  frame.link.encode ++
    (frame.header.encode frame.reserved ++ (cut.pieces[frame.index] ++ frame.padding))

def packet : Packet := ⟨frame.data, frame.time, frame.wireLength⟩

def outer : HeaderRecord :=
  ⟨BuiltIn.ipv4.id, Ethernet.headerLength, 4 * frame.header.headerWords, 0⟩

theorem offset_outer : frame.outer.offset = frame.link.encode.length :=
  (Ethernet.Header.length_encode frame.link_fits).symm

theorem length_outer : frame.outer.length = (frame.header.encode frame.reserved).length :=
  (Header.length_encode frame.heads.fits).symm

theorem bytes_outer :
    HeaderView.bytes ⟨frame.data, frame.outer⟩ = frame.header.encode frame.reserved :=
  HeaderView.bytes_of_append frame.offset_outer frame.length_outer

theorem payload_outer :
    HeaderView.payload ⟨frame.data, frame.outer⟩ = cut.pieces[frame.index] ++ frame.padding :=
  HeaderView.payload_of_append frame.offset_outer frame.length_outer

theorem stop_outer_le : frame.outer.stop ≤ frame.data.length := by
  rw [HeaderRecord.stop, offset_outer, length_outer, data, List.length_append, List.length_append]
  omega

theorem view?_outer : frame.outer.view? frame.data = some ⟨frame.data, frame.outer⟩ :=
  HeaderRecord.view?_eq_some_iff.2 ⟨frame.stop_outer_le, rfl⟩

theorem ofView_outer : Header.ofView ⟨frame.data, frame.outer⟩ = .ok frame.header :=
  Header.ofView_encode frame.heads.fits frame.bytes_outer

theorem datagramPayload_outer :
    datagramPayload ⟨frame.data, frame.outer⟩ = .ok cut.pieces[frame.index] := by
  have hlength : frame.header.totalLength - HeaderView.length ⟨frame.data, frame.outer⟩ =
      cut.pieces[frame.index].length := by
    rw [frame.heads.totalLength_eq]
    exact Nat.add_sub_cancel_left ..
  rw [datagramPayload_encode frame.heads.fits frame.bytes_outer, payload_outer, hlength,
    List.take_left]

theorem fragmentOfView?_outer (haligned : cut.Aligned) (hpieces : 2 ≤ cut.pieces.length) :
    fragmentOfView? frame.time ⟨frame.data, frame.outer⟩ = some (key, frame.fragment) := by
  rw [fragmentOfView?, ofView_outer, datagramPayload_outer]
  simp only [frame.heads.isFragment haligned hpieces, if_true, frame.heads.key_eq,
    frame.heads.fragmentStart_eq haligned, frame.heads.moreFragments_eq]
  rfl

theorem drop_data : frame.data.drop Ethernet.headerLength =
    frame.header.encode frame.reserved ++ (cut.pieces[frame.index] ++ frame.padding) :=
  List.drop_left' (Ethernet.Header.length_encode frame.link_fits)

theorem resolve_outer :
    BuiltIn.ipv4.lengthRule.resolve BuiltIn.ipv4.id frame.data Ethernet.headerLength =
      .ok (4 * frame.header.headerWords) := by
  have hfits := frame.heads.fits
  have hwords := hfits.headerWords
  have hlength := Header.minimumLength_le hfits
  unfold minimumLength at hlength
  have hread : headerWords.read (frame.data.drop Ethernet.headerLength) =
      .ok frame.header.headerWords := by
    have hfirst : headerWords.endByte ≤ (frame.header.encode frame.reserved).length := by
      rw [Header.length_encode hfits]
      change 1 ≤ _
      omega
    rw [drop_data, BitField.read_append hfirst, read_headerWords hfits]
  have hstop := frame.stop_outer_le
  have hsize : UInt64.size = 18446744073709551616 := rfl
  change Ethernet.headerLength + 4 * frame.header.headerWords ≤ frame.data.length at hstop
  rw [Nat.mul_comm] at hlength hstop ⊢
  refine LengthRule.resolve_fromField BuiltIn.ipv4.id hread ?_ ?_ hstop
  · unfold minimumLength
    omega
  · omega

/-- A scan finds the header in front of the piece, whatever else it finds behind it. -/
theorem exists_exposed {config : ScanConfig} (hlimit : 2 ≤ config.maxHeaders) :
    ∃ inner, (FrozenRegistry.builtIn.scan config BuiltIn.ethernet.id frame.data).headers =
        FrozenRegistry.link :: frame.outer :: inner ∧
      ∀ record ∈ inner, FrozenRegistry.Exposed ⟨frame.data, frame.outer⟩ record := by
  refine FrozenRegistry.exists_exposed hlimit ?_ frame.resolve_outer
  rw [data, List.take_left' (Ethernet.Header.length_encode frame.link_fits),
    Ethernet.Header.read_etherType frame.link_fits, frame.link_ipv4]

/-- Only the first piece shows what the datagram carries. -/
theorem first_of_exposed {record : HeaderRecord}
    (h : FrozenRegistry.Exposed ⟨frame.data, frame.outer⟩ record) :
    frame.header.fragmentOffset = 0 := by
  have hfirst := h.first
  rw [HeaderView.field, bytes_outer, read_fragmentOffset frame.heads.fits] at hfirst
  exact Except.ok.inj hfirst

theorem carried_of_exposed {record : HeaderRecord}
    (h : FrozenRegistry.Exposed ⟨frame.data, frame.outer⟩ record) :
    key.protocol = Internet.Number.ipv4 ∨ key.protocol = Internet.Number.ipv6 ∨
      FrozenRegistry.IsTransport record.protocol := by
  obtain ⟨number, hnumber, hcarried⟩ := h.carried
  rw [HeaderView.field, bytes_outer, read_protocol frame.heads.fits] at hnumber
  have hprotocol : frame.header.protocol = key.protocol :=
    congrArg FragmentKey.protocol frame.heads.key_eq
  rw [← hprotocol, Except.ok.inj hnumber]
  exact hcarried

/-- A frame yields its piece when no inner header belongs to a fragment. -/
theorem fragment?_eq (haligned : cut.Aligned) (hpieces : 2 ≤ cut.pieces.length)
    {config : ScanConfig} (hlimit : 2 ≤ config.maxHeaders)
    (hwhole : frame.header.fragmentOffset = 0 →
      InnerWhole (FrozenRegistry.builtIn.scan config BuiltIn.ethernet.id frame.data) frame.data) :
    fragment? (FrozenRegistry.builtIn.scan config BuiltIn.ethernet.id frame.data) frame.data
      frame.time = some (key, frame.fragment) := by
  obtain ⟨inner, hheaders, hexposed⟩ := frame.exists_exposed hlimit
  have hlink : FrozenRegistry.link.protocol ≠ BuiltIn.ipv4.id := by decide
  rw [fragment?, ← HeaderChain.filter_headers _ (by decide), hheaders,
    List.filter_cons_of_neg (by simpa using hlink), List.filter_cons_of_pos (by simp [outer]),
    List.reverse_cons, List.findSome?_append]
  -- the inner headers are asked first, and none of them has a fragment
  have hnone : (inner.filter (fun record => record.protocol = BuiltIn.ipv4.id)).reverse.findSome?
      (fun record => (record.view? frame.data).bind (fragmentOfView? frame.time)) = none := by
    rw [List.findSome?_eq_none_iff]
    intro record hrecord
    obtain ⟨hmem, hipv4⟩ := List.mem_filter.1 (List.mem_reverse.1 hrecord)
    have hprotocol := of_decide_eq_true hipv4
    have hinner := hexposed record hmem
    cases hview : record.view? frame.data with
    | none => rfl
    | some view =>
      obtain ⟨_, rfl⟩ := HeaderRecord.view?_eq_some_iff.1 hview
      apply fragmentOfView?_of_whole
      apply hwhole (frame.first_of_exposed hinner) record _ hprotocol (hinner.inner hprotocol)
      rw [hheaders]
      simp [hmem]
  rw [hnone, Option.none_or, List.findSome?_singleton, view?_outer]
  exact frame.fragmentOfView?_outer haligned hpieces

section Transport

variable (hipv4 : key.protocol ≠ Internet.Number.ipv4) (hipv6 : key.protocol ≠ Internet.Number.ipv6)
  {config : ScanConfig} (hlimit : 2 ≤ config.maxHeaders)

include hipv4 hipv6 hlimit

/-- A datagram that is no tunnel shows no second header of the internet layer. -/
theorem eq_outer_of_internet {record : HeaderRecord}
    (hrecord : record ∈ (FrozenRegistry.builtIn.scan config BuiltIn.ethernet.id frame.data).headers)
    (hlink : record.protocol ≠ BuiltIn.ethernet.id)
    (hinternet : ¬ FrozenRegistry.IsTransport record.protocol) : record = frame.outer := by
  obtain ⟨inner, hheaders, hexposed⟩ := frame.exists_exposed hlimit
  rw [hheaders, List.mem_cons, List.mem_cons] at hrecord
  rcases hrecord with rfl | houter | hinner
  · exact absurd rfl hlink
  · exact houter
  · have hcarried := frame.carried_of_exposed (hexposed record hinner)
    rw [or_iff_right hipv4, or_iff_right hipv6] at hcarried
    exact absurd hcarried hinternet

theorem innerWhole_of_transport :
    InnerWhole (FrozenRegistry.builtIn.scan config BuiltIn.ethernet.id frame.data) frame.data := by
  intro record hrecord hprotocol hordinal
  have houter : record = frame.outer := by
    apply frame.eq_outer_of_internet hipv4 hipv6 hlimit hrecord <;>
    · rw [hprotocol]
      decide
  rw [houter] at hordinal
  exact absurd hordinal (Nat.lt_irrefl 0)

theorem ipv6Fragment?_eq_none :
    Ipv6.fragment? (FrozenRegistry.builtIn.scan config BuiltIn.ethernet.id frame.data) frame.data
      frame.time = none := by
  apply Ipv6.fragment?_of_no_header
  intro record hrecord hprotocol
  have houter : record = frame.outer := by
    apply frame.eq_outer_of_internet hipv4 hipv6 hlimit hrecord <;>
    · rw [hprotocol]
      decide
  rw [houter] at hprotocol
  change BuiltIn.ipv4.id = BuiltIn.ipv6Fragment.id at hprotocol
  exact absurd hprotocol (by decide)

end Transport

/-- The header in front of a piece, with nothing of its own but options. -/
def plainHeader (key : FragmentKey) (arrival : Arrival cut) (options : Bytes) : Header where
  version := 4
  headerWords := 5 + options.length / 4
  dscp := 0
  ecn := 0
  totalLength := minimumLength + options.length + arrival.fragment.length
  identification := key.identification
  dontFragment := false
  moreFragments := arrival.fragment.more
  fragmentOffset := arrival.fragment.offset / 8
  ttl := 64
  protocol := key.protocol
  checksum := 0
  source := key.source
  destination := key.destination
  options := options

/-- Options of up to ten words and a piece below the limits of the format make a header that fits. -/
theorem plainHeader_heads {key : FragmentKey} {arrival : Arrival cut} {options : Bytes}
    (hsource : key.source.length = 4) (hdestination : key.destination.length = 4)
    (hidentification : key.identification < 65536) (hprotocol : key.protocol < 256)
    (hoptions : 4 ∣ options.length ∧ options.length ≤ 40)
    (hlength : minimumLength + options.length + arrival.fragment.length < 65536)
    (hoffset : arrival.fragment.offset / 8 < 8192) :
    (plainHeader key arrival options).Heads key arrival := by
  have hwords : 4 * (5 + options.length / 4) = minimumLength + options.length := by
    unfold minimumLength
    omega
  have hfew : 5 + options.length / 4 < 16 := by omega
  exact {
    fits := {
      version := of_decide_eq_true rfl
      headerWords := hfew
      options := hwords
      dscp := of_decide_eq_true rfl
      ecn := of_decide_eq_true rfl
      totalLength := hlength
      identification := hidentification
      fragmentOffset := hoffset
      ttl := of_decide_eq_true rfl
      protocol := hprotocol
      checksum := of_decide_eq_true rfl
      source := hsource
      destination := hdestination }
    key_eq := rfl
    totalLength_eq := congrArg (· + arrival.fragment.length) hwords.symm
    fragmentOffset_eq := rfl
    moreFragments_eq := rfl }

def plain {key : FragmentKey} (arrival : Arrival cut) (options padding : Bytes)
    (heads : (plainHeader key arrival options).Heads key arrival) : Frame key cut where
  toArrival := arrival
  link := ⟨⟨[2, 0, 0, 0, 0, 2]⟩, ⟨[2, 0, 0, 0, 0, 1]⟩, EtherType.ipv4⟩
  link_fits := ⟨rfl, rfl, by decide⟩
  link_ipv4 := rfl
  header := plainHeader key arrival options
  heads := heads
  reserved := false
  padding := padding
  wireLength := none

end Frame

end Ipv4

end Dissection
