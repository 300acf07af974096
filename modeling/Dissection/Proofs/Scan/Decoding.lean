import Dissection.Layer.Decode
import Dissection.Proofs.Flow.Observed
import Dissection.Proofs.Scan.Layout
import Dissection.Proofs.Scan.Lookup

/-!
# Headers that decode

The length rules say how many bytes of a header are there, the decoders and the flow fields say
which of them are read. For the built-in protocols the two agree: in a header that a scan commits
every decoder finds its fields, the addresses of an ARP packet fill it behind its fixed bytes, and
every flow field lies inside its header.
-/

namespace Dissection

open FieldError (Succeeds succeeds_pure)

namespace HeaderView

/-- The pieces lie one behind the other in the header, the first one at `start`, and the last one
ends where the header does. -/
def TiledFrom (view : HeaderView) : (start : Nat) → List Bytes → Prop
  | start, [] => start = view.length
  | start, piece :: rest =>
    view.bytesAt start piece.length = .ok piece ∧ view.TiledFrom (start + piece.length) rest

end HeaderView

section Decoders

variable {view : HeaderView}

theorem Ethernet.succeeds_ofView (h : headerLength ≤ view.bytes.length) :
    Succeeds (Header.ofView view) := by
  iterate 2 refine (view.succeeds_bytesAt h (by decide)).bind fun _ => ?_
  refine (view.succeeds_field h (by decide)).bind fun _ => ?_
  exact succeeds_pure _

theorem Vlan.succeeds_ofView (h : headerLength ≤ view.bytes.length) :
    Succeeds (Tag.ofView view) := by
  iterate 4 refine (view.succeeds_field h (by decide)).bind fun _ => ?_
  exact succeeds_pure _

theorem Ipv4.succeeds_ofView (h : minimumLength ≤ view.bytes.length) :
    Succeeds (Header.ofView view) := by
  iterate 12 refine (view.succeeds_field h (by decide)).bind fun _ => ?_
  iterate 2 refine (view.succeeds_bytesAt h (by decide)).bind fun _ => ?_
  exact succeeds_pure _

theorem Ipv6.succeeds_ofView (h : headerLength ≤ view.bytes.length) :
    Succeeds (Header.ofView view) := by
  iterate 6 refine (view.succeeds_field h (by decide)).bind fun _ => ?_
  iterate 2 refine (view.succeeds_bytesAt h (by decide)).bind fun _ => ?_
  exact succeeds_pure _

theorem Ipv6Fragment.succeeds_ofView (h : headerLength ≤ view.bytes.length) :
    Succeeds (Header.ofView view) := by
  iterate 4 refine (view.succeeds_field h (by decide)).bind fun _ => ?_
  exact succeeds_pure _

theorem Icmp.succeeds_ofView (h : headerLength ≤ view.bytes.length) :
    Succeeds (Header.ofView view) := by
  iterate 4 refine (view.succeeds_field h (by decide)).bind fun _ => ?_
  exact succeeds_pure _

theorem Ports.succeeds_ofView (h : 4 ≤ view.bytes.length) : Succeeds (ofView view) := by
  iterate 2 refine (view.succeeds_field h (by decide)).bind fun _ => ?_
  exact succeeds_pure _

theorem Tcp.succeeds_ofView (h : minimumLength ≤ view.bytes.length) :
    Succeeds (Header.ofView view) := by
  refine (Ports.succeeds_ofView (Nat.le_trans (by decide) h)).bind fun _ => ?_
  iterate 7 refine (view.succeeds_field h (by decide)).bind fun _ => ?_
  exact succeeds_pure _

theorem Udp.succeeds_ofView (h : headerLength ≤ view.bytes.length) :
    Succeeds (Header.ofView view) := by
  refine (Ports.succeeds_ofView (Nat.le_trans (by decide) h)).bind fun _ => ?_
  iterate 2 refine (view.succeeds_field h (by decide)).bind fun _ => ?_
  exact succeeds_pure _

end Decoders

namespace Arp

/-- The addresses have the lengths that the header announces and fill it behind its fixed bytes. -/
structure Packet.Fills (packet : Packet) (view : HeaderView) : Prop where
  senderHardware : view.field hardwareLength = .ok packet.senderHardware.length
  senderProtocol : view.field protocolLength = .ok packet.senderProtocol.length
  targetHardware : view.field hardwareLength = .ok packet.targetHardware.length
  targetProtocol : view.field protocolLength = .ok packet.targetProtocol.length
  tiled : view.TiledFrom fixedLength
    [packet.senderHardware, packet.senderProtocol, packet.targetHardware, packet.targetProtocol]

/-- A header of the length that `measure` finds decodes, and its addresses fill it. -/
theorem exists_packet {view : HeaderView} {hardware protocol : UInt8}
    (hstop : view.record.stop ≤ view.data.length) (hhardware : view.bytes[4]? = some hardware)
    (hprotocol : view.bytes[5]? = some protocol)
    (hlength : view.length = fixedLength + 2 * hardware.toNat + 2 * protocol.toNat) :
    ∃ packet, Packet.ofView view = .ok packet ∧ packet.Fills view := by
  have hbytes : view.bytes.length = view.length := HeaderView.length_bytes hstop
  have hfixed : fixedLength ≤ view.bytes.length := by omega
  have hhardwareLength : view.field hardwareLength = .ok hardware.toNat :=
    BitField.read_byte hhardware
  have hprotocolLength : view.field protocolLength = .ok protocol.toNat :=
    BitField.read_byte hprotocol
  have hread (field : BitField) (hfield : field.WellFormed ∧ field.endByte ≤ fixedLength) :
      Succeeds (view.field field) := view.succeeds_field hfixed hfield
  obtain ⟨hardwareNumber, hhardwareType⟩ := hread hardwareType (by decide)
  obtain ⟨protocolNumber, hprotocolType⟩ := hread protocolType (by decide)
  obtain ⟨code, hoperation⟩ := hread operation (by decide)
  have haddress (offset length : Nat) (hfit : offset + length ≤ view.length) :
      ∃ address, view.bytesAt offset length = .ok address ∧ address.length = length := by
    obtain ⟨address, h⟩ := view.succeeds_bytesAt (Nat.le_refl _) (hbytes.symm ▸ hfit)
    refine ⟨address, h, ?_⟩
    rw [← (HeaderView.bytesAt_eq_ok_iff.1 h).2, List.length_take, List.length_drop]
    omega
  obtain ⟨senderHardware, hsh, hshLength⟩ := haddress fixedLength hardware.toNat (by omega)
  obtain ⟨senderProtocol, hsp, hspLength⟩ :=
    haddress (fixedLength + hardware.toNat) protocol.toNat (by omega)
  obtain ⟨targetHardware, hth, hthLength⟩ :=
    haddress (fixedLength + hardware.toNat + protocol.toNat) hardware.toNat (by omega)
  obtain ⟨targetProtocol, htp, htpLength⟩ :=
    haddress (fixedLength + hardware.toNat + protocol.toNat + hardware.toNat) protocol.toNat
      (by omega)
  refine ⟨⟨hardwareNumber, protocolNumber, .ofCode code, senderHardware, senderProtocol,
    targetHardware, targetProtocol⟩, ?_, ?_⟩
  · simp only [Packet.ofView, hhardwareLength, hprotocolLength, hhardwareType, hprotocolType,
      hoperation, hsh, hsp, hth, htp, FieldError.ok_bind]
    rfl
  · constructor
    case senderHardware => rw [hhardwareLength, hshLength]
    case senderProtocol => rw [hprotocolLength, hspLength]
    case targetHardware => rw [hhardwareLength, hthLength]
    case targetProtocol => rw [hprotocolLength, htpLength]
    case tiled =>
      simp only [HeaderView.TiledFrom, hshLength, hspLength, hthLength, htpLength]
      exact ⟨hsh, hsp, hth, htp, by omega⟩

end Arp

theorem BuiltIn.succeeds_decode {protocol : BuiltIn} {view : HeaderView}
    (hprotocol : protocol ≠ .arp)
    (h : protocol.leastLength ≤ view.bytes.length) : Succeeds (protocol.decode view) := by
  cases protocol with
  | ethernet => exact (Ethernet.succeeds_ofView h).map _
  | vlan => exact (Vlan.succeeds_ofView h).map _
  | arp => exact absurd rfl hprotocol
  | ipv4 => exact (Ipv4.succeeds_ofView h).map _
  | ipv6 => exact (Ipv6.succeeds_ofView h).map _
  | ipv6Fragment => exact (Ipv6Fragment.succeeds_ofView h).map _
  | icmp => exact (Icmp.succeeds_ofView h).map _
  | tcp => exact (Tcp.succeeds_ofView h).map _
  | udp => exact (Udp.succeeds_ofView h).map _
  | http => exact succeeds_pure _

namespace FrozenRegistry

variable {config : ScanConfig} {root : ProtocolId} {data : Bytes} {record : HeaderRecord}

theorem exists_packet_of_scan (h : record ∈ (builtIn.scan config root data).headers)
    (hprotocol : record.protocol = BuiltIn.arp.id) :
    ∃ packet, Arp.Packet.ofView ⟨data, record⟩ = .ok packet ∧ packet.Fills ⟨data, record⟩ := by
  obtain ⟨protocol, hknown, hstop, hlength⟩ := exists_protocol_of_scan h
  obtain rfl : protocol = .arp := BuiltIn.id_injective (hknown.symm.trans hprotocol)
  obtain ⟨minimum, hproposed, -, -⟩ := LengthRule.resolve_eq_ok_iff.1 hlength
  obtain ⟨hardware, address, hhardware, haddress, hmeasured⟩ :=
    BuiltIn.measure_bounds (LengthRule.propose_measured_iff.1 hproposed).1
  have hfixed : Arp.fixedLength ≤ record.length := by omega
  have hbyte (index : Nat) (hindex : index < Arp.fixedLength) :
      (HeaderView.bytes ⟨data, record⟩)[index]? = (data.drop record.offset)[index]? :=
    List.getElem?_take_of_lt (Nat.lt_of_lt_of_le hindex hfixed)
  exact Arp.exists_packet hstop ((hbyte 4 (by decide)).trans hhardware)
    ((hbyte 5 (by decide)).trans haddress) hmeasured

theorem leastLength_le_of_scan {protocol : BuiltIn}
    (h : record ∈ (builtIn.scan config root data).headers)
    (hprotocol : record.protocol = protocol.id) :
    protocol.leastLength ≤ (HeaderView.mk data record).bytes.length := by
  obtain ⟨known, hknown, hstop, hlength⟩ := exists_protocol_of_scan h
  obtain rfl : known = protocol := BuiltIn.id_injective (hknown.symm.trans hprotocol)
  have hbytes : (HeaderView.mk data record).bytes.length = record.length :=
    HeaderView.length_bytes hstop
  exact hbytes ▸ known.leastLength_le hlength

theorem decode_of_scan {protocol : BuiltIn} (h : record ∈ (builtIn.scan config root data).headers)
    (hprotocol : record.protocol = protocol.id) : Succeeds (protocol.decode ⟨data, record⟩) := by
  by_cases harp : protocol = .arp
  · subst harp
    obtain ⟨packet, hpacket, -⟩ := exists_packet_of_scan h hprotocol
    exact Succeeds.map ⟨packet, hpacket⟩ _
  · exact BuiltIn.succeeds_decode harp (leastLength_le_of_scan h hprotocol)

theorem flowFields_builtIn (protocol : BuiltIn) :
    builtIn.flowFields protocol.id = protocol.flowFields := by
  cases protocol <;> rfl

theorem flowFields_inside (protocol : BuiltIn) :
    ∀ field ∈ protocol.flowFields, field.stop ≤ protocol.leastLength := by
  cases protocol <;> decide

theorem flowFields_ne_nil_iff {protocol : BuiltIn} :
    protocol.flowFields ≠ [] ↔ protocol ∈ [.vlan, .ipv4, .ipv6, .tcp, .udp] := by
  cases protocol <;> decide

theorem holdsFields_of_scan (h : record ∈ (builtIn.scan config root data).headers) :
    builtIn.HoldsFields data record := by
  obtain ⟨protocol, hprotocol, hstop, hlength⟩ := exists_protocol_of_scan h
  refine ⟨hprotocol ▸ contains_builtIn protocol, fun _ => hstop, fun field hfield => ?_⟩
  rw [hprotocol, flowFields_builtIn] at hfield
  exact Nat.le_trans (flowFields_inside protocol field hfield) (protocol.leastLength_le hlength)

/-- A scanned packet has no flow key exactly when none of its headers has flow fields. -/
theorem flowKey?_scan_eq_none_iff (config : ScanConfig) (root : ProtocolId) (data : Bytes) :
    builtIn.flowKey? (builtIn.scan config root data) data = none ↔
      ∀ protocol ∈ [BuiltIn.vlan, .ipv4, .ipv6, .tcp, .udp],
        (builtIn.scan config root data).hasHeader protocol.id = false := by
  have hheld : ∀ record ∈ (builtIn.scan config root data).headers,
      builtIn.HoldsFields data record := fun _ => holdsFields_of_scan
  rw [flowKey?_eq, ite_eq_right_iff]
  simp only [reduceCtorEq, imp_false, not_and, ne_eq, not_not]
  rw [imp_iff_right hheld, observe, List.filter_eq_nil_iff, List.forall_mem_map]
  constructor
  · intro hnone protocol hprotocol
    rw [← Bool.not_eq_true, HeaderChain.hasHeader_iff (builtIn_ne_payload protocol)]
    rintro ⟨record, hrecord, heq⟩
    have hfields := hnone record hrecord
    rw [heq, flowFields_builtIn, decide_eq_true_iff] at hfields
    exact hfields (flowFields_ne_nil_iff.2 hprotocol)
  · intro hnone record hrecord
    obtain ⟨protocol, heq, -⟩ := exists_protocol_of_scan hrecord
    rw [heq, flowFields_builtIn, decide_eq_true_iff, flowFields_ne_nil_iff]
    intro hprotocol
    have habsent := hnone protocol hprotocol
    rw [← Bool.not_eq_true, HeaderChain.hasHeader_iff (builtIn_ne_payload protocol)] at habsent
    exact habsent ⟨record, hrecord, heq⟩

/-- The layouts of the built-in protocols agree with their length rules, whatever the buffer, the
root and the configuration: no edge fails, every header decodes from the view that the chain gives
of it, the addresses of ARP fill their header, and the only packets without a flow key are those
without a header that has flow fields. -/
theorem scan_agrees_with_layouts (config : ScanConfig) (root : BuiltIn) (data : Bytes) :
    let chain := builtIn.scan config root.id data
    chain.diagnostics = [] ∧
      (∀ record ∈ chain.headers, ∃ protocol : BuiltIn, record.protocol = protocol.id ∧
        chain.view? data protocol.id record.ordinal = some ⟨data, record⟩ ∧
        (protocol ≠ .http → ∃ header, protocol.decode ⟨data, record⟩ = .ok header)) ∧
      (∀ record ∈ chain.headers, record.protocol = BuiltIn.arp.id →
        ∃ packet, Arp.Packet.ofView ⟨data, record⟩ = .ok packet ∧ packet.Fills ⟨data, record⟩) ∧
      (builtIn.flowKey? chain data = none ↔
        ∀ protocol ∈ [BuiltIn.vlan, .ipv4, .ipv6, .tcp, .udp],
          chain.hasHeader protocol.id = false) := by
  intro chain
  refine ⟨diagnostics_scan config root data, fun record hrecord => ?_,
    fun record => exists_packet_of_scan, flowKey?_scan_eq_none_iff config root.id data⟩
  obtain ⟨protocol, hprotocol, -⟩ := exists_protocol_of_scan hrecord
  exact ⟨protocol, hprotocol, hprotocol ▸ view?_scan hrecord,
    fun _ => decode_of_scan hrecord hprotocol⟩

end FrozenRegistry

end Dissection
