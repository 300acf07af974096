import Dissection.Layer.Ipv4
import Dissection.Proofs.Wire.Field

/-!
# IPv4 headers on the wire

A header whose numbers fit their fields is written in the layout of the protocol, and every field
of it reads back.
-/

namespace Dissection.Ipv4

namespace Header

/-- The numbers fit their fields, and the header is as long as it says. -/
structure Fits (header : Header) : Prop where
  version : header.version < 16
  headerWords : header.headerWords < 16
  options : 4 * header.headerWords = minimumLength + header.options.length
  dscp : header.dscp < 64
  ecn : header.ecn < 4
  totalLength : header.totalLength < 65536
  identification : header.identification < 65536
  fragmentOffset : header.fragmentOffset < 8192
  ttl : header.ttl < 256
  protocol : header.protocol < 256
  checksum : header.checksum < 65536
  source : header.source.length = 4
  destination : header.destination.length = 4

def fragmentWord (header : Header) (reserved : Bool) : Nat :=
  reserved.toNat * 32768 + header.dontFragment.toNat * 16384 + header.moreFragments.toNat * 8192 +
    header.fragmentOffset

def encodeNumbers (header : Header) (reserved : Bool) : Bytes :=
  .ofNumber 1 (header.version * 16 + header.headerWords) ++
    .ofNumber 1 (header.dscp * 4 + header.ecn) ++ .ofNumber 2 header.totalLength ++
    .ofNumber 2 header.identification ++ .ofNumber 2 (header.fragmentWord reserved) ++
    .ofNumber 1 header.ttl ++ .ofNumber 1 header.protocol ++ .ofNumber 2 header.checksum

def encode (header : Header) (reserved : Bool) : Bytes :=
  header.encodeNumbers reserved ++ (header.source ++ (header.destination ++ header.options))

theorem drop_encode (header : Header) (reserved : Bool) :
    (header.encode reserved).drop 12 = header.source ++ (header.destination ++ header.options) :=
  List.drop_left' rfl

section Encoded

variable {header : Header} {reserved : Bool} (h : header.Fits)

include h

theorem length_encode : (header.encode reserved).length = 4 * header.headerWords := by
  have hnumbers : (header.encodeNumbers reserved).length = 12 := rfl
  have hoptions := h.options
  unfold minimumLength at hoptions
  rw [encode, List.length_append, List.length_append, List.length_append, hnumbers, h.source,
    h.destination]
  omega

theorem drop_encode_source :
    (header.encode reserved).drop 16 = header.destination ++ header.options := by
  change (header.encode reserved).drop (12 + 4) = header.destination ++ header.options
  rw [← List.drop_drop, drop_encode, List.drop_left' h.source]

theorem drop_encode_destination : (header.encode reserved).drop minimumLength = header.options := by
  change (header.encode reserved).drop (16 + 4) = header.options
  rw [← List.drop_drop, drop_encode_source h, List.drop_left' h.destination]

theorem minimumLength_le : minimumLength ≤ 4 * header.headerWords := by
  rw [h.options]
  exact Nat.le_add_right _ _

theorem fragmentWord_lt : header.fragmentWord reserved < 256 ^ 2 := by
  have hoffset := h.fragmentOffset
  have hreserved := reserved.toNat_lt
  have hdont := header.dontFragment.toNat_lt
  have hmore := header.moreFragments.toNat_lt
  unfold fragmentWord
  omega

/-- A field in the first twenty bytes reads its digits of the number written there. -/
theorem read_encode {field : BitField} (width number divisor modulus : Nat) {value : Nat}
    (horder : field.order = .big) (hwidth : 0 < field.bitLength ∧ field.bitLength ≤ 64)
    (hfit : field.endByte ≤ minimumLength)
    (hcontaining : field.containing (header.encode reserved) = .ofNumber width number)
    (hnumber : number < 256 ^ width) (hdivisor : 2 ^ field.trailing = divisor)
    (hmodulus : 2 ^ field.bitLength = modulus) (hvalue : number / divisor % modulus = value) :
    field.read (header.encode reserved) = .ok value := by
  have hinside : field.endByte ≤ (header.encode reserved).length := by
    rw [length_encode h]
    exact Nat.le_trans hfit (minimumLength_le h)
  exact BitField.read_digits width number divisor modulus horder hwidth hinside hcontaining hnumber
    hdivisor hmodulus hvalue

end Encoded

end Header

section Fields

variable {header : Header} {reserved : Bool} (h : header.Fits)

include h

theorem read_version : version.read (header.encode reserved) = .ok header.version := by
  have hversion := h.version
  have hwords := h.headerWords
  exact Header.read_encode h 1 (header.version * 16 + header.headerWords) 16 16 rfl (by decide)
    (by decide) rfl (by omega) rfl rfl (by omega)

theorem read_headerWords : headerWords.read (header.encode reserved) = .ok header.headerWords := by
  have hversion := h.version
  have hwords := h.headerWords
  exact Header.read_encode h 1 (header.version * 16 + header.headerWords) 1 16 rfl (by decide)
    (by decide) rfl (by omega) rfl rfl (by omega)

theorem read_dscp : dscp.read (header.encode reserved) = .ok header.dscp := by
  have hdscp := h.dscp
  have hecn := h.ecn
  exact Header.read_encode h 1 (header.dscp * 4 + header.ecn) 4 64 rfl (by decide) (by decide) rfl
    (by omega) rfl rfl (by omega)

theorem read_ecn : ecn.read (header.encode reserved) = .ok header.ecn := by
  have hdscp := h.dscp
  have hecn := h.ecn
  exact Header.read_encode h 1 (header.dscp * 4 + header.ecn) 1 4 rfl (by decide) (by decide) rfl
    (by omega) rfl rfl (by omega)

theorem read_totalLength : totalLength.read (header.encode reserved) = .ok header.totalLength := by
  have hlength := h.totalLength
  exact Header.read_encode h 2 header.totalLength 1 65536 rfl (by decide) (by decide) rfl
    (by omega) rfl rfl (by omega)

theorem read_identification :
    identification.read (header.encode reserved) = .ok header.identification := by
  have hidentification := h.identification
  exact Header.read_encode h 2 header.identification 1 65536 rfl (by decide) (by decide) rfl
    (by omega) rfl rfl (by omega)

theorem read_dontFragment :
    dontFragment.read (header.encode reserved) = .ok header.dontFragment.toNat := by
  have hoffset := h.fragmentOffset
  have hdont := header.dontFragment.toNat_lt
  have hmore := header.moreFragments.toNat_lt
  have hword : header.fragmentWord reserved < 256 ^ 2 := Header.fragmentWord_lt h
  -- The flags lie in the first byte of their word.
  refine Header.read_encode h 1 (header.fragmentWord reserved / 256) 64 2 rfl (by decide)
    (by decide) rfl (by omega) rfl rfl ?_
  unfold Header.fragmentWord
  omega

theorem read_moreFragments :
    moreFragments.read (header.encode reserved) = .ok header.moreFragments.toNat := by
  have hoffset := h.fragmentOffset
  have hmore := header.moreFragments.toNat_lt
  have hword : header.fragmentWord reserved < 256 ^ 2 := Header.fragmentWord_lt h
  refine Header.read_encode h 1 (header.fragmentWord reserved / 256) 32 2 rfl (by decide)
    (by decide) rfl (by omega) rfl rfl ?_
  unfold Header.fragmentWord
  omega

theorem read_fragmentOffset :
    fragmentOffset.read (header.encode reserved) = .ok header.fragmentOffset := by
  have hoffset := h.fragmentOffset
  refine Header.read_encode h 2 (header.fragmentWord reserved) 1 8192 rfl (by decide) (by decide)
    rfl (Header.fragmentWord_lt h) rfl rfl ?_
  unfold Header.fragmentWord
  omega

theorem read_ttl : ttl.read (header.encode reserved) = .ok header.ttl := by
  have httl := h.ttl
  exact Header.read_encode h 1 header.ttl 1 256 rfl (by decide) (by decide) rfl (by omega) rfl rfl
    (by omega)

theorem read_protocol : protocol.read (header.encode reserved) = .ok header.protocol := by
  have hprotocol := h.protocol
  exact Header.read_encode h 1 header.protocol 1 256 rfl (by decide) (by decide) rfl (by omega) rfl
    rfl (by omega)

theorem read_checksum : checksum.read (header.encode reserved) = .ok header.checksum := by
  have hchecksum := h.checksum
  exact Header.read_encode h 2 header.checksum 1 65536 rfl (by decide) (by decide) rfl (by omega)
    rfl rfl (by omega)

variable {view : HeaderView} (hbytes : view.bytes = header.encode reserved)

include hbytes

theorem source_of_view : view.bytesAt 12 4 = .ok header.source := by
  have hlength : (header.encode reserved).length = 4 * header.headerWords := Header.length_encode h
  have hoptions := h.options
  unfold minimumLength at hoptions
  rw [HeaderView.bytesAt_eq_ok_iff, hbytes, Header.drop_encode]
  exact ⟨by omega, List.take_left' h.source⟩

theorem destination_of_view : view.bytesAt 16 4 = .ok header.destination := by
  have hlength : (header.encode reserved).length = 4 * header.headerWords := Header.length_encode h
  have hoptions := h.options
  unfold minimumLength at hoptions
  rw [HeaderView.bytesAt_eq_ok_iff, hbytes, Header.drop_encode_source h]
  exact ⟨by omega, List.take_left' h.destination⟩

theorem Header.ofView_encode : Header.ofView view = .ok header := by
  simp only [Header.ofView, HeaderView.field, hbytes, read_version h, read_headerWords h,
    read_dscp h, read_ecn h, read_totalLength h, read_identification h, read_dontFragment h,
    read_moreFragments h, read_fragmentOffset h, read_ttl h, read_protocol h, read_checksum h,
    source_of_view h hbytes, destination_of_view h hbytes, HeaderView.bytesFrom,
    Header.drop_encode_destination h, FieldError.ok_bind, toNat_beq_one]
  rfl

theorem datagramPayload_encode :
    datagramPayload view = .ok (view.payload.take (header.totalLength - view.length)) := by
  rw [datagramPayload, HeaderView.field, hbytes, read_totalLength h]
  rfl

end Fields

end Dissection.Ipv4
