import Dissection.Layer.Ipv6
import Dissection.Layer.Ipv6Fragment
import Dissection.Proofs.Wire.Field

/-!
# IPv6 headers on the wire

The fixed header and the fragment header are written in their layouts, and every field reads back.
-/

namespace Dissection

namespace Ipv6

namespace Header

/-- The numbers fit their fields, and the addresses have sixteen bytes each. -/
structure Fits (header : Header) : Prop where
  version : header.version < 16
  trafficClass : header.trafficClass < 256
  flowLabel : header.flowLabel < 1048576
  payloadLength : header.payloadLength < 65536
  nextHeader : header.nextHeader < 256
  hopLimit : header.hopLimit < 256
  source : header.source.length = 16
  destination : header.destination.length = 16

/-- The version, the traffic class and the flow label. -/
def firstWord (header : Header) : Nat :=
  header.version * 268435456 + header.trafficClass * 1048576 + header.flowLabel

def encodeNumbers (header : Header) : Bytes :=
  .ofNumber 4 header.firstWord ++ .ofNumber 2 header.payloadLength ++
    .ofNumber 1 header.nextHeader ++ .ofNumber 1 header.hopLimit

def encode (header : Header) : Bytes :=
  header.encodeNumbers ++ (header.source ++ header.destination)

theorem drop_encode (header : Header) :
    header.encode.drop 8 = header.source ++ header.destination := List.drop_left' rfl

section Encoded

variable {header : Header} (h : header.Fits)

include h

theorem length_encode : header.encode.length = headerLength := by
  have hnumbers : header.encodeNumbers.length = 8 := rfl
  rw [encode, List.length_append, List.length_append, hnumbers, h.source, h.destination]
  rfl

theorem firstWord_lt : header.firstWord < 256 ^ 4 := by
  have hversion := h.version
  have hclass := h.trafficClass
  have hlabel := h.flowLabel
  unfold firstWord
  omega

theorem endByte_le {field : BitField} (hfield : field.endByte ≤ headerLength) :
    field.endByte ≤ header.encode.length := by
  rwa [length_encode h]

end Encoded

end Header

section Fields

variable {header : Header} (h : header.Fits)

include h

theorem read_version : version.read header.encode = .ok header.version := by
  have hclass := h.trafficClass
  have hlabel := h.flowLabel
  have hversion := h.version
  have hword : header.firstWord < 256 ^ 4 := Header.firstWord_lt h
  -- the version lies in the first byte of its word
  refine BitField.read_digits 1 (header.firstWord / 256 / 256 / 256) 16 16 rfl (by decide)
    (Header.endByte_le h (by decide)) rfl (by omega) rfl rfl ?_
  unfold Header.firstWord
  omega

theorem read_trafficClass : trafficClass.read header.encode = .ok header.trafficClass := by
  have hclass := h.trafficClass
  have hlabel := h.flowLabel
  have hword : header.firstWord < 256 ^ 4 := Header.firstWord_lt h
  refine BitField.read_digits 2 (header.firstWord / 256 / 256) 16 256 rfl (by decide)
    (Header.endByte_le h (by decide)) rfl (by omega) rfl rfl ?_
  unfold Header.firstWord
  omega

theorem read_flowLabel : flowLabel.read header.encode = .ok header.flowLabel := by
  have hlabel := h.flowLabel
  refine BitField.read_digits 3 (header.firstWord % 256 ^ 3) 1 1048576 rfl (by decide)
    (Header.endByte_le h (by decide)) (Bytes.ofNumber_mod 3 header.firstWord).symm (by omega) rfl
    rfl ?_
  unfold Header.firstWord
  omega

theorem read_payloadLength : payloadLength.read header.encode = .ok header.payloadLength := by
  have hlength := h.payloadLength
  exact BitField.read_digits 2 header.payloadLength 1 65536 rfl (by decide)
    (Header.endByte_le h (by decide)) rfl (by omega) rfl rfl (by omega)

theorem read_nextHeader : nextHeader.read header.encode = .ok header.nextHeader := by
  have hnext := h.nextHeader
  exact BitField.read_digits 1 header.nextHeader 1 256 rfl (by decide)
    (Header.endByte_le h (by decide)) rfl (by omega) rfl rfl (by omega)

theorem read_hopLimit : hopLimit.read header.encode = .ok header.hopLimit := by
  have hhops := h.hopLimit
  exact BitField.read_digits 1 header.hopLimit 1 256 rfl (by decide)
    (Header.endByte_le h (by decide)) rfl (by omega) rfl rfl (by omega)

variable {view : HeaderView} (hbytes : view.bytes = header.encode)

include hbytes

theorem source_of_view : view.bytesAt 8 16 = .ok header.source := by
  rw [HeaderView.bytesAt_eq_ok_iff, hbytes, Header.drop_encode, Header.length_encode h]
  exact ⟨by decide, List.take_left' h.source⟩

theorem destination_of_view : view.bytesAt 24 16 = .ok header.destination := by
  have hdrop : header.encode.drop (8 + 16) = header.destination := by
    rw [← List.drop_drop, Header.drop_encode, List.drop_left' h.source]
  rw [HeaderView.bytesAt_eq_ok_iff, hbytes, hdrop, Header.length_encode h]
  exact ⟨by decide, List.take_of_length_le (Nat.le_of_eq h.destination)⟩

theorem Header.ofView_encode : Header.ofView view = .ok header := by
  simp only [Header.ofView, HeaderView.field, hbytes, read_version h, read_trafficClass h,
    read_flowLabel h, read_payloadLength h, read_nextHeader h, read_hopLimit h,
    source_of_view h hbytes, destination_of_view h hbytes, FieldError.ok_bind]
  rfl

end Fields

end Ipv6

namespace Ipv6Fragment

namespace Header

structure Fits (header : Header) : Prop where
  nextHeader : header.nextHeader < 256
  fragmentOffset : header.fragmentOffset < 8192
  identification : header.identification < 4294967296

/-- The fragment offset, two reserved bits and the flag. -/
def fragmentWord (header : Header) (reserved : Fin 4) : Nat :=
  header.fragmentOffset * 8 + reserved * 2 + header.moreFragments.toNat

/-- The header with a reserved byte behind the next header and the reserved bits. -/
def encode (header : Header) (reservedByte : Nat) (reserved : Fin 4) : Bytes :=
  .ofNumber 1 header.nextHeader ++ .ofNumber 1 reservedByte ++
    .ofNumber 2 (header.fragmentWord reserved) ++ .ofNumber 4 header.identification

theorem length_encode (header : Header) (reservedByte : Nat) (reserved : Fin 4) :
    (header.encode reservedByte reserved).length = headerLength := rfl

theorem endByte_le {header : Header} {reservedByte : Nat} {reserved : Fin 4} {field : BitField}
    (hfield : field.endByte ≤ headerLength) :
    field.endByte ≤ (header.encode reservedByte reserved).length := hfield

end Header

section Fields

variable {header : Header} {reservedByte : Nat} {reserved : Fin 4}

theorem read_moreFragments :
    moreFragments.read (header.encode reservedByte reserved) =
      .ok header.moreFragments.toNat := by
  have hmore := header.moreFragments.toNat_lt
  -- the flag lies in the last byte of its word
  refine BitField.read_digits 1 (header.fragmentWord reserved % 256 ^ 1) 1 2 rfl (by decide)
    (Header.endByte_le (by decide)) (Bytes.ofNumber_mod 1 (header.fragmentWord reserved)).symm
    (by omega) rfl rfl ?_
  unfold Header.fragmentWord
  omega

variable (h : header.Fits)

include h

theorem read_nextHeader :
    nextHeader.read (header.encode reservedByte reserved) = .ok header.nextHeader := by
  have hnext := h.nextHeader
  exact BitField.read_digits 1 header.nextHeader 1 256 rfl (by decide)
    (Header.endByte_le (by decide)) rfl (by omega) rfl rfl (by omega)

theorem read_fragmentOffset :
    fragmentOffset.read (header.encode reservedByte reserved) = .ok header.fragmentOffset := by
  have hoffset := h.fragmentOffset
  have hreserved := reserved.isLt
  have hmore := header.moreFragments.toNat_lt
  refine BitField.read_digits 2 (header.fragmentWord reserved) 8 8192 rfl (by decide)
    (Header.endByte_le (by decide)) rfl ?_ rfl rfl ?_ <;>
  · unfold Header.fragmentWord
    omega

theorem read_identification :
    identification.read (header.encode reservedByte reserved) = .ok header.identification := by
  have hidentification := h.identification
  exact BitField.read_digits 4 header.identification 1 4294967296 rfl (by decide)
    (Header.endByte_le (by decide)) rfl (by omega) rfl rfl (by omega)

theorem Header.ofView_encode {view : HeaderView}
    (hbytes : view.bytes = header.encode reservedByte reserved) :
    Header.ofView view = .ok header := by
  simp only [Header.ofView, HeaderView.field, hbytes, read_nextHeader h, read_fragmentOffset h,
    read_moreFragments, read_identification h, FieldError.ok_bind, toNat_beq_one]
  rfl

end Fields

end Ipv6Fragment

end Dissection
