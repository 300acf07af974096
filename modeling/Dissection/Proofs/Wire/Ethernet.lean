import Dissection.Layer.Ethernet
import Dissection.Proofs.Wire.Field

/-!
# Ethernet headers on the wire

A header is written with its addresses first, and its type reads back.
-/

namespace Dissection.Ethernet.Header

/-- The addresses have six bytes each and the type has two. -/
structure Fits (header : Header) : Prop where
  destination : header.destination.octets.length = 6
  source : header.source.octets.length = 6
  etherType : header.etherType < 65536

def encode (header : Header) : Bytes :=
  header.destination.octets ++ (header.source.octets ++ .ofNumber 2 header.etherType)

variable {header : Header} (h : header.Fits)

include h

theorem length_encode : header.encode.length = headerLength := by
  rw [encode, List.length_append, List.length_append, h.destination, h.source,
    Bytes.length_ofNumber]
  rfl

theorem read_etherType : Ethernet.etherType.read header.encode = .ok header.etherType := by
  have htype := h.etherType
  have hcontaining : Ethernet.etherType.containing header.encode = .ofNumber 2 header.etherType := by
    change (header.encode.drop (6 + 6)).take 2 = _
    rw [← List.drop_drop, encode, List.drop_left' h.destination, List.drop_left' h.source,
      List.take_of_length_le (Nat.le_of_eq (Bytes.length_ofNumber 2 _))]
  have hfit : Ethernet.etherType.endByte ≤ header.encode.length := by
    rw [length_encode h]
    decide
  exact BitField.read_digits 2 header.etherType 1 65536 rfl (by decide) hfit hcontaining (by omega)
    rfl rfl (by omega)

end Dissection.Ethernet.Header
