import Dissection.Bytes

/-!
# Hexadecimal text

Bytes as pairs of lower-case hexadecimal digits.
-/

namespace Dissection.Text.Hex

/-- The lower-case digit of a number below 16. -/
def digit (value : Nat) : Char := (Nat.digitChar value)

def ofByte (byte : UInt8) : List Char := [digit (byte.toNat / 16), digit (byte.toNat % 16)]

def encode (bytes : Bytes) : String := .ofList (bytes.flatMap ofByte)

/-- Two digits for every byte, with a mark between them. -/
def encodeWith (mark : String) (bytes : Bytes) : String :=
  mark.intercalate (bytes.map (fun byte => .ofList (ofByte byte)))

end Dissection.Text.Hex
