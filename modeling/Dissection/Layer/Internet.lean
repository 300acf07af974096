import Dissection.Layer.BuiltIn
import Dissection.Registry.Table

/-!
# Numbers and sums of the internet protocols

The protocol numbers shared by IPv4 and IPv6, and the ones' complement sum that their checksums
use.
-/

namespace Dissection.Internet

namespace Number

def icmp : Nat := 1
def ipv4 : Nat := 4
def tcp : Nat := 6
def udp : Nat := 17
def ipv6 : Nat := 41
def ipv6Fragment : Nat := 44

end Number

/-- Binds to `target` when the field `next` holds `number` and the fragment offset is zero: only the
first fragment of a datagram carries the header of the next protocol. -/
def carries (next fragmentOffset : BitField) (target : BuiltIn) (number : Nat) :
    BindingDeclaration :=
  ⟨target.name, 0, .both (.fieldEquals next number) (.fieldEquals fragmentOffset 0)⟩

/-- The big-endian 16-bit words; an odd last byte is the high half of a word. -/
def words : Bytes → List Nat
  | [] => []
  | [high] => [high.toNat * 256]
  | high :: low :: rest => (high.toNat * 256 + low.toNat) :: words rest

/-- Adds words up in 32 bits; what does not fit is lost. -/
def accumulate (words : List Nat) : UInt32 :=
  words.foldl (fun sum word => sum + word.toUInt32) 0

/-- Adds what exceeds 16 bits back to the low bits until nothing does. -/
def foldCarries (sum : Nat) : Nat :=
  if sum ≤ 0xffff then sum else foldCarries (sum % 0x10000 + sum / 0x10000)
termination_by sum
decreasing_by omega

/-- The ones' complement sum of 16-bit words. A header with a correct checksum sums to `0xffff`. -/
def onesComplementSum (bytes : Bytes) : Nat := foldCarries (accumulate (words bytes)).toNat

end Dissection.Internet
