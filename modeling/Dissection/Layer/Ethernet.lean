import Dissection.Layer.BuiltIn
import Dissection.Registry.Table
import Dissection.Text.Hex

/-!
# Ethernet II

Two hardware addresses and an EtherType that names the protocol of the frame. VLAN tags carry an
EtherType as well and dispatch on it in the same way.
-/

namespace Dissection

structure MacAddress where
  octets : Bytes
  deriving DecidableEq

namespace MacAddress

def ofBytes? (bytes : Bytes) : Option MacAddress :=
  if bytes.length = 6 then some ⟨bytes⟩ else none

/-- Two digits for every byte, with colons between them. -/
def text (address : MacAddress) : String := Text.Hex.encodeWith ":" address.octets

def isBroadcast (address : MacAddress) : Bool := decide (address.octets = List.replicate 6 0xff)

end MacAddress

namespace EtherType

def ipv4 : Nat := 0x0800
def arp : Nat := 0x0806
def vlan : Nat := 0x8100
def ipv6 : Nat := 0x86DD
def providerVlan : Nat := 0x88A8

/-- The bindings of a protocol whose field `field` is an EtherType. -/
def bindings (field : BitField) : List BindingDeclaration :=
  [⟨BuiltIn.ipv4.name, 0, .fieldEquals field ipv4⟩,
    ⟨BuiltIn.ipv6.name, 0, .fieldEquals field ipv6⟩,
    ⟨BuiltIn.arp.name, 0, .fieldEquals field arp⟩,
    ⟨BuiltIn.vlan.name, 0, .fieldIn field [vlan, providerVlan]⟩]

end EtherType

namespace Ethernet

def headerLength : Nat := 14

def etherType : BitField := .ofBytes 12 2

structure Header where
  destination : MacAddress
  source : MacAddress
  etherType : Nat
  deriving DecidableEq

def Header.ofView (view : HeaderView) : Except FieldError Header := do
  let destination ← view.bytesAt 0 6
  let source ← view.bytesAt 6 6
  let etherType ← view.field Ethernet.etherType
  return ⟨⟨destination⟩, ⟨source⟩, etherType⟩

end Ethernet

end Dissection
