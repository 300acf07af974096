import Dissection.Layer.Internet

/-!
# Internet protocol, version 4

The header gives its own length in 32-bit words and the length of the datagram in bytes. A datagram
may be cut into fragments, which are placed in units of eight bytes.
-/

namespace Dissection.Ipv4

def minimumLength : Nat := 20

def version : BitField := ⟨0, 4, .big⟩
/-- The length of the header, in 32-bit words. -/
def headerWords : BitField := ⟨4, 4, .big⟩
def dscp : BitField := ⟨8, 6, .big⟩
def ecn : BitField := ⟨14, 2, .big⟩
def totalLength : BitField := .ofBytes 2 2
def identification : BitField := .ofBytes 4 2
def dontFragment : BitField := ⟨49, 1, .big⟩
def moreFragments : BitField := ⟨50, 1, .big⟩
/-- The place of a fragment, in units of eight bytes. -/
def fragmentOffset : BitField := ⟨51, 13, .big⟩
def ttl : BitField := .ofBytes 8 1
def protocol : BitField := .ofBytes 9 1
def checksum : BitField := .ofBytes 10 2

structure Header where
  version : Nat
  headerWords : Nat
  dscp : Nat
  ecn : Nat
  totalLength : Nat
  identification : Nat
  dontFragment : Bool
  moreFragments : Bool
  fragmentOffset : Nat
  ttl : Nat
  protocol : Nat
  checksum : Nat
  source : Bytes
  destination : Bytes
  options : Bytes
  deriving DecidableEq

namespace Header

def ofView (view : HeaderView) : Except FieldError Header := do
  let version ← view.field Ipv4.version
  let headerWords ← view.field Ipv4.headerWords
  let dscp ← view.field Ipv4.dscp
  let ecn ← view.field Ipv4.ecn
  let totalLength ← view.field Ipv4.totalLength
  let identification ← view.field Ipv4.identification
  let dontFragment ← view.field Ipv4.dontFragment
  let moreFragments ← view.field Ipv4.moreFragments
  let fragmentOffset ← view.field Ipv4.fragmentOffset
  let ttl ← view.field Ipv4.ttl
  let protocol ← view.field Ipv4.protocol
  let checksum ← view.field Ipv4.checksum
  let source ← view.bytesAt 12 4
  let destination ← view.bytesAt 16 4
  return ⟨version, headerWords, dscp, ecn, totalLength, identification, dontFragment == 1,
    moreFragments == 1, fragmentOffset, ttl, protocol, checksum, source, destination,
    view.bytesFrom minimumLength⟩

def isFragment (header : Header) : Bool := header.moreFragments || header.fragmentOffset != 0

def fragmentStart (header : Header) : Nat := header.fragmentOffset * 8

end Header

def isChecksumValid (view : HeaderView) : Bool := Internet.onesComplementSum view.bytes == 0xffff

/-- The bytes after the header that belong to the datagram; padding of the link is left out. -/
def datagramPayload (view : HeaderView) : Except FieldError Bytes := do
  let total ← view.field totalLength
  return view.payload.take (total - view.length)

def bindings : List BindingDeclaration :=
  let carries := Internet.carries protocol fragmentOffset
  [carries .tcp Internet.Number.tcp, carries .udp Internet.Number.udp,
    carries .icmp Internet.Number.icmp, carries .ipv4 Internet.Number.ipv4,
    carries .ipv6 Internet.Number.ipv6]

end Dissection.Ipv4
