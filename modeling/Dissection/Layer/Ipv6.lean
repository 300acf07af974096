import Dissection.Layer.Internet

/-!
# Internet protocol, version 6

The fixed header of 40 bytes. Of the extension headers only the fragment header is known; the
others are left unclaimed.
-/

namespace Dissection.Ipv6

def headerLength : Nat := 40

def version : BitField := ⟨0, 4, .big⟩
def trafficClass : BitField := ⟨4, 8, .big⟩
def flowLabel : BitField := ⟨12, 20, .big⟩
def payloadLength : BitField := .ofBytes 4 2
def nextHeader : BitField := .ofBytes 6 1
def hopLimit : BitField := .ofBytes 7 1

structure Header where
  version : Nat
  trafficClass : Nat
  flowLabel : Nat
  payloadLength : Nat
  nextHeader : Nat
  hopLimit : Nat
  source : Bytes
  destination : Bytes
  deriving DecidableEq

def Header.ofView (view : HeaderView) : Except FieldError Header := do
  let version ← view.field Ipv6.version
  let trafficClass ← view.field Ipv6.trafficClass
  let flowLabel ← view.field Ipv6.flowLabel
  let payloadLength ← view.field Ipv6.payloadLength
  let nextHeader ← view.field Ipv6.nextHeader
  let hopLimit ← view.field Ipv6.hopLimit
  let source ← view.bytesAt 8 16
  let destination ← view.bytesAt 24 16
  return ⟨version, trafficClass, flowLabel, payloadLength, nextHeader, hopLimit, source,
    destination⟩

def bindings : List BindingDeclaration :=
  let announces (target : BuiltIn) (number : Nat) : BindingDeclaration :=
    ⟨target.name, 0, .fieldEquals nextHeader number⟩
  [announces .tcp Internet.Number.tcp, announces .udp Internet.Number.udp,
    announces .ipv6Fragment Internet.Number.ipv6Fragment, announces .ipv4 Internet.Number.ipv4,
    announces .ipv6 Internet.Number.ipv6]

end Dissection.Ipv6
