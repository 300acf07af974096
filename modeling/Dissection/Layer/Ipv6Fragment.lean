import Dissection.Layer.Internet

/-!
# The fragment header of IPv6
-/

namespace Dissection.Ipv6Fragment

def headerLength : Nat := 8

def nextHeader : BitField := .ofBytes 0 1
/-- The place of a fragment, in units of eight bytes. -/
def fragmentOffset : BitField := ⟨16, 13, .big⟩
def moreFragments : BitField := ⟨31, 1, .big⟩
def identification : BitField := .ofBytes 4 4

structure Header where
  nextHeader : Nat
  fragmentOffset : Nat
  moreFragments : Bool
  identification : Nat
  deriving DecidableEq

namespace Header

def ofView (view : HeaderView) : Except FieldError Header := do
  let nextHeader ← view.field Ipv6Fragment.nextHeader
  let fragmentOffset ← view.field Ipv6Fragment.fragmentOffset
  let moreFragments ← view.field Ipv6Fragment.moreFragments
  let identification ← view.field Ipv6Fragment.identification
  return ⟨nextHeader, fragmentOffset, moreFragments == 1, identification⟩

def fragmentStart (header : Header) : Nat := header.fragmentOffset * 8

end Header

def bindings : List BindingDeclaration :=
  let carries := Internet.carries nextHeader fragmentOffset
  [carries .tcp Internet.Number.tcp, carries .udp Internet.Number.udp]

end Dissection.Ipv6Fragment
