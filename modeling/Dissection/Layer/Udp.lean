import Dissection.Layer.Ports

/-!
# User datagrams
-/

namespace Dissection.Udp

def headerLength : Nat := 8

def length : BitField := .ofBytes 4 2
def checksum : BitField := .ofBytes 6 2

structure Header where
  sourcePort : Nat
  destinationPort : Nat
  length : Nat
  checksum : Nat
  deriving DecidableEq

def Header.ofView (view : HeaderView) : Except FieldError Header := do
  let ports ← Ports.ofView view
  let length ← view.field Udp.length
  let checksum ← view.field Udp.checksum
  return ⟨ports.1, ports.2, length, checksum⟩

end Dissection.Udp
