import Dissection.Layer.Ports
import Dissection.Text.Shown

/-!
# Transmission control

The header gives its own length in 32-bit words. Options fill the bytes after the first twenty.
-/

namespace Dissection.Tcp

def minimumLength : Nat := 20

def sequence : BitField := .ofBytes 4 4
def acknowledgment : BitField := .ofBytes 8 4
/-- The length of the header, in 32-bit words. -/
def dataOffset : BitField := ⟨96, 4, .big⟩
def flags : BitField := ⟨103, 9, .big⟩
def window : BitField := .ofBytes 14 2
def checksum : BitField := .ofBytes 16 2
def urgentPointer : BitField := .ofBytes 18 2

structure Flags where
  fin : Bool
  syn : Bool
  rst : Bool
  psh : Bool
  ack : Bool
  urg : Bool
  ece : Bool
  cwr : Bool
  ns : Bool
  deriving DecidableEq

/-- The flags of a number whose lowest bit is the flag `fin`. -/
def Flags.ofBits (bits : Nat) : Flags :=
  ⟨bits.testBit 0, bits.testBit 1, bits.testBit 2, bits.testBit 3, bits.testBit 4, bits.testBit 5,
    bits.testBit 6, bits.testBit 7, bits.testBit 8⟩

namespace Flags

def toList (flags : Flags) : List (String × Bool) :=
  [("fin", flags.fin), ("syn", flags.syn), ("rst", flags.rst), ("psh", flags.psh),
    ("ack", flags.ack), ("urg", flags.urg), ("ece", flags.ece), ("cwr", flags.cwr),
    ("ns", flags.ns)]

def describe (flags : Flags) : String :=
  Text.showRecord "TcpFlags" (flags.toList.map (fun flag => (flag.1, toString flag.2)))

end Flags

structure Header where
  sourcePort : Nat
  destinationPort : Nat
  sequence : Nat
  acknowledgment : Nat
  dataOffset : Nat
  flags : Flags
  window : Nat
  checksum : Nat
  urgentPointer : Nat
  options : Bytes
  deriving DecidableEq

def Header.ofView (view : HeaderView) : Except FieldError Header := do
  let ports ← Ports.ofView view
  let sequence ← view.field Tcp.sequence
  let acknowledgment ← view.field Tcp.acknowledgment
  let dataOffset ← view.field Tcp.dataOffset
  let flags ← view.field Tcp.flags
  let window ← view.field Tcp.window
  let checksum ← view.field Tcp.checksum
  let urgentPointer ← view.field Tcp.urgentPointer
  return ⟨ports.1, ports.2, sequence, acknowledgment, dataOffset, .ofBits flags, window, checksum,
    urgentPointer, view.bytesFrom minimumLength⟩

end Dissection.Tcp
