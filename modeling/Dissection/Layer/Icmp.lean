import Dissection.Header

/-!
# Control messages

The first eight bytes of an ICMP message. In echo messages the last four are an identifier and a
sequence number.
-/

namespace Dissection.Icmp

def headerLength : Nat := 8

def messageType : BitField := .ofBytes 0 1
def code : BitField := .ofBytes 1 1
def checksum : BitField := .ofBytes 2 2
def rest : BitField := .ofBytes 4 4

inductive MessageType where
  | echoReply
  | destinationUnreachable
  | echoRequest
  | timeExceeded
  | other (code : Nat)
  deriving DecidableEq

def MessageType.ofCode : Nat → MessageType
  | 0 => .echoReply
  | 3 => .destinationUnreachable
  | 8 => .echoRequest
  | 11 => .timeExceeded
  | code => .other code

def MessageType.describe : MessageType → String
  | .echoReply => "EchoReply"
  | .destinationUnreachable => "DestinationUnreachable"
  | .echoRequest => "EchoRequest"
  | .timeExceeded => "TimeExceeded"
  | .other code => s!"Other({code})"

structure Header where
  messageType : MessageType
  code : Nat
  checksum : Nat
  rest : Nat
  deriving DecidableEq

namespace Header

def ofView (view : HeaderView) : Except FieldError Header := do
  let messageType ← view.field Icmp.messageType
  let code ← view.field Icmp.code
  let checksum ← view.field Icmp.checksum
  let rest ← view.field Icmp.rest
  return ⟨.ofCode messageType, code, checksum, rest⟩

def echo? (header : Header) : Option (Nat × Nat) :=
  if header.messageType = .echoRequest ∨ header.messageType = .echoReply then
    some (header.rest / 65536, header.rest % 65536)
  else none

end Header

end Dissection.Icmp
