import Dissection.Length

/-!
# Address resolution

An ARP packet gives the lengths of its hardware and protocol addresses, so the four addresses are
placed correctly for every kind of network.
-/

namespace Dissection.Arp

/-- Bytes before the addresses. -/
def fixedLength : Nat := 8

def hardwareType : BitField := .ofBytes 0 2
def protocolType : BitField := .ofBytes 2 2
def hardwareLength : BitField := .ofBytes 4 1
def protocolLength : BitField := .ofBytes 5 1
def operation : BitField := .ofBytes 6 2

inductive Operation where
  | request
  | reply
  | unknown (code : Nat)
  deriving DecidableEq

def Operation.ofCode : Nat → Operation
  | 1 => .request
  | 2 => .reply
  | code => .unknown code

def Operation.describe : Operation → String
  | .request => "Request"
  | .reply => "Reply"
  | .unknown code => s!"Unknown({code})"

structure Packet where
  hardwareType : Nat
  protocolType : Nat
  operation : Operation
  senderHardware : Bytes
  senderProtocol : Bytes
  targetHardware : Bytes
  targetProtocol : Bytes
  deriving DecidableEq

namespace Packet

def ofView (view : HeaderView) : Except FieldError Packet := do
  let hardware ← view.field hardwareLength
  let protocol ← view.field protocolLength
  let senderProtocolAt := fixedLength + hardware
  let targetHardwareAt := senderProtocolAt + protocol
  let targetProtocolAt := targetHardwareAt + hardware
  let hardwareType ← view.field Arp.hardwareType
  let protocolType ← view.field Arp.protocolType
  let operation ← view.field Arp.operation
  let senderHardware ← view.bytesAt fixedLength hardware
  let senderProtocol ← view.bytesAt senderProtocolAt protocol
  let targetHardware ← view.bytesAt targetHardwareAt hardware
  let targetProtocol ← view.bytesAt targetProtocolAt protocol
  return ⟨hardwareType, protocolType, .ofCode operation, senderHardware, senderProtocol,
    targetHardware, targetProtocol⟩

/-- A protocol address as an IPv4 address, when it has the length of one. -/
def ipv4? (address : Bytes) : Option Bytes := if address.length = 4 then some address else none

def senderIpv4? (packet : Packet) : Option Bytes := ipv4? packet.senderProtocol

def targetIpv4? (packet : Packet) : Option Bytes := ipv4? packet.targetProtocol

end Packet

/-- The length of a packet: the fixed bytes and twice either address. -/
def measure (tail : Bytes) : Except Shortfall Nat :=
  match tail[4]?, tail[5]? with
  | some hardware, some protocol =>
    .ok (fixedLength + 2 * hardware.toNat + 2 * protocol.toNat)
  | _, _ => .error ⟨6⟩

end Dissection.Arp
