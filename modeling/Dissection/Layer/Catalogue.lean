import Dissection.Layer.Arp
import Dissection.Layer.Ethernet
import Dissection.Layer.Http
import Dissection.Layer.Icmp
import Dissection.Layer.Ipv4
import Dissection.Layer.Ipv6
import Dissection.Layer.Ipv6Fragment
import Dissection.Layer.Tcp
import Dissection.Layer.Udp
import Dissection.Layer.Vlan
import Dissection.Registry.Frozen
import Dissection.Registry.Indexed

/-!
# The catalogue of built-in protocols

How the headers of each built-in protocol are measured, which protocols may follow it, and what it
adds to flow keys.
-/

namespace Dissection

namespace BuiltIn

def lengthRule : BuiltIn → LengthRule
  | .ethernet => .fixed Ethernet.headerLength
  | .vlan => .fixed Vlan.headerLength
  | .arp => .measured Arp.measure
  | .ipv4 => .fromField Ipv4.headerWords 4 0 Ipv4.minimumLength
  | .ipv6 => .fixed Ipv6.headerLength
  | .ipv6Fragment => .fixed Ipv6Fragment.headerLength
  | .icmp => .fixed Icmp.headerLength
  | .tcp => .fromField Tcp.dataOffset 4 0 Tcp.minimumLength
  | .udp => .fixed Udp.headerLength
  | .http => .measured Http.measure

def bindings : BuiltIn → List BindingDeclaration
  | .ethernet => EtherType.bindings Ethernet.etherType
  | .vlan => EtherType.bindings Vlan.etherType
  | .ipv4 => Ipv4.bindings
  | .ipv6 => Ipv6.bindings
  | .ipv6Fragment => Ipv6Fragment.bindings
  | _ => []

/-- Addresses and ports tell flows apart, and so do VLAN tags, priority bits included. -/
def flowFields : BuiltIn → List FlowField
  | .vlan => [.fixed 0 2]
  | .ipv4 => [.reversible 12 16 4, .fixed 9 1]
  | .ipv6 => [.reversible 8 24 16]
  | .tcp => [.reversible 0 2 2]
  | .udp => [.reversible 0 2 2]
  | _ => []

def descriptor (protocol : BuiltIn) : ProtocolDescriptor where
  requestedId := some protocol.id
  name := protocol.name
  nickname := protocol.nickname
  length := protocol.lengthRule
  bindings := protocol.bindings
  flowFields := protocol.flowFields

end BuiltIn

namespace Registry

/-- Registers the built-in protocols, and the binding from TCP to HTTP unless one of them is
refused. -/
def registerBuiltIns (registry : Registry) : Registry × Except RegistryError Unit :=
  match registry.registerAll (BuiltIn.all.map BuiltIn.descriptor) with
  | (next, .ok ()) =>
    (next.addBinding BuiltIn.tcp.name BuiltIn.http.name 0 Http.detect, .ok ())
  | refused => refused

end Registry

/-- Registers the built-in protocols as a registry without slots does. -/
def IndexedRegistry.registerBuiltIns (registry : IndexedRegistry) :
    IndexedRegistry × Except RegistryError Unit :=
  match registry.registerAll (BuiltIn.all.map BuiltIn.descriptor) with
  | (next, .ok ()) =>
    (next.addBinding BuiltIn.tcp.name BuiltIn.http.name 0 Http.detect, .ok ())
  | refused => refused

def FrozenRegistry.builtIn : FrozenRegistry :=
  Registry.empty.registerBuiltIns.1.freeze.toOption.get rfl

end Dissection
