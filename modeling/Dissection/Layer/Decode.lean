import Dissection.Layer.Catalogue

/-!
# Decoding headers

One decoded header of any built-in protocol. Only a message head may fail to parse; every other
header is decoded or has a field that leaves it.
-/

namespace Dissection

inductive DecodedHeader where
  | ethernet (header : Ethernet.Header)
  | vlan (tag : Vlan.Tag)
  | arp (packet : Arp.Packet)
  | ipv4 (header : Ipv4.Header)
  | ipv6 (header : Ipv6.Header)
  | ipv6Fragment (header : Ipv6Fragment.Header)
  | icmp (header : Icmp.Header)
  | tcp (header : Tcp.Header)
  | udp (header : Udp.Header)
  | http (head : Option Http.Head)
  deriving DecidableEq

def BuiltIn.decode (protocol : BuiltIn) (view : HeaderView) : Except FieldError DecodedHeader :=
  match protocol with
  | .ethernet => (Ethernet.Header.ofView view).map .ethernet
  | .vlan => (Vlan.Tag.ofView view).map .vlan
  | .arp => (Arp.Packet.ofView view).map .arp
  | .ipv4 => (Ipv4.Header.ofView view).map .ipv4
  | .ipv6 => (Ipv6.Header.ofView view).map .ipv6
  | .ipv6Fragment => (Ipv6Fragment.Header.ofView view).map .ipv6Fragment
  | .icmp => (Icmp.Header.ofView view).map .icmp
  | .tcp => (Tcp.Header.ofView view).map .tcp
  | .udp => (Udp.Header.ofView view).map .udp
  | .http => .ok (.http (Http.Head.ofView? view))

end Dissection
