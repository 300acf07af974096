import Dissection.Protocol

/-!
# Built-in protocols

The protocols that come with the library, with their fixed numbers and their names.
-/

namespace Dissection

inductive BuiltIn where
  | ethernet
  | vlan
  | arp
  | ipv4
  | ipv6
  | ipv6Fragment
  | icmp
  | tcp
  | udp
  | http
  deriving DecidableEq

namespace BuiltIn

/-- All built-in protocols, in the order in which they are registered. -/
def all : List BuiltIn :=
  [.ethernet, .vlan, .arp, .ipv4, .ipv6, .ipv6Fragment, .icmp, .tcp, .udp, .http]

theorem mem_all (protocol : BuiltIn) : protocol ∈ all := by
  cases protocol <;> decide

/-- The number of a protocol stays the same whatever else is registered. -/
def id : BuiltIn → ProtocolId
  | .ethernet => ⟨1⟩
  | .vlan => ⟨2⟩
  | .arp => ⟨3⟩
  | .ipv4 => ⟨4⟩
  | .ipv6 => ⟨5⟩
  | .ipv6Fragment => ⟨6⟩
  | .icmp => ⟨7⟩
  | .tcp => ⟨8⟩
  | .udp => ⟨9⟩
  | .http => ⟨10⟩

def name : BuiltIn → String
  | .ethernet => "ethernet"
  | .vlan => "vlan"
  | .arp => "arp"
  | .ipv4 => "ipv4"
  | .ipv6 => "ipv6"
  | .ipv6Fragment => "ipv6-fragment"
  | .icmp => "icmp"
  | .tcp => "tcp"
  | .udp => "udp"
  | .http => "http"

def nickname : BuiltIn → String
  | .ethernet => "eth"
  | .vlan => "802.1q"
  | .ipv4 => "ip4"
  | .ipv6 => "ip6"
  | .ipv6Fragment => "ip6frag"
  | protocol => protocol.name

theorem id_injective : ∀ {a b : BuiltIn}, a.id = b.id → a = b := by
  intro a b
  cases a <;> cases b <;> decide

def ofId? (id : ProtocolId) : Option BuiltIn := all.find? (fun protocol => protocol.id = id)

def ofName? (name : String) : Option BuiltIn := all.find? (fun protocol => protocol.name == name)

end BuiltIn

end Dissection
