import Dissection.Flow.Table
import Dissection.Reassembly.Ipv4
import Dissection.Reassembly.Ipv6

/-!
# Capture sessions

A session scans the packets of a capture one after the other and keeps what spans packets: the flow
table and the assemblers of IPv4 and IPv6 fragments. All of them follow one clock, the greatest
timestamp of the packets so far.
-/

namespace Dissection

structure Packet where
  data : Bytes
  timestamp : Timestamp := .zero
  /-- The length on the wire, when the capture reports it. -/
  wireLength : Option Nat := none

/-- The bytes the packet took on the wire, which are never fewer than were captured. -/
def Packet.size (packet : Packet) : Nat :=
  max (packet.wireLength.getD packet.data.length) packet.data.length

structure SessionConfig where
  scan : ScanConfig := {}
  tracksFlows : Bool := false
  maxFlows : Nat := 100000
  flowIdleTimeout : Duration := .ofSeconds 120
  assemblesIpv4 : Bool := false
  assemblesIpv6 : Bool := false
  assembly : AssemblyConfig := {}

structure Session where
  registry : FrozenRegistry
  root : ProtocolId
  scan : ScanConfig
  clock : Clock
  flows : Option FlowTable
  ipv4 : Option (Assembler Ipv4.FragmentKey)
  ipv6 : Option (Assembler Ipv6.FragmentKey)

inductive FragmentEvent where
  | ipv4 (event : AssemblyEvent Ipv4.FragmentKey)
  | ipv6 (event : AssemblyEvent Ipv6.FragmentKey)
  deriving DecidableEq

def FragmentEvent.isTerminal : FragmentEvent → Bool
  | .ipv4 event => event.isTerminal
  | .ipv6 event => event.isTerminal

structure ProcessedPacket where
  chain : HeaderChain
  flow : Option FlowKey
  fragments : List FragmentEvent
  /-- The flows that ended while the packet was processed. -/
  expiredFlows : List Flow

namespace Session

def start (registry : FrozenRegistry) (root : ProtocolId) (config : SessionConfig) : Session where
  registry := registry
  root := root
  scan := config.scan
  clock := {}
  flows :=
    if config.tracksFlows then
      some { maxFlows := config.maxFlows, idleTimeout := config.flowIdleTimeout }
    else none
  ipv4 := if config.assemblesIpv4 then some { config := config.assembly } else none
  ipv6 := if config.assemblesIpv6 then some { config := config.assembly } else none

def now (session : Session) : Timestamp := session.clock.now

/-- Hands a packet's fragment to an assembler, or tells it the time when the packet has none. -/
def feed {κ : Type} [DecidableEq κ] (fragment : Option (κ × Fragment)) (now : Timestamp)
    (assembler : Assembler κ) : Assembler κ × List (AssemblyEvent κ) :=
  match fragment with
  | some (key, fragment) => assembler.insert key fragment
  | none => assembler.advance now

/-- Applies an operation to an assembler that may be switched off. -/
def onEnabled {κ : Type} (assembler : Option (Assembler κ))
    (operation : Assembler κ → Assembler κ × List (AssemblyEvent κ)) :
    Option (Assembler κ) × List (AssemblyEvent κ) :=
  match assembler with
  | some assembler => let (next, events) := operation assembler; (some next, events)
  | none => (none, [])

/-- Accounts a packet to its flow, if it has one, and then removes the flows that are idle for too
long. -/
def accountFlow (table : FlowTable) (key : Option FlowKey) (now : Timestamp) (bytes : Nat) :
    FlowTable × List Flow :=
  let (accounted, evicted) :=
    match key with
    | some key => table.account key now bytes
    | none => (table, none)
  let (current, expired) := accounted.expire now
  (current, evicted.toList ++ expired)

def process (session : Session) (packet : Packet) : Session × ProcessedPacket :=
  let chain := session.registry.scan session.scan session.root packet.data
  let clock := session.clock.observe packet.timestamp
  let (ipv4, ipv4Events) :=
    onEnabled session.ipv4 (feed (Ipv4.fragment? chain packet.data packet.timestamp) clock.now)
  let (ipv6, ipv6Events) :=
    onEnabled session.ipv6 (feed (Ipv6.fragment? chain packet.data packet.timestamp) clock.now)
  let fragments := ipv4Events.map .ipv4 ++ ipv6Events.map .ipv6
  match session.flows with
  | none =>
    ({ session with clock := clock, ipv4 := ipv4, ipv6 := ipv6 }, ⟨chain, none, fragments, []⟩)
  | some table =>
    let key := session.registry.flowKey? chain packet.data
    let (table, expired) := accountFlow table key clock.now packet.size
    ({ session with clock := clock, flows := some table, ipv4 := ipv4, ipv6 := ipv6 },
      ⟨chain, key, fragments, expired⟩)

/-- Times out all open fragment sequences, at the end of a capture. -/
def flush (session : Session) : Session × List FragmentEvent :=
  let (ipv4, ipv4Events) := onEnabled session.ipv4 (·.flush)
  let (ipv6, ipv6Events) := onEnabled session.ipv6 (·.flush)
  ({ session with ipv4 := ipv4, ipv6 := ipv6 }, ipv4Events.map .ipv4 ++ ipv6Events.map .ipv6)

end Session

end Dissection
