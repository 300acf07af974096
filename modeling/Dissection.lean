import Dissection.Layer.Decode
import Dissection.Reassembly.Indexed
import Dissection.Reassembly.Sharded
import Dissection.Registry.Listing
import Dissection.Session
import Dissection.Proofs.Wire.Bits
import Dissection.Proofs.Wire.Read
import Dissection.Proofs.Length
import Dissection.Proofs.Scan.Rules
import Dissection.Proofs.Scan.Shape
import Dissection.Proofs.Scan.BuiltIn
import Dissection.Proofs.Scan.Layout
import Dissection.Proofs.Scan.Truncation
import Dissection.Proofs.Scan.Shortfall
import Dissection.Proofs.ProtocolBits
import Dissection.Proofs.Scan.Lookup
import Dissection.Proofs.Scan.Indexed
import Dissection.Proofs.Scan.Decoding
import Dissection.Proofs.Scan.Fragment
import Dissection.Proofs.Scan.Reply
import Dissection.Proofs.Scan.Limits
import Dissection.Proofs.Scan.Composition
import Dissection.Proofs.Registry.Table
import Dissection.Proofs.Registry.Run
import Dissection.Proofs.Registry.Ranking
import Dissection.Proofs.Registry.Order
import Dissection.Proofs.Registry.Graph
import Dissection.Proofs.Registry.Indexed
import Dissection.Proofs.Registry.Refusal
import Dissection.Proofs.Registry.Resolution
import Dissection.Proofs.Registry.Freeze
import Dissection.Proofs.Registry.Selection
import Dissection.Proofs.IdleOrder
import Dissection.Proofs.Deadline
import Dissection.Proofs.Reassembly.Retention
import Dissection.Proofs.Reassembly.Run
import Dissection.Proofs.Reassembly.Lifetime
import Dissection.Proofs.Reassembly.Completion
import Dissection.Proofs.Reassembly.Delivery
import Dissection.Proofs.Reassembly.Coverage
import Dissection.Proofs.Reassembly.History
import Dissection.Proofs.Reassembly.Order
import Dissection.Proofs.Reassembly.Isolation
import Dissection.Proofs.Reassembly.Sharding
import Dissection.Proofs.Reassembly.Standstill
import Dissection.Proofs.Reassembly.Interleaving
import Dissection.Proofs.Reassembly.Sources
import Dissection.Proofs.Reassembly.Ambiguity
import Dissection.Proofs.Reassembly.Chronicle
import Dissection.Proofs.Reassembly.Bookkeeping
import Dissection.Proofs.Reassembly.Indexed.Representation
import Dissection.Proofs.Reassembly.Indexed.Operation
import Dissection.Proofs.Reassembly.Indexed.Run
import Dissection.Proofs.Reassembly.Indexed.Consistency
import Dissection.Proofs.Reassembly.Indexed.Timeout
import Dissection.Proofs.Reassembly.Indexed.LateFragment
import Dissection.Proofs.Reassembly.Indexed.Duplicate
import Dissection.Proofs.Reassembly.Indexed.Ledger
import Dissection.Proofs.Reassembly.Indexed.Shards
import Dissection.Proofs.Flow.Index
import Dissection.Proofs.Flow.Operation
import Dissection.Proofs.Flow.Entries
import Dissection.Proofs.Flow.Run
import Dissection.Proofs.Flow.Roster
import Dissection.Proofs.Flow.Observed
import Dissection.Proofs.Flow.Identity
import Dissection.Proofs.Flow.Exchanged
import Dissection.Proofs.Flow.Conservation
import Dissection.Proofs.Wire.Checksum
import Dissection.Proofs.Wire.Ethernet
import Dissection.Proofs.Wire.Http
import Dissection.Proofs.Wire.Ipv4
import Dissection.Proofs.Wire.Ipv6
import Dissection.Proofs.Scan.Ipv6Chain
import Dissection.Proofs.Session.Run
import Dissection.Proofs.Session.Indexed
import Dissection.Proofs.Session.Flows
import Dissection.Proofs.Session.Clock
import Dissection.Proofs.Session.IdleFlows
import Dissection.Proofs.Session.Delivery
import Dissection.Proofs.Session.Ipv4Frame
import Dissection.Proofs.Session.Ipv4Datagram
import Dissection.Proofs.Session.Ipv6Frame
import Dissection.Proofs.Session.Ipv6Datagram
import Dissection.Proofs.Session.Captured
import Dissection.Proofs.Registry.Naming
import Dissection.Proofs.Registry.Extension
import Dissection.Proofs.Registry.Repetition
