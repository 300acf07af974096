import Dissection.HeaderChain
import Dissection.Layer.Ipv6
import Dissection.Layer.Ipv6Fragment
import Dissection.Reassembly.Assembler

/-!
# Fragments of IPv6 datagrams

The fragment that a packet carries is described by its innermost fragment header and the innermost
IPv6 header in front of that.
-/

namespace Dissection.Ipv6

structure FragmentKey where
  source : Bytes
  destination : Bytes
  identification : Nat
  deriving DecidableEq

/-- The innermost fragment header of a chain and the IPv6 header it belongs to. -/
def fragmentRecords? (chain : HeaderChain) : Option (HeaderRecord × HeaderRecord) := do
  let inward := chain.records.reverse
  let fragment ← inward.find? (fun record => record.protocol = BuiltIn.ipv6Fragment.id)
  let datagram ← inward.find? (fun record =>
    record.protocol = BuiltIn.ipv6.id ∧ record.stop ≤ fragment.offset)
  return (fragment, datagram)

/-- The bytes after a fragment header that belong to the datagram. -/
def fragmentPayload (data : Bytes) (fragment datagram : HeaderRecord) (payloadLength : Nat) :
    Bytes :=
  (data.drop fragment.stop).take (min (datagram.stop + payloadLength) data.length - fragment.stop)

def fragment? (chain : HeaderChain) (data : Bytes) (time : Timestamp) :
    Option (FragmentKey × Fragment) := do
  let (fragmentRecord, datagramRecord) ← fragmentRecords? chain
  let datagram ← (Header.ofView (← datagramRecord.view? data)).toOption
  let fragment ← (Ipv6Fragment.Header.ofView (← fragmentRecord.view? data)).toOption
  let payload := fragmentPayload data fragmentRecord datagramRecord datagram.payloadLength
  return (⟨datagram.source, datagram.destination, fragment.identification⟩,
    .ofPayload fragment.fragmentStart payload fragment.moreFragments time)

end Dissection.Ipv6
