import Dissection.HeaderChain
import Dissection.Layer.Ipv4
import Dissection.Reassembly.Assembler

/-!
# Fragments of IPv4 datagrams

The fragment that a packet carries is the one of its innermost fragmented IPv4 header. The first
fragment of a tunnel shows an inner header that is no fragment; there the outer one counts.
-/

namespace Dissection.Ipv4

/-- What the fragments of one datagram have in common. -/
structure FragmentKey where
  source : Bytes
  destination : Bytes
  identification : Nat
  protocol : Nat
  deriving DecidableEq

def Header.fragmentKey (header : Header) : FragmentKey :=
  ⟨header.source, header.destination, header.identification, header.protocol⟩

/-- The fragment behind a header, unless the datagram is whole. -/
def fragmentOfView? (time : Timestamp) (view : HeaderView) : Option (FragmentKey × Fragment) :=
  match Header.ofView view, datagramPayload view with
  | .ok header, .ok payload =>
    if header.isFragment then
      some (header.fragmentKey,
        .ofPayload header.fragmentStart payload header.moreFragments time)
    else none
  | _, _ => none

def fragment? (chain : HeaderChain) (data : Bytes) (time : Timestamp) :
    Option (FragmentKey × Fragment) :=
  (chain.records.filter (fun record => record.protocol = BuiltIn.ipv4.id)).reverse.findSome?
    (fun record => (record.view? data).bind (fragmentOfView? time))

end Dissection.Ipv4
