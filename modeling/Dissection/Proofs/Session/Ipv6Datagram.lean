import Dissection.Proofs.Session.Delivery
import Dissection.Proofs.Session.Ipv6Frame

/-!
# IPv6 datagrams in a capture

The pieces of a datagram come in Ethernet frames, each piece once and in any order. A session that
reassembles IPv6 datagrams reports nothing but their arrival until the last frame, and then the
datagram. A fragment header in front of a whole datagram is no exception: one frame completes it.
-/

namespace Dissection

variable {datagram : Bytes} {cut : Cut datagram} {key : Ipv6.FragmentKey}

/-- The session reassembles IPv6 datagrams: it has an assembler for them that keeps their bytes, and
its scans reach the fragment header. -/
structure SessionConfig.ReassemblesIpv6 (config : SessionConfig) : Prop where
  assembles : config.assemblesIpv6 = true
  retains : config.assembly.retainPayload = true
  headers : 3 ≤ config.scan.maxHeaders

/-- The frames transfer a datagram in one or more pieces. -/
structure Ipv6.Transfer (window : Duration) (frames : List (Ipv6.Frame key cut)) : Prop where
  aligned : cut.Aligned
  schedule : Schedule window (frames.map Ipv6.Frame.toArrival)

namespace Session

theorem fullConfig_reassemblesIpv6 : fullConfig.ReassemblesIpv6 := ⟨rfl, rfl, by decide⟩

/-- A datagram is complete with its last frame, whatever it carries, and no other event ends a
sequence. -/
theorem ipv6_delivered {config : SessionConfig} (hconfig : config.ReassemblesIpv6)
    {earlier : List (Ipv6.Frame key cut)} {last : Ipv6.Frame key cut}
    (htransfer : Ipv6.Transfer config.assembly.window (earlier ++ [last])) :
    let session := overEthernet config
    (∀ output ∈ session.outputs (earlier.map Ipv6.Frame.packet), ∀ event ∈ output.fragments,
        event.isTerminal = false) ∧
      ∃ done, ((session.after (earlier.map Ipv6.Frame.packet)).process
          last.packet).2.fragments.filter (·.isTerminal) = [.ipv6 (.complete done)] ∧
        done.reassemble = some datagram := by
  intro session
  have hcarried : ∀ frame ∈ earlier ++ [last],
      ipv6Family.fragment? session frame.packet = some (key, frame.fragment) :=
    fun frame _ => frame.fragment?_eq hconfig.headers htransfer.aligned
  have hnone : ∀ packet ∈ (earlier ++ [last]).map Ipv6.Frame.packet,
      session.ipv4Fragment? packet = none := by
    intro packet hpacket
    obtain ⟨frame, _, rfl⟩ := List.mem_map.1 hpacket
    exact frame.ipv4Fragment?_eq_none hconfig.headers
  have hschedule := htransfer.schedule
  rw [List.map_append] at hschedule
  exact Family.delivered (ipv6_overEthernet hconfig.assembles) hconfig.retains hcarried hschedule
    (ipv6_alone (ipv4Idle_overEthernet config) hnone)

section Wide

def wideCut : Cut [0, 53, 0, 53, 0, 20, 0, 0, 1, 2, 3, 4, 5, 6, 7, 8, 9, 10, 11, 12] where
  pieces := [[0, 53, 0, 53, 0, 20, 0, 0], [1, 2, 3, 4, 5, 6, 7, 8], [9, 10, 11, 12]]
  ne_nil := by decide
  whole := rfl

def wideKey : Ipv6.FragmentKey :=
  ⟨List.replicate 15 0 ++ [1], List.replicate 15 0 ++ [2], 7⟩

def wideFrame (index : Fin 3) (seconds : Nat) (reserved : Fin 4) (padding : Bytes) :
    Ipv6.Frame wideKey wideCut :=
  .plain ⟨index, .ofSeconds seconds⟩ Internet.Number.udp reserved padding
    (Ipv6.Frame.plain_heads _ rfl rfl (by decide) (by decide) (by decide))

/-- The last piece comes first, with padding behind it. -/
def wideEarlier : List (Ipv6.Frame wideKey wideCut) :=
  [wideFrame 2 20 0 [0, 0], wideFrame 0 5 3 []]

theorem wide_transfer :
    Ipv6.Transfer fullConfig.assembly.window (wideEarlier ++ [wideFrame 1 7 1 []]) where
  aligned := by
    unfold Cut.Aligned
    decide
  schedule := ⟨by decide, by decide⟩

theorem wide_delivered :
    fullConfig.ReassemblesIpv6 ∧
      Ipv6.Transfer fullConfig.assembly.window (wideEarlier ++ [wideFrame 1 7 1 []]) ∧
      ∃ done, (((overEthernet fullConfig).after (wideEarlier.map Ipv6.Frame.packet)).process
          (wideFrame 1 7 1 []).packet).2.fragments.filter (·.isTerminal) =
            [.ipv6 (.complete done)] ∧
        done.reassemble =
          some [0, 53, 0, 53, 0, 20, 0, 0, 1, 2, 3, 4, 5, 6, 7, 8, 9, 10, 11, 12] :=
  ⟨fullConfig_reassemblesIpv6, wide_transfer,
    (ipv6_delivered fullConfig_reassemblesIpv6 wide_transfer).2⟩

end Wide

end Session

end Dissection
