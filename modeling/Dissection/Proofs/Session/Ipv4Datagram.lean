import Dissection.Proofs.Session.Delivery
import Dissection.Proofs.Session.Ipv4Frame

/-!
# IPv4 datagrams in a capture

The pieces of a datagram come in Ethernet frames, each piece once and in any order. A session that
reassembles IPv4 datagrams reports nothing but their arrival until the last frame, and then the
datagram. A tunnel may bring a piece that is itself a fragment of an inner datagram; such a piece
goes to the inner datagram and the outer one stays incomplete.
-/

namespace Dissection

variable {datagram : Bytes} {cut : Cut datagram} {key : Ipv4.FragmentKey}

/-- The session reassembles IPv4 datagrams: it has an assembler for them that keeps their bytes, and
its scans reach a header behind the one of the link. -/
structure SessionConfig.ReassemblesIpv4 (config : SessionConfig) : Prop where
  assembles : config.assemblesIpv4 = true
  retains : config.assembly.retainPayload = true
  headers : 2 ≤ config.scan.maxHeaders

/-- The frames transfer a datagram in several pieces. Every piece comes once, and no two of them are
further apart than the window. -/
structure Ipv4.Transfer (window : Duration) (frames : List (Ipv4.Frame key cut)) : Prop where
  pieces : 2 ≤ cut.pieces.length
  aligned : cut.Aligned
  once : (frames.map (·.index)).Perm (List.finRange cut.pieces.length)
  near : ∀ early ∈ frames, ∀ late ∈ frames, (late.time.since early.time).nanos ≤ window.nanos

theorem Ipv4.Transfer.schedule {window : Duration} {earlier : List (Ipv4.Frame key cut)}
    {last : Ipv4.Frame key cut} (h : Ipv4.Transfer window (earlier ++ [last])) :
    Schedule window (earlier.map Ipv4.Frame.toArrival ++ [last.toArrival]) := by
  rw [← List.map_singleton (f := Ipv4.Frame.toArrival), ← List.map_append]
  constructor
  · rw [List.map_map]
    exact h.once
  · intro early hearly late hlate
    obtain ⟨a, ha, rfl⟩ := List.mem_map.1 hearly
    obtain ⟨b, hb, rfl⟩ := List.mem_map.1 hlate
    exact h.near a ha b hb

namespace Session

theorem fullConfig_reassemblesIpv4 : fullConfig.ReassemblesIpv4 := ⟨rfl, rfl, by decide⟩

theorem ipv4Fragment?_frame {config : SessionConfig} (hconfig : config.ReassemblesIpv4)
    {window : Duration} {frames : List (Ipv4.Frame key cut)}
    (htransfer : Ipv4.Transfer window frames)
    (hwhole : ∀ frame ∈ frames, frame.header.fragmentOffset = 0 →
      Ipv4.InnerWhole ((overEthernet config).chainOf frame.packet) frame.data) :
    ∀ frame ∈ frames,
      (overEthernet config).ipv4Fragment? frame.packet = some (key, frame.fragment) :=
  fun frame hframe =>
    frame.fragment?_eq htransfer.aligned htransfer.pieces hconfig.headers (hwhole frame hframe)

section Transfer

variable {config : SessionConfig} (hconfig : config.ReassemblesIpv4)
  {earlier : List (Ipv4.Frame key cut)} {last : Ipv4.Frame key cut}
  (htransfer : Ipv4.Transfer config.assembly.window (earlier ++ [last]))
  (hfragments : ∀ frame ∈ earlier ++ [last],
    (overEthernet config).ipv4Fragment? frame.packet = some (key, frame.fragment))

include hconfig htransfer hfragments

theorem earlier_quiet {output : ProcessedPacket}
    (houtput : output ∈ (overEthernet config).outputs (earlier.map Ipv4.Frame.packet)) :
    ∀ event ∈ output.ipv4Events, event.ends key = false :=
  Family.quiet_before_last (ipv4_overEthernet hconfig.assembles) hconfig.retains hfragments
    htransfer.schedule houtput

theorem last_completes :
    ∃ done, (((overEthernet config).after (earlier.map Ipv4.Frame.packet)).process
        last.packet).2.ipv4Events.filter (·.ends key) = [.complete done] ∧
      done.reassemble = some datagram :=
  Family.complete_with_last (ipv4_overEthernet hconfig.assembles) hconfig.retains hfragments
    htransfer.schedule

end Transfer

/-- Over the frames of a transport datagram only its own sequence ends. -/
theorem terminal_of_transport {config : SessionConfig} (hconfig : config.ReassemblesIpv4)
    (hipv4 : key.protocol ≠ Internet.Number.ipv4) (hipv6 : key.protocol ≠ Internet.Number.ipv6)
    {frames : List (Ipv4.Frame key cut)}
    (hfragments : ∀ frame ∈ frames,
      (overEthernet config).ipv4Fragment? frame.packet = some (key, frame.fragment))
    {output : ProcessedPacket}
    (houtput : output ∈ (overEthernet config).outputs (frames.map Ipv4.Frame.packet)) :
    output.fragments.filter (·.isTerminal) =
      (output.ipv4Events.filter (·.ends key)).map .ipv4 := by
  have hnone : ∀ packet ∈ frames.map Ipv4.Frame.packet,
      (overEthernet config).ipv6Fragment? packet = none := by
    intro packet hpacket
    obtain ⟨frame, _, rfl⟩ := List.mem_map.1 hpacket
    exact frame.ipv6Fragment?_eq_none hipv4 hipv6 hconfig.headers
  rw [ipv4_alone (ipv6Idle_overEthernet config) hnone output houtput, List.filter_map]
  exact congrArg (List.map FragmentEvent.ipv4)
    (Family.terminal_of_pieces (ipv4_overEthernet hconfig.assembles) hfragments houtput)

/-- A datagram of a transport protocol is complete with its last frame, and no other event ends a
sequence. -/
theorem transport_delivered {config : SessionConfig} (hconfig : config.ReassemblesIpv4)
    (hipv4 : key.protocol ≠ Internet.Number.ipv4) (hipv6 : key.protocol ≠ Internet.Number.ipv6)
    {earlier : List (Ipv4.Frame key cut)} {last : Ipv4.Frame key cut}
    (htransfer : Ipv4.Transfer config.assembly.window (earlier ++ [last])) :
    let session := overEthernet config
    (∀ output ∈ session.outputs (earlier.map Ipv4.Frame.packet), ∀ event ∈ output.fragments,
        event.isTerminal = false) ∧
      ∃ done, ((session.after (earlier.map Ipv4.Frame.packet)).process
          last.packet).2.fragments.filter (·.isTerminal) = [.ipv4 (.complete done)] ∧
        done.reassemble = some datagram := by
  intro session
  have hfragments := ipv4Fragment?_frame hconfig htransfer
    (fun frame _ _ => frame.innerWhole_of_transport hipv4 hipv6 hconfig.headers)
  -- so it is enough to look at the sequence of the datagram
  have hterminal : ∀ output ∈ session.outputs ((earlier ++ [last]).map Ipv4.Frame.packet),
      output.fragments.filter (·.isTerminal) =
        (output.ipv4Events.filter (·.ends key)).map .ipv4 :=
    fun output houtput => terminal_of_transport hconfig hipv4 hipv6 hfragments houtput
  rw [List.map_append, outputs_append] at hterminal
  constructor
  · intro output houtput
    have hnone : output.ipv4Events.filter (·.ends key) = [] := by
      rw [List.filter_eq_nil_iff]
      intro event hevent
      simp [earlier_quiet hconfig htransfer hfragments houtput event hevent]
    have hquiet := hterminal output (List.mem_append_left _ houtput)
    rw [hnone, List.map_nil, List.filter_eq_nil_iff] at hquiet
    simpa using hquiet
  · obtain ⟨done, hdone, hbytes⟩ := last_completes hconfig htransfer hfragments
    refine ⟨done, ?_, hbytes⟩
    rw [hterminal _ (List.mem_append_right _ List.mem_cons_self), hdone]
    rfl

section Short

/-- A UDP datagram of twelve bytes. -/
def shortCut : Cut [0, 53, 0, 53, 0, 12, 0, 0, 1, 2, 3, 4] where
  pieces := [[0, 53, 0, 53, 0, 12, 0, 0], [1, 2, 3, 4]]
  ne_nil := by decide
  whole := rfl

def shortKey : Ipv4.FragmentKey := ⟨[10, 0, 0, 1], [10, 0, 0, 2], 7, Internet.Number.udp⟩

/-- The first piece of the short datagram, behind a header with options. -/
def shortFirst : Ipv4.Frame shortKey shortCut :=
  .plain ⟨⟨0, by decide⟩, .ofSeconds 5⟩ [148, 4, 0, 0] []
    (Ipv4.Frame.plainHeader_heads rfl rfl (by decide) (by decide) (by decide) (by decide)
      (by decide))

def shortSecond : Ipv4.Frame shortKey shortCut :=
  .plain ⟨⟨1, by decide⟩, .ofSeconds 20⟩ [] (List.replicate 22 0)
    (Ipv4.Frame.plainHeader_heads rfl rfl (by decide) (by decide) (by decide) (by decide)
      (by decide))

/-- The pieces come in reverse. -/
theorem short_transfer : Ipv4.Transfer fullConfig.assembly.window ([shortSecond] ++ [shortFirst]) where
  pieces := by decide
  aligned := by
    unfold Cut.Aligned
    decide
  once := by decide
  near := by decide

theorem short_delivered :
    fullConfig.ReassemblesIpv4 ∧ shortKey.protocol ≠ Internet.Number.ipv4 ∧
      shortKey.protocol ≠ Internet.Number.ipv6 ∧
      Ipv4.Transfer fullConfig.assembly.window ([shortSecond] ++ [shortFirst]) ∧
      ∃ done, (((overEthernet fullConfig).after ([shortSecond].map Ipv4.Frame.packet)).process
          shortFirst.packet).2.fragments.filter (·.isTerminal) = [.ipv4 (.complete done)] ∧
        done.reassemble = some [0, 53, 0, 53, 0, 12, 0, 0, 1, 2, 3, 4] := by
  have hipv4 : shortKey.protocol ≠ Internet.Number.ipv4 := by decide
  have hipv6 : shortKey.protocol ≠ Internet.Number.ipv6 := by decide
  exact ⟨fullConfig_reassemblesIpv4, hipv4, hipv6, short_transfer,
    (transport_delivered fullConfig_reassemblesIpv4 hipv4 hipv6 short_transfer).2⟩

end Short

/-- A datagram is completed once, whatever it carries, provided that no inner IPv4 header that the
scan of its first piece shows belongs to a fragment itself. -/
theorem tunnel_delivered {config : SessionConfig} (hconfig : config.ReassemblesIpv4)
    {frames : List (Ipv4.Frame key cut)}
    (htransfer : Ipv4.Transfer config.assembly.window frames)
    (hwhole : ∀ frame ∈ frames, frame.header.fragmentOffset = 0 →
      Ipv4.InnerWhole ((overEthernet config).chainOf frame.packet) frame.data) :
    ∃ done, (((overEthernet config).outputs (frames.map Ipv4.Frame.packet)).flatMap
        (·.ipv4Events)).filter (·.ends key) = [.complete done] ∧
      done.reassemble = some datagram := by
  have hfragments := ipv4Fragment?_frame hconfig htransfer hwhole
  have hcount := htransfer.once.length_eq
  rw [List.length_map, List.length_finRange] at hcount
  have hpieces := htransfer.pieces
  obtain ⟨earlier, last, rfl⟩ : ∃ earlier last, frames = earlier ++ [last] :=
    ⟨frames.dropLast, frames.getLast (List.ne_nil_of_length_pos (by omega)),
      (List.dropLast_append_getLast _).symm⟩
  obtain ⟨done, hdone, hbytes⟩ := last_completes hconfig htransfer hfragments
  have hquiet : (((overEthernet config).outputs (earlier.map Ipv4.Frame.packet)).flatMap
      (·.ipv4Events)).filter (·.ends key) = [] := by
    rw [List.filter_eq_nil_iff]
    intro event hevent
    obtain ⟨output, houtput, hmem⟩ := List.mem_flatMap.1 hevent
    simp [earlier_quiet hconfig htransfer hfragments houtput event hmem]
  refine ⟨done, ?_, hbytes⟩
  rw [List.map_append, outputs_append, List.flatMap_append, List.filter_append, hquiet,
    List.nil_append, ← hdone]
  simp [outputs]

section Tunnel

def innerHeader (more : Bool) : Ipv4.Header :=
  ⟨4, 5, 0, 0, 28, 9, false, more, 0, 64, Internet.Number.udp, 0, [192, 168, 0, 1],
    [192, 168, 0, 2], []⟩

/-- The first piece has the inner header and half of what is behind it. -/
def tunnelCut (more : Bool) : Cut ((innerHeader more).encode false ++ [0, 53, 0, 53, 0, 8, 0, 0]) where
  pieces := [(innerHeader more).encode false ++ [0, 53, 0, 53], [0, 8, 0, 0]]
  ne_nil := by simp
  whole := by simp

def tunnelKey : Ipv4.FragmentKey := ⟨[172, 16, 0, 1], [172, 16, 0, 2], 153, Internet.Number.ipv4⟩

def tunnelFirst (more : Bool) : Ipv4.Frame tunnelKey (tunnelCut more) :=
  .plain ⟨⟨0, Nat.two_pos⟩, .ofSeconds 1⟩ [] []
    (Ipv4.Frame.plainHeader_heads rfl rfl (by decide) (by decide) (by decide)
      (by cases more <;> decide) (by cases more <;> decide))

def tunnelSecond (more : Bool) : Ipv4.Frame tunnelKey (tunnelCut more) :=
  .plain ⟨⟨1, Nat.one_lt_two⟩, .ofSeconds 1⟩ [] []
    (Ipv4.Frame.plainHeader_heads rfl rfl (by decide) (by decide) (by decide)
      (by cases more <;> decide) (by cases more <;> decide))

def tunnelFrames (more : Bool) : List (Ipv4.Frame tunnelKey (tunnelCut more)) :=
  [tunnelFirst more, tunnelSecond more]

theorem tunnel_transfer (more : Bool) :
    Ipv4.Transfer fullConfig.assembly.window (tunnelFrames more) where
  pieces := of_decide_eq_true rfl
  aligned := by
    unfold Cut.Aligned
    cases more <;> decide
  once := by cases more <;> decide
  near := by cases more <;> decide

theorem headers_tunnelFirst :
    ((overEthernet fullConfig).chainOf (tunnelFirst false).packet).headers =
      [⟨BuiltIn.ethernet.id, 0, 14, 0⟩, ⟨BuiltIn.ipv4.id, 14, 20, 0⟩,
        ⟨BuiltIn.ipv4.id, 34, 20, 1⟩] := by
  decide +kernel

theorem inner_whole :
    ∀ frame ∈ tunnelFrames false, frame.header.fragmentOffset = 0 →
      Ipv4.InnerWhole ((overEthernet fullConfig).chainOf frame.packet) frame.data := by
  intro frame hframe hoffset record hrecord hprotocol hordinal header hheader
  rcases List.mem_cons.1 hframe with rfl | hsecond
  · have hinner : record = ⟨BuiltIn.ipv4.id, 34, 20, 1⟩ := by
      rw [headers_tunnelFirst] at hrecord
      simp only [List.mem_cons, List.not_mem_nil, or_false] at hrecord
      rcases hrecord with rfl | rfl | rfl
      · exact absurd hprotocol (by decide)
      · exact absurd hordinal (by decide)
      · rfl
    have hread : Ipv4.Header.ofView ⟨(tunnelFirst false).data, record⟩ =
        .ok (innerHeader false) := by
      rw [hinner]
      decide +kernel
    rw [hread] at hheader
    rw [← Except.ok.inj hheader]
    rfl
  · rw [List.mem_singleton.1 hsecond] at hoffset
    exact absurd hoffset (by decide)

theorem whole_tunnel_delivered :
    fullConfig.ReassemblesIpv4 ∧
      Ipv4.Transfer fullConfig.assembly.window (tunnelFrames false) ∧
      (∀ frame ∈ tunnelFrames false, frame.header.fragmentOffset = 0 →
        Ipv4.InnerWhole ((overEthernet fullConfig).chainOf frame.packet) frame.data) ∧
      ∃ done, (((overEthernet fullConfig).outputs
          ((tunnelFrames false).map Ipv4.Frame.packet)).flatMap
            (·.ipv4Events)).filter (·.ends tunnelKey) = [.complete done] ∧
        done.reassemble = some ((innerHeader false).encode false ++ [0, 53, 0, 53, 0, 8, 0, 0]) :=
  ⟨fullConfig_reassemblesIpv4, tunnel_transfer false, inner_whole,
    tunnel_delivered fullConfig_reassemblesIpv4 (tunnel_transfer false) inner_whole⟩

/-- The first piece of a tunnel may show an inner header that belongs to a fragment. The piece then
counts for the inner datagram, and the outer one is never completed. -/
theorem nested_fragment_hides_outer :
    fullConfig.ReassemblesIpv4 ∧ tunnelKey.protocol = Internet.Number.ipv4 ∧
      Ipv4.Transfer fullConfig.assembly.window (tunnelFrames true) ∧
      (((overEthernet fullConfig).outputs ((tunnelFrames true).map Ipv4.Frame.packet)).flatMap
        (·.ipv4Events)).filter (·.ends tunnelKey) = [] := by
  refine ⟨fullConfig_reassemblesIpv4, rfl, tunnel_transfer true, ?_⟩
  decide +kernel

end Tunnel

end Session

end Dissection
