import Dissection.Layer.Catalogue
import Dissection.Proofs.Reassembly.Delivery
import Dissection.Proofs.Session.Run
import Mathlib.Data.List.FinRange

/-!
# The pieces of a datagram in a capture

The packets of a capture bring the pieces of one datagram to a new session, each piece once and in
any order. Whatever the family of the fragments, the session reports nothing but their arrival until
the last packet, and then the datagram.
-/

namespace Dissection

variable {datagram : Bytes} {cut : Cut datagram}

/-- Every piece comes once, and no two of them are further apart than the window. -/
structure Schedule (window : Duration) (arrivals : List (Arrival cut)) : Prop where
  once : (arrivals.map Arrival.index).Perm (List.finRange cut.pieces.length)
  near : ∀ early ∈ arrivals, ∀ late ∈ arrivals, (late.time.since early.time).nanos ≤ window.nanos

namespace Schedule

variable {window : Duration} {arrivals : List (Arrival cut)} {last : Arrival cut}

theorem last_missing (h : Schedule window (arrivals ++ [last])) :
    last.index ∉ arrivals.map Arrival.index := by
  have hnodup := h.once.nodup_iff.2 (List.nodup_finRange _)
  rw [List.map_append, List.map_singleton, List.nodup_append] at hnodup
  intro hmem
  exact hnodup.2.2 _ hmem _ List.mem_cons_self rfl

theorem all_arrived (h : Schedule window arrivals) :
    ∀ index, index ∈ arrivals.map Arrival.index :=
  fun index => h.once.mem_iff.2 (List.mem_finRange index)

/-- The clock of a new assembler shows zero, so it is not ahead of any piece. -/
theorem withinWindow (h : Schedule window arrivals) :
    Assembler.WithinWindow window .zero (arrivals.map Arrival.time) := by
  intro early hearly late hlate
  obtain ⟨a, ha, rfl⟩ := List.mem_map.1 hearly
  rcases List.mem_cons.1 hlate with rfl | hlate
  · have hzero : (Timestamp.zero.since a.time).nanos = 0 := by
      simp [Timestamp.since, Duration.ofMicros, Timestamp.zero]
    rw [hzero]
    exact Nat.zero_le _
  · obtain ⟨b, hb, rfl⟩ := List.mem_map.1 hlate
    exact h.near a ha b hb

end Schedule

namespace Session.Family

variable {κ : Type} [DecidableEq κ] {family : Family κ} {session : Session}
  {config : AssemblyConfig} (hnew : family.assembler session = some (.ofConfig config))
  {ι : Type} {packet : ι → Packet} {arrival : ι → Arrival cut} {key : κ}

section Pieces

variable {frames : List ι}
  (hcarried : ∀ frame ∈ frames,
    family.fragment? session (packet frame) = some (key, (arrival frame).fragment))

include hcarried

theorem requests_of_pieces :
    family.requests session (frames.map packet) =
      Assembler.deliveries key (frames.map arrival) := by
  rw [requests_of_fragments hcarried, Assembler.deliveries, List.map_map]
  rfl

include hnew

theorem exists_call_of_pieces {output : ProcessedPacket}
    (houtput : output ∈ session.outputs (frames.map packet)) :
    ∃ call ∈ (Assembler.ofConfig config).calls (Assembler.deliveries key (frames.map arrival)),
      call.events = family.events output := by
  have hcall := exists_call_of_output hnew houtput
  rwa [requests_of_pieces hcarried] at hcall

theorem key_of_pieces {output : ProcessedPacket}
    (houtput : output ∈ session.outputs (frames.map packet)) :
    ∀ event ∈ family.events output, event.key = key := by
  obtain ⟨call, hcall, hevents⟩ := exists_call_of_pieces hnew hcarried houtput
  have hserves : (Assembler.ofConfig config).Serves key := by
    intro sequence hsequence
    cases hsequence
  rw [← hevents]
  exact hserves.key_of_calls (Assembler.distinctKeys_ofConfig _) _ call hcall

/-- Only the sequence of the pieces ends. -/
theorem terminal_of_pieces {output : ProcessedPacket}
    (houtput : output ∈ session.outputs (frames.map packet)) :
    (family.events output).filter (·.isTerminal) = (family.events output).filter (·.ends key) :=
  List.filter_congr fun event hevent =>
    (AssemblyEvent.ends_of_key (key_of_pieces hnew hcarried houtput event hevent)).symm

end Pieces

section Last

variable (hretains : config.retainPayload = true) {earlier : List ι} {last : ι}
  (hcarried : ∀ frame ∈ earlier ++ [last],
    family.fragment? session (packet frame) = some (key, (arrival frame).fragment))
  (hschedule : Schedule config.window (earlier.map arrival ++ [arrival last]))

include hnew hretains hcarried hschedule

theorem quiet_before_last {output : ProcessedPacket}
    (houtput : output ∈ session.outputs (earlier.map packet)) :
    ∀ event ∈ family.events output, event.ends key = false := by
  have hwindow := hschedule.withinWindow
  rw [List.map_append] at hwindow
  obtain ⟨call, hcall, hevents⟩ := exists_call_of_pieces hnew
    (fun frame hframe => hcarried frame (List.mem_append_left _ hframe)) houtput
  rw [← hevents]
  exact Assembler.quiet_while_missing (Assembler.distinctKeys_ofConfig _) rfl hretains
    hwindow.append_left ⟨(arrival last).index, hschedule.last_missing⟩ call hcall

theorem complete_with_last :
    ∃ done, (family.events ((session.after (earlier.map packet)).process
        (packet last)).2).filter (·.ends key) = [.complete done] ∧
      done.reassemble = some datagram := by
  have hopen := assembler_after hnew (earlier.map packet)
  rw [requests_of_pieces
    (fun frame hframe => hcarried frame (List.mem_append_left _ hframe))] at hopen
  have hclosed : (Assembler.ofConfig config : Assembler κ).get? key = none := rfl
  obtain ⟨done, hdone, _, hbytes⟩ := Assembler.completes_with_last
    (Assembler.distinctKeys_ofConfig _) hclosed hretains hschedule.withinWindow
    hschedule.last_missing hschedule.all_arrived
  refine ⟨done, ?_, hbytes⟩
  rw [(process_of_enabled hopen (packet last)).2, request, fragment?_after,
    hcarried last (List.mem_append_right _ List.mem_cons_self)]
  exact hdone

/-- When nothing else is reported of fragments, the last packet ends the one sequence there is, and
no packet before it ends any. -/
theorem delivered
    (halone : ∀ output ∈ session.outputs ((earlier ++ [last]).map packet),
      output.fragments = (family.events output).map family.wrap) :
    (∀ output ∈ session.outputs (earlier.map packet), ∀ event ∈ output.fragments,
        event.isTerminal = false) ∧
      ∃ done, ((session.after (earlier.map packet)).process
          (packet last)).2.fragments.filter (·.isTerminal) = [family.wrap (.complete done)] ∧
        done.reassemble = some datagram := by
  -- only the sequence of the pieces ends
  have hterminal : ∀ output ∈ session.outputs ((earlier ++ [last]).map packet),
      output.fragments.filter (·.isTerminal) =
        ((family.events output).filter (·.ends key)).map family.wrap := by
    intro output houtput
    rw [halone output houtput, List.filter_map, ← terminal_of_pieces hnew hcarried houtput]
    exact congrArg _ (List.filter_congr fun event _ => family.isTerminal_wrap event)
  rw [List.map_append, outputs_append] at hterminal
  constructor
  · intro output houtput
    have hnone : (family.events output).filter (·.ends key) = [] := by
      rw [List.filter_eq_nil_iff]
      intro event hevent
      simp [quiet_before_last hnew hretains hcarried hschedule houtput event hevent]
    have hquiet := hterminal output (List.mem_append_left _ houtput)
    rw [hnone, List.map_nil, List.filter_eq_nil_iff] at hquiet
    simpa using hquiet
  · obtain ⟨done, hdone, hbytes⟩ := complete_with_last hnew hretains hcarried hschedule
    refine ⟨done, ?_, hbytes⟩
    rw [hterminal _ (List.mem_append_right _ List.mem_cons_self), hdone]
    rfl

end Last

end Session.Family

namespace Session

def overEthernet (config : SessionConfig) : Session :=
  .start .builtIn BuiltIn.ethernet.id config

def fullConfig : SessionConfig :=
  { assemblesIpv4 := true, assemblesIpv6 := true, tracksFlows := true }

theorem ipv4_overEthernet {config : SessionConfig} (h : config.assemblesIpv4 = true) :
    ipv4Family.assembler (overEthernet config) = some (.ofConfig config.assembly) := if_pos h

theorem ipv6_overEthernet {config : SessionConfig} (h : config.assemblesIpv6 = true) :
    ipv6Family.assembler (overEthernet config) = some (.ofConfig config.assembly) := if_pos h

theorem ipv4Idle_overEthernet (config : SessionConfig) :
    ipv4Family.Idle (overEthernet config) := by
  intro assembler h
  obtain ⟨_, hnew⟩ := Option.ite_none_right_eq_some.1 h
  rw [← Option.some.inj hnew]

theorem ipv6Idle_overEthernet (config : SessionConfig) :
    ipv6Family.Idle (overEthernet config) := by
  intro assembler h
  obtain ⟨_, hnew⟩ := Option.ite_none_right_eq_some.1 h
  rw [← Option.some.inj hnew]

end Session

end Dissection
