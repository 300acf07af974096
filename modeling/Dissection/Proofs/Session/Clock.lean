import Dissection.Proofs.Reassembly.Order
import Dissection.Proofs.Session.Flows

/-!
# One clock

The clock of a session is the greatest timestamp of the packets so far. Both assemblers follow it,
whether a packet brings them a fragment or not, and after every packet nothing is kept that has been
idle for longer than it may be at that time. The only exception is a sequence that the packet itself
has opened with an old timestamp.
-/

namespace Dissection

namespace Session

theorem now_after (registry : FrozenRegistry) (root : ProtocolId) (config : SessionConfig)
    (packets : List Packet) :
    let now := ((start registry root config).after packets).now
    (packets = [] ∧ now = .zero ∨ ∃ packet ∈ packets, packet.timestamp = now) ∧
      ∀ packet ∈ packets, packet.timestamp ≤ now := by
  induction packets using List.reverseRecOn with
  | nil => exact ⟨.inl ⟨rfl, rfl⟩, fun _ h => nomatch h⟩
  | append_singleton packets last ih =>
    obtain ⟨hsource, hbound⟩ := ih
    simp only [after_concat, now_process]
    refine ⟨.inr ?_, ?_⟩
    · rcases Timestamp.max_eq_or ((start registry root config).after packets).now
        last.timestamp with hmax | hmax
      · rw [hmax]
        rcases hsource with ⟨rfl, hzero⟩ | ⟨packet, hpacket, htime⟩
        · -- a clock that has not moved from zero shows the time of the first packet
          refine ⟨last, List.mem_append_right _ List.mem_cons_self, Timestamp.ext ?_⟩
          have hle := Timestamp.le_max_right
            ((start registry root config).after []).now last.timestamp
          rw [hmax, hzero] at hle
          rw [hzero]
          exact Nat.le_antisymm hle (Nat.zero_le _)
        · exact ⟨packet, List.mem_append_left _ hpacket, htime⟩
      · exact ⟨last, List.mem_append_right _ List.mem_cons_self, hmax.symm⟩
    · intro packet hpacket
      rcases List.mem_append.1 hpacket with hmem | hmem
      · exact Nat.le_trans (hbound packet hmem) (Timestamp.le_max_left _ _)
      · rw [List.mem_singleton.1 hmem]
        exact Timestamp.le_max_right _ _

namespace Family

variable {κ : Type} [DecidableEq κ]

/-- Fragments of the family carry the timestamps of their packets. -/
def Stamps (family : Family κ) : Prop :=
  ∀ session packet key fragment, family.fragment? session packet = some (key, fragment) →
    fragment.timestamp = packet.timestamp

end Family

theorem ipv4Family_stamps : ipv4Family.Stamps := by
  intro session packet key fragment h
  obtain ⟨record, _, hrecord⟩ := List.exists_of_findSome?_eq_some h
  obtain ⟨view, _, hview⟩ := Option.bind_eq_some_iff.1 hrecord
  unfold Ipv4.fragmentOfView? at hview
  split at hview
  · split at hview
    · cases hview
      rfl
    · cases hview
  · cases hview

theorem ipv6Family_stamps : ipv6Family.Stamps := by
  intro session packet key fragment h
  change Ipv6.fragment? _ _ _ = _ at h
  simp only [Ipv6.fragment?, Option.bind_eq_bind, Option.bind_eq_some_iff] at h
  obtain ⟨_, _, _, _, _, _, _, _, _, _, hfragment⟩ := h
  cases hfragment
  rfl

namespace Family

variable {κ : Type} [DecidableEq κ] {family : Family κ} {config : AssemblyConfig}
  {session : Session}

/-- The assembler of the family has the time of the session. -/
def InStep (family : Family κ) (config : AssemblyConfig) (session : Session) : Prop :=
  ∀ assembler, family.assembler session = some assembler →
    assembler.Regular ∧ assembler.now = session.now ∧ assembler.config = config

theorem isSome_assembler_process (family : Family κ) (session : Session) (packet : Packet) :
    (family.assembler (session.process packet).1).isSome =
      (family.assembler session).isSome := by
  rw [family.assembler_process]
  cases family.assembler session <;> rfl

theorem isSome_assembler_after (family : Family κ) (session : Session) (packets : List Packet) :
    (family.assembler (session.after packets)).isSome = (family.assembler session).isSome := by
  induction packets generalizing session with
  | nil => rfl
  | cons packet rest ih => rw [after, ih, isSome_assembler_process]

section Packet

variable (hstamps : family.Stamps) (h : family.InStep config session) (packet : Packet)

include hstamps h

theorem now_request {assembler : Assembler κ}
    (henabled : family.assembler session = some assembler) :
    (assembler.apply (family.request session packet)).1.now =
      max session.now packet.timestamp := by
  obtain ⟨_, hnow, _⟩ := h assembler henabled
  unfold Family.request Session.request
  split
  · next key fragment hfragment =>
    rw [Assembler.apply, Assembler.now_insert, hnow, hstamps _ _ _ _ hfragment]
  · rw [Assembler.apply, Assembler.now_advance, hnow]
    exact Timestamp.ext (by simp [timeOf, now])

theorem InStep.process : family.InStep config (session.process packet).1 := by
  intro next hnext
  cases henabled : family.assembler session with
  | none =>
    have hsome := family.isSome_assembler_process session packet
    rw [hnext, henabled] at hsome
    cases hsome
  | some assembler =>
    obtain ⟨hregular, _, hconfig⟩ := h assembler henabled
    obtain rfl := Option.some.inj ((process_of_enabled henabled packet).1.symm.trans hnext)
    refine ⟨hregular.apply _, ?_, (Assembler.config_apply _ _).trans hconfig⟩
    rw [now_request hstamps h packet henabled, now_process]

end Packet

theorem InStep.after (hstamps : family.Stamps) (h : family.InStep config session)
    (packets : List Packet) : family.InStep config (session.after packets) := by
  induction packets generalizing session with
  | nil => exact h
  | cons packet rest ih => exact ih (h.process hstamps packet)

/-- The assembler of the family after a packet has the time of the session, and no sequence has been
idle for longer than the window, unless the packet opened it with a timestamp that is as old. -/
structure Current (family : Family κ) (window : Duration) (packet : Packet)
    (result : Session × ProcessedPacket) : Prop where
  now_eq : ∀ assembler, family.assembler result.1 = some assembler →
    assembler.now = result.1.now
  recent : ∀ assembler, family.assembler result.1 = some assembler →
    ∀ sequence ∈ assembler.sequences,
      (result.1.now.since sequence.lastFragmentAt).nanos ≤ window.nanos ∨
        .sequenceStart sequence.key packet.timestamp ∈ family.events result.2 ∧
          sequence.firstFragmentAt = packet.timestamp ∧
          sequence.lastFragmentAt = packet.timestamp ∧
          window.nanos < (result.1.now.since packet.timestamp).nanos

/-- What stays open after a packet is recent, or the packet has opened it. -/
theorem current_or_opened (hstamps : family.Stamps) (h : family.InStep config session)
    (packet : Packet) {assembler : Assembler κ}
    (henabled : family.assembler session = some assembler) {sequence : FragmentSequence κ}
    (hsequence : sequence ∈ (assembler.apply (family.request session packet)).1.sequences) :
    Idle.isOverdue (max session.now packet.timestamp) config.window sequence = false ∨
      .sequenceStart sequence.key packet.timestamp ∈
          (assembler.apply (family.request session packet)).2 ∧
        sequence.firstFragmentAt = packet.timestamp ∧
        sequence.lastFragmentAt = packet.timestamp := by
  obtain ⟨hregular, _, rfl⟩ := h assembler henabled
  have htime := now_request hstamps h packet henabled
  unfold Family.request Session.request at hsequence htime ⊢
  cases hfragment : family.fragment? session packet with
  | some keyed =>
    obtain ⟨key, fragment⟩ := keyed
    rw [hfragment] at hsequence htime
    rw [Assembler.apply, Assembler.now_insert] at htime
    rw [← htime, ← hstamps _ _ _ _ hfragment]
    exact hregular.current_insert hsequence
  | none =>
    rw [hfragment] at hsequence htime
    rw [Assembler.apply, Assembler.now_advance] at htime
    rw [← htime]
    exact .inl (hregular.current_advance _ hsequence)

theorem InStep.current (hstamps : family.Stamps) (h : family.InStep config session)
    (packet : Packet) : family.Current config.window packet (session.process packet) := by
  have hnext := h.process hstamps packet
  refine ⟨fun assembler henabled => (hnext assembler henabled).2.1, ?_⟩
  intro next henabled sequence hsequence
  cases hbefore : family.assembler session with
  | none =>
    have hsome := family.isSome_assembler_process session packet
    rw [henabled, hbefore] at hsome
    cases hsome
  | some assembler =>
    obtain ⟨hassembler, hevents⟩ := process_of_enabled hbefore packet
    obtain rfl := Option.some.inj (hassembler.symm.trans henabled)
    rw [now_process, hevents]
    by_cases hrecent : Idle.isOverdue (max session.now packet.timestamp) config.window sequence =
        false
    · exact .inl (isExpired_eq_false_iff.1 hrecent)
    · obtain ⟨hstart, hfirst, hlast⟩ :=
        (current_or_opened hstamps h packet hbefore hsequence).resolve_left hrecent
      have hold : ¬ ((max session.now packet.timestamp).since sequence.lastFragmentAt).nanos ≤
          config.window.nanos := fun hle => hrecent (isExpired_eq_false_iff.2 hle)
      rw [hlast, Nat.not_le] at hold
      exact .inr ⟨hstart, hfirst, hlast, hold⟩

/-- An assembler that may be switched off starts in step. -/
theorem inStep_of_switch {enabled : Bool} (hzero : session.now = .zero)
    (h : family.assembler session =
      if enabled then some (Assembler.ofConfig config) else none) :
    (family.assembler session).isSome = enabled ∧ family.InStep config session := by
  cases enabled with
  | false =>
    have hnone : family.assembler session = none := h
    refine ⟨by rw [hnone]; rfl, ?_⟩
    intro assembler henabled
    rw [hnone] at henabled
    cases henabled
  | true =>
    have hsome : family.assembler session = some (Assembler.ofConfig config) := h
    refine ⟨by rw [hsome]; rfl, ?_⟩
    intro assembler henabled
    obtain rfl := Option.some.inj (hsome.symm.trans henabled)
    exact ⟨Assembler.regular_ofConfig config, hzero.symm, rfl⟩

end Family

theorem ipv4_start (registry : FrozenRegistry) (root : ProtocolId) (config : SessionConfig) :
    ipv4Family.assembler (start registry root config) =
      if config.assemblesIpv4 then some (Assembler.ofConfig config.assembly) else none := rfl

theorem ipv6_start (registry : FrozenRegistry) (root : ProtocolId) (config : SessionConfig) :
    ipv6Family.assembler (start registry root config) =
      if config.assemblesIpv6 then some (Assembler.ofConfig config.assembly) else none := rfl

/-- After every packet the session has the greatest timestamp so far, and so has every assembler
that is switched on. Neither the assemblers nor the flow table keep anything that has been idle for
too long at that time, but for a sequence that the packet has opened with an old timestamp. -/
theorem nothing_stale (registry : FrozenRegistry) (root : ProtocolId) (config : SessionConfig)
    (packets : List Packet) (packet : Packet) :
    let result := ((start registry root config).after packets).process packet
    ((∃ seen ∈ packets ++ [packet], seen.timestamp = result.1.now) ∧
        ∀ seen ∈ packets ++ [packet], seen.timestamp ≤ result.1.now) ∧
      ((ipv4Family.assembler result.1).isSome = config.assemblesIpv4 ∧
        ipv4Family.Current config.assembly.window packet result) ∧
      ((ipv6Family.assembler result.1).isSome = config.assemblesIpv6 ∧
        ipv6Family.Current config.assembly.window packet result) ∧
      result.1.flows.isSome = config.tracksFlows ∧
      ∀ table, result.1.flows = some table → ∀ flow ∈ table.flows,
        (result.1.now.since flow.entry.lastSeen).nanos ≤ config.flowIdleTimeout.nanos := by
  intro result
  have hclock := now_after registry root config (packets ++ [packet])
  rw [after_concat] at hclock
  obtain ⟨hsome4, hstart4⟩ := Family.inStep_of_switch rfl (ipv4_start registry root config)
  obtain ⟨hsome6, hstart6⟩ := Family.inStep_of_switch rfl (ipv6_start registry root config)
  have hipv4 := hstart4.after ipv4Family_stamps packets
  have hipv6 := hstart6.after ipv6Family_stamps packets
  have htracks := (tracksIn_start registry root config).after packets
  refine ⟨⟨?_, hclock.2⟩, ⟨?_, hipv4.current ipv4Family_stamps packet⟩,
    ⟨?_, hipv6.current ipv6Family_stamps packet⟩, ?_, ?_⟩
  · rcases hclock.1 with ⟨hempty, _⟩ | hsource
    · exact absurd hempty (List.append_ne_nil_of_right_ne_nil packets (List.cons_ne_nil _ _))
    · exact hsource
  · rw [Family.isSome_assembler_process, Family.isSome_assembler_after, hsome4]
  · rw [Family.isSome_assembler_process, Family.isSome_assembler_after, hsome6]
  · rw [flows_process, Option.isSome_map, isSome_flows_after, flows_start]
    cases config.tracksFlows <;> rfl
  · intro table htable flow hflow
    have hrecent := ((htracks.process packet) table htable).recent flow hflow
    exact isExpired_eq_false_iff.1 hrecent

end Session

end Dissection
