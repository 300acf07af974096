import Dissection.Proofs.Flow.Entries
import Dissection.Proofs.Session.Flows
import Dissection.Proofs.Wire.Ethernet
import Dissection.Proofs.Wire.Ipv4
import Dissection.Layer.Catalogue

/-!
# Flows that are idle for too long

A packet is accounted to its flow before the idle flows are removed. So whether a flow has ended is
decided by the clock before its next packet comes: a flow goes on with that packet unless an earlier
packet, of whatever flow, has shown that it was idle for too long. The packets of one key form
lifetimes, one for each flow that was reported or is in the table, and within a lifetime no packet
finds the clock further ahead of the packet before than the timeout. The packet itself may come much
later.
-/

namespace Dissection

structure Sighting where
  /-- The clock when the packet came. -/
  before : Timestamp
  /-- The clock when the packet was accounted. -/
  time : Timestamp

/-- The flow is what the packets have made of it, none of which came when the flow was known to have
been idle for longer than the limit. -/
structure Accumulates (limit : Duration) (sightings : List Sighting) (flow : Flow) : Prop where
  first : sightings.head?.map Sighting.time = some flow.entry.firstSeen
  last : sightings.getLast?.map Sighting.time = some flow.entry.lastSeen
  count : flow.entry.packetCount = sightings.length
  unbroken : sightings.IsChain (fun a b => (b.before.since a.time).nanos ≤ limit.nanos)

theorem accumulates_start (limit : Duration) (sighting : Sighting) (key : FlowKey)
    (bytes serial : Nat) :
    Accumulates limit [sighting] ⟨key, .start key.direction sighting.time bytes, serial⟩ :=
  ⟨rfl, rfl, rfl, .singleton _⟩

theorem Accumulates.record {limit : Duration} {sightings : List Sighting} {flow : Flow}
    (h : Accumulates limit sightings flow) (next : Sighting)
    (hrecent : (next.before.since flow.entry.lastSeen).nanos ≤ limit.nanos)
    (hlater : flow.entry.lastSeen ≤ next.time) (direction : FlowDirection) (bytes : Nat) :
    Accumulates limit (sightings ++ [next]) (flow.record direction next.time bytes) := by
  obtain ⟨latest, hlatest, htime⟩ := Option.map_eq_some_iff.1 h.last
  obtain ⟨earliest, hearliest, hfirst⟩ := Option.map_eq_some_iff.1 h.first
  constructor
  · rw [List.head?_append, hearliest, Flow.record, FlowEntry.firstSeen_record, ← hfirst]
    rfl
  · rw [List.getLast?_concat, Flow.record, FlowEntry.lastSeen_record,
      Timestamp.max_eq_right hlater]
    rfl
  · rw [Flow.record, FlowEntry.packetCount_record, h.count, List.length_append]
    rfl
  · refine List.isChain_append.2 ⟨h.unbroken, .singleton _, ?_⟩
    intro a ha b hb
    rw [hlatest] at ha
    cases ha
    cases hb
    rw [htime]
    exact hrecent

namespace Session

def sighting? (session : Session) (key : FlowKey) (packet : Packet) : Option Sighting :=
  if (session.flowKey? packet).any (fun found => decide (found.identity = key.identity)) then
    some ⟨session.now, session.timeOf packet⟩
  else none

def sightings (session : Session) (key : FlowKey) : List Packet → List Sighting
  | [] => []
  | packet :: rest =>
    (session.sighting? key packet).toList ++ (session.process packet).1.sightings key rest

theorem sightings_concat (session : Session) (key : FlowKey) (packets : List Packet)
    (last : Packet) :
    session.sightings key (packets ++ [last]) =
      session.sightings key packets ++ ((session.after packets).sighting? key last).toList := by
  induction packets generalizing session with
  | nil => simp [sightings, after]
  | cons packet rest ih =>
    simp only [List.cons_append, sightings, after, ih, List.append_assoc]

def endedFlows (key : FlowKey) (outputs : List ProcessedPacket) : List Flow :=
  (outputs.flatMap ProcessedPacket.expiredFlows).filter (FlowTable.isFlowOf key)

theorem endedFlows_concat (key : FlowKey) (outputs : List ProcessedPacket)
    (last : ProcessedPacket) :
    endedFlows key (outputs ++ [last]) =
      endedFlows key outputs ++ last.expiredFlows.filter (FlowTable.isFlowOf key) := by
  rw [endedFlows, List.flatMap_append, List.filter_append, List.flatMap_singleton]
  rfl

/-- The flow of a key after a packet, wherever it is, is the flow that was accounted. -/
theorem entriesOf_flowOperations {table : FlowTable} (h : table.Indexed) (key : FlowKey)
    (found : Option FlowKey) (now : Timestamp) (bytes : Nat) :
    FlowTable.entriesOf key (table.after (flowOperations found now bytes),
        (table.returned (flowOperations found now bytes)).flatten) =
      match found with
      | none => (table.find? key).toList
      | some other => FlowTable.entriesOf key
          ((table.account other now bytes).1, (table.account other now bytes).2.toList) := by
  cases found with
  | none =>
    rw [← h.entriesOf_expire key now]
    simp [flowOperations, FlowTable.after, FlowTable.returned, FlowTable.apply]
  | some other =>
    have haccounted := h.account other now bytes
    have hexpired := haccounted.entriesOf_expire key now
    rw [← haccounted.filter_isFlowOf key] at hexpired
    simp only
    rw [FlowTable.entriesOf, FlowTable.entriesOf, ← hexpired]
    simp [flowOperations, FlowTable.after, FlowTable.returned, FlowTable.apply,
      FlowTable.entriesOf]

section Step

variable {config : SessionConfig} {session : Session} {table : FlowTable}
  (h : session.Tracks config table) {key : FlowKey}

include h

/-- A packet of the key goes on with the flow in the table, or opens a lifetime. Any other packet
leaves the lifetimes as they are. -/
theorem Tracks.lifetimes_step {lifetimes : List (List Sighting)} {ended : List Flow}
    (hlifetimes : List.Forall₂ (Accumulates config.flowIdleTimeout) lifetimes
      (ended ++ (table.find? key).toList)) (packet : Packet) :
    ∃ next : List (List Sighting),
      next.flatten = lifetimes.flatten ++ (session.sighting? key packet).toList ∧
        List.Forall₂ (Accumulates config.flowIdleTimeout) next
          (ended ++ FlowTable.entriesOf key (table.after (session.flowRequests packet),
            (table.returned (session.flowRequests packet)).flatten)) := by
  rw [flowRequests, entriesOf_flowOperations h.indexed]
  cases hfound : session.flowKey? packet with
  | none =>
    refine ⟨lifetimes, ?_, hlifetimes⟩
    simp [sighting?, hfound]
  | some other =>
    by_cases hsame : other.identity = key.identity
    · have hseen : session.sighting? key packet = some ⟨session.now, session.timeOf packet⟩ := by
        simp [sighting?, hfound, hsame]
      simp only [hseen, ← FlowTable.entriesOf_congr hsame]
      rw [← table.find?_congr hsame] at hlifetimes
      cases hknown : table.find? other with
      | some flow =>
        rw [hknown] at hlifetimes
        obtain ⟨earlier, latest, rfl, hearlier, hlatest⟩ := forall₂_concat hlifetimes
        have hflow := (h.indexed.find?_eq_some_iff.1 hknown).1
        have hrecent := isExpired_eq_false_iff.1 (h.recent flow hflow)
        have hlater : flow.entry.lastSeen ≤ session.timeOf packet :=
          Nat.le_trans (h.seen_by_now flow hflow) (Timestamp.le_max_left _ _)
        have hgrown : Accumulates config.flowIdleTimeout
            (latest ++ [⟨session.now, session.timeOf packet⟩])
            (flow.record other.direction (session.timeOf packet) packet.size) :=
          hlatest.record ⟨session.now, session.timeOf packet⟩ hrecent hlater _ _
        rw [h.indexed.entriesOf_known _ _ hknown]
        refine ⟨earlier ++ [latest ++ [⟨session.now, session.timeOf packet⟩]], ?_, ?_⟩
        · simp
        · exact List.rel_append hearlier (.cons hgrown .nil)
      | none =>
        rw [hknown, Option.toList_none, List.append_nil] at hlifetimes
        rw [h.indexed.entriesOf_new _ _ hknown]
        refine ⟨lifetimes ++ [[⟨session.now, session.timeOf packet⟩]], ?_, ?_⟩
        · simp
        · exact List.rel_append hlifetimes
            (.cons (accumulates_start _ ⟨session.now, session.timeOf packet⟩ _ _ _) .nil)
    · refine ⟨lifetimes, ?_, ?_⟩
      · simp [sighting?, hfound, hsame]
      · simp only
        rw [h.indexed.entriesOf_other _ _ hsame]
        exact hlifetimes

end Step

/-- The packets of a key form lifetimes, in the order in which they came: one for every flow of the
key that was reported to have ended, and one for the flow in the table. No packet of a lifetime came
when the clock was ahead of the packet before by more than the timeout. -/
theorem lifetimes_of_flow (registry : FrozenRegistry) (root : ProtocolId) {config : SessionConfig}
    (htracks : config.tracksFlows = true) (packets : List Packet) (key : FlowKey) :
    let session := start registry root config
    ∃ table lifetimes, (session.after packets).flows = some table ∧
      lifetimes.flatten = session.sightings key packets ∧
      List.Forall₂ (Accumulates config.flowIdleTimeout) lifetimes
        (endedFlows key (session.outputs packets) ++ (table.find? key).toList) := by
  intro session
  induction packets using List.reverseRecOn with
  | nil =>
    refine ⟨.ofLimits config.maxFlows config.flowIdleTimeout, [], ?_, rfl, .nil⟩
    exact if_pos htracks
  | append_singleton packets last ih =>
    obtain ⟨table, lifetimes, htable, hsightings, hlifetimes⟩ := ih
    have hkept := (tracksIn_start registry root config).after packets table htable
    obtain ⟨next, hflatten, hnext⟩ := hkept.lifetimes_step hlifetimes last
    obtain ⟨hflows, hexpired⟩ := flows_process_of_some htable last
    have hindexed := (hkept.after last).indexed
    refine ⟨table.after ((session.after packets).flowRequests last), next, ?_, ?_, ?_⟩
    · rw [after_concat]
      exact hflows
    · rw [hflatten, hsightings, sightings_concat]
    · have houtputs : session.outputs (packets ++ [last]) =
          session.outputs packets ++ [((session.after packets).process last).2] :=
        session.outputs_append packets [last]
      rw [houtputs, endedFlows_concat, hexpired, ← hindexed.filter_isFlowOf key, List.append_assoc]
      exact hnext

section Resumed

/-- A capture whose flows end after two minutes. -/
def resuming : Session := start .builtIn BuiltIn.ethernet.id { tracksFlows := true }

def resumingLink : Ethernet.Header := ⟨⟨[2, 0, 0, 0, 0, 2]⟩, ⟨[2, 0, 0, 0, 0, 1]⟩, EtherType.ipv4⟩

def resumingHeader : Ipv4.Header :=
  ⟨4, 5, 0, 0, 28, 7, false, false, 0, 64, Internet.Number.udp, 0, [10, 0, 0, 1], [10, 0, 0, 2], []⟩

def resumingPacket (time : Timestamp) : Packet where
  data := resumingLink.encode ++ (resumingHeader.encode false ++ [0, 53, 0, 53, 0, 8, 0, 0])
  timestamp := time

/-- The second packet of the flow comes after more than three minutes. -/
def resumed : List Packet := [resumingPacket .zero, resumingPacket (.ofSeconds 200)]

theorem resumed_lifetimes :
    ({ tracksFlows := true } : SessionConfig).tracksFlows = true ∧
      ∃ key, (resuming.flowKey? (resumingPacket .zero)) = some key ∧
        ∃ table lifetimes, (resuming.after resumed).flows = some table ∧
          lifetimes.flatten = resuming.sightings key resumed ∧
          List.Forall₂ (Accumulates (.ofSeconds 120)) lifetimes
            (endedFlows key (resuming.outputs resumed) ++ (table.find? key).toList) := by
  have hsome : (resuming.flowKey? (resumingPacket .zero)).isSome = true := by decide +kernel
  obtain ⟨key, hkey⟩ := Option.isSome_iff_exists.1 hsome
  exact ⟨rfl, key, hkey, lifetimes_of_flow .builtIn BuiltIn.ethernet.id rfl resumed key⟩

/-- No packet has come in between, so the flow goes on: the table has one flow with both packets,
which are further apart than the timeout, and none was reported to have ended. -/
theorem resumed_goes_on :
    (resuming.outputs resumed).map ProcessedPacket.expiredFlows = [[], []] ∧
      (resuming.after resumed).flows.map (fun table => table.flows.map (fun flow =>
          (flow.entry.firstSeen, flow.entry.lastSeen, flow.entry.packetCount))) =
        some [(.zero, .ofSeconds 200, 2)] ∧
      (Duration.ofSeconds 120).nanos <
        ((Timestamp.ofSeconds 200).since Timestamp.zero).nanos := by
  decide +kernel

end Resumed

end Session

end Dissection
