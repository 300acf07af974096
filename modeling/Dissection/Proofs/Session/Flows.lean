import Dissection.Proofs.Flow.Run
import Dissection.Proofs.Session.Run

/-!
# The flow table of a session

To the flow table a packet is one or two operations: it is accounted to its flow, if it has one,
and then the flows that are idle for too long are removed. So over a capture the table does what a
run of those operations does.
-/

namespace Dissection

namespace Session

def flowKey? (session : Session) (packet : Packet) : Option FlowKey :=
  session.registry.flowKey? (session.chainOf packet) packet.data

/-- What a packet with the given flow key asks of a flow table. -/
def flowOperations (key : Option FlowKey) (now : Timestamp) (bytes : Nat) : List FlowOperation :=
  key.toList.map (.account · now bytes) ++ [.expire now]

theorem accountFlow_eq (table : FlowTable) (key : Option FlowKey) (now : Timestamp) (bytes : Nat) :
    accountFlow table key now bytes =
      (table.after (flowOperations key now bytes),
        (table.returned (flowOperations key now bytes)).flatten) := by
  cases key with
  | none => simp [accountFlow, flowOperations, FlowTable.after, FlowTable.returned, FlowTable.apply]
  | some key =>
    simp [accountFlow, flowOperations, FlowTable.after, FlowTable.returned, FlowTable.apply]

def flowRequests (session : Session) (packet : Packet) : List FlowOperation :=
  flowOperations (session.flowKey? packet) (session.timeOf packet) packet.size

theorem flows_process_of_none {session : Session} (h : session.flows = none) (packet : Packet) :
    (session.process packet).1.flows = none := by
  unfold process
  rw [h]

theorem flows_process_of_some {session : Session} {table : FlowTable}
    (h : session.flows = some table) (packet : Packet) :
    (session.process packet).1.flows = some (table.after (session.flowRequests packet)) ∧
      (session.process packet).2.expiredFlows =
        (table.returned (session.flowRequests packet)).flatten := by
  have haccount :
      (session.process packet).1.flows = some (accountFlow table (session.flowKey? packet)
          (session.timeOf packet) packet.size).1 ∧
        (session.process packet).2.expiredFlows = (accountFlow table (session.flowKey? packet)
          (session.timeOf packet) packet.size).2 := by
    unfold process
    rw [h]
    exact ⟨rfl, rfl⟩
  rwa [accountFlow_eq] at haccount

theorem flows_process (session : Session) (packet : Packet) :
    (session.process packet).1.flows =
      session.flows.map (·.after (session.flowRequests packet)) := by
  cases h : session.flows with
  | none => exact flows_process_of_none h packet
  | some table => exact (flows_process_of_some h packet).1

/-- Between two packets the table has its index in order and the limits of the configuration. No
flow was seen after the present time, or so long before it that it would have to be removed. -/
structure Tracks (config : SessionConfig) (session : Session) (table : FlowTable) : Prop where
  indexed : table.Indexed
  maxFlows_eq : table.maxFlows = config.maxFlows
  idleTimeout_eq : table.idleTimeout = config.flowIdleTimeout
  seen_by_now : ∀ flow ∈ table.flows, flow.entry.lastSeen ≤ session.now
  recent : ∀ flow ∈ table.flows, Idle.isOverdue session.now config.flowIdleTimeout flow = false

/-- The session keeps its flow table, if it has one. -/
def TracksIn (config : SessionConfig) (session : Session) : Prop :=
  ∀ table, session.flows = some table → session.Tracks config table

theorem flows_start (registry : FrozenRegistry) (root : ProtocolId) (config : SessionConfig) :
    (start registry root config).flows =
      if config.tracksFlows then some (.ofLimits config.maxFlows config.flowIdleTimeout)
      else none := rfl

theorem tracksIn_start (registry : FrozenRegistry) (root : ProtocolId) (config : SessionConfig) :
    (start registry root config).TracksIn config := by
  intro table htable
  rw [flows_start] at htable
  split at htable
  · cases htable
    exact ⟨FlowTable.indexed_ofLimits _ _, rfl, rfl, by simp [FlowTable.ofLimits],
      by simp [FlowTable.ofLimits]⟩
  · cases htable

@[simp] theorem now_process (session : Session) (packet : Packet) :
    (session.process packet).1.now = max session.now packet.timestamp := by
  unfold process
  split <;> rfl

theorem Tracks.after {config : SessionConfig} {session : Session} {table : FlowTable}
    (h : session.Tracks config table) (packet : Packet) :
    (session.process packet).1.Tracks config (table.after (session.flowRequests packet)) := by
  let accounted :=
    table.after ((session.flowKey? packet).toList.map (.account · (session.timeOf packet) packet.size))
  have hindexed : accounted.Indexed := h.indexed.after _
  obtain ⟨hmax, htimeout⟩ : accounted.maxFlows = config.maxFlows ∧
      accounted.idleTimeout = config.flowIdleTimeout :=
    ⟨(h.indexed.limits_after _).1.trans h.maxFlows_eq,
      (h.indexed.limits_after _).2.trans h.idleTimeout_eq⟩
  have hseen : ∀ flow ∈ accounted.flows, flow.entry.lastSeen ≤ session.timeOf packet := by
    have hearlier : ∀ flow ∈ table.flows, flow.entry.lastSeen ≤ session.timeOf packet :=
      fun flow hflow => Nat.le_trans (h.seen_by_now flow hflow) (Timestamp.le_max_left _ _)
    cases hkey : session.flowKey? packet with
    | none =>
      simp only [accounted, hkey]
      exact hearlier
    | some key =>
      simp only [accounted, hkey]
      exact h.indexed.lastSeen_account key packet.size hearlier
  have hexpired : table.after (session.flowRequests packet) =
      (accounted.expire (session.timeOf packet)).1 := by
    rw [flowRequests, flowOperations, FlowTable.after_concat, FlowTable.apply]
  rw [hexpired]
  refine ⟨hindexed.expire _, ?_, ?_, ?_, ?_⟩
  · rw [hindexed.expire_eq]
    exact hmax
  · rw [hindexed.expire_eq]
    exact htimeout
  · intro flow hflow
    rw [hindexed.expire_eq] at hflow
    rw [now_process]
    exact hseen flow (List.mem_of_mem_filter hflow)
  · intro flow hflow
    rw [hindexed.expire_eq] at hflow
    rw [now_process, ← htimeout]
    exact Bool.eq_false_of_not_eq_true' (List.mem_filter.1 hflow).2

theorem TracksIn.process {config : SessionConfig} {session : Session}
    (h : session.TracksIn config) (packet : Packet) :
    (session.process packet).1.TracksIn config := by
  intro next hnext
  rw [flows_process, Option.map_eq_some_iff] at hnext
  obtain ⟨table, htable, rfl⟩ := hnext
  exact (h table htable).after packet

theorem TracksIn.after {config : SessionConfig} {session : Session}
    (h : session.TracksIn config) (packets : List Packet) :
    (session.after packets).TracksIn config := by
  induction packets generalizing session with
  | nil => exact h
  | cons packet rest ih => exact ih (h.process packet)

theorem isSome_flows_after (session : Session) (packets : List Packet) :
    (session.after packets).flows.isSome = session.flows.isSome := by
  induction packets generalizing session with
  | nil => rfl
  | cons packet rest ih => rw [after, ih, flows_process, Option.isSome_map]

end Session

end Dissection
