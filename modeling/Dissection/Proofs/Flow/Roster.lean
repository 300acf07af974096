import Dissection.Proofs.Flow.Run

/-!
# Flow tables as plain lists

A roster is a list of flows in the order in which they were opened, without serial numbers and
without an index: whatever it is asked, it looks at every flow. A flow table answers every request
of a run as the roster does.
-/

namespace Dissection

/-- A flow as it is handed out: the key of the packet that opened it, and what is known of it. -/
structure ListedFlow where
  key : FlowKey
  entry : FlowEntry
  deriving DecidableEq

structure FlowRoster where
  maxFlows : Nat
  idleTimeout : Duration
  /-- The flows in the order in which they were opened. -/
  flows : List ListedFlow := []

namespace FlowRoster

def find? (roster : FlowRoster) (key : FlowKey) : Option ListedFlow :=
  roster.flows.find? (fun flow => decide (flow.key.identity = key.identity))

/-- The flows by the time at which they were last seen; those with the same time stay in the order
in which they were opened. -/
def inIdleOrder (roster : FlowRoster) : List ListedFlow :=
  roster.flows.insertionSort (fun a b => a.entry.lastSeen ≤ b.entry.lastSeen)

def evicted? (roster : FlowRoster) : Option ListedFlow :=
  if roster.flows ≠ [] ∧ roster.maxFlows ≤ roster.flows.length then roster.inIdleOrder.head?
  else none

def account (roster : FlowRoster) (key : FlowKey) (now : Timestamp) (bytes : Nat) :
    FlowRoster × Option ListedFlow :=
  match roster.find? key with
  | some _ =>
    ({ roster with
        flows := roster.flows.map (fun flow =>
          if flow.key.identity = key.identity then
            ⟨flow.key, flow.entry.record key.direction now bytes⟩
          else flow) }, none)
  | none =>
    ({ roster with
        flows := roster.flows.filter (some · != roster.evicted?) ++
          [⟨key, .start key.direction now bytes⟩] }, roster.evicted?)

def expire (roster : FlowRoster) (now : Timestamp) : FlowRoster × List ListedFlow :=
  ({ roster with
      flows := roster.flows.filter (fun flow =>
        !isExpired now flow.entry.lastSeen roster.idleTimeout) },
    roster.inIdleOrder.filter (fun flow => isExpired now flow.entry.lastSeen roster.idleTimeout))

def apply (roster : FlowRoster) : FlowOperation → FlowRoster × List ListedFlow
  | .account key now bytes =>
    ((roster.account key now bytes).1, (roster.account key now bytes).2.toList)
  | .expire now => roster.expire now

def after (roster : FlowRoster) : List FlowOperation → FlowRoster
  | [] => roster
  | operation :: rest => (roster.apply operation).1.after rest

def returned (roster : FlowRoster) : List FlowOperation → List (List ListedFlow)
  | [] => []
  | operation :: rest =>
    (roster.apply operation).2 :: (roster.apply operation).1.returned rest

end FlowRoster

def Flow.listed (flow : Flow) : ListedFlow := ⟨flow.key, flow.entry⟩

namespace FlowTable

def roster (table : FlowTable) : FlowRoster :=
  ⟨table.maxFlows, table.idleTimeout, table.flows.map Flow.listed⟩

theorem find?_roster (table : FlowTable) (key : FlowKey) :
    table.roster.find? key = (table.find? key).map Flow.listed := by
  rw [FlowRoster.find?, roster, List.find?_map]
  rfl

theorem inIdleOrder_roster (table : FlowTable) :
    table.roster.inIdleOrder = (Idle.arranged table.flows).map Flow.listed :=
  (List.map_insertionSort _ _ Flow.listed table.flows (fun _ _ _ _ => Iff.rfl)).symm

theorem evicted?_roster (table : FlowTable) :
    table.roster.evicted? = table.evicted?.map Flow.listed := by
  have hlength : table.roster.flows.length = table.size := List.length_map _
  unfold FlowRoster.evicted? evicted?
  rw [inIdleOrder_roster, List.head?_map, hlength]
  cases hflows : table.flows with
  | nil =>
    have hnone : table.roster.flows = [] := by
      rw [roster, hflows]
      rfl
    rw [if_neg (fun h => h.1 hnone)]
    split <;> rfl
  | cons flow rest =>
    have hsome : table.roster.flows ≠ [] := by
      rw [roster, hflows]
      exact List.cons_ne_nil _ _
    by_cases hfull : table.maxFlows ≤ table.size
    · rw [if_pos ⟨hsome, hfull⟩, if_pos hfull]
    · rw [if_neg (fun h => hfull h.2), if_neg hfull]
      rfl

section Operations

variable {table : FlowTable} (h : table.Indexed)

include h

theorem Indexed.listed_inj {a b : Flow} (ha : a ∈ table.flows) (hb : b ∈ table.flows)
    (hlisted : a.listed = b.listed) : a = b :=
  h.indexes.eq_of_identity ha hb (congrArg (fun flow => flow.key.identity) hlisted)

/-- What the table keeps to make room is what the roster keeps. -/
theorem Indexed.kept_roster :
    (table.flows.filter (some · != table.evicted?)).map Flow.listed =
      table.roster.flows.filter (some · != table.roster.evicted?) := by
  rw [evicted?_roster, roster, List.filter_map]
  congr 1
  refine List.filter_congr ?_
  intro flow hflow
  cases hevicted : table.evicted? with
  | none => rfl
  | some gone =>
    rw [Bool.eq_iff_iff]
    have hiff : flow.listed = gone.listed ↔ flow = gone :=
      ⟨h.listed_inj hflow (evicted?_mem hevicted), congrArg Flow.listed⟩
    simp [hiff]

theorem Indexed.account_roster (key : FlowKey) (now : Timestamp) (bytes : Nat) :
    (table.account key now bytes).1.roster = (table.roster.account key now bytes).1 ∧
      (table.account key now bytes).2.map Flow.listed =
        (table.roster.account key now bytes).2 := by
  cases hfound : table.find? key with
  | some flow =>
    rw [h.account_of_known hfound, FlowRoster.account, find?_roster, hfound]
    refine ⟨?_, rfl⟩
    simp only [roster, Option.map_some, List.map_map]
    congr 1
    refine List.map_congr_left ?_
    intro other _
    simp only [Function.comp_apply, seen, isFlowOf, decide_eq_true_eq]
    split
    · next hof => exact (if_pos hof).symm
    · next hof => exact (if_neg hof).symm
  | none =>
    obtain ⟨slots, _, hroom⟩ := h.makeRoom
    rw [FlowRoster.account, find?_roster, hfound, account_of_new hfound, hroom, ← h.kept_roster,
      evicted?_roster]
    refine ⟨?_, rfl⟩
    simp only [roster, openFlow, Option.map_none, List.map_append]
    rfl

theorem Indexed.expire_roster (now : Timestamp) :
    (table.expire now).1.roster = (table.roster.expire now).1 ∧
      (table.expire now).2.map Flow.listed = (table.roster.expire now).2 := by
  rw [h.expire_eq, FlowRoster.expire, inIdleOrder_roster, List.filter_map]
  refine ⟨?_, rfl⟩
  simp only [roster, List.filter_map]
  rfl

theorem Indexed.apply_roster (operation : FlowOperation) :
    (table.apply operation).1.roster = (table.roster.apply operation).1 ∧
      (table.apply operation).2.map Flow.listed = (table.roster.apply operation).2 := by
  cases operation with
  | account key now bytes =>
    obtain ⟨hroster, hevicted⟩ := h.account_roster key now bytes
    refine ⟨hroster, ?_⟩
    rw [FlowRoster.apply, ← hevicted, Option.toList_map]
    rfl
  | expire now => exact h.expire_roster now

theorem Indexed.after_roster (operations : List FlowOperation) :
    (table.after operations).roster = table.roster.after operations := by
  induction operations generalizing table with
  | nil => rfl
  | cons operation rest ih =>
    rw [FlowTable.after, FlowRoster.after, ← (h.apply_roster operation).1]
    exact ih (h.apply operation)

theorem Indexed.returned_roster (operations : List FlowOperation) :
    (table.returned operations).map (List.map Flow.listed) = table.roster.returned operations := by
  induction operations generalizing table with
  | nil => rfl
  | cons operation rest ih =>
    obtain ⟨hroster, hanswer⟩ := h.apply_roster operation
    rw [returned, FlowRoster.returned, List.map_cons, hanswer, ← hroster]
    exact congrArg _ (ih (h.apply operation))

/-- A packet of a known flow removes no flow, and leaves the time at which the flow was first seen
as it was. -/
theorem Indexed.known_seen {key : FlowKey} {flow : Flow} (hknown : table.find? key = some flow)
    (now : Timestamp) (bytes : Nat) :
    (table.account key now bytes).2 = none ∧
      ∃ entry : FlowEntry,
        (table.account key now bytes).1.find? key = some { flow with entry := entry } ∧
        entry.firstSeen = flow.entry.firstSeen ∧
        entry.lastSeen = max flow.entry.lastSeen now := by
  rw [h.account_of_known hknown]
  refine ⟨rfl, flow.entry.record key.direction now bytes, ?_, FlowEntry.firstSeen_record _ _ _ _,
    FlowEntry.lastSeen_record _ _ _ _⟩
  have hflow : isFlowOf key flow = true := List.find?_some hknown
  change (table.flows.map (seen key now bytes)).find? (isFlowOf key) = _
  rw [List.find?_map, isFlowOf_comp_seen]
  change (table.find? key).map _ = _
  rw [hknown, Option.map_some, seen, if_pos hflow]
  rfl

end Operations

/-- A flow table is a roster. Over a run, every request is answered with the flows that the roster
answers with, in the same order, and the flows that are left are those of the roster. A packet of a
known flow removes none and only moves the time at which the flow was last seen, forward. No run
leaves more flows than fit, and every flow keeps the key of the packet that opened it. -/
theorem roster_of_run (maxFlows : Nat) (idleTimeout : Duration)
    (operations : List FlowOperation) :
    let opening := ofLimits maxFlows idleTimeout
    let table := opening.after operations
    let roster : FlowRoster := { maxFlows := maxFlows, idleTimeout := idleTimeout }
    (opening.returned operations).map (List.map Flow.listed) = roster.returned operations ∧
      table.flows.map Flow.listed = (roster.after operations).flows ∧
      (∀ key, (table.find? key).map Flow.listed = (roster.after operations).find? key) ∧
      (∀ key flow now bytes, table.find? key = some flow →
        (table.account key now bytes).2 = none ∧
          ∃ entry : FlowEntry,
            (table.account key now bytes).1.find? key = some { flow with entry := entry } ∧
            entry.firstSeen = flow.entry.firstSeen ∧
            entry.lastSeen = max flow.entry.lastSeen now) ∧
      table.size ≤ max 1 maxFlows ∧
      ∀ flow, flow ∈ table.flows ∨ flow ∈ (opening.returned operations).flatten →
        flow.entry.initiator = flow.key.direction ∧
          ∃ bytes, FlowOperation.account flow.key flow.entry.firstSeen bytes ∈ operations := by
  intro opening table roster
  have hopening := indexed_ofLimits maxFlows idleTimeout
  have hafter : table.roster = roster.after operations := hopening.after_roster operations
  refine ⟨hopening.returned_roster operations, congrArg FlowRoster.flows hafter, ?_, ?_,
    size_after maxFlows idleTimeout operations, ?_⟩
  · intro key
    rw [← hafter, find?_roster]
  · intro key flow now bytes hknown
    exact (hopening.after operations).known_seen hknown now bytes
  · intro flow hflow
    exact openedBy_run maxFlows idleTimeout operations hflow

end FlowTable

end Dissection
