import Dissection.Proofs.Flow.Operation
import Mathlib.Data.List.Induction

/-!
# Runs of a flow table

A run is a list of operations on a table that starts without flows; every operation returns the
flows that it removes. After every run the index of the table is in order, the table has no more
flows than it may, and every flow, in the table or returned, was opened by a packet of the run,
whose direction it keeps.
-/

namespace Dissection

inductive FlowOperation where
  | account (key : FlowKey) (now : Timestamp) (bytes : Nat)
  | expire (now : Timestamp)

namespace FlowTable

def apply (table : FlowTable) : FlowOperation → FlowTable × List Flow
  | .account key now bytes =>
    ((table.account key now bytes).1, (table.account key now bytes).2.toList)
  | .expire now => table.expire now

def after (table : FlowTable) : List FlowOperation → FlowTable
  | [] => table
  | operation :: rest => (table.apply operation).1.after rest

def returned (table : FlowTable) : List FlowOperation → List (List Flow)
  | [] => []
  | operation :: rest =>
    (table.apply operation).2 :: (table.apply operation).1.returned rest

theorem after_concat (table : FlowTable) (operations : List FlowOperation) (last : FlowOperation) :
    table.after (operations ++ [last]) = ((table.after operations).apply last).1 := by
  induction operations generalizing table with
  | nil => rfl
  | cons operation rest ih => exact ih (table.apply operation).1

theorem returned_concat (table : FlowTable) (operations : List FlowOperation)
    (last : FlowOperation) :
    table.returned (operations ++ [last]) =
      table.returned operations ++ [((table.after operations).apply last).2] := by
  induction operations generalizing table with
  | nil => rfl
  | cons operation rest ih => exact congrArg _ (ih (table.apply operation).1)

theorem Indexed.apply {table : FlowTable} (h : table.Indexed) (operation : FlowOperation) :
    (table.apply operation).1.Indexed := by
  cases operation with
  | account key now bytes => exact h.account key now bytes
  | expire now => exact h.expire now

theorem Indexed.after {table : FlowTable} (h : table.Indexed) (operations : List FlowOperation) :
    (table.after operations).Indexed := by
  induction operations generalizing table with
  | nil => exact h
  | cons operation rest ih => exact ih (h.apply operation)

section Limits

variable {table : FlowTable} (h : table.Indexed)

include h

theorem Indexed.limits_apply (operation : FlowOperation) :
    (table.apply operation).1.maxFlows = table.maxFlows ∧
      (table.apply operation).1.idleTimeout = table.idleTimeout := by
  cases operation with
  | account key now bytes =>
    change (table.account key now bytes).1.maxFlows = _ ∧ _
    cases hfound : table.find? key with
    | some flow =>
      rw [FlowTable.apply, h.account_of_known hfound]
      exact ⟨rfl, rfl⟩
    | none =>
      obtain ⟨slots, _, hroom⟩ := h.makeRoom
      rw [FlowTable.apply, account_of_new hfound, hroom]
      exact ⟨rfl, rfl⟩
  | expire now =>
    rw [FlowTable.apply, h.expire_eq]
    exact ⟨rfl, rfl⟩

theorem Indexed.limits_after (operations : List FlowOperation) :
    (table.after operations).maxFlows = table.maxFlows ∧
      (table.after operations).idleTimeout = table.idleTimeout := by
  induction operations generalizing table with
  | nil => exact ⟨rfl, rfl⟩
  | cons operation rest ih =>
    obtain ⟨hmax, htimeout⟩ := h.limits_apply operation
    obtain ⟨hmax', htimeout'⟩ := ih (h.apply operation)
    exact ⟨hmax'.trans hmax, htimeout'.trans htimeout⟩

end Limits

/-- There is room for one more flow once a full table has given one up. -/
theorem Indexed.has_room {table : FlowTable} (h : table.Indexed)
    (hsize : table.size ≤ max 1 table.maxFlows) :
    (table.flows.filter (some · != table.evicted?)).length + 1 ≤ max 1 table.maxFlows := by
  cases hevicted : table.evicted? with
  | some flow =>
    have hperm := (h.indexes.perm_cons (evicted?_mem hevicted)).length_eq
    rw [List.length_cons] at hperm
    exact hperm ▸ hsize
  | none =>
    rw [filter_ne_none]
    by_cases hfull : table.maxFlows ≤ table.size
    · have hnone : table.flows = [] := by
        rw [evicted?, if_pos hfull, List.head?_eq_none_iff] at hevicted
        exact List.Perm.nil_eq (hevicted ▸ Idle.perm_arranged table.flows) |>.symm
      rw [hnone]
      exact Nat.le_max_left 1 _
    · exact Nat.lt_of_lt_of_le (Nat.lt_of_not_le hfull) (Nat.le_max_right 1 _)

theorem Indexed.size_apply {table : FlowTable} (h : table.Indexed)
    (hsize : table.size ≤ max 1 table.maxFlows) (operation : FlowOperation) :
    (table.apply operation).1.size ≤ max 1 table.maxFlows := by
  cases operation with
  | account key now bytes =>
    change (table.account key now bytes).1.flows.length ≤ _
    cases hfound : table.find? key with
    | some flow =>
      rw [h.account_of_known hfound, List.length_map]
      exact hsize
    | none =>
      rw [(h.open hfound now bytes).1, List.length_append]
      exact h.has_room hsize
  | expire now =>
    change (table.expire now).1.flows.length ≤ _
    rw [h.expire_eq]
    exact (List.length_filter_le _ _).trans hsize

theorem size_after (maxFlows : Nat) (idleTimeout : Duration) (operations : List FlowOperation) :
    ((ofLimits maxFlows idleTimeout).after operations).size ≤ max 1 maxFlows := by
  induction operations using List.reverseRecOn with
  | nil => exact Nat.zero_le _
  | append_singleton operations last ih =>
    have hopening := indexed_ofLimits maxFlows idleTimeout
    have hmax := (hopening.limits_after operations).1
    have hsize := (hopening.after operations).size_apply (by rwa [hmax]) last
    rw [after_concat]
    rwa [hmax] at hsize

/-- A packet of the run opened the flow, which keeps the direction of that packet. -/
def OpenedBy (operations : List FlowOperation) (flow : Flow) : Prop :=
  flow.entry.initiator = flow.key.direction ∧
    ∃ bytes, FlowOperation.account flow.key flow.entry.firstSeen bytes ∈ operations

theorem OpenedBy.seen {operations : List FlowOperation} {flow : Flow}
    (h : OpenedBy operations flow) (key : FlowKey) (now : Timestamp) (bytes : Nat) :
    OpenedBy operations (seen key now bytes flow) := by
  unfold FlowTable.seen
  split
  · obtain ⟨hinitiator, opening⟩ := h
    refine ⟨?_, ?_⟩
    · rw [Flow.record, FlowEntry.initiator_record]
      exact hinitiator
    · rw [Flow.record, FlowEntry.firstSeen_record]
      exact opening
  · exact h

theorem openedBy_apply {table : FlowTable} (h : table.Indexed) {operations : List FlowOperation}
    (hopened : ∀ flow ∈ table.flows, OpenedBy operations flow) (operation : FlowOperation)
    {flow : Flow}
    (hflow : flow ∈ (table.apply operation).1.flows ∨ flow ∈ (table.apply operation).2) :
    OpenedBy (operations ++ [operation]) flow := by
  have hearlier : ∀ flow, OpenedBy operations flow → OpenedBy (operations ++ [operation]) flow :=
    fun flow ⟨hinitiator, bytes, hmem⟩ => ⟨hinitiator, bytes, List.mem_append_left _ hmem⟩
  cases operation with
  | account key now bytes =>
    simp only [apply] at hflow
    cases hfound : table.find? key with
    | some known =>
      rw [h.account_of_known hfound] at hflow
      rcases hflow with hflow | hflow
      · obtain ⟨other, hother, rfl⟩ := List.mem_map.1 hflow
        exact hearlier _ ((hopened other hother).seen key now bytes)
      · cases hflow
    | none =>
      obtain ⟨hflows, hevicted, _⟩ := h.open hfound now bytes
      rw [hflows, hevicted, List.mem_append, Option.mem_toList] at hflow
      rcases hflow with (hkept | hnew) | hgone
      · exact hearlier _ (hopened flow (List.mem_of_mem_filter hkept))
      · rw [List.mem_singleton.1 hnew]
        exact ⟨rfl, bytes, List.mem_append_right _ List.mem_cons_self⟩
      · exact hearlier _ (hopened flow (evicted?_mem hgone))
  | expire now =>
    rw [apply, h.expire_eq] at hflow
    rcases hflow with hkept | hgone
    · exact hearlier _ (hopened flow (List.mem_of_mem_filter hkept))
    · have hmem := (Idle.perm_arranged table.flows).subset (List.mem_of_mem_filter hgone)
      exact hearlier _ (hopened flow hmem)

theorem openedBy_run (maxFlows : Nat) (idleTimeout : Duration) (operations : List FlowOperation)
    {flow : Flow}
    (hflow : flow ∈ ((ofLimits maxFlows idleTimeout).after operations).flows ∨
      flow ∈ ((ofLimits maxFlows idleTimeout).returned operations).flatten) :
    OpenedBy operations flow := by
  induction operations using List.reverseRecOn generalizing flow with
  | nil => rcases hflow with hflow | hflow <;> cases hflow
  | append_singleton operations last ih =>
    have hindexed := (indexed_ofLimits maxFlows idleTimeout).after operations
    have hstep : _ ∨ _ → OpenedBy (operations ++ [last]) flow :=
      openedBy_apply hindexed (fun _ hflow => ih (.inl hflow)) last
    rw [after_concat, returned_concat, List.flatten_append, List.mem_append,
      List.flatten_singleton] at hflow
    rcases hflow with hkept | hearlier | hgone
    · exact hstep (.inl hkept)
    · obtain ⟨hinitiator, bytes, hmem⟩ := ih (.inr hearlier)
      exact ⟨hinitiator, bytes, List.mem_append_left _ hmem⟩
    · exact hstep (.inr hgone)

end FlowTable

end Dissection
