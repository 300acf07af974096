import Dissection.Proofs.Flow.Index

/-!
# Operations on a flow table

What accounting a packet and expiry do to the flows of a table with its index in order, said without
the index: a packet changes its own flow or opens one behind all others, a full table gives up the
flow idle for longest, and expiry removes the flows that have been idle for too long. Every
operation leaves the index in order.
-/

namespace Dissection

namespace FlowTable

/-- The table has its index in order, and serial numbers for flows to come. -/
structure Indexed (table : FlowTable) : Prop where
  indexes : Indexes table.idleOrder table.flows
  serial_lt : ∀ flow ∈ table.flows, flow.serial < table.opened

def ofLimits (maxFlows : Nat) (idleTimeout : Duration) : FlowTable :=
  { maxFlows := maxFlows, idleTimeout := idleTimeout }

theorem indexed_ofLimits (maxFlows : Nat) (idleTimeout : Duration) :
    (ofLimits maxFlows idleTimeout).Indexed := ⟨indexes_nil, by simp [ofLimits]⟩

theorem Indexed.find?_eq_some_iff {table : FlowTable} (h : table.Indexed) {key : FlowKey}
    {flow : Flow} :
    table.find? key = some flow ↔ flow ∈ table.flows ∧ flow.key.identity = key.identity :=
  h.indexes.find?_eq_some_iff

theorem find?_eq_none_iff {table : FlowTable} {key : FlowKey} :
    table.find? key = none ↔ ∀ flow ∈ table.flows, flow.key.identity ≠ key.identity := by
  simp [find?, isFlowOf]

theorem remove_of_found (table : FlowTable) {slots : List IdleSlot}
    (h : Indexes slots table.flows) {key : FlowKey} {flow : Flow}
    (hfound : table.flows.find? (isFlowOf key) = some flow) :
    table.remove key = ({ table with flows := table.flows.filter (· != flow) }, some flow) := by
  obtain ⟨hflow, hkey⟩ := h.find?_eq_some_iff.1 hfound
  rw [remove, h.filter_not_isFlowOf hflow hkey, find?, hfound]

section Expire

variable (now : Timestamp)

theorem isOverdue_of_slot {flow : Flow} {slot : IdleSlot} (h : flow.slot = slot.undirected)
    (limit : Duration) : Idle.isOverdue now limit flow = Idle.isOverdue now limit slot :=
  congrArg (fun time => isExpired now time limit) (Flow.slot_eq_iff.1 h).1

/-- The walk through the index removes the flows idle for too long, in idle order. -/
theorem expireFrom_eq {slots : List IdleSlot} {table : FlowTable}
    (h : Indexes slots table.flows) :
    expireFrom now slots table =
      ({ table with
          flows := table.flows.filter (!Idle.isOverdue now table.idleTimeout ·)
          idleOrder := Idle.current now table.idleTimeout slots },
        Idle.overdue now table.idleTimeout (Idle.arranged table.flows)) := by
  induction slots generalizing table with
  | nil =>
    have hnone : table.flows = [] := List.map_eq_nil_iff.1 h.filed.symm.eq_nil
    simp only [expireFrom, hnone]
    rfl
  | cons oldest later ih =>
    obtain ⟨flow, hfound, hslot, harranged, hrest⟩ := h.front
    have hoverdue := isOverdue_of_slot now hslot table.idleTimeout
    by_cases hlate : Idle.isOverdue now table.idleTimeout oldest = true
    · have hflows : (table.flows.filter (· != flow)).filter
            (!Idle.isOverdue now table.idleTimeout ·) =
          table.flows.filter (!Idle.isOverdue now table.idleTimeout ·) := by
        rw [List.filter_filter]
        refine List.filter_congr ?_
        intro other _
        by_cases hsame : other = flow
        · simp [hsame, hoverdue, hlate]
        · simp [hsame]
      rw [expireFrom, if_pos hlate, remove_of_found table h hfound]
      simp only
      rw [ih hrest]
      simp only [hflows, harranged, Idle.overdue, Idle.current, List.dropWhile_cons_of_pos hlate,
        List.takeWhile_cons_of_pos (hoverdue.trans hlate)]
      rfl
    · -- what comes behind the front has not been idle for longer
      have hnone : Idle.overdue now table.idleTimeout (Idle.arranged table.flows) = [] := by
        rw [harranged, Idle.overdue, List.takeWhile_cons_of_neg (by rwa [hoverdue])]
      have hsorted := Idle.sorted_of_before
        (Idle.pairwise_arranged (List.pairwise_map.1 h.serials))
      have hall : table.flows.filter (!Idle.isOverdue now table.idleTimeout ·) = table.flows := by
        rw [List.filter_eq_self]
        intro other hother
        have hmem := (Idle.perm_arranged table.flows).symm.subset hother
        rw [hsorted.overdue_eq_filter, List.filter_eq_nil_iff] at hnone
        simpa using hnone other hmem
      rw [expireFrom, if_neg hlate, hall, hnone, Idle.current, List.dropWhile_cons_of_neg hlate]

variable {table : FlowTable} (h : table.Indexed)

include h

theorem Indexed.expire_eq :
    table.expire now =
      ({ table with
          flows := table.flows.filter (!Idle.isOverdue now table.idleTimeout ·)
          idleOrder := Idle.current now table.idleTimeout table.idleOrder },
        (Idle.arranged table.flows).filter (Idle.isOverdue now table.idleTimeout)) := by
  have hsorted := Idle.sorted_of_before
    (Idle.pairwise_arranged (List.pairwise_map.1 h.indexes.serials))
  rw [expire, expireFrom_eq now h.indexes, hsorted.overdue_eq_filter]

theorem Indexed.expire : (table.expire now).1.Indexed := by
  rw [h.expire_eq]
  constructor
  · refine h.indexes.sublist List.filter_sublist (List.dropWhile_sublist _) ?_
    have hcurrent := (Idle.sorted_of_before h.indexes.sorted).current_eq_filter now
      table.idleTimeout
    have hfiled := h.indexes.filed.filter (!Idle.isOverdue now table.idleTimeout ·)
    rw [List.filter_map, List.filter_map] at hfiled
    rw [hcurrent]
    exact hfiled
  · intro flow hflow
    exact h.serial_lt flow (List.mem_of_mem_filter hflow)

end Expire

/-- The flow that has to make room for a new one, when the table is full: the one idle for
longest. -/
def evicted? (table : FlowTable) : Option Flow :=
  if table.maxFlows ≤ table.size then (Idle.arranged table.flows).head? else none

theorem evicted?_mem {table : FlowTable} {flow : Flow} (h : table.evicted? = some flow) :
    flow ∈ table.flows := by
  unfold evicted? at h
  split at h
  · exact (Idle.perm_arranged table.flows).subset (List.mem_of_mem_head? h)
  · cases h

theorem filter_ne_none (flows : List Flow) : flows.filter (some · != none) = flows :=
  List.filter_eq_self.2 (fun _ _ => rfl)

section Room

variable {table : FlowTable} (h : table.Indexed)

include h

theorem Indexed.evictOldest :
    ∃ slots, Indexes slots
        (table.flows.filter (some · != (Idle.arranged table.flows).head?)) ∧
      table.evictOldest =
        ({ table with
            flows := table.flows.filter (some · != (Idle.arranged table.flows).head?)
            idleOrder := slots }, (Idle.arranged table.flows).head?) := by
  have hindexes := h.indexes
  cases hslots : table.idleOrder with
  | nil =>
    rw [hslots] at hindexes
    have hnone : table.flows = [] := List.map_eq_nil_iff.1 hindexes.filed.symm.eq_nil
    have hhead : (Idle.arranged table.flows).head? = none := by
      rw [hnone]
      rfl
    have hevict : table.evictOldest = (table, none) := by rw [FlowTable.evictOldest, hslots]
    rw [hevict, hhead, filter_ne_none]
    exact ⟨table.idleOrder, h.indexes, rfl⟩
  | cons oldest later =>
    rw [hslots] at hindexes
    obtain ⟨flow, hfound, _, harranged, hrest⟩ := hindexes.front
    refine ⟨later, ?_, ?_⟩
    · rw [harranged]
      exact hrest
    · rw [FlowTable.evictOldest, hslots, harranged]
      exact remove_of_found { table with idleOrder := later } hindexes hfound

theorem Indexed.makeRoom :
    ∃ slots, Indexes slots (table.flows.filter (some · != table.evicted?)) ∧
      table.makeRoom =
        ({ table with
            flows := table.flows.filter (some · != table.evicted?)
            idleOrder := slots }, table.evicted?) := by
  by_cases hfull : table.maxFlows ≤ table.size
  · rw [FlowTable.makeRoom, if_pos hfull, evicted?, if_pos hfull]
    exact h.evictOldest
  · rw [FlowTable.makeRoom, if_neg hfull, evicted?, if_neg hfull, filter_ne_none]
    exact ⟨table.idleOrder, h.indexes, rfl⟩

end Room

section Open

variable {table : FlowTable} (h : table.Indexed) {key : FlowKey}
  (hnew : table.find? key = none)

include hnew

theorem account_of_new (now : Timestamp) (bytes : Nat) :
    table.account key now bytes =
      (table.makeRoom.1.openFlow key now bytes, table.makeRoom.2) := by
  rw [account, hnew]

include h

/-- A packet of an unknown flow opens one, behind all flows but the one that makes room. -/
theorem Indexed.open (now : Timestamp) (bytes : Nat) :
    (table.account key now bytes).1.flows =
        table.flows.filter (some · != table.evicted?) ++
          [⟨key, .start key.direction now bytes, table.opened⟩] ∧
      (table.account key now bytes).2 = table.evicted? ∧
      (table.account key now bytes).1.Indexed := by
  obtain ⟨slots, hindexes, hroom⟩ := h.makeRoom
  have hkept : ∀ flow ∈ table.flows.filter (some · != table.evicted?), flow ∈ table.flows :=
    fun flow hflow => List.mem_of_mem_filter hflow
  rw [account_of_new hnew, hroom]
  refine ⟨rfl, rfl, ⟨?_, ?_, ?_, ?_⟩, ?_⟩
  · rw [openFlow, List.map_append, List.nodup_append]
    refine ⟨hindexes.distinct, List.nodup_singleton _, ?_⟩
    intro identity hidentity other hother
    obtain ⟨flow, hflow, rfl⟩ := List.mem_map.1 hidentity
    rw [List.mem_singleton.1 hother]
    exact find?_eq_none_iff.1 hnew flow (hkept flow hflow)
  · rw [openFlow, List.map_append, List.pairwise_append]
    refine ⟨hindexes.serials, List.pairwise_singleton _ _, ?_⟩
    intro serial hserial other hother
    obtain ⟨flow, hflow, rfl⟩ := List.mem_map.1 hserial
    rw [List.mem_singleton.1 hother]
    exact h.serial_lt flow (hkept flow hflow)
  · refine Idle.pairwise_place hindexes.sorted ?_
    intro slot hslot
    obtain ⟨flow, hflow, heq⟩ := hindexes.exists_flow hslot
    have hserial := h.serial_lt flow (hkept flow hflow)
    rw [(Flow.slot_eq_iff.1 heq).2.1] at hserial
    exact Nat.ne_of_lt hserial
  · rw [openFlow]
    simp only
    rw [List.map_append]
    refine ((Idle.perm_place _ slots).map _).trans ?_
    exact (hindexes.filed.cons _).trans (List.perm_append_singleton _ _).symm
  · intro flow hflow
    rcases List.mem_append.1 hflow with hmem | hmem
    · exact Nat.lt_succ_of_lt (h.serial_lt flow (hkept flow hmem))
    · rw [List.mem_singleton.1 hmem]
      exact Nat.lt_succ_self _

end Open

/-- The flow after a packet with the given key, which may belong to it. -/
def seen (key : FlowKey) (now : Timestamp) (bytes : Nat) (flow : Flow) : Flow :=
  if isFlowOf key flow then flow.record key.direction now bytes else flow

theorem key_seen (key : FlowKey) (now : Timestamp) (bytes : Nat) (flow : Flow) :
    (seen key now bytes flow).key = flow.key := by
  unfold seen
  split <;> rfl

theorem serial_seen (key : FlowKey) (now : Timestamp) (bytes : Nat) (flow : Flow) :
    (seen key now bytes flow).serial = flow.serial := by
  unfold seen
  split <;> rfl

/-- A packet changes no key. -/
theorem isFlowOf_comp_seen (key other : FlowKey) (now : Timestamp) (bytes : Nat) :
    isFlowOf key ∘ seen other now bytes = isFlowOf key := by
  funext flow
  rw [Function.comp_apply, isFlowOf, key_seen]
  rfl

section Known

variable {table : FlowTable} (h : table.Indexed) {key : FlowKey} {flow : Flow}
  (hknown : table.find? key = some flow)

include h hknown

theorem Indexed.isFlowOf_iff_eq {other : Flow} (hother : other ∈ table.flows) :
    isFlowOf key other = true ↔ other = flow := by
  obtain ⟨hflow, hkey⟩ := h.find?_eq_some_iff.1 hknown
  rw [isFlowOf_iff]
  constructor
  · intro hof
    exact h.indexes.eq_of_identity hother hflow (hof.trans hkey.symm)
  · rintro rfl
    exact hkey

variable (now : Timestamp) (bytes : Nat)

theorem Indexed.account_of_known :
    table.account key now bytes =
      ({ table with
          flows := table.flows.map (seen key now bytes)
          idleOrder := table.reindex flow key (max flow.entry.lastSeen now) }, none) := by
  have hflows : table.flows.map (fun other =>
        if isFlowOf key other then flow.record key.direction now bytes else other) =
      table.flows.map (seen key now bytes) := by
    refine List.map_congr_left ?_
    intro other hother
    unfold seen
    split
    · next hof => rw [(h.isFlowOf_iff_eq hknown hother).1 hof]
    · rfl
  have hlast : (flow.record key.direction now bytes).entry.lastSeen =
      max flow.entry.lastSeen now := FlowEntry.lastSeen_record _ _ _ _
  rw [account, hknown]
  simp only [refresh]
  rw [hflows, hlast]

theorem Indexed.slot_seen {other : Flow} (hother : other ∈ table.flows) :
    (seen key now bytes other).slot =
      if other = flow then { flow.slot with lastSeen := max flow.entry.lastSeen now }
      else other.slot := by
  unfold seen
  split
  · next hof =>
    rw [(h.isFlowOf_iff_eq hknown hother).1 hof, if_pos rfl]
    simp [Flow.slot, Flow.record]
  · next hof => rw [if_neg (fun heq => hof ((h.isFlowOf_iff_eq hknown hother).2 heq))]

/-- The slots of the other flows are those that are not filed where the flow was. -/
theorem Indexed.filed_others :
    ((table.idleOrder.filter (fun slot =>
        ¬ (slot.lastSeen = flow.entry.lastSeen ∧ slot.serial = flow.serial))).map
          IdleSlot.undirected).Perm
      ((table.flows.filter (· != flow)).map Flow.slot) := by
  have hflow := (h.find?_eq_some_iff.1 hknown).1
  have hfiled := h.indexes.filed.filter (fun slot =>
    ¬ (slot.lastSeen = flow.entry.lastSeen ∧ slot.serial = flow.serial))
  have hothers : table.flows.filter ((fun slot : IdleSlot =>
        decide ¬ (slot.lastSeen = flow.entry.lastSeen ∧ slot.serial = flow.serial)) ∘ Flow.slot) =
      table.flows.filter (· != flow) := by
    refine List.filter_congr ?_
    intro other hother
    by_cases hsame : other = flow
    · simp [hsame, Flow.slot]
    · have hserial : other.serial ≠ flow.serial :=
        fun heq => hsame (h.indexes.eq_of_serial hother hflow heq)
      simp [hsame, Flow.slot, hserial]
  rw [List.filter_map, List.filter_map, hothers] at hfiled
  exact hfiled

theorem Indexed.sorted_reindex :
    (table.reindex flow key (max flow.entry.lastSeen now)).Pairwise Idle.Before := by
  by_cases hmoved : max flow.entry.lastSeen now = flow.entry.lastSeen
  · rw [reindex, if_pos hmoved]
    exact h.indexes.sorted
  · rw [reindex, if_neg hmoved]
    refine Idle.pairwise_place (h.indexes.sorted.filter _) ?_
    -- the slot with the serial number of the flow is the one that was taken out
    intro slot hslot hserial
    obtain ⟨hmem, helse⟩ := List.mem_filter.1 hslot
    obtain ⟨other, hother, heq⟩ := h.indexes.exists_flow hmem
    obtain ⟨hlast, hnumber, _⟩ := Flow.slot_eq_iff.1 heq
    have hflow := (h.find?_eq_some_iff.1 hknown).1
    have hsame := h.indexes.eq_of_serial hother hflow (hnumber.trans hserial)
    refine of_decide_eq_true helse ⟨?_, hserial⟩
    rw [← hlast, hsame]

/-- Of all slots that of the flow alone may move. -/
theorem Indexed.slots_seen :
    ((table.flows.map (seen key now bytes)).map Flow.slot).Perm
      ({ flow.slot with lastSeen := max flow.entry.lastSeen now } ::
        (table.flows.filter (· != flow)).map Flow.slot) := by
  have hflow := (h.find?_eq_some_iff.1 hknown).1
  have hothers : ((table.flows.filter (· != flow)).map (seen key now bytes)).map Flow.slot =
      (table.flows.filter (· != flow)).map Flow.slot := by
    rw [List.map_map]
    refine List.map_congr_left ?_
    intro other hother
    obtain ⟨hmem, hne⟩ := List.mem_filter.1 hother
    rw [Function.comp_apply, h.slot_seen hknown now bytes hmem, if_neg (bne_iff_ne.1 hne)]
  have hperm := ((h.indexes.perm_cons hflow).map (seen key now bytes)).map Flow.slot
  rwa [List.map_cons, List.map_cons, hothers, h.slot_seen hknown now bytes hflow, if_pos rfl]
    at hperm

theorem Indexed.filed_reindex :
    ((table.reindex flow key (max flow.entry.lastSeen now)).map IdleSlot.undirected).Perm
      ((table.flows.map (seen key now bytes)).map Flow.slot) := by
  obtain ⟨hflow, hkey⟩ := h.find?_eq_some_iff.1 hknown
  refine List.Perm.trans ?_ (h.slots_seen hknown now bytes).symm
  by_cases hmoved : max flow.entry.lastSeen now = flow.entry.lastSeen
  · rw [reindex, if_pos hmoved, hmoved]
    exact h.indexes.filed.trans ((h.indexes.perm_cons hflow).map Flow.slot)
  · have hnew : (IdleSlot.mk (max flow.entry.lastSeen now) flow.serial key).undirected =
        { flow.slot with lastSeen := max flow.entry.lastSeen now } := by
      simp [IdleSlot.undirected, Flow.slot, hkey]
    rw [reindex, if_neg hmoved]
    refine ((Idle.perm_place _ _).map _).trans ?_
    rw [List.map_cons, hnew]
    exact (h.filed_others hknown).cons _

theorem Indexed.indexes_reindex :
    Indexes (table.reindex flow key (max flow.entry.lastSeen now))
      (table.flows.map (seen key now bytes)) where
  distinct := by
    rw [List.map_map]
    simp only [Function.comp_def, key_seen]
    exact h.indexes.distinct
  serials := by
    rw [List.map_map]
    simp only [Function.comp_def, serial_seen]
    exact h.indexes.serials
  sorted := h.sorted_reindex hknown now
  filed := h.filed_reindex hknown now bytes

theorem Indexed.refresh : (table.account key now bytes).1.Indexed := by
  rw [h.account_of_known hknown]
  refine ⟨h.indexes_reindex hknown now bytes, ?_⟩
  intro flow hflow
  obtain ⟨other, hother, rfl⟩ := List.mem_map.1 hflow
  rw [serial_seen]
  exact h.serial_lt other hother

end Known

/-- A packet moves no flow past the present time. -/
theorem Indexed.lastSeen_account {table : FlowTable} (h : table.Indexed) (key : FlowKey)
    {now : Timestamp} (bytes : Nat) (hnow : ∀ flow ∈ table.flows, flow.entry.lastSeen ≤ now) :
    ∀ flow ∈ (table.account key now bytes).1.flows, flow.entry.lastSeen ≤ now := by
  intro flow hflow
  cases hfound : table.find? key with
  | some known =>
    rw [h.account_of_known hfound] at hflow
    obtain ⟨other, hother, rfl⟩ := List.mem_map.1 hflow
    unfold seen
    split
    · rw [Flow.record, FlowEntry.lastSeen_record]
      exact Timestamp.max_le (hnow other hother) (Nat.le_refl _)
    · exact hnow other hother
  | none =>
    rw [(h.open hfound now bytes).1] at hflow
    rcases List.mem_append.1 hflow with hmem | hmem
    · exact hnow flow (List.mem_of_mem_filter hmem)
    · rw [List.mem_singleton.1 hmem]
      exact Nat.le_refl _

theorem Indexed.account {table : FlowTable} (h : table.Indexed) (key : FlowKey) (now : Timestamp)
    (bytes : Nat) : (table.account key now bytes).1.Indexed := by
  cases hfound : table.find? key with
  | some flow => exact h.refresh hfound now bytes
  | none => exact (h.open hfound now bytes).2.2

end FlowTable

end Dissection
