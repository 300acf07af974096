import Dissection.Flow.Table
import Dissection.Proofs.IdleOrder

/-!
# The index of a flow table

The index holds one slot for every flow, and nothing else: it is the slots of the flows in idle
order. So the flow that the slot in front leads to is the one idle for longest, and expiry, which
looks at the front of the index alone, removes exactly the flows that have been idle for too long.
-/

namespace Dissection

def IdleSlot.undirected (slot : IdleSlot) : IdleSlot :=
  { slot with key := ⟨slot.key.identity, .forward⟩ }

/-- The slot that a flow has in an index, without the direction of its key. -/
def Flow.slot (flow : Flow) : IdleSlot :=
  ⟨flow.entry.lastSeen, flow.serial, ⟨flow.key.identity, .forward⟩⟩

theorem Flow.slot_eq_iff {flow : Flow} {slot : IdleSlot} :
    flow.slot = slot.undirected ↔ flow.entry.lastSeen = slot.lastSeen ∧
      flow.serial = slot.serial ∧ flow.key.identity = slot.key.identity := by
  simp [Flow.slot, IdleSlot.undirected]

namespace FlowTable

theorem isFlowOf_iff {key : FlowKey} {flow : Flow} :
    isFlowOf key flow = true ↔ flow.key.identity = key.identity := decide_eq_true_iff

/-- The slots are an index of the flows, which are in the order in which they were opened. -/
structure Indexes (slots : List IdleSlot) (flows : List Flow) : Prop where
  distinct : (flows.map (fun flow => flow.key.identity)).Nodup
  serials : (flows.map Flow.serial).Pairwise (· < ·)
  sorted : slots.Pairwise Idle.Before
  filed : (slots.map IdleSlot.undirected).Perm (flows.map Flow.slot)

theorem indexes_nil : Indexes [] [] := ⟨.nil, .nil, .nil, .nil⟩

section Indexes

variable {slots : List IdleSlot} {flows : List Flow} (h : Indexes slots flows)

include h

theorem Indexes.eq_of_identity {a b : Flow} (ha : a ∈ flows) (hb : b ∈ flows)
    (hsame : a.key.identity = b.key.identity) : a = b :=
  List.inj_on_of_nodup_map h.distinct ha hb hsame

theorem Indexes.eq_of_serial {a b : Flow} (ha : a ∈ flows) (hb : b ∈ flows)
    (hsame : a.serial = b.serial) : a = b :=
  List.inj_on_of_nodup_map (h.serials.imp Nat.ne_of_lt) ha hb hsame

theorem Indexes.exists_flow {slot : IdleSlot} (hslot : slot ∈ slots) :
    ∃ flow ∈ flows, flow.slot = slot.undirected :=
  List.mem_map.1 (h.filed.subset (List.mem_map_of_mem hslot))

theorem Indexes.exists_slot {flow : Flow} (hflow : flow ∈ flows) :
    ∃ slot ∈ slots, flow.slot = slot.undirected := by
  obtain ⟨slot, hslot, heq⟩ := List.mem_map.1 (h.filed.symm.subset (List.mem_map_of_mem hflow))
  exact ⟨slot, hslot, heq.symm⟩

theorem Indexes.find?_eq_some_iff {key : FlowKey} {flow : Flow} :
    flows.find? (isFlowOf key) = some flow ↔
      flow ∈ flows ∧ flow.key.identity = key.identity := by
  constructor
  · intro hfound
    exact ⟨List.mem_of_find?_eq_some hfound, isFlowOf_iff.1 (List.find?_some hfound)⟩
  · rintro ⟨hflow, hkey⟩
    cases hfound : flows.find? (isFlowOf key) with
    | none => exact absurd (isFlowOf_iff.2 hkey) (List.find?_eq_none.1 hfound flow hflow)
    | some found =>
      have hsame := isFlowOf_iff.1 (List.find?_some hfound)
      rw [h.eq_of_identity (List.mem_of_find?_eq_some hfound) hflow (hsame.trans hkey.symm)]

theorem Indexes.perm_cons {flow : Flow} (hflow : flow ∈ flows) :
    flows.Perm (flow :: flows.filter (· != flow)) := by
  rw [← (List.Nodup.of_map _ h.distinct).erase_eq_filter]
  exact List.perm_cons_erase hflow

theorem Indexes.filter_not_isFlowOf {flow : Flow} (hflow : flow ∈ flows) {key : FlowKey}
    (hkey : flow.key.identity = key.identity) :
    flows.filter (!isFlowOf key ·) = flows.filter (· != flow) := by
  refine List.filter_congr ?_
  intro other hother
  by_cases hsame : other = flow
  · simp [hsame, isFlowOf, hkey]
  · have hne : other.key.identity ≠ key.identity :=
      fun heq => hsame (h.eq_of_identity hother hflow (heq.trans hkey.symm))
    simp [isFlowOf, hsame, hne]

/-- Some of the flows, with some of the slots that keep to the idle order. -/
theorem Indexes.sublist {fewer : List Flow} (hflows : fewer.Sublist flows) {left : List IdleSlot}
    (hslots : left.Sublist slots)
    (hfiled : (left.map IdleSlot.undirected).Perm (fewer.map Flow.slot)) :
    Indexes left fewer where
  distinct := h.distinct.sublist (hflows.map _)
  serials := h.serials.sublist (hflows.map _)
  sorted := h.sorted.sublist hslots
  filed := hfiled

end Indexes

/-- The slot in front leads to the flow that is first in idle order. -/
theorem Indexes.front {oldest : IdleSlot} {later : List IdleSlot} {flows : List Flow}
    (h : Indexes (oldest :: later) flows) :
    ∃ flow, flows.find? (isFlowOf oldest.key) = some flow ∧ flow.slot = oldest.undirected ∧
      Idle.arranged flows = flow :: Idle.arranged (flows.filter (· != flow)) ∧
      Indexes later (flows.filter (· != flow)) := by
  obtain ⟨flow, hflow, hslot⟩ := h.exists_flow List.mem_cons_self
  have hrest : Indexes later (flows.filter (· != flow)) := by
    refine h.sublist List.filter_sublist (List.sublist_cons_self _ _) ?_
    have hfiled := h.filed.trans ((h.perm_cons hflow).map Flow.slot)
    rw [List.map_cons, List.map_cons, hslot] at hfiled
    exact hfiled.cons_inv
  refine ⟨flow, h.find?_eq_some_iff.2 ⟨hflow, (Flow.slot_eq_iff.1 hslot).2.2⟩, hslot, ?_, hrest⟩
  have hfirst : ∀ other ∈ flows.filter (· != flow), Idle.Before flow other := by
    intro other hother
    obtain ⟨slot, hmem, heq⟩ := hrest.exists_slot hother
    have hbefore : Idle.Before oldest.undirected slot.undirected :=
      (List.pairwise_cons.1 h.sorted).1 slot hmem
    rw [← hslot, ← heq] at hbefore
    exact hbefore
  refine Idle.eq_of_perm (Idle.pairwise_arranged (List.pairwise_map.1 h.serials)) ?_ ?_
  · refine List.pairwise_cons.2 ⟨?_, Idle.pairwise_arranged (List.pairwise_map.1 hrest.serials)⟩
    intro other hother
    exact hfirst other ((Idle.perm_arranged _).subset hother)
  · exact ((Idle.perm_arranged flows).trans (h.perm_cons hflow)).trans
      ((Idle.perm_arranged _).symm.cons flow)

end FlowTable

end Dissection
