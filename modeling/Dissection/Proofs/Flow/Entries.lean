import Dissection.Proofs.Flow.Operation
import Mathlib.Data.List.Forall2

/-!
# The flows of one key

Of every key a table has one flow at most. What an operation does to that flow, wherever it is
afterwards, depends on the packets of the key alone: expiry and packets of other flows leave it as
it is and only decide whether it stays in the table.
-/

namespace Dissection

theorem filter_append_filter_not {α : Type} (thing : Option α) (p : α → Bool) :
    thing.toList.filter p ++ thing.toList.filter (!p ·) = thing.toList := by
  cases thing with
  | none => rfl
  | some thing => cases h : p thing <;> simp [h]

theorem forall₂_concat {α β : Type} {R : α → β → Prop} {things : List α} {others : List β}
    {last : β} (h : List.Forall₂ R things (others ++ [last])) :
    ∃ earlier latest, things = earlier ++ [latest] ∧ List.Forall₂ R earlier others ∧
      R latest last := by
  have hearlier := List.forall₂_take_append things others [last] h
  have hlatest := List.forall₂_drop_append things others [last] h
  obtain ⟨latest, rest, hR, hrest, hdrop⟩ := List.forall₂_cons_right_iff.1 hlatest
  rw [List.forall₂_nil_right_iff.1 hrest] at hdrop
  refine ⟨things.take others.length, latest, ?_, hearlier, hR⟩
  rw [← hdrop, List.take_append_drop]

namespace FlowTable

/-- The flows of a key after an operation: those that it removed, and then those in the table. -/
def entriesOf (key : FlowKey) (result : FlowTable × List Flow) : List Flow :=
  result.2.filter (isFlowOf key) ++ result.1.flows.filter (isFlowOf key)

theorem isFlowOf_congr {key other : FlowKey} (h : other.identity = key.identity) :
    isFlowOf other = isFlowOf key := by
  funext flow
  rw [isFlowOf, isFlowOf, h]

theorem find?_congr (table : FlowTable) {key other : FlowKey} (h : other.identity = key.identity) :
    table.find? other = table.find? key := by
  rw [find?, find?, isFlowOf_congr h]

theorem entriesOf_congr {key other : FlowKey} (h : other.identity = key.identity)
    (result : FlowTable × List Flow) : entriesOf other result = entriesOf key result := by
  rw [entriesOf, entriesOf, isFlowOf_congr h]

section Entries

variable {table : FlowTable} (h : table.Indexed) (key : FlowKey)

include h

theorem Indexed.filter_isFlowOf : table.flows.filter (isFlowOf key) = (table.find? key).toList := by
  cases hfound : table.find? key with
  | none => exact List.filter_eq_nil_iff.2 (List.find?_eq_none.1 hfound)
  | some flow =>
    obtain ⟨hflow, hkey⟩ := h.find?_eq_some_iff.1 hfound
    have hsingle := filter_eq_singleton (List.pairwise_map.1 h.indexes.distinct) hflow
    rwa [hkey] at hsingle

theorem Indexed.entriesOf_expire (now : Timestamp) :
    entriesOf key (table.expire now) = (table.find? key).toList := by
  have harranged : (Idle.arranged table.flows).filter (isFlowOf key) =
      (table.find? key).toList := by
    have hperm := (Idle.perm_arranged table.flows).filter (isFlowOf key)
    rw [h.filter_isFlowOf key] at hperm
    exact eq_toList_of_perm hperm
  rw [h.expire_eq, entriesOf, List.filter_comm, harranged]
  simp only
  rw [List.filter_comm, h.filter_isFlowOf key]
  exact filter_append_filter_not _ _

variable {key} (now : Timestamp) (bytes : Nat)

theorem Indexed.entriesOf_known {flow : Flow} (hknown : table.find? key = some flow) :
    entriesOf key ((table.account key now bytes).1, (table.account key now bytes).2.toList) =
      [flow.record key.direction now bytes] := by
  have hflow : isFlowOf key flow = true := List.find?_some hknown
  rw [h.account_of_known hknown, entriesOf, List.filter_map, isFlowOf_comp_seen,
    h.filter_isFlowOf key, hknown]
  change [seen key now bytes flow] = _
  rw [seen, if_pos hflow]

theorem Indexed.entriesOf_new (hnew : table.find? key = none) :
    entriesOf key ((table.account key now bytes).1, (table.account key now bytes).2.toList) =
      [⟨key, .start key.direction now bytes, table.opened⟩] := by
  obtain ⟨hflows, hevicted, _⟩ := h.open hnew now bytes
  have hother : ∀ flow ∈ table.flows, ¬ isFlowOf key flow = true := List.find?_eq_none.1 hnew
  rw [entriesOf, hflows, hevicted, List.filter_append]
  have hgone : table.evicted?.toList.filter (isFlowOf key) = [] := by
    rw [List.filter_eq_nil_iff]
    intro flow hflow
    exact hother flow (evicted?_mem (Option.mem_toList.1 hflow))
  have hkept : (table.flows.filter (some · != table.evicted?)).filter (isFlowOf key) = [] := by
    rw [List.filter_eq_nil_iff]
    intro flow hflow
    exact hother flow (List.mem_of_mem_filter hflow)
  rw [hgone, hkept, List.filter_cons_of_pos (by simp [isFlowOf])]
  rfl

/-- A packet of another flow may only take the flow of the key out of the table. -/
theorem Indexed.entriesOf_other {other : FlowKey} (hne : other.identity ≠ key.identity) :
    entriesOf key ((table.account other now bytes).1, (table.account other now bytes).2.toList) =
      (table.find? key).toList := by
  cases hfound : table.find? other with
  | some flow =>
    have hkept : ∀ flow, isFlowOf key flow = true → seen other now bytes flow = flow := by
      intro flow hflow
      have hnot : ¬ isFlowOf other flow = true := by
        rw [isFlowOf_iff] at hflow ⊢
        rw [hflow]
        exact hne.symm
      rw [seen, if_neg hnot]
    rw [h.account_of_known hfound, entriesOf, List.filter_map, isFlowOf_comp_seen,
      ← h.filter_isFlowOf key]
    refine (List.map_congr_left ?_).trans (List.map_id _)
    intro flow hflow
    exact hkept flow (List.mem_filter.1 hflow).2
  | none =>
    obtain ⟨hflows, hevicted, _⟩ := h.open hfound now bytes
    have hnew : ¬ isFlowOf key
        ⟨other, .start other.direction now bytes, table.opened⟩ = true := by
      rw [isFlowOf_iff]
      exact hne
    rw [entriesOf, hflows, hevicted, List.filter_append, List.filter_cons_of_neg hnew,
      List.filter_nil, List.append_nil, List.filter_comm (isFlowOf key), h.filter_isFlowOf key]
    cases hevicted : table.evicted? with
    | none =>
      rw [filter_ne_none]
      rfl
    | some gone =>
      -- the flow that makes room is the one of the key, or it is not
      by_cases hgone : isFlowOf key gone = true
      · have hfound : table.find? key = some gone :=
          h.find?_eq_some_iff.2 ⟨evicted?_mem hevicted, isFlowOf_iff.1 hgone⟩
        rw [hfound]
        simp [hgone]
      · have hkept : (table.find? key).toList.filter (some · != some gone) =
            (table.find? key).toList := by
          rw [List.filter_eq_self]
          intro flow hflow
          have hof : isFlowOf key flow = true := List.find?_some (Option.mem_toList.1 hflow)
          rw [bne_iff_ne]
          rintro heq
          cases heq
          exact hgone hof
        rw [hkept, Option.toList_some, List.filter_cons_of_neg hgone]
        rfl

end Entries

end FlowTable

end Dissection
