import Dissection.Proofs.Registry.Ranking
import Dissection.Registry.Graph
import Mathlib.Data.List.Nodup

/-!
# Edges in buckets

Filing edges by their sources keeps, for every source, the edges that leave it in the order in which
they are given. Numbered edges have one order in which they are tried, so a bucket that is sorted
holds its edges ranked.
-/

namespace Dissection

namespace Binding

theorem perm_place (edge : Binding) (edges : List Binding) :
    (place edge edges).Perm (edge :: edges) := by
  induction edges with
  | nil => exact .refl _
  | cons other rest ih =>
    rw [place]
    split
    · exact .refl _
    · exact (ih.cons other).trans (.swap _ _ _)

theorem perm_ranked (edges : List Binding) : (ranked edges).Perm edges := by
  induction edges with
  | nil => exact .refl _
  | cons edge rest ih => exact (perm_place edge (ranked rest)).trans (ih.cons edge)

theorem ranksUpTo_iff {a b : Binding} :
    a.ranksUpTo b = true ↔
      b.priority < a.priority ∨ a.priority = b.priority ∧ a.sequence ≤ b.sequence := by
  rw [ranksUpTo, decide_eq_true_iff]

/-- Sorting numbered edges ranks them. -/
theorem mergeSort_eq_ranked {edges : List Binding}
    (h : edges.Pairwise (fun a b => a.sequence < b.sequence)) :
    edges.mergeSort ranksUpTo = ranked edges := by
  have hsorted : (edges.mergeSort ranksUpTo).Pairwise (fun a b => a.ranksUpTo b = true) := by
    refine List.pairwise_mergeSort (fun a b c => ?_) (fun a b => ?_) edges
    · simp only [ranksUpTo_iff]
      omega
    · simp only [Bool.or_eq_true, ranksUpTo_iff]
      omega
  have hranked : (ranked edges).Pairwise (fun a b => a.ranksUpTo b = true) :=
    (pairwise_ranked h).imp fun hbefore => ranksUpTo_iff.2 (hbefore.imp_right
      (And.imp_right Nat.le_of_lt))
  have hdistinct : (edges.map Binding.sequence).Nodup :=
    List.pairwise_map.2 (h.imp Nat.ne_of_lt)
  refine ((List.mergeSort_perm edges _).trans (perm_ranked edges).symm).eq_of_pairwise ?_
    hsorted hranked
  intro a b ha hb hab hba
  rw [ranksUpTo_iff] at hab hba
  exact List.inj_on_of_nodup_map hdistinct (List.mem_mergeSort.1 ha) (mem_ranked.1 hb) (by omega)

end Binding

namespace BindingGraph

/-- A bucket grows by the edges whose source is its number. -/
theorem getElem?_foldl_file (edges : List Binding) (buckets : List (List Binding)) (index : Nat) :
    (edges.foldl file buckets)[index]? =
      buckets[index]?.map (· ++ edges.filter (·.source.index = index)) := by
  induction edges generalizing buckets with
  | nil => simp
  | cons edge rest ih =>
    rw [List.foldl_cons, ih, file, List.getElem?_modify, Option.map_eq_map,
      Option.map_map, List.filter_cons]
    by_cases hsource : edge.source.index = index <;> simp [hsource, Function.comp_def]

/-- The edges that leave a protocol are ranked among themselves, when every edge has a bucket. -/
theorem bindingsFrom_ofEdges {capacity : Nat} {edges : List Binding}
    (hnumbered : edges.Pairwise (fun a b => a.sequence < b.sequence))
    (hinside : ∀ edge ∈ edges, edge.source.index < capacity) (source : ProtocolId) :
    (ofEdges capacity edges).bindingsFrom source =
      Binding.ranked (edges.filter (·.source = source)) := by
  rw [bindingsFrom, ofEdges, List.getD_eq_getElem?_getD, List.getElem?_map, getElem?_foldl_file,
    List.getElem?_replicate]
  split
  · simp only [Option.map_some, Option.getD_some, List.nil_append, ProtocolId.index_inj]
    exact Binding.mergeSort_eq_ranked (hnumbered.filter _)
  · next hbeyond =>
    have hnone : edges.filter (·.source = source) = [] := by
      rw [List.filter_eq_nil_iff]
      intro edge hedge hsource
      exact hbeyond (of_decide_eq_true hsource ▸ hinside edge hedge)
    rw [hnone]
    rfl

end BindingGraph

end Dissection
