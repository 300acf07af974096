import Dissection.Proofs.Registry.Freeze
import Dissection.Proofs.Scan.Indexed
import Dissection.Proofs.Scan.Layout

/-!
# One more binding

A binding that is added to a registry becomes one more edge of the frozen registry, behind the edges
of the same priority and in front of those with smaller ones. When there is such an edge already,
the new one is never the first to hold. Then a scan can only tell that it is there where its
predicate fails.
-/

namespace Dissection

/-- An edge that answers, and that holds only when one in front of it does, makes no difference. -/
theorem BindingContext.select_append_cons {context : BindingContext} {front back : List Binding}
    {extra : Binding} (h : extra.predicate context = .ok false ∨
      ∃ edge ∈ front, edge.predicate context = .ok true) :
    context.select (front ++ extra :: back) = context.select (front ++ back) := by
  induction front with
  | nil =>
    have hfalse : extra.predicate context = .ok false := by simpa using h
    rw [List.nil_append, List.nil_append, select, hfalse]
  | cons first front ih =>
    rw [List.cons_append, List.cons_append, select, select]
    cases hanswer : first.predicate context with
    | error error =>
      rw [ih (h.imp_right fun hfirst => by simpa [hanswer] using hfirst)]
    | ok holds =>
      cases holds with
      | true => rfl
      | false => exact ih (h.imp_right fun hfirst => by simpa [hanswer] using hfirst)

namespace Binding

variable {extra : Binding}

/-- `longer` is `edges` with `extra` among them, in front of all edges with smaller priorities. -/
def Inserts (edges : List Binding) (extra : Binding) (longer : List Binding) : Prop :=
  ∃ front back, edges = front ++ back ∧ longer = front ++ extra :: back ∧
    ∀ edge ∈ back, edge.priority < extra.priority

theorem Inserts.cons {edges longer : List Binding} (h : Inserts edges extra longer)
    (first : Binding) : Inserts (first :: edges) extra (first :: longer) := by
  obtain ⟨front, back, rfl, rfl, hback⟩ := h
  exact ⟨first :: front, back, rfl, rfl, hback⟩

theorem inserts_place {front back : List Binding} (edge : Binding)
    (hback : ∀ other ∈ back, other.priority < extra.priority) :
    Inserts (place edge (front ++ back)) extra (place edge (front ++ extra :: back)) := by
  induction front with
  | nil =>
    by_cases hle : extra.priority ≤ edge.priority
    · have hplaced : place edge back = edge :: back :=
        place_of_le fun other hother => Int.le_trans (Int.le_of_lt (hback other hother)) hle
      refine ⟨[edge], back, hplaced, ?_, hback⟩
      rw [List.nil_append, place, if_pos hle]
      rfl
    · refine ⟨[], place edge back, rfl, ?_, fun other hother => ?_⟩
      · rw [List.nil_append, place, if_neg hle]
        rfl
      · rcases mem_place.1 hother with rfl | hother
        · exact Int.lt_of_not_ge hle
        · exact hback other hother
  | cons first front ih =>
    rw [List.cons_append, List.cons_append, place, place]
    split
    · exact ⟨edge :: first :: front, back, rfl, rfl, hback⟩
    · exact ih.cons first

/-- The last edge is ranked in front of the edges with smaller priorities. -/
theorem inserts_ranked_concat (edges : List Binding) (extra : Binding) :
    Inserts (ranked edges) extra (ranked (edges ++ [extra])) := by
  induction edges with
  | nil => exact ⟨[], [], rfl, rfl, by simp⟩
  | cons edge rest ih =>
    obtain ⟨front, back, hrest, hlonger, hback⟩ := ih
    change Inserts (place edge (ranked rest)) extra (place edge (ranked (rest ++ [extra])))
    rw [hrest, hlonger]
    exact inserts_place edge hback

end Binding

namespace ProtocolTable

variable {table : ProtocolTable}

theorem edges_concat (sequence : Nat) (pending : List PendingBinding) (last : PendingBinding) :
    table.edges sequence (pending ++ [last]) =
      (table.edges sequence pending).bind fun edges =>
        (table.edge (sequence + pending.length) last).map fun extra => edges ++ [extra] := by
  induction pending generalizing sequence with
  | nil =>
    simp only [List.nil_append, edges]
    cases table.edge sequence last <;> rfl
  | cons first rest ih =>
    have hlength : sequence + 1 + rest.length = sequence + (first :: rest).length := by
      rw [List.length_cons]
      omega
    rw [List.cons_append, edges, edges, ih, hlength]
    cases table.edge sequence first with
    | error error => rfl
    | ok edge =>
      cases table.edges (sequence + 1) rest with
      | error error => rfl
      | ok later => cases table.edge (sequence + (first :: rest).length) last <;> rfl

end ProtocolTable

/-- The frozen registry `longer` has one more edge than `registry`, in front of all edges with
smaller priorities. -/
structure FrozenRegistry.Extends (longer : FrozenRegistry) (extra : Binding)
    (registry : FrozenRegistry) : Prop where
  table : longer.table = registry.table
  edges : Binding.Inserts registry.edges extra longer.edges

/-- A binding that has an edge makes no difference to whether a registry can be frozen. -/
theorem Registry.freeze_addBinding {registry : Registry} {source target : String} {priority : Int}
    {predicate : Predicate} {extra : Binding}
    (h : registry.table.edge registry.pending.length ⟨source, target, priority, predicate⟩ =
      .ok extra) :
    let again := registry.addBinding source target priority predicate
    (∀ error, again.freeze = .error error ↔ registry.freeze = .error error) ∧
      ∀ frozen longer, registry.freeze = .ok frozen → again.freeze = .ok longer →
        longer.Extends extra frozen := by
  intro again
  have hedges : again.table.edges 0 again.pending =
      (registry.table.edges 0 registry.pending).map (· ++ [extra]) := by
    change registry.table.edges 0 (registry.pending ++ [_]) = _
    rw [ProtocolTable.edges_concat, Nat.zero_add, h]
    cases registry.table.edges 0 registry.pending <;> rfl
  constructor
  · intro error
    rw [freeze_eq_error_iff, freeze_eq_error_iff, hedges]
    cases registry.table.edges 0 registry.pending <;> simp [Except.map]
  · intro frozen longer hfrozen hlonger
    obtain ⟨htable, edges, hok, hranked⟩ := exists_edges_of_freeze hfrozen
    obtain ⟨htable', edges', hok', hranked'⟩ := exists_edges_of_freeze hlonger
    rw [hedges, hok] at hok'
    obtain rfl : edges ++ [extra] = edges' := Except.ok.inj hok'
    refine ⟨htable'.trans htable.symm, ?_⟩
    rw [hranked, hranked']
    exact Binding.inserts_ranked_concat edges extra

namespace FrozenRegistry

theorem ScansAs.scanIndexed_eq {registry other : FrozenRegistry} (h : registry.ScansAs other)
    (config : ScanConfig) (root : ProtocolId) (data : Bytes) :
    registry.scanIndexed config root data = other.scanIndexed config root data := by
  rw [FrozenRegistry.scanIndexed_eq, FrozenRegistry.scanIndexed_eq, h.scan_eq]

namespace Extends

variable {longer registry : FrozenRegistry} {extra : Binding} (h : longer.Extends extra registry)

include h

theorem bindingsFrom_eq {source : ProtocolId} (hsource : source ≠ extra.source) :
    longer.bindingsFrom source = registry.bindingsFrom source := by
  obtain ⟨front, back, hedges, hlonger, -⟩ := h.edges
  rw [bindingsFrom, bindingsFrom, hedges, hlonger, List.filter_append, List.filter_append,
    List.filter_cons_of_neg (by simpa using hsource.symm)]

theorem bindingsFrom_source :
    Binding.Inserts (registry.bindingsFrom extra.source) extra
      (longer.bindingsFrom extra.source) := by
  obtain ⟨front, back, hedges, hlonger, hback⟩ := h.edges
  refine ⟨front.filter (·.source = extra.source), back.filter (·.source = extra.source), ?_, ?_,
    fun edge hedge => hback edge (List.mem_filter.1 hedge).1⟩
  · rw [bindingsFrom, hedges, List.filter_append]
  · rw [bindingsFrom, hlonger, List.filter_append, List.filter_cons_of_pos (by simp)]

/-- An edge that is there already, but for its number, selects nothing that was not selected before.
Where it is tried its predicate has to answer. -/
theorem selectNext_eq (hknown : ∃ edge ∈ registry.edges, edge.unsequenced = extra.unsequenced)
    {context : BindingContext} (hanswers : context.current.protocol = extra.source →
      ∃ holds, extra.predicate context = .ok holds) :
    longer.selectNext context = registry.selectNext context := by
  rw [selectNext, selectNext]
  by_cases hsource : context.current.protocol = extra.source
  · obtain ⟨holds, hanswer⟩ := hanswers hsource
    obtain ⟨original, horiginal, hsame⟩ := hknown
    simp only [Binding.unsequenced, Binding.mk.injEq] at hsame
    obtain ⟨hfrom, -, hpriority, -, hpredicate⟩ := hsame
    obtain ⟨front, back, hedges, hlonger, hback⟩ := h.bindingsFrom_source
    rw [hsource, hedges, hlonger]
    apply BindingContext.select_append_cons
    cases holds with
    | false => exact .inl hanswer
    | true =>
      have hmem : original ∈ front ++ back := by
        rw [← hedges, mem_bindingsFrom]
        exact ⟨horiginal, hfrom⟩
      rcases List.mem_append.1 hmem with hfront | hbehind
      · exact .inr ⟨original, hfront, hpredicate ▸ hanswer⟩
      · exact absurd hpriority (Int.ne_of_lt (hback original hbehind))
  · rw [h.bindingsFrom_eq hsource]

end Extends

end FrozenRegistry

end Dissection
