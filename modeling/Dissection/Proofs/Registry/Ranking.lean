import Dissection.Proofs.Scan.Rules

/-!
# What the sequence numbers of edges are for

A sequence number says where the binding of an edge stood among those that were added, and it only
breaks ties: the edges of one protocol are ranked by what that protocol's own bindings are and by
the order among these. Registries that differ in nothing but sequence numbers scan alike.
-/

namespace Dissection

namespace Binding

/-- What an edge says to those who try it. -/
def rule (edge : Binding) : ProtocolId × Int × Predicate :=
  (edge.target, edge.priority, edge.predicate)

def unsequenced (edge : Binding) : Binding := { edge with sequence := 0 }

variable {edge : Binding} {edges : List Binding}

theorem map_place {f : Binding → Binding} (hf : ∀ edge, (f edge).priority = edge.priority)
    (edge : Binding) (edges : List Binding) :
    (place edge edges).map f = place (f edge) (edges.map f) := by
  induction edges with
  | nil => rfl
  | cons other rest ih =>
    rw [List.map_cons, place, place, hf, hf]
    split
    · rfl
    · rw [List.map_cons, ih]

theorem map_ranked {f : Binding → Binding} (hf : ∀ edge, (f edge).priority = edge.priority)
    (edges : List Binding) : (ranked edges).map f = ranked (edges.map f) := by
  induction edges with
  | nil => rfl
  | cons edge rest ih =>
    change (place edge (ranked rest)).map f = place (f edge) (ranked (rest.map f))
    rw [map_place hf, ih]

theorem place_of_le (h : ∀ other ∈ edges, other.priority ≤ edge.priority) :
    place edge edges = edge :: edges := by
  cases edges with
  | nil => rfl
  | cons other rest => exact if_pos (h other List.mem_cons_self)

theorem pairwise_priority_place (h : edges.Pairwise (fun a b => b.priority ≤ a.priority)) :
    (place edge edges).Pairwise (fun a b => b.priority ≤ a.priority) := by
  induction edges with
  | nil => exact List.pairwise_singleton _ _
  | cons other rest ih =>
    obtain ⟨hother, hrest⟩ := List.pairwise_cons.1 h
    rw [place]
    split
    · next hle =>
      refine List.pairwise_cons.2 ⟨List.forall_mem_cons.2 ⟨hle, fun x hx => ?_⟩, h⟩
      exact Int.le_trans (hother x hx) hle
    · next hlt =>
      refine List.pairwise_cons.2 ⟨fun x hx => ?_, ih hrest⟩
      rcases mem_place.1 hx with rfl | hx
      · omega
      · exact hother x hx

theorem pairwise_priority_ranked (edges : List Binding) :
    (ranked edges).Pairwise (fun a b => b.priority ≤ a.priority) := by
  induction edges with
  | nil => exact .nil
  | cons edge rest ih => exact pairwise_priority_place ih

theorem filter_place (keeps : Binding → Bool)
    (h : edges.Pairwise (fun a b => b.priority ≤ a.priority)) :
    (place edge edges).filter keeps =
      if keeps edge then place edge (edges.filter keeps) else edges.filter keeps := by
  induction edges with
  | nil => cases hkeeps : keeps edge <;> simp [place, hkeeps]
  | cons other rest ih =>
    obtain ⟨hother, hrest⟩ := List.pairwise_cons.1 h
    rw [place]
    split
    -- The edge goes to the front, where nothing that is kept has a greater priority.
    · next hle =>
      have hbelow : ∀ x ∈ (other :: rest).filter keeps, x.priority ≤ edge.priority := by
        intro x hx
        rcases List.mem_cons.1 (List.mem_filter.1 hx).1 with rfl | hx
        · exact hle
        · exact Int.le_trans (hother x hx) hle
      rw [place_of_le hbelow, List.filter_cons]
    · next hlt =>
      rw [List.filter_cons, List.filter_cons, ih hrest]
      by_cases hkeeps : keeps other = true
      · simp only [hkeeps, if_true, place, if_neg hlt]
        split <;> rfl
      · simp only [hkeeps]
        rfl

/-- Ranking the edges that are kept keeps their ranking. -/
theorem filter_ranked (keeps : Binding → Bool) (edges : List Binding) :
    (ranked edges).filter keeps = ranked (edges.filter keeps) := by
  induction edges with
  | nil => rfl
  | cons edge rest ih =>
    change (place edge (ranked rest)).filter keeps = _
    rw [filter_place keeps (pairwise_priority_ranked rest), ih, List.filter_cons]
    split <;> rfl

end Binding

theorem BindingContext.select_unsequenced (context : BindingContext) (edges : List Binding) :
    context.select (edges.map Binding.unsequenced) = context.select edges := by
  induction edges with
  | nil => rfl
  | cons edge rest ih =>
    rw [List.map_cons, select, select, ih]
    rfl

namespace ProtocolTable

variable {table : ProtocolTable} {pending : List PendingBinding} {edges : List Binding}

/-- The edge of a pending binding, when it has one, without a sequence number. -/
def edge? (table : ProtocolTable) (pending : PendingBinding) : Option Binding :=
  (table.edge 0 pending).toOption

def edgesFrom (table : ProtocolTable) (source : ProtocolId) (pending : List PendingBinding) :
    List Binding :=
  (pending.filterMap table.edge?).filter (·.source = source)

theorem edgesFrom_flatMap {α : Type} (table : ProtocolTable) (source : ProtocolId) (xs : List α)
    (f : α → List PendingBinding) :
    table.edgesFrom source (xs.flatMap f) = xs.flatMap (fun x => table.edgesFrom source (f x)) := by
  simp only [edgesFrom, List.filterMap_flatMap, List.filter_flatMap]

theorem edge_eq (table : ProtocolTable) (sequence : Nat) (pending : PendingBinding) :
    table.edge sequence pending =
      (table.edge 0 pending).map (fun edge => { edge with sequence := sequence }) := by
  simp only [edge]
  cases table.resolve? pending.source with
  | none => rfl
  | some source =>
    cases table.resolve? pending.declaration.target with
    | none => rfl
    | some target =>
      simp only
      split <;> rfl

theorem edge?_of_edge {sequence : Nat} {pending : PendingBinding} {edge : Binding}
    (h : table.edge sequence pending = .ok edge) : table.edge? pending = some edge.unsequenced := by
  rw [edge_eq] at h
  rw [edge?]
  cases hedge : table.edge 0 pending with
  | error error =>
    rw [hedge] at h
    cases h
  | ok first =>
    have hzero := (admits_of_edge hedge).2
    rw [hedge] at h
    cases h
    rw [Binding.unsequenced, ← hzero]
    rfl

/-- The source of an edge is the protocol that the source text of its binding refers to. -/
theorem resolve?_of_edge? {pending : PendingBinding} {edge : Binding}
    (h : table.edge? pending = some edge) : table.resolve? pending.source = some edge.source := by
  simp only [edge?, ProtocolTable.edge] at h
  cases hsource : table.resolve? pending.source with
  | none => simp [hsource, Except.toOption] at h
  | some source =>
    cases htarget : table.resolve? pending.declaration.target with
    | none => simp [hsource, htarget, Except.toOption] at h
    | some target =>
      simp only [hsource, htarget] at h
      split at h
      · cases h
      · cases h
        rfl

theorem edges_unsequenced {sequence : Nat} (h : table.edges sequence pending = .ok edges) :
    edges.map Binding.unsequenced = pending.filterMap table.edge? := by
  induction pending generalizing sequence edges with
  | nil =>
    cases h
    rfl
  | cons first rest ih =>
    obtain ⟨edge, later, hedge, hlater, rfl⟩ := edges_cons_eq_ok h
    rw [List.map_cons, List.filterMap_cons_some (edge?_of_edge hedge), ih hlater]

/-- There are edges exactly when every pending binding has one. -/
theorem exists_edges_iff (sequence : Nat) :
    (∃ edges, table.edges sequence pending = .ok edges) ↔
      ∀ binding ∈ pending, (table.edge? binding).isSome = true := by
  induction pending generalizing sequence with
  | nil => exact ⟨fun _ binding hnone => absurd hnone List.not_mem_nil, fun _ => ⟨[], rfl⟩⟩
  | cons first rest ih =>
    rw [List.forall_mem_cons, ← ih (sequence + 1), edges, edge_eq, edge?]
    cases table.edge 0 first with
    | error error => simp [Except.map, Except.toOption]
    | ok edge =>
      cases table.edges (sequence + 1) rest with
      | error error => simp [Except.map]
      | ok later => simp [Except.map, Except.toOption]

end ProtocolTable

namespace Registry

variable {registry : Registry} {frozen : FrozenRegistry}

theorem exists_edges_of_freeze (h : registry.freeze = .ok frozen) :
    frozen.table = registry.table ∧ ∃ edges, registry.table.edges 0 registry.pending = .ok edges ∧
      frozen.edges = Binding.ranked edges := by
  rw [freeze] at h
  split at h
  · cases h
  · next edges hedges =>
    cases h
    exact ⟨rfl, edges, hedges, rfl⟩

/-- Freezing succeeds exactly when every pending binding has an edge. -/
theorem exists_freeze_iff :
    (∃ frozen, registry.freeze = .ok frozen) ↔
      ∀ binding ∈ registry.pending, (registry.table.edge? binding).isSome = true := by
  rw [← ProtocolTable.exists_edges_iff 0]
  constructor
  · rintro ⟨frozen, hfrozen⟩
    obtain ⟨-, edges, hedges, -⟩ := exists_edges_of_freeze hfrozen
    exact ⟨edges, hedges⟩
  · rintro ⟨edges, hedges⟩
    rw [freeze]
    split
    · next error herror =>
      rw [hedges] at herror
      cases herror
    · exact ⟨_, rfl⟩

/-- The edges from a protocol are those of the pending bindings that it is the source of, ranked
among themselves. -/
theorem bindingsFrom_unsequenced (h : registry.freeze = .ok frozen) (source : ProtocolId) :
    (frozen.bindingsFrom source).map Binding.unsequenced =
      Binding.ranked (registry.table.edgesFrom source registry.pending) := by
  obtain ⟨-, edges, hedges, hranked⟩ := exists_edges_of_freeze h
  have hfilter (edges : List Binding) :
      (edges.filter (·.source = source)).map Binding.unsequenced =
        (edges.map Binding.unsequenced).filter (·.source = source) := by
    rw [List.filter_map]
    rfl
  rw [FrozenRegistry.bindingsFrom, hranked, hfilter,
    Binding.map_ranked (f := Binding.unsequenced) (fun _ => rfl),
    ProtocolTable.edges_unsequenced hedges, Binding.filter_ranked]
  rfl

end Registry

namespace FrozenRegistry

/-- The same protocols follow the headers that are placed, and with the same diagnostics. -/
structure ScansAs (registry other : FrozenRegistry) : Prop where
  lookup : ∀ id, registry.lookup id = other.lookup id
  selectNext : ∀ {data earlier protocol offset current},
    registry.Places data earlier protocol offset current →
      registry.selectNext ⟨data, earlier, current⟩ = other.selectNext ⟨data, earlier, current⟩

namespace ScansAs

variable {registry other : FrozenRegistry} (h : registry.ScansAs other)

include h

theorem walk_eq (data : Bytes) (budget : Nat) (earlier : List HeaderRecord) (protocol : ProtocolId)
    (offset : Nat) :
    registry.walk data budget earlier protocol offset =
      other.walk data budget earlier protocol offset := by
  induction budget generalizing earlier protocol offset with
  | zero => rfl
  | succ budget ih =>
    rw [walk, walk, headerLength, headerLength, ← h.lookup]
    cases hlookup : registry.lookup protocol with
    | none => rfl
    | some descriptor =>
      cases hlength : descriptor.length.resolve protocol data offset with
      | error error => simp only [hlength]
      | ok length =>
        have hplaced : registry.Places data earlier protocol offset
            ⟨protocol, offset, length, earlier.countP (·.protocol = protocol)⟩ :=
          ⟨descriptor, length, hlookup, hlength, rfl⟩
        simp only [hlength, h.selectNext hplaced, ih]

theorem scan_eq (config : ScanConfig) (root : ProtocolId) (data : Bytes) :
    registry.scan config root data = other.scan config root data := by
  have hcontains : registry.contains root = other.contains root :=
    congrArg Option.isSome (h.lookup root)
  simp only [scan, hcontains, h.walk_eq]

end ScansAs

/-- The registries have the same protocols, and their edges differ in sequence numbers alone. -/
structure Alike (registry other : FrozenRegistry) : Prop where
  lookup : ∀ id, registry.lookup id = other.lookup id
  edges : ∀ source, (registry.bindingsFrom source).map Binding.unsequenced =
    (other.bindingsFrom source).map Binding.unsequenced

namespace Alike

variable {registry other : FrozenRegistry} (h : registry.Alike other)

include h

theorem rules_eq (source : ProtocolId) :
    (registry.bindingsFrom source).map Binding.rule =
      (other.bindingsFrom source).map Binding.rule := by
  have hrules := congrArg (List.map Binding.rule) (h.edges source)
  rwa [List.map_map, List.map_map] at hrules

theorem selectNext_eq (context : BindingContext) :
    registry.selectNext context = other.selectNext context := by
  rw [selectNext, selectNext, ← BindingContext.select_unsequenced, h.edges,
    BindingContext.select_unsequenced]

theorem scansAs : registry.ScansAs other where
  lookup := h.lookup
  selectNext _ := h.selectNext_eq _

end Alike

end FrozenRegistry

end Dissection
