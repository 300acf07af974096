import Dissection.Layer.Catalogue
import Dissection.Proofs.Registry.Graph
import Dissection.Proofs.Registry.Resolution

/-!
# What freezing keeps

The pending bindings of a registry are those that the calls of its run have recorded: the bindings
of every name when it is registered for the first time, and all that are added. Freezing goes
through them in this order and stops at the first that is at fault. When none is, every recorded
binding has one edge, which stands with the edges of its source and carries the position of the
binding, and there are no other edges. Positions are counted without a width, which only a registry
of more than 2^32 bindings could tell.
-/

namespace Dissection

/-- The first element with a property is the front of a list, or it comes after the front. -/
theorem exists_first_cons_iff {α : Type} {P Q : α → Prop} {x : α} {rest : List α} :
    (∃ before y after, x :: rest = before ++ y :: after ∧ (∀ z ∈ before, P z) ∧ Q y) ↔
      Q x ∨ P x ∧ ∃ before y after, rest = before ++ y :: after ∧ (∀ z ∈ before, P z) ∧ Q y := by
  constructor
  · rintro ⟨_ | ⟨front, before⟩, y, after, heq, hbefore, hy⟩
    · cases heq
      exact .inl hy
    · cases heq
      obtain ⟨hfront, hbefore⟩ := List.forall_mem_cons.1 hbefore
      exact .inr ⟨hfront, before, y, after, rfl, hbefore, hy⟩
  · rintro (hx | ⟨hx, before, y, after, rfl, hbefore, hy⟩)
    · exact ⟨[], x, rest, rfl, by simp, hx⟩
    · exact ⟨x :: before, y, after, rfl, List.forall_mem_cons.2 ⟨hx, hbefore⟩, hy⟩

namespace ProtocolTable

variable {table : ProtocolTable} {pending : List PendingBinding} {sequence : Nat}
  {edges : List Binding}

theorem length_edges (h : table.edges sequence pending = .ok edges) :
    edges.length = pending.length := by
  induction pending generalizing sequence edges with
  | nil =>
    cases h
    rfl
  | cons first rest ih =>
    obtain ⟨edge, later, -, hlater, rfl⟩ := edges_cons_eq_ok h
    rw [List.length_cons, List.length_cons, ih hlater]

/-- The loop ends with the error of the first binding that has one. -/
theorem edges_eq_error_iff {error : RegistryError} :
    table.edges sequence pending = .error error ↔
      ∃ before binding rest, pending = before ++ binding :: rest ∧
        (∀ earlier ∈ before, (table.edge? earlier).isSome = true) ∧
        table.edge 0 binding = .error error := by
  induction pending generalizing sequence with
  | nil => simp [edges]
  | cons first rest ih =>
    rw [exists_first_cons_iff, ← @ih (sequence + 1), edges, edge_eq, edge?]
    cases table.edge 0 first with
    | error firstError => simp [Except.map, Except.toOption]
    | ok edge =>
      simp only [Except.map, Except.toOption, Option.isSome_some, reduceCtorEq, false_or, true_and]
      cases table.edges (sequence + 1) rest <;> simp

/-- The binding at a position has an edge, and no other edge carries its number. -/
theorem exists_edge_of_edges (h : table.edges sequence pending = .ok edges) {position : Nat}
    {binding : PendingBinding} (hposition : pending[position]? = some binding) :
    ∃ edge, table.edge (sequence + position) binding = .ok edge ∧
      edges.filter (·.sequence = sequence + position) = [edge] := by
  induction pending generalizing sequence edges position with
  | nil => simp at hposition
  | cons first rest ih =>
    obtain ⟨edge, later, hedge, hlater, rfl⟩ := edges_cons_eq_ok h
    have hsequence := (admits_of_edge hedge).2
    cases position with
    | zero =>
      cases hposition
      refine ⟨edge, hedge, ?_⟩
      have hnone : later.filter (·.sequence = sequence) = [] := by
        rw [List.filter_eq_nil_iff]
        intro other hother heq
        have hbound := (admits_of_edges hlater other hother).2
        have hsame : other.sequence = sequence := of_decide_eq_true heq
        omega
      simp [hsequence, hnone]
    | succ position =>
      obtain ⟨found, hfound, hfilter⟩ := ih hlater hposition
      have hshift : sequence + 1 + position = sequence + (position + 1) := by omega
      rw [hshift] at hfound hfilter
      refine ⟨found, hfound, ?_⟩
      rw [List.filter_cons_of_neg (by simp [hsequence]), hfilter]

/-- Every edge is that of the binding at the position whose number it carries. -/
theorem exists_pending_of_mem_edges (h : table.edges sequence pending = .ok edges) {edge : Binding}
    (hedge : edge ∈ edges) :
    ∃ position binding, pending[position]? = some binding ∧
      edge.sequence = sequence + position ∧ table.edge edge.sequence binding = .ok edge := by
  induction pending generalizing sequence edges with
  | nil =>
    cases h
    cases hedge
  | cons first rest ih =>
    obtain ⟨firstEdge, later, hfirst, hlater, rfl⟩ := edges_cons_eq_ok h
    rcases List.mem_cons.1 hedge with rfl | hedge
    · have hsequence := (admits_of_edge hfirst).2
      exact ⟨0, first, rfl, hsequence, by rwa [hsequence]⟩
    · obtain ⟨position, binding, hbinding, hsequence, hfound⟩ := ih hlater hedge
      exact ⟨position + 1, binding, hbinding, by omega, hfound⟩

end ProtocolTable

theorem Registry.freeze_eq_error_iff {registry : Registry} {error : RegistryError} :
    registry.freeze = .error error ↔
      registry.table.edges 0 registry.pending = .error error := by
  rw [freeze]
  split <;> simp [*]

/-- The frozen registries show the same protocols and the same edges. -/
structure IndexedFrozen.Represents (indexed : IndexedFrozen) (frozen : FrozenRegistry) : Prop where
  lookup_eq : ∀ id, indexed.lookup id = frozen.lookup id
  resolve?_eq : ∀ text, indexed.resolve? text = frozen.table.resolve? text
  bindingsFrom_eq : ∀ source, indexed.bindingsFrom source = frozen.bindingsFrom source
  size_eq : indexed.graph.size = frozen.edges.length

namespace IndexedRegistry

/-- The bindings that the calls of a run record, in the order of the calls: those of the first
successful registration of every name, and all that are added. -/
def recorded (registry : IndexedRegistry) (known : List String) :
    List RegistryOperation → List PendingBinding
  | [] => []
  | .addBinding source target priority predicate :: rest =>
    ⟨source, ⟨target, priority, predicate⟩⟩ ::
      (registry.addBinding source target priority predicate).recorded known rest
  | .register descriptor :: rest =>
    match registry.register descriptor with
    | (next, .error _) => next.recorded known rest
    | (next, .ok _) =>
      if descriptor.name ∈ known then next.recorded known rest
      else
        descriptor.bindings.map (⟨descriptor.name, ·⟩) ++
          next.recorded (descriptor.name :: known) rest

/-- A registration adds a protocol with a new name, or changes nothing and then is refused unless
the name is known. -/
theorem register_cases (registry : IndexedRegistry) (descriptor : ProtocolDescriptor) :
    (∃ answer, registry.register descriptor = (registry, answer) ∧
        (registry.names.find? descriptor.name = none → ∃ error, answer = .error error)) ∨
      ∃ id, registry.names.find? descriptor.name = none ∧
        registry.register descriptor = (registry.add id descriptor, .ok id) := by
  cases hname : registry.names.find? descriptor.name with
  | some existing => exact .inl ⟨_, Prod.ext (register_of_known hname).1 rfl, by simp⟩
  | none =>
    cases hassigned : registry.assignId descriptor with
    | error error =>
      refine .inl ⟨.error error, ?_, fun _ => ⟨error, rfl⟩⟩
      rw [register, hname, hassigned]
    | ok id =>
      refine .inr ⟨id, rfl, ?_⟩
      rw [register, hname, hassigned]

/-- What is pending after a run is what was pending before and what the run has recorded. -/
theorem pending_after {registry : IndexedRegistry} {known : List String}
    (hknown : ∀ name, name ∈ known ↔ registry.names.find? name ≠ none)
    (operations : List RegistryOperation) :
    (registry.after operations).pending = registry.pending ++ registry.recorded known operations := by
  induction operations generalizing registry known with
  | nil => exact (List.append_nil _).symm
  | cons operation rest ih =>
    cases operation with
    | addBinding source target priority predicate =>
      have hrest := @ih (registry.addBinding source target priority predicate) known hknown
      rw [addBinding, List.append_assoc] at hrest
      exact hrest
    | register descriptor =>
      -- The names listed as known are those that have a number, so a call that answers a number
      -- for one that is not listed is the first to do so.
      change ((registry.register descriptor).1.after rest).pending = _
      rcases register_cases registry descriptor with ⟨answer, hsame, hrefused⟩ | ⟨id, hname, hadded⟩
      · rw [recorded, hsame, ih hknown]
        cases answer with
        | error error => rfl
        | ok id =>
          have hmem : descriptor.name ∈ known := (hknown _).2 fun hnone => by
            obtain ⟨error, herror⟩ := hrefused hnone
            cases herror
          simp only [if_pos hmem]
      · have hnew : descriptor.name ∉ known := fun hmem => (hknown _).1 hmem hname
        have hnext : ∀ name, name ∈ descriptor.name :: known ↔
            (registry.add id descriptor).names.find? name ≠ none := by
          intro name
          rw [add, KeyTable.find?_insert, List.mem_cons, hknown]
          by_cases hsame : name = descriptor.name <;> simp [hsame]
        rw [recorded, hadded, ih hnext]
        simp only [if_neg hnew, add, List.append_assoc]

theorem pending_after_empty (operations : List RegistryOperation) :
    (empty.after operations).pending = empty.recorded ["payload"] operations := by
  refine pending_after (fun name => ?_) operations
  rw [represents_empty.names_eq, Option.ne_none_iff_exists']
  simp [Registry.named?_empty]

/-- An end of the binding matches no protocol, or the binding leads to unclaimed bytes. -/
def Faulty (registry : IndexedRegistry) (pending : PendingBinding) : Prop :=
  ¬ registry.Matches pending.source ∨ ¬ registry.Matches pending.declaration.target ∨
    registry.Refers pending.declaration.target .payload

inductive Fault (registry : IndexedRegistry) (pending : PendingBinding) : RegistryError → Prop
  | unresolved (h : ¬ registry.Matches pending.source ∨
      ¬ registry.Matches pending.declaration.target) :
      Fault registry pending (.unresolvedBinding pending.source pending.declaration.target)
  | payload (hsource : registry.Matches pending.source)
      (htarget : registry.Refers pending.declaration.target .payload) :
      Fault registry pending (.payloadBinding pending.source)

theorem faulty_iff {registry : IndexedRegistry} {pending : PendingBinding} :
    registry.Faulty pending ↔ ∃ error, registry.Fault pending error := by
  constructor
  · intro hfaulty
    by_cases hsource : registry.Matches pending.source
    · rcases hfaulty with hunmatched | hunmatched | hpayload
      · exact absurd hsource hunmatched
      · exact ⟨_, .unresolved (.inr hunmatched)⟩
      · exact ⟨_, .payload hsource hpayload⟩
    · exact ⟨_, .unresolved (.inl hsource)⟩
  · rintro ⟨error, ⟨hunmatched⟩ | ⟨-, hpayload⟩⟩
    · exact hunmatched.imp_right .inl
    · exact .inr (.inr hpayload)

/-- The edge is that of a pending binding, between the protocols that its texts refer to. -/
structure Realises (registry : IndexedRegistry) (sequence : Nat) (pending : PendingBinding)
    (edge : Binding) : Prop where
  source : registry.Refers pending.source edge.source
  target : registry.Refers pending.declaration.target edge.target
  target_ne : edge.target ≠ .payload
  priority : edge.priority = pending.declaration.priority
  predicate : edge.predicate = pending.declaration.predicate
  sequence : edge.sequence = sequence

/-- What a frozen registry keeps of a registry and the bindings recorded for it. -/
structure Keeps (registry : IndexedRegistry) (recorded : List PendingBinding)
    (frozen : IndexedFrozen) : Prop where
  lookup_eq : ∀ id, frozen.lookup id = registry.lookup id
  resolve?_eq : ∀ text, frozen.resolve? text = registry.resolve? text
  /-- A recorded binding occurs once, with the edges of its source. -/
  placed : ∀ position pending, recorded[position]? = some pending →
    ∃ edge, registry.Realises position pending edge ∧
      ∀ source, (frozen.bindingsFrom source).filter (·.sequence = position) =
        if edge.source = source then [edge] else []
  /-- Nothing else occurs. -/
  realised : ∀ source, ∀ edge ∈ frozen.bindingsFrom source, edge.source = source ∧
    ∃ pending, recorded[edge.sequence]? = some pending ∧
      registry.Realises edge.sequence pending edge
  ordered : ∀ source, (frozen.bindingsFrom source).Pairwise Binding.Before
  size_eq : frozen.graph.size = recorded.length
  registered : ∀ source, ∀ edge ∈ frozen.bindingsFrom source,
    frozen.contains edge.source = true ∧ frozen.contains edge.target = true

namespace Represents

variable {indexed : IndexedRegistry} {registry : Registry} (h : indexed.Represents registry)
  (hwell : registry.WellFormed)

include h hwell

theorem edge_eq (sequence : Nat) (pending : PendingBinding) :
    indexed.edge sequence pending = registry.table.edge sequence pending := by
  have hsource := h.resolve?_eq hwell pending.source
  have htarget := h.resolve?_eq hwell pending.declaration.target
  cases hfrom : registry.table.resolve? pending.source <;>
    cases hto : registry.table.resolve? pending.declaration.target <;>
      simp [edge, ProtocolTable.edge, hsource, htarget, hfrom, hto]

theorem edges_eq (sequence : Nat) (pending : List PendingBinding) :
    indexed.edges sequence pending = registry.table.edges sequence pending := by
  induction pending generalizing sequence with
  | nil => rfl
  | cons first rest ih =>
    have hedge := h.edge_eq hwell sequence first
    have hrest := ih (sequence + 1)
    cases hfirst : registry.table.edge sequence first <;>
      cases hlater : registry.table.edges (sequence + 1) rest <;>
        simp [edges, ProtocolTable.edges, hedge, hrest, hfirst, hlater]

theorem edge_eq_error_iff (sequence : Nat) {pending : PendingBinding} {error : RegistryError} :
    registry.table.edge sequence pending = .error error ↔ indexed.Fault pending error := by
  rw [← h.edge_eq hwell, edge]
  cases hsource : indexed.resolve? pending.source with
  | none =>
    have hunmatched := (h.resolve?_eq_none_iff hwell).1 hsource
    simp only [Except.error.injEq]
    constructor
    · rintro rfl
      exact .unresolved (.inl hunmatched)
    · rintro (_ | ⟨hmatched, -⟩)
      · rfl
      · exact absurd hmatched hunmatched
  | some source =>
    have hmatched := ((h.resolve?_eq_some_iff hwell).1 hsource).matches
    cases htarget : indexed.resolve? pending.declaration.target with
    | none =>
      have hunmatched := (h.resolve?_eq_none_iff hwell).1 htarget
      simp only [Except.error.injEq]
      constructor
      · rintro rfl
        exact .unresolved (.inr hunmatched)
      · rintro (_ | ⟨-, hpayload⟩)
        · rfl
        · exact absurd hpayload.matches hunmatched
    | some target =>
      have hrefers := (h.resolve?_eq_some_iff hwell).1 htarget
      have hpayload : target = .payload ↔ indexed.Refers pending.declaration.target .payload := by
        rw [← h.resolve?_eq_some_iff hwell, htarget, Option.some.injEq]
      simp only
      split
      · next hleads =>
        simp only [Except.error.injEq]
        constructor
        · rintro rfl
          exact .payload hmatched (hpayload.1 hleads)
        · rintro (⟨hunmatched | hunmatched⟩ | _)
          · exact absurd hmatched hunmatched
          · exact absurd hrefers.matches hunmatched
          · rfl
      · next helsewhere =>
        simp only [reduceCtorEq, false_iff]
        rintro (⟨hunmatched | hunmatched⟩ | ⟨-, hleads⟩)
        · exact hunmatched hmatched
        · exact hunmatched hrefers.matches
        · exact helsewhere (hpayload.2 hleads)

theorem realises_of_edge {sequence : Nat} {pending : PendingBinding} {edge : Binding}
    (hedge : registry.table.edge sequence pending = .ok edge) :
    indexed.Realises sequence pending edge := by
  rw [← h.edge_eq hwell, IndexedRegistry.edge] at hedge
  split at hedge
  · next source target hsource htarget =>
    split at hedge
    · cases hedge
    · next hne =>
      cases hedge
      exact ⟨(h.resolve?_eq_some_iff hwell).1 hsource, (h.resolve?_eq_some_iff hwell).1 htarget,
        hne, rfl, rfl, rfl⟩
  · cases hedge

theorem isSome_edge?_iff {pending : PendingBinding} :
    (registry.table.edge? pending).isSome = true ↔ ¬ indexed.Faulty pending := by
  rw [faulty_iff, not_exists, ProtocolTable.edge?]
  simp only [← h.edge_eq_error_iff hwell 0]
  cases registry.table.edge 0 pending <;> simp [Except.toOption]

theorem freeze_eq_error_iff {error : RegistryError} :
    indexed.freeze = .error error ↔ registry.freeze = .error error := by
  rw [Registry.freeze_eq_error_iff, freeze, h.edges_eq hwell, h.pending_eq]
  cases registry.table.edges 0 registry.pending <;> simp

theorem exists_error_iff :
    (∃ error, indexed.freeze = .error error) ↔
      ∃ pending ∈ indexed.pending, indexed.Faulty pending := by
  have hfreezes := @Registry.exists_freeze_iff registry
  simp only [h.isSome_edge?_iff hwell, ← h.pending_eq] at hfreezes
  simp only [h.freeze_eq_error_iff hwell]
  cases hfreeze : registry.freeze with
  | error error =>
    refine iff_of_true ⟨error, rfl⟩ ?_
    by_contra hnone
    push Not at hnone
    obtain ⟨frozen, hfrozen⟩ := hfreezes.2 hnone
    cases hfreeze.symm.trans hfrozen
  | ok frozen =>
    have hsound := hfreezes.1 ⟨frozen, hfreeze⟩
    refine iff_of_false (by simp) ?_
    rintro ⟨pending, hpending, hfaulty⟩
    exact hsound pending hpending hfaulty

/-- The graph has the edges of the ranked list. -/
theorem exists_freeze {frozen : FrozenRegistry} (hfrozen : registry.freeze = .ok frozen) :
    ∃ kept, indexed.freeze = .ok kept ∧ kept.Represents frozen := by
  obtain ⟨htable, edges, hedges, hranked⟩ := Registry.exists_edges_of_freeze hfrozen
  have hinside : ∀ edge ∈ edges, edge.source.index < indexed.slots.length := by
    intro edge hedge
    obtain ⟨entry, hentry, heq⟩ :=
      ProtocolTable.contains_iff.1 (ProtocolTable.admits_of_edges hedges edge hedge).1.1
    rw [h.length_eq, ← heq]
    exact ProtocolTable.index_lt_capacity hentry
  refine ⟨⟨indexed.slots, indexed.names, .ofEdges indexed.slots.length edges⟩, ?_, ?_⟩
  · rw [freeze, h.edges_eq hwell, h.pending_eq, hedges]
  · constructor
    case lookup_eq =>
      intro id
      rw [FrozenRegistry.lookup, htable]
      exact h.lookup_eq id
    case resolve?_eq =>
      intro text
      rw [htable]
      exact h.resolve?_eq hwell text
    case bindingsFrom_eq =>
      intro source
      rw [FrozenRegistry.bindingsFrom, hranked, Binding.filter_ranked]
      exact BindingGraph.bindingsFrom_ofEdges (ProtocolTable.pairwise_sequence_of_edges hedges)
        hinside source
    case size_eq =>
      rw [hranked, (Binding.perm_ranked edges).length_eq]
      rfl

theorem keeps {kept : IndexedFrozen} (hkept : indexed.freeze = .ok kept) :
    indexed.Keeps indexed.pending kept := by
  cases hfreeze : registry.freeze with
  | error error =>
    rw [(h.freeze_eq_error_iff hwell).2 hfreeze] at hkept
    cases hkept
  | ok frozen =>
    obtain ⟨other, hother, hrepresents⟩ := h.exists_freeze hwell hfreeze
    cases hother.symm.trans hkept
    obtain ⟨htable, edges, hedges, hranked⟩ := Registry.exists_edges_of_freeze hfreeze
    have hfrom (source : ProtocolId) :
        kept.bindingsFrom source = (Binding.ranked edges).filter (·.source = source) := by
      rw [hrepresents.bindingsFrom_eq, FrozenRegistry.bindingsFrom, hranked]
    rw [h.pending_eq]
    constructor
    case lookup_eq =>
      intro id
      rw [hrepresents.lookup_eq, h.lookup_eq, FrozenRegistry.lookup, htable]
    case resolve?_eq =>
      intro text
      rw [hrepresents.resolve?_eq, h.resolve?_eq hwell, htable]
    case placed =>
      intro position pending hposition
      obtain ⟨edge, hedge, hfilter⟩ := ProtocolTable.exists_edge_of_edges hedges hposition
      rw [Nat.zero_add] at hedge hfilter
      refine ⟨edge, h.realises_of_edge hwell hedge, fun source => ?_⟩
      -- Of the edges that carry this number, ranked or not, there is only the one.
      rw [hfrom, List.filter_comm, Binding.filter_ranked, hfilter]
      by_cases hsource : edge.source = source <;> simp [Binding.ranked, Binding.place, hsource]
    case realised =>
      intro source edge hedge
      rw [hfrom, List.mem_filter, Binding.mem_ranked] at hedge
      obtain ⟨hmem, hsource⟩ := hedge
      obtain ⟨position, pending, hposition, hsequence, hfound⟩ :=
        ProtocolTable.exists_pending_of_mem_edges hedges hmem
      rw [Nat.zero_add] at hsequence
      refine ⟨of_decide_eq_true hsource, pending, ?_, h.realises_of_edge hwell hfound⟩
      rw [hsequence, hposition]
    case ordered =>
      intro source
      rw [hrepresents.bindingsFrom_eq]
      exact frozen.edges_ranked.filter _
    case size_eq =>
      rw [hrepresents.size_eq, hranked, (Binding.perm_ranked edges).length_eq,
        ProtocolTable.length_edges hedges]
    case registered =>
      intro source edge hedge
      rw [hrepresents.bindingsFrom_eq] at hedge
      obtain ⟨hedge, -⟩ := FrozenRegistry.mem_bindingsFrom.1 hedge
      obtain ⟨hsource, htarget, -⟩ := frozen.edges_admitted edge hedge
      simp only [IndexedFrozen.contains, hrepresents.lookup_eq]
      exact ⟨hsource, htarget⟩

end Represents

/-- The slots of the built-in protocols answer as their table does. -/
theorem exists_freeze_builtIn :
    ∃ kept, empty.registerBuiltIns.1.freeze = .ok kept ∧ kept.Represents .builtIn := by
  obtain ⟨hanswer, hrepresents, hwell⟩ := represents_empty.registerAll
    Registry.wellFormed_empty (BuiltIn.all.map BuiltIn.descriptor)
  have hfrozen : Registry.empty.registerBuiltIns.1.freeze = .ok .builtIn := rfl
  rw [registerBuiltIns]
  rw [Registry.registerBuiltIns] at hfrozen
  generalize empty.registerAll (BuiltIn.all.map BuiltIn.descriptor) = slots
    at hanswer hrepresents ⊢
  generalize Registry.empty.registerAll (BuiltIn.all.map BuiltIn.descriptor) = table
    at hanswer hrepresents hwell hfrozen
  obtain ⟨slots, answer⟩ := slots
  obtain ⟨table, tableAnswer⟩ := table
  cases (hanswer : answer = tableAnswer)
  cases answer with
  | error error => exact hrepresents.exists_freeze hwell hfrozen
  | ok done =>
    have hbound := hrepresents.addBinding BuiltIn.tcp.name BuiltIn.http.name 0 Http.detect
    exact hbound.exists_freeze (hwell.apply (.addBinding ..)) hfrozen

/-- Freezing a registry after any run fails exactly when a recorded binding is at fault, with the
error of the first such binding. Otherwise the frozen registry keeps every recorded binding, each
once and in its place, and has no others. -/
theorem freeze_of_run (operations : List RegistryOperation) :
    let registry := empty.after operations
    let recorded := empty.recorded ["payload"] operations
    ((∃ error, registry.freeze = .error error) ↔ ∃ pending ∈ recorded, registry.Faulty pending) ∧
      match registry.freeze with
      | .error error => ∃ before pending rest, recorded = before ++ pending :: rest ∧
          (∀ earlier ∈ before, ¬ registry.Faulty earlier) ∧ registry.Fault pending error
      | .ok frozen => registry.Keeps recorded frozen := by
  intro registry recorded
  have h := represents_after operations
  have hwell := Registry.wellFormed_after_empty operations
  have hpending : registry.pending = recorded := pending_after_empty operations
  refine ⟨hpending ▸ h.exists_error_iff hwell, ?_⟩
  cases hfreeze : registry.freeze with
  | error error =>
    rw [h.freeze_eq_error_iff hwell, Registry.freeze_eq_error_iff,
      ProtocolTable.edges_eq_error_iff] at hfreeze
    simp only [h.isSome_edge?_iff hwell, h.edge_eq_error_iff hwell, ← h.pending_eq] at hfreeze
    exact hpending ▸ hfreeze
  | ok frozen => exact hpending ▸ h.keeps hwell hfreeze

/-- The first binding is at fault twice: it leads to unclaimed bytes, from nowhere. -/
example :
    (empty.after [.addBinding "nowhere" "payload" 0 .always,
      .addBinding "payload" "payload" 0 .always]).freeze =
        .error (.unresolvedBinding "nowhere" "payload") := rfl

end IndexedRegistry

end Dissection
