import Dissection.Registry.Registration

/-!
# Frozen registries

Freezing resolves the names of every pending binding. The result only has edges between registered
protocols, none of which leads to unclaimed bytes, and it holds them in the order in which they are
tried.
-/

namespace Dissection

namespace ProtocolTable

/-- The edge of a pending binding, which is the `sequence`-th of its registry. -/
def edge (table : ProtocolTable) (sequence : Nat) (pending : PendingBinding) :
    Except RegistryError Binding :=
  let declaration := pending.declaration
  match table.resolve? pending.source, table.resolve? declaration.target with
  | some source, some target =>
    if target = .payload then .error (.payloadBinding pending.source)
    else .ok ⟨source, target, declaration.priority, sequence, declaration.predicate⟩
  | _, _ => .error (.unresolvedBinding pending.source declaration.target)

/-- The edges of pending bindings numbered from `sequence` on, unless one of them has no edge. -/
def edges (table : ProtocolTable) (sequence : Nat) :
    List PendingBinding → Except RegistryError (List Binding)
  | [] => .ok []
  | pending :: rest =>
    match table.edge sequence pending with
    | .error error => .error error
    | .ok first =>
      match table.edges (sequence + 1) rest with
      | .error error => .error error
      | .ok later => .ok (first :: later)

/-- The edge connects registered protocols and does not lead to unclaimed bytes. -/
def Admits (table : ProtocolTable) (edge : Binding) : Prop :=
  table.contains edge.source ∧ table.contains edge.target ∧ edge.target ≠ .payload

theorem admits_of_edge {table : ProtocolTable} {sequence : Nat} {pending : PendingBinding}
    {edge : Binding} (h : table.edge sequence pending = .ok edge) :
    table.Admits edge ∧ edge.sequence = sequence := by
  cases hsource : table.resolve? pending.source with
  | none => simp [ProtocolTable.edge, hsource] at h
  | some source =>
    cases htarget : table.resolve? pending.declaration.target with
    | none => simp [ProtocolTable.edge, hsource, htarget] at h
    | some target =>
      by_cases hpayload : target = .payload
      · simp [ProtocolTable.edge, hsource, htarget, hpayload] at h
      · simp only [ProtocolTable.edge, hsource, htarget, hpayload, if_false] at h
        cases h
        exact ⟨⟨contains_of_resolve? hsource, contains_of_resolve? htarget, hpayload⟩, rfl⟩

theorem edges_cons_eq_ok {table : ProtocolTable} {sequence : Nat} {pending : PendingBinding}
    {rest : List PendingBinding} {edges : List Binding}
    (h : table.edges sequence (pending :: rest) = .ok edges) :
    ∃ first later, table.edge sequence pending = .ok first ∧
      table.edges (sequence + 1) rest = .ok later ∧ edges = first :: later := by
  rw [ProtocolTable.edges] at h
  split at h
  · cases h
  · next first hfirst =>
    split at h
    · cases h
    · next later hlater =>
      cases h
      exact ⟨first, later, hfirst, hlater, rfl⟩

theorem admits_of_edges {table : ProtocolTable} {pending : List PendingBinding} :
    ∀ {sequence : Nat} {edges : List Binding}, table.edges sequence pending = .ok edges →
      ∀ edge ∈ edges, table.Admits edge ∧ sequence ≤ edge.sequence := by
  induction pending with
  | nil =>
    intro sequence edges h
    cases h
    simp
  | cons pending rest ih =>
    intro sequence edges h edge hedge
    obtain ⟨first, later, hfirst, hlater, rfl⟩ := edges_cons_eq_ok h
    rcases List.mem_cons.1 hedge with rfl | hedge
    · obtain ⟨hadmits, hseq⟩ := admits_of_edge hfirst
      exact ⟨hadmits, Nat.le_of_eq hseq.symm⟩
    · obtain ⟨hadmits, hseq⟩ := ih hlater edge hedge
      exact ⟨hadmits, Nat.le_of_succ_le hseq⟩

theorem pairwise_sequence_of_edges {table : ProtocolTable} {pending : List PendingBinding} :
    ∀ {sequence : Nat} {edges : List Binding}, table.edges sequence pending = .ok edges →
      edges.Pairwise (fun a b => a.sequence < b.sequence) := by
  induction pending with
  | nil =>
    intro sequence edges h
    cases h
    exact .nil
  | cons pending rest ih =>
    intro sequence edges h
    obtain ⟨first, later, hfirst, hlater, rfl⟩ := edges_cons_eq_ok h
    apply List.pairwise_cons.2 ⟨?_, ih hlater⟩
    intro edge hedge
    have hseq := (admits_of_edges hlater edge hedge).2
    rw [(admits_of_edge hfirst).2]
    exact hseq

end ProtocolTable

/-- A registry whose bindings are resolved. -/
structure FrozenRegistry where
  table : ProtocolTable
  edges : List Binding
  edges_ranked : edges.Pairwise Binding.Before
  edges_admitted : ∀ edge ∈ edges, table.Admits edge

namespace Registry

/-- Resolves every pending binding, in the order in which they were added. -/
def freeze (registry : Registry) : Except RegistryError FrozenRegistry :=
  match h : registry.table.edges 0 registry.pending with
  | .error error => .error error
  | .ok edges => .ok
    { table := registry.table
      edges := Binding.ranked edges
      edges_ranked := Binding.pairwise_ranked (ProtocolTable.pairwise_sequence_of_edges h)
      edges_admitted := fun edge hedge =>
        (ProtocolTable.admits_of_edges h edge (Binding.mem_ranked.1 hedge)).1 }

end Registry

namespace FrozenRegistry

def lookup (registry : FrozenRegistry) (id : ProtocolId) : Option ProtocolDescriptor :=
  registry.table.lookup id

def contains (registry : FrozenRegistry) (id : ProtocolId) : Bool := registry.table.contains id

/-- The edges that leave a protocol, in the order in which they are tried. -/
def bindingsFrom (registry : FrozenRegistry) (source : ProtocolId) : List Binding :=
  registry.edges.filter (fun edge => edge.source = source)

theorem mem_bindingsFrom {registry : FrozenRegistry} {source : ProtocolId} {edge : Binding} :
    edge ∈ registry.bindingsFrom source ↔ edge ∈ registry.edges ∧ edge.source = source := by
  simp [bindingsFrom]

def headerLength (registry : FrozenRegistry) (protocol : ProtocolId) (data : Bytes) (offset : Nat) :
    Except LengthError Nat :=
  match registry.lookup protocol with
  | some descriptor => descriptor.length.resolve protocol data offset
  | none => .error (.unregistered protocol offset)

/-- Tries the edges that leave the protocol of the current header. -/
def selectNext (registry : FrozenRegistry) (context : BindingContext) : Selection :=
  context.select (registry.bindingsFrom context.current.protocol)

end FrozenRegistry

end Dissection
