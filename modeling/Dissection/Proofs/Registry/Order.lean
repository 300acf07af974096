import Dissection.Proofs.Registry.Run
import Dissection.Proofs.Registry.Ranking

/-!
# The order of registration

Protocols with their own names and their own explicit numbers can be registered in any order. The
tables are the same, and the bindings are the same but for the order in which protocols added them.
A protocol adds its own bindings at once, and its edges are ranked among themselves, so that frozen
registries find the same edges everywhere.
-/

namespace Dissection

theorem flatMap_eq_of_perm {α β : Type} {f : α → List β} {xs ys : List α} (hperm : xs.Perm ys)
    (honly : xs.Pairwise (fun a b => f a = [] ∨ f b = [])) : xs.flatMap f = ys.flatMap f := by
  induction hperm with
  | nil => rfl
  | cons x _ ih => rw [List.flatMap_cons, List.flatMap_cons, ih (List.pairwise_cons.1 honly).2]
  | swap x y rest =>
    rcases (List.pairwise_cons.1 honly).1 x List.mem_cons_self with hnone | hnone <;> simp [hnone]
  | trans hfirst _ ih ih' => exact (ih honly).trans (ih' (honly.perm hfirst Or.symm))

namespace ProtocolDescriptor

/-- The entry of a protocol that asks for a number. -/
def entry? (descriptor : ProtocolDescriptor) : Option (ProtocolId × ProtocolDescriptor) :=
  descriptor.requestedId.map (·, { descriptor with bindings := [] })

def pending (descriptor : ProtocolDescriptor) : List PendingBinding :=
  descriptor.bindings.map (⟨descriptor.name, ·⟩)

end ProtocolDescriptor

namespace Registry

variable {registry final : Registry} {descriptor : ProtocolDescriptor}
  {descriptors : List ProtocolDescriptor}

/-- The protocols have names and explicit numbers that neither the registry nor another of them
has. -/
structure Fresh (registry : Registry) (descriptors : List ProtocolDescriptor) : Prop where
  names : (descriptors.map (·.name)).Nodup
  numbers : (descriptors.map (·.requestedId)).Nodup
  unnamed : ∀ descriptor ∈ descriptors, registry.table.named? descriptor.name = none
  unnumbered : ∀ descriptor ∈ descriptors, ∃ id,
    descriptor.requestedId = some id ∧ id ≠ .payload ∧ registry.table.lookup id = none

/-- The registry `final` has what `registry` had and the protocols with their bindings. -/
structure Gathers (registry : Registry) (descriptors : List ProtocolDescriptor)
    (final : Registry) : Prop where
  wellFormed : final.WellFormed
  entries : final.table.entries.Perm
    (descriptors.filterMap ProtocolDescriptor.entry? ++ registry.table.entries)
  pending : final.pending = registry.pending ++ descriptors.flatMap ProtocolDescriptor.pending

theorem WellFormed.register_fresh (h : registry.WellFormed)
    (hfresh : registry.Fresh (descriptor :: descriptors)) :
    ∃ id, descriptor.requestedId = some id ∧
      registry.register descriptor = (registry.add id descriptor, .ok id) ∧
      (registry.add id descriptor).WellFormed ∧
      (registry.add id descriptor).Fresh descriptors := by
  obtain ⟨hname, hnames⟩ := List.nodup_cons.1 hfresh.names
  obtain ⟨hnumber, hnumbers⟩ := List.nodup_cons.1 hfresh.numbers
  obtain ⟨hunnamed, hothers⟩ := List.forall_mem_cons.1 hfresh.unnamed
  obtain ⟨⟨id, hrequested, hpayload, hfree⟩, hunnumbered⟩ :=
    List.forall_mem_cons.1 hfresh.unnumbered
  have hassigned : registry.assignId descriptor = .ok id := by
    simp only [assignId, hrequested, hfree, if_neg hpayload]
  refine ⟨id, hrequested, ?_, h.add hunnamed hassigned, hnames, hnumbers, ?_, ?_⟩
  · rw [register, hunnamed, hassigned]
  · intro other hother
    rw [Option.eq_none_iff_forall_ne_some]
    intro found hfound
    rcases (h.named?_add hunnamed hassigned).1 hfound with hknown | ⟨-, heq⟩
    · rw [hothers other hother] at hknown
      cases hknown
    · exact hname (List.mem_map.2 ⟨other, hother, heq.symm⟩)
  · intro other hother
    obtain ⟨number, hasked, hreserved, hunused⟩ := hunnumbered other hother
    refine ⟨number, hasked, hreserved, ?_⟩
    rw [Option.eq_none_iff_forall_ne_some]
    intro found hfound
    rcases (h.lookup_add hunnamed hassigned).1 hfound with ⟨rfl, -⟩ | hknown
    · exact hnumber (List.mem_map.2 ⟨other, hother, hasked.trans hrequested.symm⟩)
    · rw [hunused] at hknown
      cases hknown

/-- Fresh protocols are all registered. -/
theorem WellFormed.registerAll_fresh (h : registry.WellFormed)
    (hfresh : registry.Fresh descriptors) :
    ∃ final, registry.registerAll descriptors = (final, .ok ()) ∧
      registry.Gathers descriptors final := by
  induction descriptors generalizing registry with
  | nil => exact ⟨registry, rfl, h, .refl _, (List.append_nil _).symm⟩
  | cons descriptor rest ih =>
    -- Adding the first protocol leaves the others fresh.
    obtain ⟨id, hrequested, hregistered, hwell, hrest⟩ := h.register_fresh hfresh
    obtain ⟨final, hall, hgathers⟩ := ih hwell hrest
    refine ⟨final, ?_, hgathers.wellFormed, ?_, ?_⟩
    · rw [registerAll, hregistered]
      exact hall
    · have hentry : descriptor.entry? = some (id, { descriptor with bindings := [] }) := by
        rw [ProtocolDescriptor.entry?, hrequested, Option.map_some]
      rw [List.filterMap_cons_some hentry]
      have hplaced := ProtocolTable.perm_place id { descriptor with bindings := [] }
        registry.table.entries
      exact (hgathers.entries.trans (hplaced.append_left _)).trans List.perm_middle
    · rw [hgathers.pending, List.flatMap_cons, ← List.append_assoc]
      rfl

namespace Gathers

variable (h : registry.Gathers descriptors final)

include h

/-- The name of a registered protocol refers to the number that it asked for. -/
theorem resolve?_name (hmem : descriptor ∈ descriptors) {id : ProtocolId}
    (hrequested : descriptor.requestedId = some id) :
    final.table.resolve? descriptor.name = some id := by
  have hentry : (id, { descriptor with bindings := [] }) ∈ final.table.entries := by
    refine h.entries.mem_iff.2 (List.mem_append_left _ ?_)
    refine List.mem_filterMap.2 ⟨descriptor, hmem, ?_⟩
    rw [ProtocolDescriptor.entry?, hrequested, Option.map_some]
  have hlookup := h.wellFormed.table.lookup_eq_some_iff.2 hentry
  exact ProtocolTable.resolve?_of_named?
    (h.wellFormed.table.named?_eq_some_iff.2 ⟨_, hlookup, rfl⟩)

theorem table_eq {other : Registry} {reordered : List ProtocolDescriptor}
    (hother : registry.Gathers reordered other) (hperm : descriptors.Perm reordered) :
    final.table = other.table := by
  have hentries := ((hperm.filterMap _).append_right _).trans hother.entries.symm
  exact h.wellFormed.table.eq_of_perm hother.wellFormed.table (h.entries.trans hentries)

/-- Only one protocol can add edges that leave a protocol: the one that asked for its number. -/
theorem requestedId_of_edgesFrom (hmem : descriptor ∈ descriptors) {id source : ProtocolId}
    (hrequested : descriptor.requestedId = some id)
    (hedges : final.table.edgesFrom source descriptor.pending ≠ []) : id = source := by
  obtain ⟨edge, hedge⟩ := List.exists_mem_of_ne_nil _ hedges
  obtain ⟨hbound, hsource⟩ := List.mem_filter.1 hedge
  obtain ⟨pending, hpending, hedge⟩ := List.mem_filterMap.1 hbound
  obtain ⟨declaration, -, rfl⟩ := List.mem_map.1 hpending
  have hresolved := ProtocolTable.resolve?_of_edge? hedge
  rw [h.resolve?_name hmem hrequested, Option.some.injEq] at hresolved
  rw [hresolved, of_decide_eq_true hsource]

theorem edgesFrom_perm (hfresh : registry.Fresh descriptors) {reordered : List ProtocolDescriptor}
    (hperm : descriptors.Perm reordered) (source : ProtocolId) :
    final.table.edgesFrom source (descriptors.flatMap ProtocolDescriptor.pending) =
      final.table.edgesFrom source (reordered.flatMap ProtocolDescriptor.pending) := by
  rw [ProtocolTable.edgesFrom_flatMap, ProtocolTable.edgesFrom_flatMap]
  -- Of two protocols with different numbers, one adds no edge that leaves `source`.
  refine flatMap_eq_of_perm hperm ((List.pairwise_map.1 hfresh.numbers).imp_of_mem ?_)
  intro a b ha hb hne
  obtain ⟨id, hid, -, -⟩ := hfresh.unnumbered a ha
  obtain ⟨other, hother, -, -⟩ := hfresh.unnumbered b hb
  rw [or_iff_not_imp_left]
  intro hedges
  by_contra hothers
  have hsame := h.requestedId_of_edgesFrom ha hid hedges
  have hsame' := h.requestedId_of_edgesFrom hb hother hothers
  exact hne (by rw [hid, hother, hsame, hsame'])

end Gathers

/-- Protocols that a new registry takes in any order: their names and their explicit numbers differ,
and they keep off the name and the number of unclaimed bytes. -/
structure Compatible (descriptors : List ProtocolDescriptor) : Prop where
  names : (descriptors.map (·.name)).Nodup
  numbers : (descriptors.map (·.requestedId)).Nodup
  unreserved : ∀ descriptor ∈ descriptors, descriptor.name ≠ "payload"
  explicit : ∀ descriptor ∈ descriptors, ∃ id, descriptor.requestedId = some id ∧ id ≠ .payload

theorem Compatible.perm {reordered : List ProtocolDescriptor} (h : Compatible descriptors)
    (hperm : descriptors.Perm reordered) : Compatible reordered where
  names := (hperm.map _).nodup_iff.1 h.names
  numbers := (hperm.map _).nodup_iff.1 h.numbers
  unreserved := fun descriptor hmem => h.unreserved descriptor (hperm.mem_iff.2 hmem)
  explicit := fun descriptor hmem => h.explicit descriptor (hperm.mem_iff.2 hmem)

theorem Compatible.fresh (h : Compatible descriptors) : empty.Fresh descriptors where
  names := h.names
  numbers := h.numbers
  unnamed := by
    intro descriptor hmem
    rw [Option.eq_none_iff_forall_ne_some]
    intro id hid
    exact h.unreserved descriptor hmem (Prod.mk.inj (named?_empty.1 hid)).1
  unnumbered := by
    intro descriptor hmem
    obtain ⟨id, hrequested, hpayload⟩ := h.explicit descriptor hmem
    refine ⟨id, hrequested, hpayload, ProtocolTable.lookup_eq_none_iff.2 ?_⟩
    exact List.forall_mem_singleton.2 (Ne.symm hpayload)

end Registry

/-- Lookups, the edges of every protocol as they are tried, and scans are the same. -/
structure FrozenRegistry.AgreesWith (registry other : FrozenRegistry) : Prop where
  lookup : ∀ id, registry.lookup id = other.lookup id
  resolve : ∀ name, registry.table.resolve? name = other.table.resolve? name
  rules : ∀ source,
    (registry.bindingsFrom source).map Binding.rule = (other.bindingsFrom source).map Binding.rule
  scan : ∀ config root data, registry.scan config root data = other.scan config root data

namespace Registry

variable {descriptors reordered : List ProtocolDescriptor}

theorem agreesWith_of_gathers {final final' : Registry} {frozen frozen' : FrozenRegistry}
    (hfresh : empty.Fresh descriptors) (hperm : descriptors.Perm reordered)
    (h : empty.Gathers descriptors final) (h' : empty.Gathers reordered final')
    (hfrozen : final.freeze = .ok frozen) (hfrozen' : final'.freeze = .ok frozen') :
    frozen.AgreesWith frozen' := by
  have htable : frozen.table = frozen'.table := by
    rw [(exists_edges_of_freeze hfrozen).1, (exists_edges_of_freeze hfrozen').1]
    exact h.table_eq h' hperm
  have halike : frozen.Alike frozen' := by
    constructor
    case lookup => exact fun id => congrArg (·.lookup id) htable
    case edges =>
      intro source
      rw [bindingsFrom_unsequenced hfrozen, bindingsFrom_unsequenced hfrozen', h.pending,
        h'.pending, ← h.table_eq h' hperm]
      exact congrArg Binding.ranked (h.edgesFrom_perm hfresh hperm source)
  exact ⟨halike.lookup, fun name => congrArg (·.resolve? name) htable, halike.rules_eq,
    halike.scansAs.scan_eq⟩

/-- Compatible protocols are all registered, in whatever order. Freezing succeeds for both orders or
for neither, and the frozen registries agree. -/
theorem registration_order_irrelevant (hcompatible : Compatible descriptors)
    (hperm : descriptors.Perm reordered) :
    ∃ final final', empty.registerAll descriptors = (final, .ok ()) ∧
      empty.registerAll reordered = (final', .ok ()) ∧
      ((∃ frozen, final.freeze = .ok frozen) ↔ ∃ frozen, final'.freeze = .ok frozen) ∧
      ∀ frozen frozen', final.freeze = .ok frozen → final'.freeze = .ok frozen' →
        frozen.AgreesWith frozen' := by
  have hfresh := hcompatible.fresh
  obtain ⟨final, hall, h⟩ := wellFormed_empty.registerAll_fresh hfresh
  obtain ⟨final', hall', h'⟩ :=
    wellFormed_empty.registerAll_fresh (hcompatible.perm hperm).fresh
  refine ⟨final, final', hall, hall', ?_, ?_⟩
  · have hpending : final.pending.Perm final'.pending := by
      rw [h.pending, h'.pending]
      exact (hperm.flatMap_right _).append_left _
    rw [exists_freeze_iff, exists_freeze_iff, h.table_eq h' hperm]
    exact forall_congr' fun binding => imp_congr_left hpending.mem_iff
  · exact fun frozen frozen' => agreesWith_of_gathers hfresh hperm h h'

/-- Two protocols share a nickname, which refers to the one with the lower number in both orders. -/
theorem orders_of_shared_nickname :
    let outer : ProtocolDescriptor :=
      ⟨some ⟨3⟩, "outer", "o", .fixed 1, [⟨"twin", 0, .always⟩, ⟨"second", 0, .always⟩], []⟩
    let first : ProtocolDescriptor := ⟨some ⟨1⟩, "first", "twin", .fixed 1, [], []⟩
    let second : ProtocolDescriptor :=
      ⟨some ⟨2⟩, "second", "twin", .fixed 2, [⟨"o", 0, .always⟩], []⟩
    ∃ frozen frozen',
      (empty.registerAll [outer, first, second]).1.freeze = .ok frozen ∧
      (empty.registerAll [second, outer, first]).1.freeze = .ok frozen' ∧
      frozen.table.resolve? "twin" = some ⟨1⟩ ∧ frozen.AgreesWith frozen' := by
  intro outer first second
  have hcompatible : Compatible [outer, first, second] :=
    ⟨by decide, by decide, by decide, by simp [outer, first, second, ProtocolId.payload]⟩
  have hperm : ([outer, first] ++ [second]).Perm [second, outer, first] := List.perm_append_comm
  obtain ⟨final, final', hall, hall', hboth, hagree⟩ :=
    registration_order_irrelevant hcompatible hperm
  have hbound : ∀ binding ∈ (empty.registerAll [outer, first, second]).1.pending,
      ((empty.registerAll [outer, first, second]).1.table.edge? binding).isSome = true := by
    decide
  obtain ⟨frozen, hfrozen⟩ := exists_freeze_iff.2 hbound
  have htable := (exists_edges_of_freeze hfrozen).1
  rw [hall] at hfrozen
  obtain ⟨frozen', hfrozen'⟩ := hboth.1 ⟨frozen, hfrozen⟩
  refine ⟨frozen, frozen', ?_, ?_, ?_, hagree frozen frozen' hfrozen hfrozen'⟩
  · rw [hall, hfrozen]
  · rw [hall', hfrozen']
  · rw [htable]
    decide

end Registry

end Dissection
