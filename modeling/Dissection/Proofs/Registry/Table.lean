import Dissection.Registry.Registration
import Mathlib.Data.List.Nodup
import Mathlib.Logic.Basic

/-!
# Tables without double names and numbers

In a table whose numbers ascend and whose names differ, a search by number or by name finds the one
entry that has it. Adding an entry with a new number and a new name keeps both properties, and finds
what was found before.
-/

namespace Dissection

namespace ProtocolTable

structure WellFormed (table : ProtocolTable) : Prop where
  ascending : table.entries.Pairwise (fun a b => a.1.index < b.1.index)
  named : (table.entries.map (·.2.name)).Nodup

variable {table : ProtocolTable} {id : ProtocolId} {descriptor : ProtocolDescriptor}

theorem named?_eq_none_iff {name : String} :
    table.named? name = none ↔ ∀ entry ∈ table.entries, entry.2.name ≠ name := by
  simp [named?]

theorem lookup_eq_none_iff : table.lookup id = none ↔ ∀ entry ∈ table.entries, entry.1 ≠ id := by
  rw [lookup, List.lookup_eq_none_iff]
  exact forall₂_congr fun entry _ => by rw [bne_iff_ne, ne_comm]

theorem contains_iff : table.contains id = true ↔ ∃ entry ∈ table.entries, entry.1 = id := by
  rw [contains, lookup, List.lookup_isSome_iff]
  exact exists_congr fun entry => and_congr_right fun _ => by rw [beq_iff_eq, eq_comm]

theorem mem_of_lookup (h : table.lookup id = some descriptor) :
    (id, descriptor) ∈ table.entries := by
  obtain ⟨before, after, hentries, -⟩ := List.lookup_eq_some_iff.1 h
  rw [hentries]
  exact List.mem_append_right _ List.mem_cons_self

theorem exists_entry_of_named? {name : String} (h : table.named? name = some id) :
    ∃ entry ∈ table.entries, entry.1 = id ∧ entry.2.name = name := by
  obtain ⟨entry, hfound, rfl⟩ := Option.map_eq_some_iff.1 h
  exact ⟨entry, List.mem_of_find?_eq_some hfound, rfl, by simpa using List.find?_some hfound⟩

theorem resolve?_of_named? {name : String} (h : table.named? name = some id) :
    table.resolve? name = some id := by
  rw [resolve?, h, Option.some_or]

theorem perm_place (id : ProtocolId) (descriptor : ProtocolDescriptor)
    (entries : List (ProtocolId × ProtocolDescriptor)) :
    (place id descriptor entries).Perm ((id, descriptor) :: entries) := by
  induction entries with
  | nil => exact .refl _
  | cons entry rest ih =>
    rw [place]
    split
    · exact .refl _
    · exact (ih.cons entry).trans (.swap _ _ _)

theorem mem_insert {entry : ProtocolId × ProtocolDescriptor} :
    entry ∈ (table.insert id descriptor).entries ↔
      entry = (id, descriptor) ∨ entry ∈ table.entries := by
  rw [insert, (perm_place id descriptor table.entries).mem_iff, List.mem_cons]

theorem ascending_place {entries : List (ProtocolId × ProtocolDescriptor)}
    (h : entries.Pairwise (fun a b => a.1.index < b.1.index))
    (hnew : ∀ entry ∈ entries, entry.1 ≠ id) :
    (place id descriptor entries).Pairwise (fun a b => a.1.index < b.1.index) := by
  induction entries with
  | nil => exact List.pairwise_singleton _ _
  | cons entry rest ih =>
    obtain ⟨hentry, hrest⟩ := List.pairwise_cons.1 h
    obtain ⟨hne, hnew⟩ := List.forall_mem_cons.1 hnew
    rw [place]
    split
    · next hlt =>
      refine List.pairwise_cons.2 ⟨?_, h⟩
      exact List.forall_mem_cons.2 ⟨hlt, fun other hother => Nat.lt_trans hlt (hentry other hother)⟩
    · next hge =>
      have hindex := mt ProtocolId.index_inj.1 hne
      refine List.pairwise_cons.2 ⟨fun other hother => ?_, ih hrest hnew⟩
      rcases List.mem_cons.1 ((perm_place id descriptor rest).mem_iff.1 hother) with rfl | hother
      · exact Nat.lt_of_le_of_ne (Nat.le_of_not_lt hge) hindex
      · exact hentry other hother

/-- The capacity is the least bound above all registered numbers. -/
theorem capacity_le_iff {bound : Nat} :
    table.capacity ≤ bound ↔ ∀ entry ∈ table.entries, entry.1.index < bound := by
  have hfold (entries : List (ProtocolId × ProtocolDescriptor)) (least : Nat) :
      entries.foldl (fun capacity entry => max capacity (entry.1.index + 1)) least ≤ bound ↔
        least ≤ bound ∧ ∀ entry ∈ entries, entry.1.index < bound := by
    induction entries generalizing least with
    | nil => simp
    | cons first rest ih =>
      rw [List.foldl_cons, ih, List.forall_mem_cons, Nat.max_le, Nat.succ_le_iff, and_assoc]
  exact (hfold table.entries 0).trans (and_iff_right (Nat.zero_le bound))

theorem index_lt_capacity {entry : ProtocolId × ProtocolDescriptor} (h : entry ∈ table.entries) :
    entry.1.index < table.capacity :=
  capacity_le_iff.1 (Nat.le_refl _) entry h

theorem capacity_insert :
    (table.insert id descriptor).capacity = max table.capacity (id.index + 1) := by
  refine Nat.le_antisymm ?_ (Nat.max_le.2 ⟨?_, ?_⟩)
  · rw [capacity_le_iff]
    intro entry hentry
    rcases mem_insert.1 hentry with rfl | hold
    · exact Nat.le_max_right _ _
    · exact Nat.lt_of_lt_of_le (index_lt_capacity hold) (Nat.le_max_left _ _)
  · exact capacity_le_iff.2 fun entry hentry => index_lt_capacity (mem_insert.2 (.inr hentry))
  · exact index_lt_capacity (mem_insert.2 (.inl rfl))

namespace WellFormed

variable (h : table.WellFormed)

include h

theorem eq_of_id {a b : ProtocolId × ProtocolDescriptor} (ha : a ∈ table.entries)
    (hb : b ∈ table.entries) (hid : a.1 = b.1) : a = b := by
  have hdistinct : (table.entries.map Prod.fst).Nodup := by
    rw [List.Nodup, List.pairwise_map]
    refine h.ascending.imp fun hlt heq => ?_
    exact Nat.lt_irrefl _ (heq ▸ hlt)
  exact List.inj_on_of_nodup_map hdistinct ha hb hid

theorem eq_of_name {a b : ProtocolId × ProtocolDescriptor} (ha : a ∈ table.entries)
    (hb : b ∈ table.entries) (hname : a.2.name = b.2.name) : a = b :=
  List.inj_on_of_nodup_map h.named ha hb hname

theorem lookup_eq_some_iff :
    table.lookup id = some descriptor ↔ (id, descriptor) ∈ table.entries := by
  refine ⟨mem_of_lookup, fun hmem => ?_⟩
  obtain ⟨found, hfound⟩ := Option.isSome_iff_exists.1 (contains_of_mem hmem)
  have heq := h.eq_of_id hmem (mem_of_lookup hfound) rfl
  rw [hfound, (Prod.mk.inj heq).2]

theorem named?_eq_some_iff {name : String} :
    table.named? name = some id ↔
      ∃ descriptor, table.lookup id = some descriptor ∧ descriptor.name = name := by
  constructor
  · intro hfound
    obtain ⟨⟨id, descriptor⟩, hentry, rfl, hname⟩ := exists_entry_of_named? hfound
    exact ⟨descriptor, h.lookup_eq_some_iff.2 hentry, hname⟩
  · rintro ⟨descriptor, hlookup, rfl⟩
    have hmem := mem_of_lookup hlookup
    cases hfound : table.named? descriptor.name with
    | none => exact absurd rfl (named?_eq_none_iff.1 hfound _ hmem)
    | some found =>
      obtain ⟨entry, hentry, rfl, hname⟩ := exists_entry_of_named? hfound
      rw [h.eq_of_name hentry hmem hname]

theorem insert (hid : table.lookup id = none) (hname : table.named? descriptor.name = none) :
    (table.insert id descriptor).WellFormed where
  ascending := ascending_place h.ascending (lookup_eq_none_iff.1 hid)
  named := by
    have hperm := (perm_place id descriptor table.entries).map (·.2.name)
    refine hperm.nodup_iff.2 (List.nodup_cons.2 ⟨?_, h.named⟩)
    rw [List.mem_map]
    rintro ⟨entry, hentry, heq⟩
    exact named?_eq_none_iff.1 hname entry hentry heq

theorem lookup_insert (hid : table.lookup id = none)
    (hname : table.named? descriptor.name = none) {other : ProtocolId}
    {found : ProtocolDescriptor} :
    (table.insert id descriptor).lookup other = some found ↔
      (other = id ∧ found = descriptor) ∨ table.lookup other = some found := by
  rw [(h.insert hid hname).lookup_eq_some_iff, mem_insert, h.lookup_eq_some_iff, Prod.mk.injEq]

/-- The entries decide the table, in whatever order they have been added. -/
theorem eq_of_perm {other : ProtocolTable} (hother : other.WellFormed)
    (hperm : table.entries.Perm other.entries) : table = other := by
  have hentries : table.entries = other.entries :=
    hperm.eq_of_pairwise (fun _ _ _ _ hab hba => absurd hba (Nat.lt_asymm hab)) h.ascending
      hother.ascending
  exact congrArg ProtocolTable.mk hentries

end WellFormed

end ProtocolTable

end Dissection
