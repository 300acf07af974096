import Dissection.Proofs.Registry.Refusal

/-!
# What a text refers to

A text that is the name of a protocol refers to it; any other text refers to the lowest number of a
protocol that has it as a nickname. Slots are searched from the first on and tables hold their
entries in ascending order, so both find that number, and a text without one is neither the name nor
the nickname of a registered protocol.
-/

namespace Dissection

/-- A search finds the least number with a property when what it answers is such a number, and
there is none when it answers nothing. -/
theorem ProtocolId.search_eq_some_iff {found? : Option ProtocolId} {P : ProtocolId → Prop}
    (hnone : found? = none → ∀ id, ¬ P id)
    (hsome : ∀ id, found? = some id → P id ∧ ∀ other, P other → id.index ≤ other.index)
    {id : ProtocolId} : found? = some id ↔ P id ∧ ∀ other, P other → id.index ≤ other.index := by
  refine ⟨hsome id, fun ⟨hid, hleast⟩ => ?_⟩
  cases hfound : found? with
  | none => exact absurd hid (hnone hfound id)
  | some first =>
    obtain ⟨hfirst, hfirstLeast⟩ := hsome first hfound
    have hindex := Nat.le_antisymm (hfirstLeast id hid) (hleast first hfirst)
    rw [ProtocolId.index_inj.1 hindex]

/-- The protocol under a number has this nickname. -/
def Nicknamed (lookup : ProtocolId → Option ProtocolDescriptor) (nickname : String)
    (id : ProtocolId) : Prop :=
  ∃ descriptor, lookup id = some descriptor ∧ descriptor.nickname = nickname

theorem ProtocolTable.WellFormed.nicknamed?_eq_some_iff {table : ProtocolTable}
    (h : table.WellFormed) {nickname : String} {id : ProtocolId} :
    table.nicknamed? nickname = some id ↔ Nicknamed table.lookup nickname id ∧
      ∀ other, Nicknamed table.lookup nickname other → id.index ≤ other.index := by
  refine ProtocolId.search_eq_some_iff (fun hnone other => ?_) (fun found hfound => ?_)
  · rintro ⟨descriptor, hlookup, rfl⟩
    have hdiffers := List.find?_eq_none.1 (Option.map_eq_none_iff.1 hnone) _
      (ProtocolTable.mem_of_lookup hlookup)
    simp at hdiffers
  · obtain ⟨⟨number, descriptor⟩, hentry, rfl⟩ := Option.map_eq_some_iff.1 hfound
    obtain ⟨hnickname, before, after, hentries, hbefore⟩ := List.find?_eq_some_iff_append.1 hentry
    have hlookup := h.lookup_eq_some_iff.2 (List.mem_of_find?_eq_some hentry)
    refine ⟨⟨descriptor, hlookup, by simpa using hnickname⟩, ?_⟩
    rintro other ⟨otherDescriptor, hother, rfl⟩
    have hascending := h.ascending
    rw [hentries, List.pairwise_append, List.pairwise_cons] at hascending
    have hmem := ProtocolTable.mem_of_lookup hother
    rw [hentries, List.mem_append, List.mem_cons] at hmem
    rcases hmem with hearlier | hsame | hlater
    · simpa using hbefore _ hearlier
    · exact Nat.le_of_eq (congrArg (·.1.index) hsame.symm)
    · exact Nat.le_of_lt (hascending.2.1.1 _ hlater)

namespace ProtocolSlots

variable {slots : ProtocolSlots} {nickname : String} {id : ProtocolId}

theorem exists_slot_of_nicknamed (h : Nicknamed slots.lookup nickname id) :
    ∃ hinside : id.index < slots.length,
      slots[id.index].any (·.nickname == nickname) = true := by
  obtain ⟨descriptor, hlookup, hnickname⟩ := h
  obtain ⟨hinside, hslot⟩ := List.getElem?_eq_some_iff.1 (Option.join_eq_some_iff.1 hlookup)
  exact ⟨hinside, by simp [hslot, hnickname]⟩

theorem not_nicknamed_of_nicknamed?_eq_none (h : slots.nicknamed? nickname = none)
    (id : ProtocolId) : ¬ Nicknamed slots.lookup nickname id := by
  intro hnicknamed
  obtain ⟨hinside, hhas⟩ := exists_slot_of_nicknamed hnicknamed
  have hdiffers := List.findIdx?_eq_none_iff.1 (Option.map_eq_none_iff.1 h) _
    (List.getElem_mem hinside)
  exact Bool.false_ne_true (hdiffers.symm.trans hhas)

theorem nicknamed?_eq_some_iff (hlength : slots.length ≤ 65536) :
    slots.nicknamed? nickname = some id ↔ Nicknamed slots.lookup nickname id ∧
      ∀ other, Nicknamed slots.lookup nickname other → id.index ≤ other.index := by
  refine ProtocolId.search_eq_some_iff not_nicknamed_of_nicknamed?_eq_none fun found hfound => ?_
  obtain ⟨index, hindex, rfl⟩ := Option.map_eq_some_iff.1 hfound
  obtain ⟨hinside, hhas, hearlier⟩ := List.findIdx?_eq_some_iff_getElem.1 hindex
  have hnumber : (ProtocolId.ofIndex index).index = index :=
    ProtocolId.index_ofIndex (Nat.lt_of_lt_of_le hinside hlength)
  obtain ⟨descriptor, hdescriptor, hnickname⟩ := (Option.any_eq_true _ _).1 hhas
  constructor
  · refine ⟨descriptor, ?_, by simpa using hnickname⟩
    rw [lookup, hnumber, List.getElem?_eq_getElem hinside, Option.join_some, hdescriptor]
  · intro other hother
    obtain ⟨_, hotherHas⟩ := exists_slot_of_nicknamed hother
    rw [hnumber]
    exact Nat.le_of_not_lt fun hlt => hearlier other.index hlt hotherHas

end ProtocolSlots

namespace IndexedRegistry

/-- The text refers to the protocol with exactly this name, and when there is none to the lowest
number with this nickname. -/
def Refers (registry : IndexedRegistry) (text : String) (id : ProtocolId) : Prop :=
  registry.Holds text id ∨
    ¬ registry.Knows text ∧ Nicknamed registry.lookup text id ∧
      ∀ other, Nicknamed registry.lookup text other → id.index ≤ other.index

/-- The text is the name or the nickname of a registered protocol. -/
def Matches (registry : IndexedRegistry) (text : String) : Prop :=
  ∃ id descriptor, registry.lookup id = some descriptor ∧
    (descriptor.name = text ∨ descriptor.nickname = text)

theorem Refers.matches {registry : IndexedRegistry} {text : String} {id : ProtocolId}
    (h : registry.Refers text id) : registry.Matches text := by
  rcases h with ⟨descriptor, hlookup, hname⟩ | ⟨-, ⟨descriptor, hlookup, hnickname⟩, -⟩
  · exact ⟨id, descriptor, hlookup, .inl hname⟩
  · exact ⟨id, descriptor, hlookup, .inr hnickname⟩

namespace Represents

variable {indexed : IndexedRegistry} {registry : Registry} (h : indexed.Represents registry)
  (hwell : registry.WellFormed)

include h

theorem slots_length_le : indexed.slots.length ≤ 65536 := by
  rw [h.length_eq, ProtocolTable.capacity_le_iff]
  exact fun entry _ => entry.1.index_lt

include hwell

/-- A text refers to the same protocol in the slots and in the table. -/
theorem resolve?_eq (text : String) : indexed.resolve? text = registry.table.resolve? text := by
  have hlookup : indexed.slots.lookup = registry.table.lookup := funext h.lookup_eq
  rw [IndexedRegistry.resolve?, ProtocolSlots.resolve?, ProtocolTable.resolve?, h.names_eq]
  cases registry.table.named? text with
  | some id => rfl
  | none =>
    ext id
    rw [Option.none_or, Option.none_or, ProtocolSlots.nicknamed?_eq_some_iff h.slots_length_le,
      hwell.table.nicknamed?_eq_some_iff, hlookup]

theorem resolve?_eq_some_iff {text : String} {id : ProtocolId} :
    indexed.resolve? text = some id ↔ indexed.Refers text id := by
  rw [IndexedRegistry.resolve?, ProtocolSlots.resolve?, Option.or_eq_some_iff,
    ProtocolSlots.nicknamed?_eq_some_iff h.slots_length_le, h.find?_iff_holds hwell,
    h.find?_eq_none_iff hwell]
  rfl

theorem resolve?_eq_none_iff {text : String} :
    indexed.resolve? text = none ↔ ¬ indexed.Matches text := by
  constructor
  · rintro hnone ⟨id, descriptor, hlookup, hname | hnickname⟩
    · have hholds : indexed.Holds text id := ⟨descriptor, hlookup, hname⟩
      have hfound := (h.resolve?_eq_some_iff hwell).2 (.inl hholds)
      exact Option.some_ne_none id (hfound.symm.trans hnone)
    · rw [IndexedRegistry.resolve?, ProtocolSlots.resolve?, Option.or_eq_none_iff] at hnone
      exact ProtocolSlots.not_nicknamed_of_nicknamed?_eq_none hnone.2 id
        ⟨descriptor, hlookup, hnickname⟩
  · intro hunmatched
    refine Option.eq_none_iff_forall_ne_some.2 fun id hresolved => hunmatched ?_
    exact ((h.resolve?_eq_some_iff hwell).1 hresolved).matches

end Represents

end IndexedRegistry

end Dissection
