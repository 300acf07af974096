import Dissection.Proofs.ProtocolBits
import Dissection.Proofs.Registry.Run
import Dissection.Registry.Indexed

/-!
# Registries with slots and names

The slots, the names and the next number of an indexed registry are those of one table: a slot is
taken when the table has an entry under its number, and the next number is the one behind the
greatest entry, or 65535 when there is no number behind it that may be given out. So an indexed
registry answers every call as the table does, and a refused call leaves all of it as it is.
-/

namespace Dissection

namespace ProtocolSlots

/-- A slot that was added is as free as one that is not there. -/
theorem join_getElem?_rightpad (slots : ProtocolSlots) (length index : Nat) :
    (slots.rightpad length none)[index]?.join = slots[index]?.join := by
  have hjoin (slots : ProtocolSlots) : slots[index]?.join = slots.getD index none := by
    rw [List.getD_eq_getElem?_getD]
    cases slots[index]? <;> rfl
  rw [hjoin, hjoin, getD_rightpad]

theorem length_store (slots : ProtocolSlots) (id : ProtocolId) (descriptor : ProtocolDescriptor) :
    (slots.store id descriptor).length = max (id.index + 1) slots.length := by
  rw [store, List.length_set, List.length_rightpad]

theorem lookup_store (slots : ProtocolSlots) (id other : ProtocolId)
    (descriptor : ProtocolDescriptor) :
    (slots.store id descriptor).lookup other =
      if other = id then some descriptor else slots.lookup other := by
  rw [lookup, store, List.getElem?_set, List.length_rightpad]
  by_cases h : other = id
  · subst h
    rw [if_pos rfl, if_pos (by omega), if_pos rfl]
    rfl
  · have hindex : ¬ id.index = other.index := fun heq => h (ProtocolId.index_inj.1 heq.symm)
    rw [if_neg hindex, if_neg h, join_getElem?_rightpad]
    rfl

theorem firstFree_of_free {slots : ProtocolSlots} {candidate : Nat}
    (h : slots[candidate]?.join = none) : slots.firstFree candidate = .ok candidate := by
  rw [firstFree, dif_neg (by simp [h])]

end ProtocolSlots

namespace IndexedRegistry

/-- The containers of the one registry show what is in the table of the other. -/
structure Represents (indexed : IndexedRegistry) (registry : Registry) : Prop where
  lookup_eq : ∀ id, indexed.lookup id = registry.table.lookup id
  names_eq : ∀ name, indexed.names.find? name = registry.table.named? name
  pending_eq : indexed.pending = registry.pending
  length_eq : indexed.slots.length = registry.table.capacity
  next_eq : indexed.nextId = min registry.table.capacity 65535

theorem represents_empty : empty.Represents .empty where
  lookup_eq id := by
    by_cases h : id = .payload
    · subst h
      rfl
    · have hslot : empty.slots[id.index]? = none := by
        have hindex := mt ProtocolId.index_inj.1 h
        have hpayload : ProtocolId.payload.index = 0 := rfl
        exact List.getElem?_eq_none (by simp [empty]; omega)
      have hentry : Registry.empty.table.lookup id = none :=
        ProtocolTable.lookup_eq_none_iff.2 (by simpa [Registry.empty] using Ne.symm h)
      rw [lookup, ProtocolSlots.lookup, hslot, hentry]
      rfl
  names_eq name := by
    have hpayload : Registry.payloadDescriptor.name = "payload" := rfl
    ext id
    rw [Registry.named?_empty, empty, KeyTable.find?_insert, hpayload, Prod.mk.injEq]
    by_cases hname : name = "payload"
    · simp [hname, eq_comm]
    · simp [hname, KeyTable.find?]
  pending_eq := rfl
  length_eq := rfl
  next_eq := rfl

namespace Represents

variable {indexed : IndexedRegistry} {registry : Registry} (h : indexed.Represents registry)

include h

theorem allocate_eq :
    indexed.allocate =
      if registry.table.capacity < 65535 then .ok (.ofIndex registry.table.capacity)
      else .error .idSpaceExhausted := by
  by_cases hroom : registry.table.capacity < 65535
  · have hnext : indexed.nextId = registry.table.capacity :=
      h.next_eq.trans (Nat.min_eq_left (Nat.le_of_lt hroom))
    have hfree : indexed.slots[indexed.nextId]?.join = none := by
      rw [List.getElem?_eq_none (Nat.le_of_eq (h.length_eq.trans hnext.symm))]
      rfl
    rw [allocate, ProtocolSlots.firstFree_of_free hfree, if_pos hroom, hnext]
    exact if_neg (Nat.ne_of_lt hroom)
  · have hnext : indexed.nextId = 65535 := h.next_eq.trans (Nat.min_eq_right (by omega))
    rw [allocate, if_neg hroom, hnext, ProtocolSlots.firstFree]
    by_cases htaken : indexed.slots[65535]?.join.isSome = true
    · rw [dif_pos htaken, if_pos rfl]
    · rw [dif_neg htaken]
      exact if_pos rfl

theorem assignId_eq (descriptor : ProtocolDescriptor) :
    indexed.assignId descriptor = registry.assignId descriptor := by
  rw [assignId, Registry.assignId]
  cases descriptor.requestedId with
  | none => exact h.allocate_eq
  | some requested =>
    have hlookup := h.lookup_eq requested
    cases hfound : registry.table.lookup requested <;> simp [hlookup, hfound]

theorem add (hwell : registry.WellFormed) {descriptor : ProtocolDescriptor} {id : ProtocolId}
    (hname : registry.table.named? descriptor.name = none)
    (hassigned : registry.assignId descriptor = .ok id) :
    (indexed.add id descriptor).Represents (registry.add id descriptor) where
  lookup_eq other := by
    ext found
    change (ProtocolSlots.store _ _ _).lookup other = some found ↔ _
    have hold : indexed.slots.lookup other = registry.table.lookup other := h.lookup_eq other
    rw [hwell.lookup_add hname hassigned, ProtocolSlots.lookup_store, hold]
    by_cases hid : other = id
    · subst hid
      simp [Registry.lookup_of_assignId hassigned, eq_comm]
    · simp [hid]
  names_eq name := by
    ext found
    change (indexed.names.insert _ _).find? name = some found ↔ _
    rw [hwell.named?_add hname hassigned, KeyTable.find?_insert, h.names_eq]
    by_cases hsame : name = descriptor.name
    · simp [hsame, hname]
    · simp [hsame, Ne.symm hsame]
  pending_eq := congrArg (· ++ _) h.pending_eq
  length_eq := by
    change (ProtocolSlots.store _ _ _).length = (registry.table.insert _ _).capacity
    rw [ProtocolSlots.length_store, ProtocolTable.capacity_insert, h.length_eq, Nat.max_comm]
  next_eq := by
    change max indexed.nextId _ = min (registry.table.insert _ _).capacity 65535
    rw [ProtocolTable.capacity_insert, h.next_eq]
    omega

/-- A registration is answered alike, and what is left behind is alike. -/
theorem register (hwell : registry.WellFormed) (descriptor : ProtocolDescriptor) :
    (indexed.register descriptor).2 = (registry.register descriptor).2 ∧
      (indexed.register descriptor).1.Represents (registry.register descriptor).1 := by
  rw [IndexedRegistry.register, Registry.register, h.names_eq]
  cases hname : registry.table.named? descriptor.name with
  | some existing =>
    cases descriptor.requestedId with
    | none => exact ⟨rfl, h⟩
    | some requested =>
      by_cases hsame : requested = existing
      · simpa [hsame] using h
      · simpa [hsame] using h
  | none =>
    rw [h.assignId_eq]
    cases hassigned : registry.assignId descriptor with
    | error error => exact ⟨rfl, h⟩
    | ok id => exact ⟨rfl, h.add hwell hname hassigned⟩

theorem registerAll (hwell : registry.WellFormed) (descriptors : List ProtocolDescriptor) :
    (indexed.registerAll descriptors).2 = (registry.registerAll descriptors).2 ∧
      (indexed.registerAll descriptors).1.Represents (registry.registerAll descriptors).1 ∧
      (registry.registerAll descriptors).1.WellFormed := by
  induction descriptors generalizing indexed registry with
  | nil => exact ⟨rfl, h, hwell⟩
  | cons descriptor rest ih =>
    obtain ⟨hanswer, hnext⟩ := h.register hwell descriptor
    have hkept : (registry.register descriptor).1.WellFormed := hwell.apply (.register descriptor)
    rw [IndexedRegistry.registerAll, Registry.registerAll]
    generalize indexed.register descriptor = slots at hanswer hnext ⊢
    generalize registry.register descriptor = table at hanswer hnext hkept ⊢
    obtain ⟨slots, answer⟩ := slots
    obtain ⟨table, tableAnswer⟩ := table
    cases (hanswer : answer = tableAnswer)
    cases answer with
    | ok id => exact ih hnext hkept
    | error error => exact ⟨rfl, hnext, hkept⟩

theorem addBinding (source target : String) (priority : Int) (predicate : Predicate) :
    (indexed.addBinding source target priority predicate).Represents
      (registry.addBinding source target priority predicate) where
  lookup_eq := h.lookup_eq
  names_eq := h.names_eq
  pending_eq := congrArg (· ++ _) h.pending_eq
  length_eq := h.length_eq
  next_eq := h.next_eq

end Represents

def apply (registry : IndexedRegistry) : RegistryOperation → IndexedRegistry
  | .register descriptor => (registry.register descriptor).1
  | .addBinding source target priority predicate =>
    registry.addBinding source target priority predicate

def after (registry : IndexedRegistry) : List RegistryOperation → IndexedRegistry
  | [] => registry
  | operation :: rest => (registry.apply operation).after rest

theorem after_append (registry : IndexedRegistry) (operations more : List RegistryOperation) :
    registry.after (operations ++ more) = (registry.after operations).after more := by
  induction operations generalizing registry with
  | nil => rfl
  | cons operation rest ih => exact ih (registry.apply operation)

theorem Represents.apply {indexed : IndexedRegistry} {registry : Registry}
    (h : indexed.Represents registry) (hwell : registry.WellFormed)
    (operation : RegistryOperation) :
    (indexed.apply operation).Represents (registry.apply operation) := by
  cases operation with
  | register descriptor => exact (h.register hwell descriptor).2
  | addBinding source target priority predicate => exact h.addBinding source target priority predicate

theorem Represents.after {indexed : IndexedRegistry} {registry : Registry}
    (h : indexed.Represents registry) (hwell : registry.WellFormed)
    (operations : List RegistryOperation) :
    (indexed.after operations).Represents (registry.after operations) := by
  induction operations generalizing indexed registry with
  | nil => exact h
  | cons operation rest ih => exact ih (h.apply hwell operation) (hwell.apply operation)

theorem represents_after (operations : List RegistryOperation) :
    (empty.after operations).Represents (Registry.empty.after operations) :=
  represents_empty.after Registry.wellFormed_empty operations

end IndexedRegistry

end Dissection
