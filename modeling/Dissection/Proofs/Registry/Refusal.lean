import Dissection.Proofs.Registry.Indexed

/-!
# Refused registrations

A registration that is refused, or whose name is known, leaves slots, names, pending bindings and
the next number as they are, so no later call can tell that it was made. What it is refused for is
read off the protocols that are registered: a name with another number, the reserved number, a
taken one, or no number left below 65535.
-/

namespace Dissection

namespace IndexedRegistry

/-- A protocol of this name is registered under this number. -/
def Holds (registry : IndexedRegistry) (name : String) (id : ProtocolId) : Prop :=
  ∃ descriptor, registry.lookup id = some descriptor ∧ descriptor.name = name

def Knows (registry : IndexedRegistry) (name : String) : Prop := ∃ id, registry.Holds name id

/-- What the answer to a registration says about the registry, which then becomes `next`. -/
structure Registers (registry : IndexedRegistry) (descriptor : ProtocolDescriptor)
    (answer : Except RegistryError ProtocolId) (next : IndexedRegistry) : Prop where
  unchanged : (∃ error, answer = .error error) ∨ registry.Knows descriptor.name → next = registry
  known : ∀ id, registry.Holds descriptor.name id →
    (answer = .ok id ↔ ∀ requested, descriptor.requestedId = some requested → requested = id)
  nameConflict_iff : ∀ name existing requested,
    answer = .error (.nameConflict name existing requested) ↔
      name = descriptor.name ∧ registry.Holds name existing ∧
        descriptor.requestedId = some requested ∧ requested ≠ existing
  reservedId_iff : ∀ id, answer = .error (.reservedId id) ↔
    ¬ registry.Knows descriptor.name ∧ descriptor.requestedId = some id ∧ id = .payload
  idCollision_iff : ∀ id existing name, answer = .error (.idCollision id existing name) ↔
    ¬ registry.Knows descriptor.name ∧ descriptor.requestedId = some id ∧ id ≠ .payload ∧
      registry.Holds existing id ∧ name = descriptor.name
  idSpaceExhausted_iff : answer = .error .idSpaceExhausted ↔
    ¬ registry.Knows descriptor.name ∧ descriptor.requestedId = none ∧
      ∃ id name, registry.Holds name id ∧ 65534 ≤ id.index
  others : ∀ source target, answer ≠ .error (.unresolvedBinding source target) ∧
    answer ≠ .error (.payloadBinding source)

section Register

variable {registry : IndexedRegistry} {descriptor : ProtocolDescriptor} {existing : ProtocolId}

theorem register_of_known (hname : registry.names.find? descriptor.name = some existing) :
    (registry.register descriptor).1 = registry ∧
      (registry.register descriptor).2 = match descriptor.requestedId with
        | some requested =>
          if requested = existing then .ok existing
          else .error (.nameConflict descriptor.name existing requested)
        | none => .ok existing := by
  rw [register, hname]
  cases descriptor.requestedId with
  | none => exact ⟨rfl, rfl⟩
  | some requested => by_cases hsame : requested = existing <;> simp [hsame]

theorem register_of_unknown (hname : registry.names.find? descriptor.name = none) :
    (registry.register descriptor).2 = registry.assignId descriptor ∧
      ∀ error, registry.assignId descriptor = .error error →
        (registry.register descriptor).1 = registry := by
  rw [register, hname]
  cases hassigned : registry.assignId descriptor with
  | error error => exact ⟨rfl, fun _ _ => rfl⟩
  | ok id => exact ⟨rfl, by simp⟩

end Register

namespace Represents

variable {indexed : IndexedRegistry} {registry : Registry} (h : indexed.Represents registry)
  (hwell : registry.WellFormed)

include h hwell

theorem find?_iff_holds {name : String} {id : ProtocolId} :
    indexed.names.find? name = some id ↔ indexed.Holds name id := by
  rw [h.names_eq, hwell.table.named?_eq_some_iff]
  simp only [Holds, h.lookup_eq]

theorem find?_eq_none_iff {name : String} :
    indexed.names.find? name = none ↔ ¬ indexed.Knows name := by
  rw [Option.eq_none_iff_forall_ne_some, Knows, not_exists]
  exact forall_congr' fun id => not_congr (h.find?_iff_holds hwell)

/-- Numbers run out when one of the two greatest is taken. -/
theorem allocate_eq_error_iff {error : RegistryError} :
    indexed.allocate = .error error ↔
      error = .idSpaceExhausted ∧ ∃ id name, indexed.Holds name id ∧ 65534 ≤ id.index := by
  have htaken : ¬ registry.table.capacity < 65535 ↔
      ∃ id name, indexed.Holds name id ∧ 65534 ≤ id.index := by
    rw [Nat.lt_succ_iff, ProtocolTable.capacity_le_iff]
    constructor
    · intro hbound
      obtain ⟨⟨id, descriptor⟩, hbeyond⟩ := not_forall.1 hbound
      obtain ⟨hentry, hindex⟩ := Classical.not_imp.1 hbeyond
      have hlookup := (h.lookup_eq id).trans (hwell.table.lookup_eq_some_iff.2 hentry)
      exact ⟨id, descriptor.name, ⟨descriptor, hlookup, rfl⟩, Nat.le_of_not_lt hindex⟩
    · rintro ⟨id, name, ⟨descriptor, hlookup, -⟩, hindex⟩ hbound
      rw [h.lookup_eq] at hlookup
      exact Nat.not_lt.2 hindex (hbound _ (ProtocolTable.mem_of_lookup hlookup))
  rw [h.allocate_eq, ← htaken]
  by_cases hroom : registry.table.capacity < 65535 <;> simp [hroom, eq_comm]

theorem assignId_eq_error_iff {descriptor : ProtocolDescriptor} {error : RegistryError} :
    indexed.assignId descriptor = .error error ↔
      (descriptor.requestedId = some .payload ∧ error = .reservedId .payload) ∨
      (∃ id name, descriptor.requestedId = some id ∧ id ≠ .payload ∧ indexed.Holds name id ∧
        error = .idCollision id name descriptor.name) ∨
      (descriptor.requestedId = none ∧ error = .idSpaceExhausted ∧
        ∃ id name, indexed.Holds name id ∧ 65534 ≤ id.index) := by
  rw [assignId]
  cases descriptor.requestedId with
  | none => simpa using h.allocate_eq_error_iff hwell
  | some requested =>
    by_cases hpayload : requested = .payload
    · simp [hpayload, eq_comm]
    · cases hlookup : indexed.lookup requested with
      | none => simp [hpayload, Holds, hlookup]
      | some other => simp [hpayload, Holds, hlookup, eq_comm]

theorem registers_known {descriptor : ProtocolDescriptor} {existing : ProtocolId}
    (hname : indexed.names.find? descriptor.name = some existing) :
    indexed.Registers descriptor (indexed.register descriptor).2
      (indexed.register descriptor).1 := by
  obtain ⟨hsame, hanswer⟩ := register_of_known hname
  have hholds (id : ProtocolId) : indexed.Holds descriptor.name id ↔ id = existing := by
    rw [← h.find?_iff_holds hwell, hname, Option.some.injEq, eq_comm]
  have hknown : indexed.Knows descriptor.name := ⟨existing, (hholds existing).2 rfl⟩
  rw [hsame]
  by_cases hconflict : ∃ requested, descriptor.requestedId = some requested ∧ requested ≠ existing
  · obtain ⟨requested, hrequested, hne⟩ := hconflict
    simp only [hrequested, if_neg hne] at hanswer
    rw [hanswer]
    constructor
    case nameConflict_iff =>
      intro name found asked
      simp only [Except.error.injEq, RegistryError.nameConflict.injEq, hrequested, Option.some.injEq]
      constructor
      · rintro ⟨rfl, rfl, rfl⟩
        exact ⟨rfl, (hholds _).2 rfl, rfl, hne⟩
      · rintro ⟨rfl, hfound, rfl, -⟩
        exact ⟨rfl, ((hholds found).1 hfound).symm, rfl⟩
    all_goals simp [hknown, hholds, hrequested, hne]
  · have hagreed (requested : ProtocolId) (hrequested : descriptor.requestedId = some requested) :
        requested = existing :=
      Decidable.byContradiction fun hne => hconflict ⟨requested, hrequested, hne⟩
    have hgranted : (indexed.register descriptor).2 = .ok existing := by
      rw [hanswer]
      cases hrequested : descriptor.requestedId with
      | none => rfl
      | some requested => exact if_pos (hagreed requested hrequested)
    rw [hgranted]
    constructor
    case known =>
      intro id hid
      rw [(hholds id).1 hid]
      exact iff_of_true rfl hagreed
    case nameConflict_iff =>
      intro name found requested
      simp only [reduceCtorEq, false_iff, not_and]
      rintro rfl hfound hrequested hne
      exact hne ((hagreed requested hrequested).trans ((hholds found).1 hfound).symm)
    all_goals simp [hknown]

theorem registers_unknown {descriptor : ProtocolDescriptor}
    (hname : indexed.names.find? descriptor.name = none) :
    indexed.Registers descriptor (indexed.register descriptor).2
      (indexed.register descriptor).1 := by
  obtain ⟨hanswer, hsame⟩ := register_of_unknown hname
  have hunknown : ¬ indexed.Knows descriptor.name := (h.find?_eq_none_iff hwell).1 hname
  have hnone (id : ProtocolId) : ¬ indexed.Holds descriptor.name id := not_exists.1 hunknown id
  have hunchanged : (∃ error, (indexed.register descriptor).2 = .error error) ∨
      indexed.Knows descriptor.name → (indexed.register descriptor).1 = indexed := by
    rintro (⟨error, herror⟩ | hknown)
    · exact hsame error (hanswer ▸ herror)
    · exact absurd hknown hunknown
  have hconflict (name : String) (existing requested : ProtocolId) :
      ¬ (name = descriptor.name ∧ indexed.Holds name existing ∧
        descriptor.requestedId = some requested ∧ requested ≠ existing) := by
    rintro ⟨rfl, hheld, -⟩
    exact hnone existing hheld
  rw [hanswer] at hunchanged ⊢
  constructor
  case unchanged => exact hunchanged
  case known => exact fun id hid => absurd hid (hnone id)
  case nameConflict_iff => simp [h.assignId_eq_error_iff hwell, hconflict]
  case reservedId_iff =>
    intro id
    by_cases hpayload : id = .payload
    · simp [h.assignId_eq_error_iff hwell, hunknown, hpayload]
    · simp [h.assignId_eq_error_iff hwell, hpayload]
  case idCollision_iff => simp [h.assignId_eq_error_iff hwell, hunknown]
  case idSpaceExhausted_iff => simp [h.assignId_eq_error_iff hwell, hunknown]
  case others => simp [h.assignId_eq_error_iff hwell]

end Represents

/-- After every run a registration that is refused or finds its name known leaves the registry as it
is, so whatever calls come after it end as if it had not been made; and what it is refused for is
decided by the protocols that are registered. -/
theorem refusals_of_run (operations : List RegistryOperation) (descriptor : ProtocolDescriptor) :
    let registry := empty.after operations
    let (next, answer) := registry.register descriptor
    registry.Registers descriptor answer next ∧
      ((∃ error, answer = .error error) ∨ registry.Knows descriptor.name →
        ∀ later, empty.after (operations ++ .register descriptor :: later) =
          empty.after (operations ++ later)) := by
  intro registry
  have hrepresents := represents_after operations
  have hwell := Registry.wellFormed_after_empty operations
  have hregisters : registry.Registers descriptor (registry.register descriptor).2
      (registry.register descriptor).1 := by
    cases hname : registry.names.find? descriptor.name with
    | none => exact hrepresents.registers_unknown hwell hname
    | some existing => exact hrepresents.registers_known hwell hname
  refine ⟨hregisters, fun hrefused later => ?_⟩
  have hsame : registry.apply (.register descriptor) = registry := hregisters.unchanged hrefused
  rw [after_append, after_append]
  exact congrArg (fun next => next.after later) hsame

/-- The number of unclaimed bytes is taken, but a request for it is refused as reserved. -/
example :
    (empty.register ⟨some .payload, "bytes", "b", .remaining, [], []⟩).2 =
      .error (.reservedId .payload) := rfl

end IndexedRegistry

end Dissection
