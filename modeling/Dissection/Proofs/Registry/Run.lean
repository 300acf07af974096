import Dissection.Proofs.Registry.Table

/-!
# Runs of a registry

A run is a list of calls on a registry, each of which may be refused. A call that registers a
protocol either changes nothing or adds one entry with a new name and a new number. So after every
run the names that calls have answered and the occupied numbers belong together one to one, and what
is registered stays as it is.
-/

namespace Dissection

inductive RegistryOperation where
  | register (descriptor : ProtocolDescriptor)
  | addBinding (source target : String) (priority : Int) (predicate : Predicate)

namespace Registry

def apply (registry : Registry) : RegistryOperation → Registry
  | .register descriptor => (registry.register descriptor).1
  | .addBinding source target priority predicate =>
    registry.addBinding source target priority predicate

def after (registry : Registry) : List RegistryOperation → Registry
  | [] => registry
  | operation :: rest => (registry.apply operation).after rest

/-- The name that a call has registered, or found registered, and its number. -/
def granted? (registry : Registry) : RegistryOperation → Option (String × ProtocolId)
  | .register descriptor =>
    match (registry.register descriptor).2 with
    | .ok id => some (descriptor.name, id)
    | .error _ => none
  | .addBinding .. => none

/-- The names that the calls of a run have answered numbers for. -/
def granted (registry : Registry) : List RegistryOperation → List (String × ProtocolId)
  | [] => []
  | operation :: rest =>
    (registry.granted? operation).toList ++ (registry.apply operation).granted rest

theorem granted?_register {registry : Registry} {descriptor : ProtocolDescriptor} {name : String}
    {id : ProtocolId} :
    registry.granted? (.register descriptor) = some (name, id) ↔
      (registry.register descriptor).2 = .ok id ∧ descriptor.name = name := by
  rw [granted?]
  cases (registry.register descriptor).2 with
  | ok answered => simp [and_comm]
  | error error => simp

section Register

variable {registry : Registry} {descriptor : ProtocolDescriptor} {id : ProtocolId}

/-- A new number is the one asked for, or the one after the greatest. -/
theorem assignId_cases (h : registry.assignId descriptor = .ok id) :
    (descriptor.requestedId = some id ∧ id ≠ .payload ∧ registry.table.lookup id = none) ∨
      (descriptor.requestedId = none ∧ id.index = registry.table.capacity ∧ id.index < 65535) := by
  cases hrequested : descriptor.requestedId with
  | some requested =>
    left
    simp only [assignId, hrequested] at h
    split at h
    · cases h
    · next hpayload =>
      split at h
      · cases h
      · next hfree =>
        cases h
        exact ⟨rfl, hpayload, hfree⟩
  | none =>
    right
    simp only [assignId, hrequested] at h
    split at h
    · next hroom =>
      cases h
      rw [ProtocolId.index_ofIndex (by omega)]
      exact ⟨rfl, rfl, hroom⟩
    · cases h

theorem lookup_of_assignId (h : registry.assignId descriptor = .ok id) :
    registry.table.lookup id = none := by
  rcases assignId_cases h with ⟨-, -, hfree⟩ | ⟨-, hindex, -⟩
  · exact hfree
  · rw [ProtocolTable.lookup_eq_none_iff]
    rintro entry hentry rfl
    exact Nat.ne_of_lt (ProtocolTable.index_lt_capacity hentry) hindex

/-- A registration leaves the registry as it is, and then it can only answer the number that the
name has, or it adds a protocol whose name is new. -/
theorem register_cases (registry : Registry) (descriptor : ProtocolDescriptor) :
    ((registry.register descriptor).1 = registry ∧
        ∀ id, (registry.register descriptor).2 = .ok id →
          registry.table.named? descriptor.name = some id ∧
            ∀ requested, descriptor.requestedId = some requested → requested = id) ∨
      ∃ id, registry.table.named? descriptor.name = none ∧
        registry.assignId descriptor = .ok id ∧
        registry.register descriptor = (registry.add id descriptor, .ok id) := by
  cases hnamed : registry.table.named? descriptor.name with
  | some existing =>
    left
    cases hrequested : descriptor.requestedId with
    | none =>
      rw [register, hnamed, hrequested]
      exact ⟨rfl, by simp⟩
    | some requested =>
      simp only [register, hnamed, hrequested]
      split
      · next heq => exact ⟨rfl, by simp [heq]⟩
      · exact ⟨rfl, by simp⟩
  | none =>
    cases hassigned : registry.assignId descriptor with
    | error error =>
      left
      rw [register, hnamed, hassigned]
      exact ⟨rfl, by simp⟩
    | ok id =>
      right
      refine ⟨id, rfl, rfl, ?_⟩
      rw [register, hnamed, hassigned]

end Register

/-- Names and numbers occur once, and the number of unclaimed bytes is taken. -/
structure WellFormed (registry : Registry) : Prop where
  table : registry.table.WellFormed
  payload : registry.table.lookup .payload = some payloadDescriptor

theorem wellFormed_empty : empty.WellFormed where
  table := ⟨List.pairwise_singleton _ _, List.nodup_singleton _⟩
  payload := rfl

namespace WellFormed

variable {registry : Registry} (h : registry.WellFormed)

include h

theorem lookup_add {descriptor : ProtocolDescriptor} {id : ProtocolId}
    (hname : registry.table.named? descriptor.name = none)
    (hassigned : registry.assignId descriptor = .ok id) {other : ProtocolId}
    {found : ProtocolDescriptor} :
    (registry.add id descriptor).table.lookup other = some found ↔
      (other = id ∧ found = { descriptor with bindings := [] }) ∨
        registry.table.lookup other = some found := by
  have hnew : registry.table.named? { descriptor with bindings := [] }.name = none := hname
  exact h.table.lookup_insert (lookup_of_assignId hassigned) hnew

theorem add {descriptor : ProtocolDescriptor} {id : ProtocolId}
    (hname : registry.table.named? descriptor.name = none)
    (hassigned : registry.assignId descriptor = .ok id) :
    (registry.add id descriptor).WellFormed where
  table := by
    have hnew : registry.table.named? { descriptor with bindings := [] }.name = none := hname
    exact h.table.insert (lookup_of_assignId hassigned) hnew
  payload := (h.lookup_add hname hassigned).2 (.inr h.payload)

theorem named?_add {descriptor : ProtocolDescriptor} {new : ProtocolId}
    (hname : registry.table.named? descriptor.name = none)
    (hassigned : registry.assignId descriptor = .ok new) {name : String} {id : ProtocolId} :
    (registry.add new descriptor).table.named? name = some id ↔
      registry.table.named? name = some id ∨ new = id ∧ descriptor.name = name := by
  rw [(h.add hname hassigned).table.named?_eq_some_iff, h.table.named?_eq_some_iff]
  constructor
  · rintro ⟨found, hfound, rfl⟩
    rcases (h.lookup_add hname hassigned).1 hfound with ⟨rfl, rfl⟩ | hlookup
    · exact .inr ⟨rfl, rfl⟩
    · exact .inl ⟨found, hlookup, rfl⟩
  · rintro (⟨found, hlookup, rfl⟩ | ⟨rfl, rfl⟩)
    · exact ⟨found, (h.lookup_add hname hassigned).2 (.inr hlookup), rfl⟩
    · exact ⟨_, (h.lookup_add hname hassigned).2 (.inl ⟨rfl, rfl⟩), rfl⟩

theorem apply (operation : RegistryOperation) : (registry.apply operation).WellFormed := by
  cases operation with
  | addBinding => exact ⟨h.table, h.payload⟩
  | register descriptor =>
    change (registry.register descriptor).1.WellFormed
    rcases register_cases registry descriptor with ⟨hsame, -⟩ | ⟨id, hname, hassigned, hadded⟩
    · rwa [hsame]
    · rw [hadded]
      exact h.add hname hassigned

theorem after (operations : List RegistryOperation) : (registry.after operations).WellFormed := by
  induction operations generalizing registry with
  | nil => exact h
  | cons operation rest ih => exact ih (h.apply operation)

theorem lookup_apply (operation : RegistryOperation) {id : ProtocolId}
    {descriptor : ProtocolDescriptor} (hlookup : registry.table.lookup id = some descriptor) :
    (registry.apply operation).table.lookup id = some descriptor := by
  cases operation with
  | addBinding => exact hlookup
  | register other =>
    change (registry.register other).1.table.lookup id = some descriptor
    rcases register_cases registry other with ⟨hsame, -⟩ | ⟨new, hname, hassigned, hadded⟩
    · rwa [hsame]
    · rw [hadded]
      exact (h.lookup_add hname hassigned).2 (.inr hlookup)

theorem lookup_after (operations : List RegistryOperation) {id : ProtocolId}
    {descriptor : ProtocolDescriptor} (hlookup : registry.table.lookup id = some descriptor) :
    (registry.after operations).table.lookup id = some descriptor := by
  induction operations generalizing registry with
  | nil => exact hlookup
  | cons operation rest ih => exact ih (h.apply operation) (h.lookup_apply operation hlookup)

/-- A name has a number when it had it before the call or the call has answered it. -/
theorem named?_apply (operation : RegistryOperation) {name : String} {id : ProtocolId} :
    (registry.apply operation).table.named? name = some id ↔
      registry.table.named? name = some id ∨ registry.granted? operation = some (name, id) := by
  cases operation with
  | addBinding => simp [Registry.apply, addBinding, granted?]
  | register descriptor =>
    rw [granted?_register]
    change (registry.register descriptor).1.table.named? name = some id ↔ _
    rcases register_cases registry descriptor with ⟨hsame, hknown⟩ | ⟨new, hname, hassigned, hadded⟩
    · rw [hsame, iff_self_or]
      rintro ⟨hanswer, rfl⟩
      exact (hknown id hanswer).1
    · rw [hadded, h.named?_add hname hassigned, Except.ok.injEq]

theorem named?_after (operations : List RegistryOperation) {name : String} {id : ProtocolId} :
    (registry.after operations).table.named? name = some id ↔
      registry.table.named? name = some id ∨ (name, id) ∈ registry.granted operations := by
  induction operations generalizing registry with
  | nil => simp [Registry.after, granted]
  | cons operation rest ih =>
    rw [Registry.after, ih (h.apply operation), h.named?_apply, granted, List.mem_append,
      Option.mem_toList, or_assoc]

end WellFormed

theorem named?_empty {name : String} {id : ProtocolId} :
    empty.table.named? name = some id ↔ (name, id) = ("payload", .payload) := by
  have hpayload : payloadDescriptor.name = "payload" := rfl
  rw [wellFormed_empty.table.named?_eq_some_iff, Prod.mk.injEq]
  constructor
  · rintro ⟨descriptor, hlookup, rfl⟩
    have hentry := ProtocolTable.mem_of_lookup hlookup
    cases List.mem_singleton.1 hentry
    exact ⟨hpayload, rfl⟩
  · rintro ⟨rfl, rfl⟩
    exact ⟨payloadDescriptor, rfl, hpayload⟩

theorem wellFormed_after_empty (operations : List RegistryOperation) :
    (empty.after operations).WellFormed :=
  wellFormed_empty.after operations

/-- The names that have been given numbers and the numbers that are occupied belong together one to
one. -/
structure OneToOne (registry : Registry) (names : List (String × ProtocolId)) : Prop where
  filed : ∀ name id, (name, id) ∈ names ↔
    ∃ descriptor, registry.table.lookup id = some descriptor ∧ descriptor.name = name
  resolved : ∀ name ∈ names.map Prod.fst, ∀ id, registry.table.resolve? name = some id ↔
    ∃ descriptor, registry.table.lookup id = some descriptor ∧ descriptor.name = name
  distinct : ∀ id other descriptor descriptor', registry.table.lookup id = some descriptor →
    registry.table.lookup other = some descriptor' → descriptor.name = descriptor'.name → id = other

/-- What a registration answers: the number asked for, and for a new name without a request one
that is greater than all others. A new name gets a slot that was free. -/
structure Answers (registry : Registry) (descriptor : ProtocolDescriptor) (id : ProtocolId) :
    Prop where
  requested : ∀ requested, descriptor.requestedId = some requested → id = requested
  stored : registry.table.named? descriptor.name = none → registry.table.lookup id = none ∧
    (registry.register descriptor).1.table.lookup id = some { descriptor with bindings := [] }
  greatest : registry.table.named? descriptor.name = none → descriptor.requestedId = none →
    (∀ other, registry.table.contains other = true → other.index < id.index) ∧ id.index < 65535

theorem oneToOne_after (operations : List RegistryOperation) :
    (empty.after operations).OneToOne (("payload", .payload) :: empty.granted operations) := by
  have hwell := wellFormed_after_empty operations
  have hnames (name : String) (id : ProtocolId) :
      (name, id) ∈ ("payload", .payload) :: empty.granted operations ↔
        (empty.after operations).table.named? name = some id := by
    rw [wellFormed_empty.named?_after, named?_empty, List.mem_cons]
  constructor
  case filed =>
    intro name id
    rw [hnames, hwell.table.named?_eq_some_iff]
  case resolved =>
    intro name hname id
    obtain ⟨⟨name, known⟩, hmem, rfl⟩ := List.mem_map.1 hname
    have hknown := (hnames name known).1 hmem
    rw [← hwell.table.named?_eq_some_iff, ProtocolTable.resolve?_of_named? hknown, hknown]
  case distinct =>
    intro id other descriptor descriptor' hid hother hname
    have heq := hwell.table.eq_of_name (ProtocolTable.mem_of_lookup hid)
      (ProtocolTable.mem_of_lookup hother) hname
    exact (Prod.mk.inj heq).1

theorem WellFormed.answers {registry : Registry} (h : registry.WellFormed)
    {descriptor : ProtocolDescriptor} {id : ProtocolId}
    (hanswer : (registry.register descriptor).2 = .ok id) : registry.Answers descriptor id := by
  rcases register_cases registry descriptor with ⟨-, hknown⟩ | ⟨new, hname, hassigned, hadded⟩
  · obtain ⟨hnamed, hrequested⟩ := hknown id hanswer
    constructor
    case requested => exact fun requested heq => (hrequested requested heq).symm
    case stored => exact fun hnone => absurd (hnamed.symm.trans hnone) (by simp)
    case greatest => exact fun hnone => absurd (hnamed.symm.trans hnone) (by simp)
  · rw [hadded, Except.ok.injEq] at hanswer
    subst hanswer
    constructor
    case requested =>
      intro requested heq
      rcases assignId_cases hassigned with ⟨hid, -, -⟩ | ⟨hnone, -, -⟩
      · exact Option.some.inj (hid.symm.trans heq)
      · rw [hnone] at heq
        cases heq
    case stored =>
      intro _
      rw [hadded]
      exact ⟨lookup_of_assignId hassigned, (h.lookup_add hname hassigned).2 (.inl ⟨rfl, rfl⟩)⟩
    case greatest =>
      intro _ hnone
      rcases assignId_cases hassigned with ⟨hid, -, -⟩ | ⟨-, hindex, hroom⟩
      · rw [hnone] at hid
        cases hid
      · refine ⟨fun other hother => ?_, hroom⟩
        obtain ⟨entry, hentry, rfl⟩ := ProtocolTable.contains_iff.1 hother
        rw [hindex]
        exact ProtocolTable.index_lt_capacity hentry

/-- After every run names and numbers belong together one to one, and number 0 stands for unclaimed
bytes. Whatever calls follow, a name keeps its number and its protocol. Every call that registers a
protocol answers as it should. -/
theorem numbers_of_run (operations : List RegistryOperation) :
    let registry := empty.after operations
    registry.OneToOne (("payload", .payload) :: empty.granted operations) ∧
      registry.table.lookup .payload = some payloadDescriptor ∧
      (∀ later id descriptor, registry.table.lookup id = some descriptor →
        (registry.after later).table.lookup id = some descriptor ∧
          (registry.after later).table.resolve? descriptor.name = some id) ∧
      ∀ descriptor id, (registry.register descriptor).2 = .ok id →
        registry.Answers descriptor id := by
  intro registry
  have hwell : registry.WellFormed := wellFormed_after_empty operations
  refine ⟨oneToOne_after operations, hwell.payload, ?_, fun descriptor id => hwell.answers⟩
  intro later id descriptor hlookup
  have hkept := hwell.lookup_after later hlookup
  have hnamed := (hwell.after later).table.named?_eq_some_iff.2 ⟨descriptor, hkept, rfl⟩
  exact ⟨hkept, ProtocolTable.resolve?_of_named? hnamed⟩

/-- Numbers 1 to 4 stay free behind an explicit 5, and refused calls take no number. -/
theorem numbers_behind_gap :
    let plain (name : String) (requested : Option ProtocolId) : ProtocolDescriptor :=
      ⟨requested, name, name, .fixed 4, [], []⟩
    let operations : List RegistryOperation :=
      [.register (plain "outer" (some ⟨5⟩)), .register (plain "inner" none),
        .register (plain "other" (some ⟨5⟩)), .register (plain "outer" (some ⟨9⟩)),
        .addBinding "outer" "last" 0 .always]
    let registry := empty.after operations
    (registry.register (plain "last" none)).2 = .ok ⟨7⟩ ∧
      registry.OneToOne [("payload", .payload), ("outer", ⟨5⟩), ("inner", ⟨6⟩)] ∧
      registry.Answers (plain "last" none) ⟨7⟩ := by
  intro plain operations registry
  have hanswer : (registry.register (plain "last" none)).2 = .ok ⟨7⟩ := by decide +kernel
  have hgranted : empty.granted operations = [("outer", ⟨5⟩), ("inner", ⟨6⟩)] := by decide +kernel
  obtain ⟨hnames, -, -, hanswers⟩ := numbers_of_run operations
  rw [hgranted] at hnames
  exact ⟨hanswer, hnames, hanswers _ _ hanswer⟩

end Registry

end Dissection
