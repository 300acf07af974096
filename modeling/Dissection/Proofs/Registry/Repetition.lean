import Dissection.Proofs.Registry.Extension
import Dissection.Proofs.Scan.Layout

/-!
# Registering the built-in protocols again

Callers may register protocols of their own, add bindings, and register the built-in protocols as
often as they like. Once the built-in protocols have been registered, every further time finds their
names taken by the very same protocols, and all it does is to add the binding from TCP to HTTP once
more. Its predicate answers behind every header that TCP's own rule has measured, so that no scan
can tell.
-/

namespace Dissection

/-- What is kept of a built-in protocol when it is registered. -/
def BuiltIn.entry (protocol : BuiltIn) : ProtocolDescriptor :=
  { protocol.descriptor with bindings := [] }

theorem BuiltIn.name_injective : ∀ {a b : BuiltIn}, a.name = b.name → a = b := by
  intro a b
  cases a <;> cases b <;> decide

namespace Registry

def detection : PendingBinding := ⟨BuiltIn.tcp.name, BuiltIn.http.name, 0, Http.detect⟩

/-- Registries that callers set up. They register protocols under names that no built-in protocol
has, add bindings, and register the built-in protocols. The flag says whether the latter has
succeeded at least once. -/
inductive SetUp : (builtIns : Bool) → Registry → Prop
  | empty : SetUp false Registry.empty
  | apply {builtIns : Bool} {registry : Registry} (h : SetUp builtIns registry)
      (operation : RegistryOperation)
      (hforeign : ∀ name id, registry.granted? operation = some (name, id) →
        ∀ protocol : BuiltIn, name ≠ protocol.name) :
      SetUp builtIns (registry.apply operation)
  | registerBuiltIns {builtIns : Bool} {registry : Registry} (h : SetUp builtIns registry) :
      SetUp (builtIns || registry.registerBuiltIns.2.isOk) registry.registerBuiltIns.1

variable {registry next : Registry} {descriptor : ProtocolDescriptor}

/-- Nothing that is there gets lost. -/
structure Grows (registry next : Registry) : Prop where
  wellFormed : next.WellFormed
  named : ∀ name id, registry.table.named? name = some id → next.table.named? name = some id
  pending : ∀ binding ∈ registry.pending, binding ∈ next.pending

theorem Grows.trans {last : Registry} (h : registry.Grows next) (h' : next.Grows last) :
    registry.Grows last :=
  ⟨h'.wellFormed, fun name id hname => h'.named name id (h.named name id hname),
    fun binding hbinding => h'.pending binding (h.pending binding hbinding)⟩

theorem WellFormed.grows_refl (h : registry.WellFormed) : registry.Grows registry :=
  ⟨h, fun _ _ => id, fun _ => id⟩

theorem WellFormed.grows_apply (h : registry.WellFormed) (operation : RegistryOperation) :
    registry.Grows (registry.apply operation) where
  wellFormed := h.apply operation
  named name id hname := (h.named?_apply operation).2 (.inl hname)
  pending binding hbinding := by
    cases operation with
    | addBinding => exact List.mem_append_left _ hbinding
    | register descriptor =>
      change binding ∈ (registry.register descriptor).1.pending
      rcases register_cases registry descriptor with ⟨hsame, -⟩ | ⟨id, -, -, hadded⟩
      · rwa [hsame]
      · rw [hadded]
        exact List.mem_append_left _ hbinding

/-- What every registration of a list preserves holds after all of them, or after those up to the
first that is refused. -/
theorem registerAll_induction {P : Registry → Prop} {descriptors : List ProtocolDescriptor}
    (hstep : ∀ registry, P registry → ∀ descriptor ∈ descriptors,
      P (registry.register descriptor).1) (h : P registry) :
    P (registry.registerAll descriptors).1 := by
  induction descriptors generalizing registry with
  | nil => exact h
  | cons descriptor rest ih =>
    have hfirst := hstep registry h descriptor List.mem_cons_self
    rw [registerAll]
    split
    · next next id hregistered =>
      rw [hregistered] at hfirst
      exact ih (fun registry hP other hother => hstep registry hP other (.tail _ hother)) hfirst
    · next next error hregistered =>
      rw [hregistered] at hfirst
      exact hfirst

theorem WellFormed.grows_registerAll (h : registry.WellFormed)
    (descriptors : List ProtocolDescriptor) :
    registry.Grows (registry.registerAll descriptors).1 :=
  registerAll_induction (fun _ hgrows descriptor _ =>
    hgrows.trans (hgrows.wellFormed.grows_apply (.register descriptor))) h.grows_refl

/-- When none of the registrations is refused, all names are registered under the numbers that they
ask for. -/
theorem WellFormed.named?_of_registerAll {descriptors : List ProtocolDescriptor}
    (h : registry.WellFormed) (hall : (registry.registerAll descriptors).2 = .ok ()) :
    ∀ descriptor ∈ descriptors, ∀ id, descriptor.requestedId = some id →
      (registry.registerAll descriptors).1.table.named? descriptor.name = some id := by
  induction descriptors generalizing registry with
  | nil => simp
  | cons first rest ih =>
    rcases hregistered : registry.register first with ⟨next, error | answered⟩
    · rw [registerAll, hregistered] at hall
      cases hall
    · have hgrows := h.grows_apply (.register first)
      have hnext : registry.apply (.register first) = next := congrArg Prod.fst hregistered
      have hanswer : (registry.register first).2 = .ok answered := congrArg Prod.snd hregistered
      have hrest : registry.registerAll (first :: rest) = next.registerAll rest := by
        rw [registerAll, hregistered]
      rw [hnext] at hgrows
      rw [hrest] at hall ⊢
      refine List.forall_mem_cons.2 ⟨fun id hrequested => ?_, ih hgrows.wellFormed hall⟩
      obtain rfl := (h.answers hanswer).requested id hrequested
      refine (hgrows.wellFormed.grows_registerAll rest).named _ _ ?_
      rw [← hnext, h.named?_apply, granted?_register]
      exact .inr ⟨hanswer, rfl⟩

/-- Registering protocols again that have the numbers they ask for changes nothing. -/
theorem registerAll_of_named {descriptors : List ProtocolDescriptor}
    (h : ∀ descriptor ∈ descriptors, ∃ id, descriptor.requestedId = some id ∧
      registry.table.named? descriptor.name = some id) :
    registry.registerAll descriptors = (registry, .ok ()) := by
  induction descriptors with
  | nil => rfl
  | cons first rest ih =>
    obtain ⟨⟨id, hrequested, hnamed⟩, hrest⟩ := List.forall_mem_cons.1 h
    rw [registerAll, register, hnamed, hrequested]
    simp only [if_true]
    exact ih hrest

/-- A protocol with the name of a built-in protocol is that protocol. -/
def Genuine (registry : Registry) : Prop :=
  ∀ (protocol : BuiltIn) (id : ProtocolId) (descriptor : ProtocolDescriptor),
    registry.table.lookup id = some descriptor → descriptor.name = protocol.name →
      descriptor = protocol.entry

theorem Genuine.register (h : registry.Genuine) (hwell : registry.WellFormed)
    (hown : ∀ (protocol : BuiltIn) (id : ProtocolId),
      (registry.register descriptor).2 = .ok id → descriptor.name = protocol.name →
        descriptor = protocol.descriptor) :
    (registry.register descriptor).1.Genuine := by
  intro protocol id found hfound hname
  rcases register_cases registry descriptor with ⟨hsame, -⟩ | ⟨new, hnew, hassigned, hadded⟩
  · rw [hsame] at hfound
    exact h protocol id found hfound hname
  · rw [hadded] at hfound hown
    rcases (hwell.lookup_add hnew hassigned).1 hfound with ⟨rfl, rfl⟩ | hold
    · rw [BuiltIn.entry, ← hown protocol id rfl hname]
    · exact h protocol id found hold hname

/-- The binding to HTTP is added behind the protocols unless one of these is refused. -/
theorem registerBuiltIns_cases (registry : Registry) :
    let all := registry.registerAll (BuiltIn.all.map BuiltIn.descriptor)
    (all.2 = .ok () ∧ registry.registerBuiltIns =
        (all.1.addBinding BuiltIn.tcp.name BuiltIn.http.name 0 Http.detect, .ok ())) ∨
      ∃ error, registry.registerBuiltIns = (all.1, .error error) := by
  intro all
  rcases hall : all with ⟨next, error | answer⟩
  · right
    refine ⟨error, ?_⟩
    rw [registerBuiltIns, show registry.registerAll _ = _ from hall]
  · left
    refine ⟨rfl, ?_⟩
    rw [registerBuiltIns, show registry.registerAll _ = _ from hall]

theorem WellFormed.grows_registerBuiltIns (h : registry.WellFormed) :
    registry.Grows registry.registerBuiltIns.1 := by
  have hgrows := h.grows_registerAll (BuiltIn.all.map BuiltIn.descriptor)
  rcases registerBuiltIns_cases registry with ⟨-, hadded⟩ | ⟨error, hrefused⟩
  · rw [hadded]
    exact hgrows.trans (hgrows.wellFormed.grows_apply (.addBinding ..))
  · rw [hrefused]
    exact hgrows

theorem Genuine.registerBuiltIns (h : registry.Genuine) (hwell : registry.WellFormed) :
    registry.registerBuiltIns.1.Genuine := by
  have hstep : ∀ registry : Registry, registry.WellFormed ∧ registry.Genuine →
      ∀ descriptor ∈ BuiltIn.all.map BuiltIn.descriptor,
        (registry.register descriptor).1.WellFormed ∧ (registry.register descriptor).1.Genuine := by
    rintro registry ⟨hwell, hgenuine⟩ descriptor hdescriptor
    obtain ⟨own, -, rfl⟩ := List.mem_map.1 hdescriptor
    refine ⟨hwell.apply (.register own.descriptor), hgenuine.register hwell ?_⟩
    intro protocol id _ hname
    rw [BuiltIn.name_injective (a := own) hname]
  have hall := (registerAll_induction hstep ⟨hwell, h⟩).2
  rcases registerBuiltIns_cases registry with ⟨-, hadded⟩ | ⟨error, hrefused⟩
  · rw [hadded]
    exact hall
  · rw [hrefused]
    exact hall

/-- The built-in protocols are registered under their numbers, and TCP is bound to HTTP. -/
structure Complete (registry : Registry) : Prop where
  named : ∀ protocol : BuiltIn, registry.table.named? protocol.name = some protocol.id
  detects : detection ∈ registry.pending

theorem Complete.grows (h : registry.Complete) (hgrows : registry.Grows next) : next.Complete where
  named protocol := hgrows.named _ _ (h.named protocol)
  detects := hgrows.pending _ h.detects

theorem WellFormed.complete_registerBuiltIns (h : registry.WellFormed)
    (hanswer : registry.registerBuiltIns.2 = .ok ()) : registry.registerBuiltIns.1.Complete := by
  rcases registerBuiltIns_cases registry with ⟨hall, hadded⟩ | ⟨error, hrefused⟩
  · rw [hadded]
    refine ⟨fun protocol => ?_, List.mem_append_right _ List.mem_cons_self⟩
    exact h.named?_of_registerAll hall protocol.descriptor
      (List.mem_map_of_mem protocol.mem_all) protocol.id rfl
  · rw [hrefused] at hanswer
    cases hanswer

namespace SetUp

variable {builtIns : Bool}

theorem wellFormed (h : SetUp builtIns registry) : registry.WellFormed := by
  induction h with
  | empty => exact wellFormed_empty
  | apply _ operation _ ih => exact ih.apply operation
  | registerBuiltIns _ ih => exact ih.grows_registerBuiltIns.wellFormed

theorem genuine (h : SetUp builtIns registry) : registry.Genuine := by
  induction h with
  | empty =>
    intro protocol id descriptor hlookup hname
    have hpayload := ProtocolTable.mem_of_lookup hlookup
    cases List.mem_singleton.1 hpayload
    exact absurd hname (by cases protocol <;> decide)
  | @apply _ registry hbefore operation hforeign ih =>
    cases operation with
    | addBinding => exact ih
    | register descriptor =>
      refine ih.register hbefore.wellFormed fun protocol id hanswer hname => ?_
      exact absurd hname (hforeign _ _ (granted?_register.2 ⟨hanswer, rfl⟩) protocol)
  | registerBuiltIns hbefore ih => exact ih.registerBuiltIns hbefore.wellFormed

theorem complete (h : SetUp builtIns registry) (hbuiltIns : builtIns = true) :
    registry.Complete := by
  induction h with
  | empty => cases hbuiltIns
  | apply hbefore operation _ ih =>
    exact (ih hbuiltIns).grows (hbefore.wellFormed.grows_apply operation)
  | @registerBuiltIns before registry hbefore ih =>
    rw [Bool.or_eq_true] at hbuiltIns
    rcases hbuiltIns with hearlier | hnow
    · exact (ih hearlier).grows hbefore.wellFormed.grows_registerBuiltIns
    · refine hbefore.wellFormed.complete_registerBuiltIns ?_
      cases hanswer : registry.registerBuiltIns.2 with
      | ok => rfl
      | error error =>
        rw [hanswer] at hnow
        cases hnow

end SetUp

theorem Complete.registerBuiltIns_eq (h : registry.Complete) :
    registry.registerBuiltIns =
      (registry.addBinding BuiltIn.tcp.name BuiltIn.http.name 0 Http.detect, .ok ()) := by
  have hall : registry.registerAll (BuiltIn.all.map BuiltIn.descriptor) = (registry, .ok ()) := by
    refine registerAll_of_named fun descriptor hdescriptor => ?_
    obtain ⟨protocol, -, rfl⟩ := List.mem_map.1 hdescriptor
    exact ⟨protocol.id, rfl, h.named protocol⟩
  rw [registerBuiltIns, hall]

theorem Complete.edge_detection (h : registry.Complete) (sequence : Nat) :
    registry.table.edge sequence detection =
      .ok ⟨BuiltIn.tcp.id, BuiltIn.http.id, 0, sequence, Http.detect⟩ := by
  have hsource := ProtocolTable.resolve?_of_named? (h.named .tcp)
  have htarget := ProtocolTable.resolve?_of_named? (h.named .http)
  simp only [ProtocolTable.edge, detection, hsource, htarget]
  rfl

end Registry

/-- Detection answers behind every header that TCP's own rule has measured. -/
theorem FrozenRegistry.Places.detect_answers {registry : FrozenRegistry}
    {descriptor : ProtocolDescriptor} {data : Bytes} {earlier : List HeaderRecord} {offset : Nat}
    {current : HeaderRecord} (hlookup : registry.lookup BuiltIn.tcp.id = some descriptor)
    (hrule : descriptor.length = BuiltIn.tcp.lengthRule)
    (h : registry.Places data earlier BuiltIn.tcp.id offset current) :
    ∃ holds, Http.detect ⟨data, earlier, current⟩ = .ok holds := by
  obtain ⟨found, length, hfound, hlength, rfl⟩ := h
  obtain rfl : descriptor = found := Option.some.inj (hlookup.symm.trans hfound)
  rw [hrule] at hlength
  have hedge : ⟨BuiltIn.tcp.id, BuiltIn.http.id, 0, 20, Http.detect⟩ ∈
      builtIn.bindingsFrom BuiltIn.tcp.id := by
    rw [bindingsFrom_tcp]
    exact List.mem_singleton_self _
  exact (places_builtIn .tcp hlength).answers _ hedge

/-- The edge from TCP to HTTP is there once more, and no scan can tell. -/
structure FrozenRegistry.Doubles (longer registry : FrozenRegistry) : Prop where
  present : (BuiltIn.http.id, 0, Http.detect) ∈
    (registry.bindingsFrom BuiltIn.tcp.id).map Binding.rule
  doubled : ((longer.bindingsFrom BuiltIn.tcp.id).map Binding.rule).Perm
    ((BuiltIn.http.id, 0, Http.detect) :: (registry.bindingsFrom BuiltIn.tcp.id).map Binding.rule)
  others : ∀ source ≠ BuiltIn.tcp.id, longer.bindingsFrom source = registry.bindingsFrom source
  scan : ∀ config root data, longer.scan config root data = registry.scan config root data
  scanIndexed : ∀ config root data,
    longer.scanIndexed config root data = registry.scanIndexed config root data

namespace Registry

variable {registry : Registry} {frozen longer : FrozenRegistry}

theorem Complete.exists_edge (h : registry.Complete) (hfrozen : registry.freeze = .ok frozen) :
    ∃ sequence, ⟨BuiltIn.tcp.id, BuiltIn.http.id, 0, sequence, Http.detect⟩ ∈ frozen.edges := by
  obtain ⟨-, edges, hedges, hranked⟩ := exists_edges_of_freeze hfrozen
  obtain ⟨position, hposition⟩ := List.getElem?_of_mem h.detects
  obtain ⟨edge, hedge, hfilter⟩ := ProtocolTable.exists_edge_of_edges hedges hposition
  rw [h.edge_detection, Except.ok.injEq] at hedge
  refine ⟨0 + position, ?_⟩
  rw [hranked, Binding.mem_ranked, hedge]
  exact List.mem_of_mem_filter (hfilter ▸ List.mem_singleton_self edge)

theorem SetUp.doubles (h : SetUp true registry) (hfrozen : registry.freeze = .ok frozen)
    (hextends : longer.Extends
      ⟨BuiltIn.tcp.id, BuiltIn.http.id, 0, registry.pending.length, Http.detect⟩ frozen) :
    longer.Doubles frozen := by
  have hcomplete := h.complete rfl
  obtain ⟨sequence, hedge⟩ := hcomplete.exists_edge hfrozen
  have hlookup : ∃ descriptor, frozen.lookup BuiltIn.tcp.id = some descriptor ∧
      descriptor.length = BuiltIn.tcp.lengthRule := by
    obtain ⟨descriptor, hlookup, hname⟩ :=
      h.wellFormed.table.named?_eq_some_iff.1 (hcomplete.named .tcp)
    refine ⟨descriptor, ?_, congrArg _ (h.genuine .tcp _ _ hlookup hname)⟩
    rw [FrozenRegistry.lookup, (exists_edges_of_freeze hfrozen).1, hlookup]
  obtain ⟨descriptor, hlookup, hrule⟩ := hlookup
  have hscans : longer.ScansAs frozen := by
    have hsame (id : ProtocolId) : longer.lookup id = frozen.lookup id :=
      congrArg (·.lookup id) hextends.table
    refine ⟨hsame, fun hplaced => hextends.selectNext_eq ⟨_, hedge, rfl⟩ fun hprotocol => ?_⟩
    rw [hplaced.protocol_eq] at hprotocol
    subst hprotocol
    exact hplaced.detect_answers ((hsame _).trans hlookup) hrule
  constructor
  case present =>
    refine List.mem_map.2 ⟨_, FrozenRegistry.mem_bindingsFrom.2 ⟨hedge, rfl⟩, rfl⟩
  case doubled =>
    obtain ⟨front, back, hedges, hlonger, -⟩ := hextends.bindingsFrom_source
    rw [hedges, hlonger]
    exact List.perm_middle.map Binding.rule
  case others => exact fun source hsource => hextends.bindingsFrom_eq hsource
  case scan => exact hscans.scan_eq
  case scanIndexed => exact hscans.scanIndexed_eq

/-- When the built-in protocols have been registered, registering them again succeeds and leaves the
table as it is, so that no lookup by number or by name changes. Freezing ends with the same error as
before, if with any. Otherwise the edge from TCP to HTTP is there once more, and all scans are the
same. -/
theorem registerBuiltIns_again (h : SetUp true registry) :
    let again := registry.registerBuiltIns.1
    registry.registerBuiltIns.2 = .ok () ∧ again.table = registry.table ∧
      (∀ error, again.freeze = .error error ↔ registry.freeze = .error error) ∧
      ∀ frozen longer, registry.freeze = .ok frozen → again.freeze = .ok longer →
        longer.Doubles frozen := by
  intro again
  have hcomplete := h.complete rfl
  have hagain := hcomplete.registerBuiltIns_eq
  obtain ⟨herrors, hextends⟩ := freeze_addBinding (hcomplete.edge_detection registry.pending.length)
  have hsame : again = registry.addBinding BuiltIn.tcp.name BuiltIn.http.name 0 Http.detect :=
    congrArg Prod.fst hagain
  rw [hsame, hagain]
  exact ⟨rfl, rfl, herrors, fun frozen longer hfrozen hlonger =>
    h.doubles hfrozen (hextends frozen longer hfrozen hlonger)⟩

/-- A caller binds TCP to a protocol of its own behind the built-in protocols, by an edge that
always fails. -/
def chatting : Registry :=
  (empty.registerBuiltIns.1.apply (.register ⟨none, "chat", "im", .fixed 4, [], []⟩)).apply
    (.addBinding "tcp" "im" 0 (.failing "unsure"))

theorem chatting_registerBuiltIns :
    SetUp true chatting ∧ chatting.registerBuiltIns.2 = .ok () ∧
      ∃ frozen longer, chatting.freeze = .ok frozen ∧
        chatting.registerBuiltIns.1.freeze = .ok longer ∧ longer.Doubles frozen := by
  have hsetUp : SetUp true chatting := by
    refine ((SetUp.empty.registerBuiltIns).apply (.register _) ?_).apply (.addBinding ..) nofun
    intro name id hgranted protocol
    obtain ⟨-, rfl⟩ := granted?_register.1 hgranted
    cases protocol <;> decide
  obtain ⟨hanswer, -, herrors, hdoubles⟩ := registerBuiltIns_again hsetUp
  have hbound : ∀ binding ∈ chatting.pending, (chatting.table.edge? binding).isSome = true := by
    decide +kernel
  obtain ⟨frozen, hfrozen⟩ := exists_freeze_iff.2 hbound
  refine ⟨hsetUp, hanswer, frozen, ?_⟩
  cases hlonger : chatting.registerBuiltIns.1.freeze with
  | error error =>
    rw [herrors, hfrozen] at hlonger
    cases hlonger
  | ok longer => exact ⟨longer, hfrozen, rfl, hdoubles frozen longer hfrozen hlonger⟩

end Registry

end Dissection
