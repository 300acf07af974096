import Dissection.Proofs.Registry.Freeze

/-!
# What a text refers to later on

A registered protocol keeps its number and its name, so an exact name refers to the same protocol
for ever. A nickname gives way: to a later protocol with exactly this name, and to one that has it
as a nickname and takes a smaller number. Bindings are kept as texts, and freezing asks what these
refer to in the end, so that it leads a binding to whatever has taken over its texts.
-/

namespace Dissection

namespace IndexedRegistry

/-- What is registered and what is pending stays so, the pending bindings in their places. -/
structure Continues (registry final : IndexedRegistry) : Prop where
  lookup : ∀ id descriptor, registry.lookup id = some descriptor →
    final.lookup id = some descriptor
  pending : registry.pending <+: final.pending

/-- A protocol that only `final` has takes over a text that refers to `id`: it has the text as its
name, or as its nickname and a smaller number. -/
def TakesOver (registry final : IndexedRegistry) (text : String) (id other : ProtocolId) : Prop :=
  ∃ descriptor, registry.lookup other = none ∧ final.lookup other = some descriptor ∧
    (descriptor.name = text ∨ descriptor.nickname = text ∧ other.index < id.index)

theorem pending_prefix_apply (registry : IndexedRegistry) (operation : RegistryOperation) :
    registry.pending <+: (registry.apply operation).pending := by
  cases operation with
  | addBinding => exact List.prefix_append _ _
  | register descriptor =>
    change registry.pending <+: (registry.register descriptor).1.pending
    rcases register_cases registry descriptor with ⟨answer, hsame, -⟩ | ⟨id, -, hadded⟩
    · rw [hsame]
    · rw [hadded]
      exact List.prefix_append _ _

theorem pending_prefix_after (registry : IndexedRegistry) (operations : List RegistryOperation) :
    registry.pending <+: (registry.after operations).pending := by
  induction operations generalizing registry with
  | nil => exact List.prefix_rfl
  | cons operation rest ih =>
    exact (registry.pending_prefix_apply operation).trans (ih (registry.apply operation))

theorem Represents.continues {indexed : IndexedRegistry} {registry : Registry}
    (h : indexed.Represents registry) (hwell : registry.WellFormed)
    (operations : List RegistryOperation) : indexed.Continues (indexed.after operations) where
  lookup id descriptor hlookup := by
    rw [h.lookup_eq] at hlookup
    rw [(h.after hwell operations).lookup_eq]
    exact hwell.lookup_after operations hlookup
  pending := indexed.pending_prefix_after operations

section Refers

variable {registry final : IndexedRegistry} {text : String} {id now : ProtocolId}

theorem Continues.holds (hlater : registry.Continues final) (h : registry.Holds text id) :
    final.Holds text id := by
  obtain ⟨descriptor, hlookup, hname⟩ := h
  exact ⟨descriptor, hlater.lookup id descriptor hlookup, hname⟩

theorem Continues.nicknamed (hlater : registry.Continues final)
    (h : Nicknamed registry.lookup text id) : Nicknamed final.lookup text id := by
  obtain ⟨descriptor, hlookup, hnickname⟩ := h
  exact ⟨descriptor, hlater.lookup id descriptor hlookup, hnickname⟩

/-- What is registered later on is new or was registered before. -/
theorem Continues.lookup_cases (hlater : registry.Continues final) {descriptor : ProtocolDescriptor}
    (hlookup : final.lookup id = some descriptor) :
    registry.lookup id = some descriptor ∨ registry.lookup id = none := by
  cases hearlier : registry.lookup id with
  | none => exact .inr rfl
  | some found =>
    have hkept := hlater.lookup id found hearlier
    exact .inl (hkept.symm.trans hlookup)

/-- A text goes on to refer to a protocol unless it is a mere nickname and is taken over. -/
theorem Refers.continues (h : registry.Refers text id) (hlater : registry.Continues final)
    (hkept : registry.Holds text id ∨ ∀ other, ¬ registry.TakesOver final text id other) :
    final.Refers text id := by
  rcases h with hholds | ⟨hunknown, hnicknamed, hleast⟩
  · exact .inl (hlater.holds hholds)
  · have huntaken := hkept.resolve_left fun hholds => hunknown ⟨id, hholds⟩
    refine .inr ⟨?_, hlater.nicknamed hnicknamed, ?_⟩
    · rintro ⟨other, descriptor, hlookup, hname⟩
      rcases hlater.lookup_cases hlookup with hearlier | hnew
      · exact hunknown ⟨other, descriptor, hearlier, hname⟩
      · exact huntaken other ⟨descriptor, hnew, hlookup, .inl hname⟩
    · rintro other ⟨descriptor, hlookup, hnickname⟩
      rcases hlater.lookup_cases hlookup with hearlier | hnew
      · exact hleast other ⟨descriptor, hearlier, hnickname⟩
      · refine Nat.le_of_not_lt fun hlt => ?_
        exact huntaken other ⟨descriptor, hnew, hlookup, .inr ⟨hnickname, hlt⟩⟩

/-- A text that is not a name and refers to another protocol later on has been taken over by it. -/
theorem Refers.takesOver (h : registry.Refers text id) (hlater : registry.Continues final)
    (hname : ¬ registry.Holds text id) (hnow : final.Refers text now) (hne : now ≠ id) :
    registry.TakesOver final text id now := by
  obtain ⟨hunknown, hnicknamed, hleast⟩ := h.resolve_left hname
  rcases hnow with ⟨descriptor, hlookup, hholds⟩ | ⟨-, ⟨descriptor, hlookup, hnickname⟩, hfirst⟩
  · refine ⟨descriptor, ?_, hlookup, .inl hholds⟩
    refine (hlater.lookup_cases hlookup).resolve_left fun hearlier => ?_
    exact hunknown ⟨now, descriptor, hearlier, hholds⟩
  · have hle := hfirst id (hlater.nicknamed hnicknamed)
    have hindex := mt ProtocolId.index_inj.1 hne
    refine ⟨descriptor, ?_, hlookup, .inr ⟨hnickname, by omega⟩⟩
    refine (hlater.lookup_cases hlookup).resolve_left fun hearlier => ?_
    have hge := hleast now ⟨descriptor, hearlier, hnickname⟩
    omega

/-- A mere nickname that is taken over refers to its protocol no longer. -/
theorem TakesOver.not_refers {other : ProtocolId} (htaken : registry.TakesOver final text id other)
    (hlater : registry.Continues final) (h : registry.Refers text id)
    (hname : ¬ registry.Holds text id) : ¬ final.Refers text id := by
  obtain ⟨-, ⟨known, hknown, -⟩, -⟩ := h.resolve_left hname
  obtain ⟨descriptor, -, hlookup, hclaims⟩ := htaken
  rintro (⟨found, hfound, hholds⟩ | ⟨hunknown, -, hleast⟩)
  · have hkept := hlater.lookup id known hknown
    obtain rfl : known = found := Option.some.inj (hkept.symm.trans hfound)
    exact hname ⟨known, hknown, hholds⟩
  · rcases hclaims with hsame | ⟨hnickname, hlt⟩
    · exact hunknown ⟨other, descriptor, hlookup, hsame⟩
    · exact Nat.not_le.2 hlt (hleast other ⟨descriptor, hlookup, hnickname⟩)

end Refers

theorem Continues.matches {registry final : IndexedRegistry} {text : String}
    (hlater : registry.Continues final) (h : registry.Matches text) : final.Matches text := by
  obtain ⟨id, descriptor, hlookup, htext⟩ := h
  exact ⟨id, descriptor, hlater.lookup id descriptor hlookup, htext⟩

/-- A binding that was pending early is led to what its texts refer to when it is frozen. -/
theorem Continues.exists_edge {registry final : IndexedRegistry} {table : Registry}
    (hlater : registry.Continues final) (h : final.Represents table) (hwell : table.WellFormed)
    {frozen : IndexedFrozen} (hfrozen : final.freeze = .ok frozen) {position : Nat}
    {pending : PendingBinding} (hpending : registry.pending[position]? = some pending) :
    ∃ edge ∈ frozen.bindingsFrom edge.source, edge.sequence = position ∧
      final.resolve? pending.source = some edge.source ∧
      final.resolve? pending.declaration.target = some edge.target := by
  obtain ⟨more, hmore⟩ := hlater.pending
  have hkept : final.pending[position]? = some pending := by
    rw [← hmore, List.getElem?_append_left (List.getElem?_eq_some_iff.1 hpending).1, hpending]
  obtain ⟨edge, hrealises, hplaced⟩ := (h.keeps hwell hfrozen).placed position pending hkept
  have hedge := hplaced edge.source
  rw [if_pos rfl] at hedge
  refine ⟨edge, List.mem_of_mem_filter (hedge ▸ List.mem_singleton_self edge), hrealises.sequence,
    ?_, ?_⟩
  · exact (h.resolve?_eq_some_iff hwell).2 hrealises.source
  · exact (h.resolve?_eq_some_iff hwell).2 hrealises.target

/-- A text that refers to a protocol after a run goes on to refer to it whatever calls follow,
unless it is no more than its nickname and a protocol registered since has it as its name, or as its
nickname and a smaller number. It never refers to nothing again, and only ever to such a protocol
instead. A frozen registry answers as it did before freezing, and this is where it leads the
bindings that were written against the text, however early. -/
theorem resolution_of_run (operations later : List RegistryOperation) (text : String)
    (id : ProtocolId) (h : (empty.after operations).resolve? text = some id) :
    let registry := empty.after operations
    let final := registry.after later
    (final.resolve? text = some id ↔
        registry.Holds text id ∨ ∀ other, ¬ registry.TakesOver final text id other) ∧
      (∃ now, final.resolve? text = some now ∧
        (now ≠ id → registry.TakesOver final text id now)) ∧
      ∀ frozen, final.freeze = .ok frozen → frozen.resolve? text = final.resolve? text ∧
        ∀ position pending, registry.pending[position]? = some pending →
          ∃ edge ∈ frozen.bindingsFrom edge.source, edge.sequence = position ∧
            (pending.source = text → final.resolve? text = some edge.source) ∧
            (pending.declaration.target = text → final.resolve? text = some edge.target) := by
  intro registry final
  have hrepresents := represents_after operations
  have hwell := Registry.wellFormed_after_empty operations
  have hlater : registry.Continues final := hrepresents.continues hwell later
  have hfinal := hrepresents.after hwell later
  have hwellFinal := hwell.after later
  have hresolves (id : ProtocolId) : final.resolve? text = some id ↔ final.Refers text id :=
    hfinal.resolve?_eq_some_iff hwellFinal
  have hrefers : registry.Refers text id := (hrepresents.resolve?_eq_some_iff hwell).1 h
  have hkept_iff : final.resolve? text = some id ↔
      registry.Holds text id ∨ ∀ other, ¬ registry.TakesOver final text id other := by
    rw [hresolves]
    refine ⟨fun hkept => ?_, hrefers.continues hlater⟩
    by_contra hnot
    push Not at hnot
    obtain ⟨hname, other, htaken⟩ := hnot
    exact htaken.not_refers hlater hrefers hname hkept
  refine ⟨hkept_iff, ?_, fun frozen hfrozen => ?_⟩
  · cases hnow : final.resolve? text with
    | none =>
      have hunmatched := (hfinal.resolve?_eq_none_iff hwellFinal).1 hnow
      exact absurd (hlater.matches hrefers.matches) hunmatched
    | some now =>
      refine ⟨now, rfl, fun hne => ?_⟩
      refine hrefers.takesOver hlater (fun hname => ?_) ((hresolves now).1 hnow) hne
      have hsame := hkept_iff.2 (.inl hname)
      exact hne (Option.some.inj (hnow.symm.trans hsame))
  · refine ⟨(hfinal.keeps hwellFinal hfrozen).resolve?_eq text, fun position pending hpending => ?_⟩
    obtain ⟨edge, hedge, hsequence, hsource, htarget⟩ :=
      hlater.exists_edge hfinal hwellFinal hfrozen hpending
    exact ⟨edge, hedge, hsequence, fun heq => heq ▸ hsource, fun heq => heq ▸ htarget⟩

/-- Protocol 5 has a nickname, against which a binding is written. -/
def nicknaming : List RegistryOperation :=
  [.register ⟨some ⟨1⟩, "root", "root", .fixed 1, [], []⟩,
    .register ⟨some ⟨5⟩, "a", "x", .fixed 1, [], []⟩, .addBinding "root" "x" 0 .always]

/-- A lower number with the same nickname takes it over, then a protocol that has it as its name
does, and the binding that was written in the beginning leads to that one. -/
theorem nickname_gives_way :
    let registry := empty.after nicknaming
    let shared := registry.after [.register ⟨some ⟨3⟩, "b", "x", .fixed 1, [], []⟩]
    let final := shared.after [.register ⟨some ⟨7⟩, "x", "x", .fixed 1, [], []⟩]
    registry.resolve? "x" = some ⟨5⟩ ∧ shared.resolve? "x" = some ⟨3⟩ ∧
      final.resolve? "x" = some ⟨7⟩ ∧
      ∃ frozen, final.freeze = .ok frozen ∧ frozen.resolve? "x" = some ⟨7⟩ ∧
        (frozen.bindingsFrom ⟨1⟩).map (·.target) = [⟨7⟩] := by
  intro registry shared final
  refine ⟨by decide +kernel, by decide +kernel, by decide +kernel, ?_⟩
  exact ⟨_, rfl, by decide +kernel, by decide +kernel⟩

/-- A greater number with the same nickname takes nothing over. -/
theorem nickname_stays :
    let registry := empty.after nicknaming
    let final := registry.after [.register ⟨some ⟨9⟩, "c", "x", .fixed 1, [], []⟩]
    registry.resolve? "x" = some ⟨5⟩ ∧
      (∀ other, ¬ registry.TakesOver final "x" ⟨5⟩ other) ∧
      ∃ frozen, final.freeze = .ok frozen ∧ frozen.resolve? "x" = some ⟨5⟩ ∧
        ∃ edge ∈ frozen.bindingsFrom edge.source, edge.sequence = 0 ∧ edge.target = ⟨5⟩ := by
  intro registry final
  have hresolved : registry.resolve? "x" = some ⟨5⟩ := by decide +kernel
  have hfinal : final.resolve? "x" = some ⟨5⟩ := by decide +kernel
  have hname : ¬ registry.Holds "x" ⟨5⟩ := by
    rintro ⟨descriptor, hlookup, hname⟩
    cases hlookup
    exact absurd hname (by decide)
  obtain ⟨hkept, -, hfrozen⟩ := resolution_of_run nicknaming
    [.register ⟨some ⟨9⟩, "c", "x", .fixed 1, [], []⟩] "x" ⟨5⟩ hresolved
  obtain ⟨frozen, hfreeze⟩ : ∃ frozen, final.freeze = .ok frozen := ⟨_, rfl⟩
  obtain ⟨hsame, hplaced⟩ := hfrozen frozen hfreeze
  obtain ⟨edge, hedge, hsequence, -, htarget⟩ := hplaced 0 ⟨"root", "x", 0, .always⟩ rfl
  exact ⟨hresolved, (hkept.1 hfinal).resolve_left hname, frozen, hfreeze, hsame.trans hfinal,
    edge, hedge, hsequence, Option.some.inj ((htarget rfl).symm.trans hfinal)⟩

end IndexedRegistry

end Dissection
