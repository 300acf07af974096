import Dissection.Proofs.Registry.Freeze
import Dissection.Proofs.Scan.Rules

/-!
# The best edge

Which protocol comes next is decided by the recorded bindings that leave the current one, in
whatever order they were recorded: of those that hold, the one of the greatest priority, and of
several such the first. Freezing has put them into the order in which they are tried, so a search
that stops at the first edge that holds finds this one, reports the failures in front of it, and
agrees with asking every edge.
-/

namespace Dissection

/-- Whether the edge gave the answer that its target follows. -/
def BindingOutcome.holds (outcome : BindingOutcome) : Bool :=
  match outcome.answer with
  | .ok holds => holds
  | .error _ => false

theorem BindingOutcome.holds_iff {outcome : BindingOutcome} :
    outcome.holds = true ↔ outcome.answer = .ok true := by
  rw [holds]
  split <;> simp [*]

namespace BindingContext

def outcome (context : BindingContext) (edge : Binding) : BindingOutcome :=
  ⟨edge.target, edge.priority, edge.predicate context⟩

/-- The search stops where the first edge says that its target follows. -/
theorem target_select_eq_find? (context : BindingContext) (edges : List Binding) :
    (context.select edges).target =
      ((edges.map context.outcome).find? (·.holds)).map (·.target) := by
  induction edges with
  | nil => rfl
  | cons edge rest ih =>
    rw [List.map_cons, List.find?_cons]
    by_cases hedge : edge.predicate context = .ok true
    · have hholds : (context.outcome edge).holds = true := BindingOutcome.holds_iff.2 hedge
      rw [hholds, select, hedge]
      rfl
    · have hholds : (context.outcome edge).holds = false :=
        Bool.eq_false_iff.2 (mt BindingOutcome.holds_iff.1 hedge)
      rw [hholds, select_cons_of_not_holds context edge rest hedge]
      exact ih

section Ranked

variable {context : BindingContext} {edges : List Binding}

/-- Winners share their rank. -/
theorem Wins.before_of_before {winner other edge : Binding} (hwinner : context.Wins edges winner)
    (hother : context.Wins edges other) (hbefore : edge.Before winner) : edge.Before other := by
  have hfirst := mt (hwinner.first other hother.tried) (not_not.2 hother.holds)
  have hfirst' := mt (hother.first winner hwinner.tried) (not_not.2 hwinner.holds)
  unfold Binding.Before at *
  omega

variable (hranked : edges.Pairwise Binding.Before)

include hranked

theorem target_select_eq_some_iff {target : ProtocolId} :
    (context.select edges).target = some target ↔
      ∃ edge, context.Wins edges edge ∧ edge.target = target := by
  constructor
  · intro htarget
    rcases context.none_or_wins edges hranked with hnone | ⟨winner, hwins⟩
    · rw [context.select_of_none edges hnone] at htarget
      cases htarget
    · rw [context.select_of_wins edges winner hranked hwins] at htarget
      exact ⟨winner, hwins, Option.some.inj htarget⟩
  · rintro ⟨winner, hwins, rfl⟩
    rw [context.select_of_wins edges winner hranked hwins]

theorem isSome_target_select_iff :
    (context.select edges).target.isSome = true ↔
      ∃ edge ∈ edges, edge.predicate context = .ok true := by
  rcases context.none_or_wins edges hranked with hnone | ⟨winner, hwins⟩
  · rw [context.select_of_none edges hnone]
    exact iff_of_false (by simp) fun ⟨edge, hedge, hholds⟩ => hnone edge hedge hholds
  · rw [context.select_of_wins edges winner hranked hwins]
    exact iff_of_true rfl ⟨winner, hwins.tried, hwins.holds⟩

variable (context) in
/-- The edges in front of the winner leave diagnostics, all edges when there is none. -/
theorem exists_tried :
    ∃ tried : List Binding, tried.Pairwise Binding.Before ∧
      (∀ edge, edge ∈ tried ↔
        edge ∈ edges ∧ ∀ winner, context.Wins edges winner → edge.Before winner) ∧
      (context.select edges).diagnostics = context.faults tried := by
  rcases context.none_or_wins edges hranked with hnone | ⟨winner, hwins⟩
  · refine ⟨edges, hranked, fun edge => ?_, by rw [context.select_of_none edges hnone]⟩
    exact (and_iff_left fun winner hwins => absurd hwins.holds (hnone winner hwins.tried)).symm
  · refine ⟨edges.filter (·.Before winner), hranked.filter _, fun edge => ?_,
      by rw [context.select_of_wins edges winner hranked hwins]⟩
    rw [List.mem_filter, decide_eq_true_iff]
    exact and_congr_right fun _ =>
      ⟨fun hbefore other hother => hwins.before_of_before hother hbefore,
        fun hbefore => hbefore winner hwins⟩

end Ranked

end BindingContext

/-- A graph answers as the edges of one list do that shows the same edges of every protocol. -/
theorem IndexedFrozen.Represents.resolveNext_eq {indexed : IndexedFrozen} {frozen : FrozenRegistry}
    (h : indexed.Represents frozen) (context : BindingContext) (reported : List Diagnostic) :
    indexed.graph.resolveNext context reported =
      ((frozen.selectNext context).target,
        reported ++ (frozen.selectNext context).diagnostics) := by
  have hedges := h.bindingsFrom_eq context.current.protocol
  rw [IndexedFrozen.bindingsFrom] at hedges
  rw [BindingGraph.resolveNext, BindingContext.resolve_eq, hedges]
  rfl

namespace IndexedRegistry

/-- The edge of a recorded binding that leaves a protocol. -/
structure Leaves (registry : IndexedRegistry) (recorded : List PendingBinding)
    (protocol : ProtocolId) (edge : Binding) : Prop where
  source_eq : edge.source = protocol
  recorded : ∃ pending, recorded[edge.sequence]? = some pending ∧
    registry.Realises edge.sequence pending edge

/-- Of the recorded edges that leave the protocol of the current header and hold, this one has the
greatest priority, and of several such it was recorded first. -/
structure Best (registry : IndexedRegistry) (recorded : List PendingBinding)
    (context : BindingContext) (edge : Binding) : Prop where
  leaves : registry.Leaves recorded context.current.protocol edge
  holds : edge.predicate context = .ok true
  greatest : ∀ other, registry.Leaves recorded context.current.protocol other →
    other.predicate context = .ok true →
    other.priority < edge.priority ∨
      other.priority = edge.priority ∧ edge.sequence ≤ other.sequence

/-- How a graph answers for a context when it has to go by the recorded bindings. -/
structure Chooses (registry : IndexedRegistry) (recorded : List PendingBinding)
    (graph : BindingGraph) (context : BindingContext) (reported : List Diagnostic) : Prop where
  isSome_iff : (graph.resolveNext context reported).1.isSome = true ↔
    ∃ edge, registry.Leaves recorded context.current.protocol edge ∧
      edge.predicate context = .ok true
  target_iff : ∀ target, (graph.resolveNext context reported).1 = some target ↔
    ∃ edge, registry.Best recorded context edge ∧ edge.target = target
  /-- The edges in front of the best one, all edges when there is none, report their failures. -/
  reports : ∃ tried : List Binding, tried.Pairwise Binding.Before ∧
    (∀ edge, edge ∈ tried ↔ registry.Leaves recorded context.current.protocol edge ∧
      ∀ winner, registry.Best recorded context winner → edge.Before winner) ∧
    (graph.resolveNext context reported).2 = reported ++ context.faults tried
  outcomes : ∃ edges : List Binding, edges.Pairwise Binding.Before ∧
    (∀ edge, edge ∈ edges ↔ registry.Leaves recorded context.current.protocol edge) ∧
    graph.evaluateAll context = edges.map context.outcome
  agrees : (graph.resolveNext context reported).1 =
    ((graph.evaluateAll context).find? (·.holds)).map (·.target)

theorem Represents.refers_unique {indexed : IndexedRegistry} {registry : Registry}
    (h : indexed.Represents registry) (hwell : registry.WellFormed) {text : String}
    {id id' : ProtocolId} (hid : indexed.Refers text id) (hid' : indexed.Refers text id') :
    id' = id := by
  rw [← h.resolve?_eq_some_iff hwell] at hid hid'
  exact Option.some.inj (hid'.symm.trans hid)

variable {registry : IndexedRegistry} {recorded : List PendingBinding} {frozen : IndexedFrozen}
  {context : BindingContext}

/-- A graph keeps the recorded edges of every protocol, when no text refers to two protocols. -/
theorem Keeps.mem_bindingsFrom_iff (h : registry.Keeps recorded frozen)
    (hunique : ∀ {text id id'}, registry.Refers text id → registry.Refers text id' → id' = id)
    {protocol : ProtocolId} {edge : Binding} :
    edge ∈ frozen.bindingsFrom protocol ↔ registry.Leaves recorded protocol edge := by
  constructor
  · intro hedge
    obtain ⟨hsource, hrecorded⟩ := h.realised protocol edge hedge
    exact ⟨hsource, hrecorded⟩
  · rintro ⟨hsource, pending, hposition, hrealises⟩
    obtain ⟨kept, hkept, hfilter⟩ := h.placed edge.sequence pending hposition
    have hsame : kept = edge := by
      obtain ⟨source, target, priority, sequence, predicate⟩ := edge
      obtain ⟨source', target', priority', sequence', predicate'⟩ := kept
      simp only [Binding.mk.injEq]
      exact ⟨hunique hrealises.source hkept.source, hunique hrealises.target hkept.target,
        hkept.priority.trans hrealises.priority.symm, hkept.sequence,
        hkept.predicate.trans hrealises.predicate.symm⟩
    have hfound := hfilter protocol
    rw [hsame, if_pos hsource] at hfound
    exact List.mem_of_mem_filter (hfound ▸ List.mem_singleton_self edge)

/-- The edge that is tried before all others that hold is the best one. -/
theorem wins_iff_best {edges : List Binding}
    (hedges : ∀ edge, edge ∈ edges ↔ registry.Leaves recorded context.current.protocol edge)
    {edge : Binding} : context.Wins edges edge ↔ registry.Best recorded context edge := by
  constructor
  · rintro ⟨htried, hholds, hfirst⟩
    refine ⟨(hedges edge).1 htried, hholds, fun other hleaves hother => ?_⟩
    have hbehind := mt (hfirst other ((hedges other).2 hleaves)) (not_not.2 hother)
    unfold Binding.Before at hbehind
    omega
  · rintro ⟨hleaves, hholds, hgreatest⟩
    refine ⟨(hedges edge).2 hleaves, hholds, fun other htried hbefore hother => ?_⟩
    have hrank := hgreatest other ((hedges other).1 htried) hother
    unfold Binding.Before at hbefore
    omega

theorem Keeps.chooses (h : registry.Keeps recorded frozen)
    (hunique : ∀ {text id id'}, registry.Refers text id → registry.Refers text id' → id' = id)
    (context : BindingContext) (reported : List Diagnostic) :
    registry.Chooses recorded frozen.graph context reported := by
  let edges := frozen.bindingsFrom context.current.protocol
  have hranked : edges.Pairwise Binding.Before := h.ordered context.current.protocol
  have hedges (edge : Binding) :
      edge ∈ edges ↔ registry.Leaves recorded context.current.protocol edge :=
    h.mem_bindingsFrom_iff hunique
  have hresolve : frozen.graph.resolveNext context reported =
      ((context.select edges).target, reported ++ (context.select edges).diagnostics) :=
    context.resolve_eq edges reported
  have hall : frozen.graph.evaluateAll context = edges.map context.outcome := by
    rw [BindingGraph.evaluateAll, BindingContext.answers, List.map_map]
    rfl
  constructor
  case isSome_iff =>
    rw [hresolve, BindingContext.isSome_target_select_iff hranked]
    simp only [hedges]
  case target_iff =>
    intro target
    rw [hresolve, BindingContext.target_select_eq_some_iff hranked]
    simp only [wins_iff_best hedges]
  case reports =>
    obtain ⟨tried, htried, hmem, hfaults⟩ := context.exists_tried hranked
    simp only [hedges, wins_iff_best hedges] at hmem
    exact ⟨tried, htried, hmem, by rw [hresolve, hfaults]⟩
  case outcomes => exact ⟨edges, hranked, hedges, hall⟩
  case agrees =>
    rw [hresolve, hall]
    exact context.target_select_eq_find? edges

/-- After any run that can be frozen, the graph goes by the bindings that the run has recorded. -/
theorem resolveNext_after (operations : List RegistryOperation) {frozen : IndexedFrozen}
    (hfrozen : (empty.after operations).freeze = .ok frozen) (context : BindingContext)
    (reported : List Diagnostic) :
    (empty.after operations).Chooses (empty.recorded ["payload"] operations) frozen.graph context
      reported := by
  have h := represents_after operations
  have hwell := Registry.wellFormed_after_empty operations
  have hkeeps := h.keeps hwell hfrozen
  rw [pending_after_empty] at hkeeps
  exact hkeeps.chooses (h.refers_unique hwell) context reported

section Rivals

/-- Three bindings leave one protocol. The first that holds leads to the second protocol, the one
that is preferred to the third, and the one of the greatest priority gives no answer. -/
def rivals : List RegistryOperation :=
  [.register ⟨none, "root", "root", .fixed 2,
      [⟨"first", 0, .always⟩, ⟨"preferred", 5, .always⟩, ⟨"first", 7, .failing "no answer"⟩], []⟩,
    .register ⟨none, "first", "first", .fixed 1, [], []⟩,
    .register ⟨none, "preferred", "preferred", .fixed 1, [], []⟩]

/-- The first protocol has just been found in four bytes. -/
def rivalry : BindingContext := ⟨[0, 0, 0, 0], [], ⟨⟨1⟩, 0, 2, 0⟩⟩

theorem preferred_rival :
    ∃ frozen, (empty.after rivals).freeze = .ok frozen ∧
      frozen.graph.resolveNext rivalry [] =
        (some ⟨3⟩, [⟨⟨1⟩, ⟨2⟩, 0, .failed "no answer"⟩]) ∧
      (empty.after rivals).Chooses (empty.recorded ["payload"] rivals) frozen.graph rivalry [] := by
  have hselected : (Registry.empty.after rivals).freeze.map (·.selectNext rivalry) =
      .ok ⟨some ⟨3⟩, [⟨⟨1⟩, ⟨2⟩, 0, .failed "no answer"⟩]⟩ := rfl
  cases hlisted : (Registry.empty.after rivals).freeze with
  | error => simp [hlisted, Except.map] at hselected
  | ok listed =>
    obtain ⟨frozen, hfrozen, hrepresents⟩ := (represents_after rivals).exists_freeze
      (Registry.wellFormed_after_empty rivals) hlisted
    rw [hlisted] at hselected
    have hselect : listed.selectNext rivalry = _ := Except.ok.inj hselected
    have hanswer := hrepresents.resolveNext_eq rivalry []
    rw [hselect] at hanswer
    exact ⟨frozen, hfrozen, hanswer, resolveNext_after rivals hfrozen rivalry []⟩

end Rivals

end IndexedRegistry

end Dissection
