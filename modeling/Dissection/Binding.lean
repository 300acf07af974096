import Dissection.Header

/-!
# Bindings between protocols

A binding is an edge from one protocol to another, guarded by a predicate on the header just
committed. The edges that leave a protocol are tried in turn and the first whose predicate holds
names the next header. A predicate that fails counts as not holding and leaves a diagnostic.
-/

namespace Dissection

/-- What a predicate sees: the buffer, the header just committed, and the headers before it. -/
structure BindingContext where
  data : Bytes
  earlier : List HeaderRecord
  current : HeaderRecord

namespace BindingContext

/-- The context whose committed headers are `headers`, the last of which must lie in the buffer. -/
def ofHeaders? (data : Bytes) (headers : List HeaderRecord) : Option BindingContext :=
  match headers.getLast? with
  | none => none
  | some current =>
    if current.stop ≤ data.length then some ⟨data, headers.dropLast, current⟩ else none

def headers (context : BindingContext) : List HeaderRecord := context.earlier ++ [context.current]

def view (context : BindingContext) : HeaderView := ⟨context.data, context.current⟩

def field (context : BindingContext) (field : BitField) : Except FieldError Nat :=
  context.view.field field

def payload (context : BindingContext) : Bytes := context.view.payload

def instanceCount (context : BindingContext) (protocol : ProtocolId) : Nat :=
  context.headers.countP (fun record => record.protocol = protocol)

end BindingContext

inductive PredicateError where
  | field (error : FieldError)
  | failed (message : String)
  deriving DecidableEq

def PredicateError.message : PredicateError → String
  | .field error => error.message
  | .failed message => message

abbrev Predicate := BindingContext → Except PredicateError Bool

namespace Predicate

def always : Predicate := fun _ => .ok true

def onField (field : BitField) (accepts : Nat → Bool) : Predicate := fun context =>
  match context.field field with
  | .ok number => .ok (accepts number)
  | .error error => .error (.field error)

def fieldEquals (field : BitField) (value : Nat) : Predicate := onField field (· == value)

def fieldIn (field : BitField) (values : List Nat) : Predicate := onField field (values.contains ·)

/-- Holds when both hold; the second is not asked unless the first holds. -/
def both (first second : Predicate) : Predicate := fun context =>
  match first context with
  | .ok true => second context
  | answer => answer

def failing (message : String) : Predicate := fun _ => .error (.failed message)

end Predicate

/-- An edge between two registered protocols. The greater priority is tried first, and of equal
priorities the smaller sequence number. -/
structure Binding where
  source : ProtocolId
  target : ProtocolId
  priority : Int
  sequence : Nat
  predicate : Predicate

namespace Binding

/-- The edge `a` is tried before the edge `b`. -/
def Before (a b : Binding) : Prop :=
  b.priority < a.priority ∨ a.priority = b.priority ∧ a.sequence < b.sequence

theorem Before.trans {a b c : Binding} (hab : a.Before b) (hbc : b.Before c) : a.Before c := by
  unfold Before at *
  omega

/-- Puts an edge in front of the first one whose priority is not greater. -/
def place (edge : Binding) : List Binding → List Binding
  | [] => [edge]
  | other :: rest =>
    if other.priority ≤ edge.priority then edge :: other :: rest else other :: place edge rest

/-- The edges in the order in which they are tried, when they are given in sequence order. -/
def ranked (edges : List Binding) : List Binding := edges.foldr place []

theorem mem_place {edge x : Binding} {edges : List Binding} :
    x ∈ place edge edges ↔ x = edge ∨ x ∈ edges := by
  induction edges with
  | nil => simp [place]
  | cons other rest ih =>
    by_cases h : other.priority ≤ edge.priority
    · simp [place, h]
    · simp only [place, h, if_false, List.mem_cons, ih]
      exact or_left_comm

theorem mem_ranked {x : Binding} {edges : List Binding} : x ∈ ranked edges ↔ x ∈ edges := by
  induction edges with
  | nil => simp [ranked]
  | cons edge rest ih =>
    rw [List.mem_cons, ← ih]
    exact mem_place

theorem pairwise_place {edge : Binding} {edges : List Binding} (h : edges.Pairwise Before)
    (hfirst : ∀ x ∈ edges, edge.sequence < x.sequence) : (place edge edges).Pairwise Before := by
  induction edges with
  | nil => simp [place]
  | cons other rest ih =>
    have hother := List.pairwise_cons.1 h
    have hseq := hfirst other List.mem_cons_self
    by_cases hp : other.priority ≤ edge.priority
    · rw [place, if_pos hp]
      have hbefore : edge.Before other := by
        unfold Before
        omega
      apply List.pairwise_cons.2 ⟨?_, h⟩
      intro x hx
      rcases List.mem_cons.1 hx with rfl | hx
      · exact hbefore
      · exact hbefore.trans (hother.1 x hx)
    · rw [place, if_neg hp]
      have hrest := ih hother.2 (fun x hx => hfirst x (List.mem_cons_of_mem _ hx))
      apply List.pairwise_cons.2 ⟨?_, hrest⟩
      intro x hx
      rcases mem_place.1 hx with rfl | hx
      · left
        omega
      · exact hother.1 x hx

theorem pairwise_ranked {edges : List Binding}
    (h : edges.Pairwise (fun a b => a.sequence < b.sequence)) : (ranked edges).Pairwise Before := by
  induction edges with
  | nil => exact .nil
  | cons edge rest ih =>
    obtain ⟨hfirst, hrest⟩ := List.pairwise_cons.1 h
    exact pairwise_place (ih hrest) (fun x hx => hfirst x (mem_ranked.1 hx))

end Binding

/-- A predicate that failed while the header at `offset` was the current one. -/
structure Diagnostic where
  source : ProtocolId
  target : ProtocolId
  offset : Nat
  error : PredicateError
  deriving DecidableEq

structure Selection where
  target : Option ProtocolId
  diagnostics : List Diagnostic
  deriving DecidableEq

namespace BindingContext

/-- The target of the first edge whose predicate holds, with a diagnostic for every failure on
the way. -/
def select (context : BindingContext) : List Binding → Selection
  | [] => ⟨none, []⟩
  | edge :: rest =>
    match edge.predicate context with
    | .ok true => ⟨some edge.target, []⟩
    | .ok false => context.select rest
    | .error error =>
      let later := context.select rest
      ⟨later.target, ⟨edge.source, edge.target, context.current.offset, error⟩ :: later.diagnostics⟩

/-- The target of the first edge whose predicate holds. Every failure on the way is reported behind
what has been reported before. -/
def resolve (context : BindingContext) (edges : List Binding) (reported : List Diagnostic) :
    Option ProtocolId × List Diagnostic :=
  match edges with
  | [] => (none, reported)
  | edge :: rest =>
    match edge.predicate context with
    | .ok true => (some edge.target, reported)
    | .ok false => context.resolve rest reported
    | .error error =>
      context.resolve rest
        (reported ++ [⟨edge.source, edge.target, context.current.offset, error⟩])

/-- What was reported before is kept, and makes no difference to the selection. -/
theorem resolve_eq (context : BindingContext) (edges : List Binding) (reported : List Diagnostic) :
    context.resolve edges reported =
      ((context.select edges).target, reported ++ (context.select edges).diagnostics) := by
  induction edges generalizing reported with
  | nil => simp [resolve, select]
  | cons edge rest ih =>
    rw [resolve, select]
    split
    · simp
    · exact ih reported
    · rw [ih]
      simp

/-- The answer of every edge, without stopping at the first that holds. -/
def answers (context : BindingContext) (edges : List Binding) :
    List (Binding × Except PredicateError Bool) :=
  edges.map (fun edge => (edge, edge.predicate context))

end BindingContext

end Dissection
