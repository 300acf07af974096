import Dissection.Binding

/-!
# Binding graphs

The edges between protocols, kept apart by their sources so that those that leave a protocol are
found by its number. The edges of one source stand in the order in which they are tried.
-/

namespace Dissection

/-- Whether `a` is tried before `b`, or the order of the two is open. -/
def Binding.ranksUpTo (a b : Binding) : Bool :=
  decide (b.priority < a.priority ∨ a.priority = b.priority ∧ a.sequence ≤ b.sequence)

structure BindingOutcome where
  target : ProtocolId
  priority : Int
  answer : Except PredicateError Bool

structure BindingGraph where
  /-- The edges that leave the protocol of each number. -/
  buckets : List (List Binding)
  /-- How many edges the graph was made of. -/
  size : Nat

namespace BindingGraph

/-- Files an edge behind those of its source. An edge whose source has no bucket is dropped. -/
def file (buckets : List (List Binding)) (edge : Binding) : List (List Binding) :=
  buckets.modify edge.source.index (· ++ [edge])

def ofEdges (capacity : Nat) (edges : List Binding) : BindingGraph where
  buckets := (edges.foldl file (.replicate capacity [])).map (·.mergeSort Binding.ranksUpTo)
  size := edges.length

/-- The edges that leave a protocol, in the order in which they are tried. -/
def bindingsFrom (graph : BindingGraph) (source : ProtocolId) : List Binding :=
  graph.buckets.getD source.index []

/-- The protocol that follows the current header, when an edge leads there. What has been reported
before comes first among the reports. -/
def resolveNext (graph : BindingGraph) (context : BindingContext) (reported : List Diagnostic) :
    Option ProtocolId × List Diagnostic :=
  context.resolve (graph.bindingsFrom context.current.protocol) reported

/-- What every edge says that leaves the protocol of the current header. -/
def evaluateAll (graph : BindingGraph) (context : BindingContext) : List BindingOutcome :=
  (context.answers (graph.bindingsFrom context.current.protocol)).map
    (fun (edge, answer) => ⟨edge.target, edge.priority, answer⟩)

end BindingGraph

end Dissection
