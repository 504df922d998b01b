import AbstractionRefinement.Audit.Basic
import AbstractionRefinement.Digraph.Domain

/-!
# Audits of a digraph check

Covering links lose no vertex, and a witness is a path from an initial vertex to a target.

The digraph is the domain for which both can be computed outright. A state stands for a set of
vertices (`Digraph.concretize`), so whether a covered node is subsumed is a question about finite
sets, and the vertices that escape are part of the finding. A witness is a list of vertices, and it
is a path or it is not; the finding names the first thing that is wrong with it, in the order in
which it would be walked.

Both audits presuppose nothing: a link to a node that has been pruned and a coverer that does not
list what it covers are findings of their own, and are looked for first.
-/

namespace AbstractionRefinement.Digraph

variable (g : Digraph)

/-- A covered node stands for no vertex that its coverer does not stand for. -/
def auditCoveredNode (graph : Graph Spot Link) (n : Node Spot Link) : Except Finding Unit :=
  match n.coveredBy with
  | none => .ok ()
  | some id =>
    match graph.node? id with
    | none => .error (.coveredByPruned n.id id)
    | some coverer =>
      if n.id ∉ coverer.covers then .error (.unlisted id n.id)
      else
        let escaping := (g.concretize n.state).filter fun v ↦ !g.standsFor coverer.state v
        if escaping.isEmpty then .ok ()
        else .error (.escapes n.id n.state.text id coverer.state.text escaping.toList)

/-- No covered node stands for a vertex that its coverer does not stand for. -/
def auditCoverage (graph : Graph Spot Link) : Except Finding Unit :=
  graph.nodes.forM (g.auditCoveredNode graph)

/-- The first pair of neighbours in a list that is not joined by an edge. -/
def missingEdge? : List Nat → Option (Nat × Nat)
  | v :: w :: rest => if g.hasEdge v w then missingEdge? (w :: rest) else some (v, w)
  | _ => none

/-- A list of vertices is a path from an initial vertex to a target. -/
def auditWitness (path : List Nat) : Except Finding Unit :=
  match path.head?, path.getLast? with
  | some first, some last =>
    if first ∉ g.init then .error (.badStart first)
    else match g.missingEdge? path with
      | some (v, w) => .error (.missingEdge v w)
      | none => if last ∉ g.targets then .error (.badEnd last) else .ok ()
  | _, _ => .error .emptyWitness

end AbstractionRefinement.Digraph
