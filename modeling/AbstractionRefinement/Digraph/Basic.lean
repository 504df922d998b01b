import AbstractionRefinement.IndexMap
import AbstractionRefinement.IndexSet

/-!
# Finite directed graphs

A finite system: vertices `0, …, n - 1`, edges, initial vertices and targets. Whether a target can
be reached is decided by breadth-first search, which also gives a shortest path; the search is the
yardstick for the refinement loop on the same system.

A digraph is built from lists (`Digraph.ofLists`). Edges and vertices that are out of range are
dropped when it is built, and so are repetitions; the successors of a vertex are kept in ascending
order, and so are the initial vertices. All searches follow this order, so that their answers are
determined.

The breadth-first search holds walks, each a vertex with those before it, so that the path is at
hand when a target comes up. Its steps are bounded by the number of vertices, since every vertex
enters the queue once at most. A faster search would hold vertices, and an array with the parent of
each; `Digraph.sweep` is carried out in that way and comes to the same path (`InRange.sweep_eq`).
The reachable vertices are collected by a depth-first search of their own (`Digraph.reachable`).
-/

namespace AbstractionRefinement

/-- A finite directed graph with initial vertices and targets. -/
structure Digraph where
  /-- The number of vertices. -/
  order : Nat
  /-- The initial vertices. -/
  init : IndexSet
  /-- The vertices that each vertex has an edge to. -/
  next : IndexMap IndexSet
  /-- The targets. -/
  targets : IndexSet
  deriving DecidableEq, Inhabited

namespace Digraph

/-- The vertices that a vertex has an edge to, in ascending order. -/
def successors (g : Digraph) (v : Nat) : IndexSet := (g.next.find? v).getD .empty

/-- Add an edge. -/
def addEdge (next : IndexMap IndexSet) (e : Nat × Nat) : IndexMap IndexSet :=
  next.insert e.1 (((next.find? e.1).getD .empty).insert e.2)

/-- The graph with the given parts; whatever mentions a vertex that does not exist is dropped. -/
def ofLists (order : Nat) (init : List Nat) (edges : List (Nat × Nat)) (targets : List Nat) :
    Digraph where
  order := order
  init := .ofList (init.filter (· < order))
  next := (edges.filter fun e ↦ e.1 < order && e.2 < order).foldl addEdge .empty
  targets := .ofList (targets.filter (· < order))

/-- The edges, ascending by source and then by target. -/
def edges (g : Digraph) : List (Nat × Nat) :=
  g.next.toList.flatMap fun b ↦ b.2.toList.map fun w ↦ (b.1, w)

/-- Whether there is an edge. -/
def hasEdge (g : Digraph) (v w : Nat) : Bool := w ∈ g.successors v

/-! ### Search -/

/-- A walk, its last vertex first. -/
structure Walk where
  /-- The last vertex. -/
  last : Nat
  /-- The vertices before it, the latest first. -/
  before : List Nat := []

/-- The vertices of a walk, in order. -/
def Walk.toList (w : Walk) : List Nat := (w.last :: w.before).reverse

/-- The walk with one more vertex. -/
def Walk.extend (w : Walk) (v : Nat) : Walk := ⟨v, w.last :: w.before⟩

/-- Breadth-first search from a queue of walks, of at most so many steps. `seen` are the vertices
that have been queued. -/
def searchFrom (g : Digraph) : Nat → List Walk → IndexSet → Option Walk
  | 0, _, _ => none
  | _, [], _ => none
  | steps + 1, w :: queue, seen =>
    if w.last ∈ g.targets then some w
    else
      let fresh := (g.successors w.last).toList.filter (· ∉ seen)
      g.searchFrom steps (queue ++ fresh.map w.extend) (seen.insertAll fresh)

/-- A shortest path from an initial vertex to a target. Each vertex is queued at most once, so there
are no more steps than vertices. -/
def shortestPath (g : Digraph) : Option (List Nat) :=
  (g.searchFrom g.order (g.init.toList.map (⟨·, []⟩)) g.init).map Walk.toList

/-- Whether no target can be reached. -/
def isSafe (g : Digraph) : Bool := g.shortestPath.isNone

/-- The vertices reached from a stack of vertices, in at most so many steps. `seen` are the vertices
that have been stacked. -/
def reachFrom (g : Digraph) : Nat → List Nat → IndexSet → IndexSet
  | 0, _, seen => seen
  | _, [], seen => seen
  | steps + 1, v :: stack, seen =>
    let fresh := (g.successors v).toList.filter (· ∉ seen)
    g.reachFrom steps (fresh ++ stack) (seen.insertAll fresh)

/-- The vertices that can be reached from an initial vertex. -/
def reachable (g : Digraph) : IndexSet := g.reachFrom g.order g.init.toList g.init

end Digraph

end AbstractionRefinement
