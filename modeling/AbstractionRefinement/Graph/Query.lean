import AbstractionRefinement.Graph.Pruning
import AbstractionRefinement.Trace

/-!
# Questions to a graph

What is left to explore, which counterexamples there are and how they are reached, and the size of
the graph.

None of these questions changes a graph, and those about the whole of it cannot fail. They look at
the live nodes in the order of creation, and the answer is in this order unless it says otherwise:
counterexamples are sorted by depth, and by position where the depth is equal, so that the first of
them is a shortest one.

The path to a node is found by going up from parent to parent. Every parent is looked up, and the
number of steps is bounded by the number of positions; both are needed, because only a well-formed
graph keeps a parent as long as it has a child and is free of cycles.

`Graph.metrics` goes through the nodes once. The mean number of children is computed from it as a
double, over the nodes that have any.
-/

namespace AbstractionRefinement

/-- A state of a trace together with the node it was read from. -/
structure Visit (S : Type) where
  /-- The node. -/
  node : NodeId
  /-- Its state. -/
  state : S
  deriving DecidableEq

/-- A path of the graph from a root. -/
abbrev Path (S A : Type) := Trace (Visit S) A

namespace Path

variable {S A : Type}

/-- The nodes along the path, root first. -/
def nodes (p : Path S A) : List NodeId := p.states.map Visit.node

/-- The node in which the path ends. -/
def target (p : Path S A) : NodeId := p.last.node

/-- The path without its nodes. -/
def trace (p : Path S A) : Trace S A := p.mapStates Visit.state

end Path

/-- An edge of the graph. -/
structure GraphEdge (A : Type) where
  /-- The parent. -/
  source : NodeId
  /-- What led from parent to child. -/
  action : A
  /-- The child. -/
  target : NodeId
  deriving DecidableEq

/-- The size of a graph. -/
structure Metrics where
  /-- Live nodes. -/
  size : Nat := 0
  /-- The largest depth of a live node. -/
  depth : Nat := 0
  /-- Live covered nodes. -/
  covered : Nat := 0
  /-- Live targets. -/
  targets : Nat := 0
  /-- Live nodes that have children. -/
  parents : Nat := 0
  /-- All their children together. -/
  children : Nat := 0
  deriving DecidableEq, Inhabited

/-- The mean number of children of the nodes that have children, zero if there are none. -/
def Metrics.branching (m : Metrics) : Float :=
  if m.parents = 0 then 0.0 else m.children.toUInt64.toFloat / m.parents.toUInt64.toFloat

namespace Graph

variable {S A : Type}

/-! ### Edges -/

/-- The edge that leads to a node; none for a root. -/
def inEdge (g : Graph S A) (id : NodeId) : Except Fault (Option (GraphEdge A)) := do
  let n ← g.node id
  return n.incoming.map fun e ↦ ⟨e.parent, e.action, id⟩

/-- The edges that leave a node, in the order of creation. -/
def outEdges (g : Graph S A) (id : NodeId) : Except Fault (List (GraphEdge A)) := do
  let n ← g.node id
  let edges ← n.children.mapM g.inEdge
  return edges.filterMap fun e ↦ e

/-! ### Exploration status -/

/-- The nodes that await expansion, in the order of creation. -/
def incompleteNodes (g : Graph S A) : List (Node S A) := g.nodes.filter Node.isIncomplete

/-- The targets, in the order of creation. -/
def targetNodes (g : Graph S A) : List (Node S A) := g.nodes.filter Node.target

/-- Whether every target is covered. -/
def isSafe (g : Graph S A) : Bool := g.targetNodes.all Node.isCovered

/-- Whether every node is expanded, covered or a target. -/
def isComplete (g : Graph S A) : Bool := g.nodes.all fun n ↦ !n.isIncomplete

/-- Put a node before the first one that is deeper, or equally deep and younger. -/
def insertByDepth (n : Node S A) : List (Node S A) → List (Node S A)
  | [] => [n]
  | m :: rest =>
    if n.depth < m.depth ∨ (n.depth = m.depth ∧ n.id < m.id) then n :: m :: rest
    else m :: insertByDepth n rest

/-- The uncovered targets, shallowest first, equally deep ones in the order of creation. -/
def counterexamples (g : Graph S A) : List NodeId :=
  ((g.nodes.filter Node.isCounterexample).foldr insertByDepth []).map Node.id

/-! ### Paths -/

/-- Follow parent links from `id` to a root, through at most so many nodes, with the steps behind
`id` already collected. -/
def pathFrom (g : Graph S A) : Nat → NodeId → List (A × Visit S) → Except Fault (Path S A)
  | 0, id, _ => .error (.missingNode id)
  | bound + 1, id, steps => do
    let n ← g.node id
    match n.incoming with
    | none => return ⟨⟨id, n.state⟩, steps⟩
    | some e => g.pathFrom bound e.parent ((e.action, ⟨id, n.state⟩) :: steps)

/-- The path from a root to a node. No path has more steps than there are slots. -/
def pathTo (g : Graph S A) (id : NodeId) : Except Fault (Path S A) :=
  g.pathFrom (g.created + 1) id []

/-! ### Size -/

/-- Count one more node. -/
def countNode (m : Metrics) (n : Node S A) : Metrics :=
  { size := m.size + 1
    depth := max m.depth n.depth
    covered := m.covered + n.isCovered.toNat
    targets := m.targets + n.target.toNat
    parents := m.parents + (!n.isLeaf).toNat
    children := m.children + n.children.length }

/-- The size of the graph. -/
def metrics (g : Graph S A) : Metrics := g.nodes.foldl countNode {}

end Graph

end AbstractionRefinement
