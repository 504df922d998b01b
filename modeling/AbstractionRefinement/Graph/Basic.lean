import AbstractionRefinement.Failure
import AbstractionRefinement.IndexMap

/-!
# Abstract reachability graphs

A reachability graph is a forest of abstract states together with covering links between them. Nodes
live in slots and are addressed by their position; a position is never used again, and a pruned node
leaves an empty slot behind. The graph keeps several indexes beside the slots, each redundant with
the nodes themselves:

* `roots`, the live nodes without incoming edge;
* `partitions`, the live nodes of each key in the order of creation;
* `live`, the number of live nodes;
* in each node its `children`, the reverse of the incoming edges, and the nodes it `covers`, the
  reverse of `coveredBy`.

The functions of this module are the only ways to change a graph, apart from pruning. Those that
refer to a node answer with a `Fault` if it is not there.

Positions are natural numbers, given out in order (`Graph.created`). Stored in 32 bits they would
run out after `2 ^ 32` nodes; no graph that fits in a machine gets there, and up to there nothing
changes, since a live node is at a position below the number of nodes that were created
(`Graph.lt_created`).

A position that was given out is no promise: the node may have been pruned. Every operation that is
handed a position therefore looks it up first, and fails before it has changed anything. An
operation that looks up several does so in a fixed order, which is part of what it does: it decides
which fault is seen.

That the indexes agree with the nodes, that the incoming edges make a forest, and that the covering
links agree in both directions is the subject of `Graph.WellFormed`.
-/

namespace AbstractionRefinement

/-! ### Nodes -/

/-- How a node was reached. -/
structure Incoming (A : Type) where
  /-- The node it was reached from. -/
  parent : NodeId
  /-- The action that led here. -/
  action : A
  deriving DecidableEq

/-- One abstract state of the graph. -/
structure Node (S A : Type) where
  /-- The position of the node. -/
  id : NodeId
  /-- The abstract state. -/
  state : S
  /-- The key of the state, fixed at creation. Only nodes of one key cover each other. -/
  key : Nat
  /-- How the node was reached; `none` for a root. -/
  incoming : Option (Incoming A)
  /-- Successors in the order of creation. -/
  children : List NodeId := []
  /-- The node that stands for this one. -/
  coveredBy : Option NodeId := none
  /-- The nodes this one stands for, in the order in which they were covered. -/
  covers : List NodeId := []
  /-- Whether all successors have been created. -/
  expanded : Bool := false
  /-- Whether the state violates the property. -/
  target : Bool
  /-- Whether the node may cover others. -/
  canCover : Bool := true
  /-- The number of edges from the root. -/
  depth : Nat
  deriving DecidableEq

namespace Node

variable {S A : Type}

/-- A node without incoming edge. -/
def isRoot (n : Node S A) : Bool := n.incoming.isNone

/-- A node without children. -/
def isLeaf (n : Node S A) : Bool := n.children.isEmpty

/-- A node that another one stands for. -/
def isCovered (n : Node S A) : Bool := n.coveredBy.isSome

/-- The node it was reached from. -/
def parent? (n : Node S A) : Option NodeId := n.incoming.map Incoming.parent

/-- The action that led here. -/
def action? (n : Node S A) : Option A := n.incoming.map Incoming.action

/-- A node that awaits expansion: not expanded, not covered, no target. -/
def isIncomplete (n : Node S A) : Bool := !n.expanded && !n.isCovered && !n.target

/-- A target that no other node stands for: the end of a counterexample. -/
def isCounterexample (n : Node S A) : Bool := n.target && !n.isCovered

end Node

/-! ### Graphs -/

/-- A forest of abstract states with covering links. -/
structure Graph (S A : Type) where
  /-- All nodes ever created, by position; `none` where a node was pruned. -/
  slots : Array (Option (Node S A)) := #[]
  /-- The live nodes without incoming edge, in the order of creation. -/
  roots : List NodeId := []
  /-- The live nodes of each key, in the order of creation. -/
  partitions : IndexMap (List NodeId) := .empty
  /-- The number of live nodes. -/
  live : Nat := 0
  /-- Whether all initial states are there. -/
  initialized : Bool := false
  deriving DecidableEq

namespace Graph

variable {S A : Type}

/-- The graph without nodes. -/
def empty : Graph S A := {}

instance : Inhabited (Graph S A) := ⟨empty⟩

/-- The number of nodes ever created, pruned ones included: the position of the next one. -/
def created (g : Graph S A) : Nat := g.slots.size

/-- The live node at a position. -/
@[inline] def node? (g : Graph S A) (id : NodeId) : Option (Node S A) := (g.slots[id]?).join

/-- The live node at a position, which must be there. -/
@[inline] def node (g : Graph S A) (id : NodeId) : Except Fault (Node S A) :=
  required (.missingNode id) (g.node? id)

/-- Whether a position holds a live node. -/
def contains (g : Graph S A) (id : NodeId) : Bool := (g.node? id).isSome

/-- The live nodes in the order of creation. -/
def nodes (g : Graph S A) : List (Node S A) := g.slots.toList.filterMap id

/-- The positions of the live nodes in the order of creation. -/
def nodeIds (g : Graph S A) : List NodeId := g.nodes.map Node.id

/-- The live nodes with a key, in the order of creation. -/
def partition (g : Graph S A) (key : Nat) : List NodeId := (g.partitions.find? key).getD []

/-! ### Creation -/

/-- Change the node at a position; nothing happens if there is none. -/
def update (g : Graph S A) (id : NodeId) (f : Node S A → Node S A) : Graph S A :=
  { g with slots := g.slots.modify id (Option.map f) }

/-- Put a node into the next slot and into its partition. -/
def insertNode (g : Graph S A) (state : S) (key : Nat) (incoming : Option (Incoming A))
    (target : Bool) (depth : Nat) : Graph S A :=
  let id := g.created
  let ids := g.partition key ++ [id]
  { g with
    slots := g.slots.push (some { id, state, key, incoming, target, depth })
    partitions := g.partitions.insert key ids
    live := g.live + 1 }

/-- Add a root; its position is the former `created`. -/
def addRoot (g : Graph S A) (state : S) (key : Nat) (target : Bool) : Graph S A :=
  let id := g.created
  let g := g.insertNode state key none target 0
  { g with roots := g.roots ++ [id] }

/-- Add a child of a live node; its position is the former `created`. -/
@[inline] def addChild (g : Graph S A) (parent : NodeId) (action : A) (state : S) (key : Nat)
    (target : Bool) : Except Fault (Graph S A) := do
  let p ← g.node parent
  let id := g.created
  let g := g.insertNode state key (some ⟨parent, action⟩) target (p.depth + 1)
  return g.update parent fun n ↦ { n with children := n.children ++ [id] }

/-! ### Marks -/

/-- Record whether all successors of a node have been created. -/
@[inline] def setExpanded (g : Graph S A) (id : NodeId) (value : Bool) :
    Except Fault (Graph S A) := do
  let _ ← g.node id
  return g.update id fun n ↦ { n with expanded := value }

/-- Record whether all initial states are there. -/
def setInitialized (g : Graph S A) (value : Bool) : Graph S A := { g with initialized := value }

/-! ### Covering links -/

/-- Drop the link from a node to the one that covers it. -/
@[inline] def uncover (g : Graph S A) (id : NodeId) : Except Fault (Graph S A) := do
  let n ← g.node id
  match n.coveredBy with
  | none => return g
  | some coverer =>
    return (g.update id fun n ↦ { n with coveredBy := none }).update coverer fun m ↦
      { m with covers := m.covers.filter (· != id) }

/-- Let `coverer` stand for `id`, in place of any node that did so before. -/
@[inline] def cover (g : Graph S A) (id coverer : NodeId) : Except Fault (Graph S A) := do
  if id = coverer then throw .selfCover
  let g ← g.uncover id
  let _ ← g.node coverer
  return (g.update id fun n ↦ { n with coveredBy := some coverer }).update coverer fun m ↦
    { m with covers := m.covers ++ [id] }

/-- Release every node that `id` covers; they become incomplete again. -/
def releaseCovered (g : Graph S A) (id : NodeId) : Except Fault (Graph S A) := do
  let n ← g.node id
  let g := g.update id fun n ↦ { n with covers := [] }
  return n.covers.foldl (fun g c ↦ g.update c fun m ↦ { m with coveredBy := none }) g

/-- Forbid `id` to cover nodes from now on. -/
def disableCovering (g : Graph S A) (id : NodeId) : Except Fault (Graph S A) := do
  let _ ← g.node id
  return g.update id fun n ↦ { n with canCover := false }

/-- Whether `m` may cover a node with the given position and state. -/
@[inline] def mayCover (leq : S → S → Bool) (id : NodeId) (state : S) (m : Node S A) : Bool :=
  m.id != id && !m.isCovered && m.canCover && leq state m.state

/-- The first node of `id`'s partition, in the order of creation, that may cover it. -/
def findCoverer (g : Graph S A) (leq : S → S → Bool) (id : NodeId) :
    Except Fault (Option NodeId) := do
  let n ← g.node id
  return (g.partition n.key).find? fun m ↦ (g.node? m).any (mayCover leq id n.state)

end Graph

end AbstractionRefinement
