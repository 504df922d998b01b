import AbstractionRefinement.Graph.Pruning

/-!
# Edits of a graph

Every way to change a graph, as data. A graph is what a sequence of edits makes of the empty one.

The operations themselves are functions, and an exploration or a refinement calls them directly. As
data they can be listed, and a statement about every graph that can be made becomes one about lists
of edits: `Graph.applyAll` goes through a list and stops at the first edit that refers to a node
that is not there.

Some edits never fail. Adding a root, setting the mark of the whole graph and removing every node
refer to no node; pruning refers to one, and does nothing if it is not there, since what is to be
removed is gone already.
-/

namespace AbstractionRefinement

/-- One change of a graph. -/
inductive Edit (S A : Type) where
  /-- Add a root. -/
  | addRoot (state : S) (key : Nat) (target : Bool)
  /-- Add a child of a live node. -/
  | addChild (parent : NodeId) (action : A) (state : S) (key : Nat) (target : Bool)
  /-- Record whether all successors of a node exist. -/
  | setExpanded (id : NodeId) (value : Bool)
  /-- Record whether all initial states are there. -/
  | setInitialized (value : Bool)
  /-- Let one node stand for another. -/
  | cover (id coverer : NodeId)
  /-- Drop the link to the covering node. -/
  | uncover (id : NodeId)
  /-- Release all nodes that a node covers. -/
  | releaseCovered (id : NodeId)
  /-- Forbid a node to cover others. -/
  | disableCovering (id : NodeId)
  /-- Remove a node and everything below it. -/
  | prune (id : NodeId)
  /-- Remove every node. -/
  | pruneAll
  deriving DecidableEq

namespace Graph

variable {S A : Type}

/-- The graph after one edit. -/
def apply (g : Graph S A) : Edit S A → Except Fault (Graph S A)
  | .addRoot state key target => .ok (g.addRoot state key target)
  | .addChild parent action state key target => g.addChild parent action state key target
  | .setExpanded id value => g.setExpanded id value
  | .setInitialized value => .ok (g.setInitialized value)
  | .cover id coverer => g.cover id coverer
  | .uncover id => g.uncover id
  | .releaseCovered id => g.releaseCovered id
  | .disableCovering id => g.disableCovering id
  | .prune id => .ok (g.prune id)
  | .pruneAll => .ok g.pruneAll

/-- The graph after a sequence of edits. -/
def applyAll (g : Graph S A) (edits : List (Edit S A)) : Except Fault (Graph S A) :=
  edits.foldlM apply g

end Graph

end AbstractionRefinement
