import AbstractionRefinement.Graph.Basic

/-!
# Pruning

Pruning a node removes it and everything below it, and cuts every link between what is removed and
what stays: the parent loses the child and counts as unexpanded, nodes that a removed node covered
are released, and removed nodes leave the lists of those that covered them. The whole change is one
pass over the slots, given the positions to remove.

A node that is not in the graph is pruned by doing nothing. Otherwise the subtree is listed first
(`Graph.subtree`), down to as many levels as there are positions, so that a graph that is not a
forest cannot make it run for ever; then every slot is gone through once.

This says what the outcome is, and not how a graph that is linked in both directions would be
changed in place: by following the links of each removed node to its children, to what covers it and
to what it covers, to its parent and to the index of its key, where each of these lookups may fail.
`Graph.pruneByLinks` is carried out in that way, with a stack in place of the levels. On a
well-formed graph no lookup fails and the outcome is the same (`WellFormed.pruneByLinks_eq`).
-/

namespace AbstractionRefinement.Graph

variable {S A : Type}

/-- The children of a node, none if it is not there. -/
def childrenOf (g : Graph S A) (id : NodeId) : List NodeId :=
  ((g.node? id).map Node.children).getD []

/-- `id` and the nodes below it, down to a given number of levels, each before its children. -/
def subtree (g : Graph S A) : Nat → NodeId → List NodeId
  | 0, id => [id]
  | levels + 1, id => id :: (g.childrenOf id).flatMap (g.subtree levels)

/-- `id` and every node below it, each before its children and siblings in the order of creation.
No path is longer than the number of slots, so that many levels are enough. -/
def descendants (g : Graph S A) (id : NodeId) : Except Fault (List NodeId) := do
  let _ ← g.node id
  return g.subtree g.created id

/-- What is left of a node when `removed` go and `cut` is the topmost of them. -/
def detach (removed : List NodeId) (cut : NodeId) (n : Node S A) : Node S A :=
  { n with
    children := n.children.filter (· != cut)
    expanded := n.expanded && !n.children.contains cut
    coveredBy := n.coveredBy.filter fun m ↦ !removed.contains m
    covers := n.covers.filter fun m ↦ !removed.contains m }

/-- Remove the given nodes, of which `cut` is the topmost. -/
def remove (g : Graph S A) (removed : List NodeId) (cut : NodeId) : Graph S A :=
  { g with
    slots := g.slots.map fun slot ↦ slot.bind fun n ↦
      if removed.contains n.id then none else some (detach removed cut n)
    roots := g.roots.filter (· != cut)
    partitions := (g.partitions.mapValues (·.filter fun m ↦ !removed.contains m)).filter
      fun _ ids ↦ !ids.isEmpty
    live := g.live - removed.length
    initialized := g.initialized && !g.roots.contains cut }

/-- Remove a node and everything below it; nothing happens if it is not there. -/
def prune (g : Graph S A) (id : NodeId) : Graph S A :=
  if g.contains id then g.remove (g.subtree g.created id) id else g

/-- Remove every node. Positions are not used again. -/
def pruneAll (g : Graph S A) : Graph S A :=
  { slots := g.slots.map fun _ ↦ none }

end AbstractionRefinement.Graph
