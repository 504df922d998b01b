/-!
# Frontiers

The nodes that wait for expansion, held in the order in which they will leave. Taking a node is
taking the head; the three search orders differ only in where `push` places a new entry:

* breadth first: behind everything held, so the earliest entry leaves first;
* depth first: in front of everything held, so the latest entry leaves first;
* lowest key: behind every entry whose key is not larger, so a lowest key leaves first and equal
  keys leave in the order in which they came.

An entry keeps the key it was added under, whether or not the order looks at it. Nothing prevents a
node from being added twice.

This is what a frontier does, and not the fastest way to do it: adding a node by lowest key takes
time in proportion to what is held. Kept for speed, the nodes are in a queue, or in a heap where
entries are numbered as they come; `Waitlist` is a frontier of that kind, over any heap that obeys
the laws of one, and it answers every sequence of requests as this one does
(`Waitlist.serveAll_eq`).
-/

namespace AbstractionRefinement

/-- Stable handle of a node: its position among all nodes ever created. -/
abbrev NodeId := Nat

/-- The written form of a node handle. -/
def nodeName (id : NodeId) : String := "n" ++ toString id

/-- In which order nodes leave a frontier. -/
inductive SearchOrder where
  /-- First in, first out. -/
  | breadthFirst
  /-- Last in, first out. -/
  | depthFirst
  /-- Lowest key first, equal keys in the order of arrival. -/
  | lowestKey
  deriving DecidableEq, Inhabited

/-- A node that waits, with its key. -/
structure Waiting where
  /-- The node. -/
  node : NodeId
  /-- Its key, looked at by `SearchOrder.lowestKey` only. -/
  key : Nat
  deriving DecidableEq

/-- Nodes waiting for expansion, the next to leave first. -/
structure Frontier where
  /-- The discipline of the frontier. -/
  order : SearchOrder
  /-- What is held, in the order of leaving. -/
  held : List Waiting := []
  deriving DecidableEq

namespace Frontier

/-- Place an entry behind every entry whose key is not larger. -/
def insertByKey (w : Waiting) : List Waiting → List Waiting
  | [] => [w]
  | v :: rest => if w.key < v.key then w :: v :: rest else v :: insertByKey w rest

/-- Add a node. -/
def push (f : Frontier) (node : NodeId) (key : Nat) : Frontier :=
  let w : Waiting := ⟨node, key⟩
  match f.order with
  | .breadthFirst => { f with held := f.held ++ [w] }
  | .depthFirst => { f with held := w :: f.held }
  | .lowestKey => { f with held := insertByKey w f.held }

/-- Take the next node, if one is held. -/
def pop? (f : Frontier) : Option (NodeId × Frontier) :=
  match f.held with
  | [] => none
  | w :: rest => some (w.node, { f with held := rest })

/-- The number of entries held. -/
def size (f : Frontier) : Nat := f.held.length

/-- Whether nothing is held. -/
def isEmpty (f : Frontier) : Bool := f.held.isEmpty

end Frontier

end AbstractionRefinement
