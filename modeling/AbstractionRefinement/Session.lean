import AbstractionRefinement.Graph.Query

/-!
# Sessions

What the engine carries from one exploration or refinement to the next: the graph, counters of the
work done so far, and the fingerprints of the counterexamples refuted so far. A computation on a
session that stops early keeps what it has done up to there (`Work`).

The counters grow over the whole life of a session. Pruning does not take anything back from them,
so they tell how much work was done and not how large the graph is. The largest depth counts
children only: a root does not change it.

`Work` is a computation on a state that may be aborted, and in which the state survives the abort.
The four small functions of this module are all that exploration and refinement are made of, besides
control flow: a demand that has to be met, a look at the graph, a change of the graph that may refer
to something missing, and a change of the counters. None of them touches more of the session than
its name says, which is what makes statements about what stays the same short.
-/

namespace AbstractionRefinement

/-- Counters over all explorations of a session. -/
structure Counters where
  /-- Nodes created. -/
  created : Nat := 0
  /-- Nodes found to be covered. -/
  covered : Nat := 0
  /-- Nodes expanded. -/
  expansions : Nat := 0
  /-- The largest depth of a child ever created. -/
  maxDepth : Nat := 0
  deriving DecidableEq, Inhabited

/-- The state of the engine between its operations. -/
structure Session (S A : Type) where
  /-- The reachability graph. -/
  graph : Graph S A := .empty
  /-- Counters of the work done. -/
  counters : Counters := {}
  /-- Fingerprints of refuted counterexamples, without repetition. -/
  refuted : List Fingerprint := []
  deriving DecidableEq

/-- A computation on a state `σ` that may stop early and keeps what it has done. -/
abbrev Work (σ α : Type) := ExceptT Abort (StateM σ) α

namespace Session

variable {S A α : Type}

/-- The answer of a computation, or the reason why there is none. -/
@[inline] def demand (x : Except Abort α) : Work (Session S A) α := fun s ↦ (x, s)

/-- The current graph. -/
@[inline] def currentGraph : Work (Session S A) (Graph S A) := fun s ↦ (.ok s.graph, s)

/-- Change the graph, unless the change refers to something that is not there. -/
@[inline] def editGraph (f : Graph S A → Except Fault (Graph S A)) :
    Work (Session S A) Unit := fun s ↦
  match f s.graph with
  | .ok g => (.ok (), { s with graph := g })
  | .error fault => (.error (.fault fault), s)

/-- Change the counters. -/
@[inline] def count (f : Counters → Counters) : Work (Session S A) Unit := fun s ↦
  (.ok (), { s with counters := f s.counters })

end Session

end AbstractionRefinement
