import AbstractionRefinement.Digraph.Domain
import AbstractionRefinement.Loop

/-!
# Checking a digraph

Whether a target of a digraph can be reached, decided by the refinement loop over its abstraction.

The check is `Checker.run` for an explorer and a refuter over digraphs, begun with an empty session.
Its options are those of the parts: which counterexamples are examined and how much of the graph
they invalidate, what is tracked from the beginning, how to explore, and the budgets of the run. If
every counterexample is to be examined, exploration does not stop before all of them are there,
whatever the stop rule says (`Scope.exploration`).

The fingerprint by which refuted traces are remembered is an option as well. Nothing that is proved
about the check depends on how it is computed, unless it is said to tell traces apart.

The turns that are granted bound the loop and each of its explorations alike; `none` says that they
did not suffice. What a meter and a clock say is given from outside.
-/

namespace AbstractionRefinement

/-- Options of a digraph check. -/
structure DigraphOptions where
  /-- Which counterexamples one refinement examines. -/
  scope : Scope := .shortest
  /-- How much of the graph a refuted counterexample invalidates. -/
  pruning : Pruning := .subtree
  /-- The vertices tracked from the beginning. -/
  initial : Tracked := {}
  /-- How to explore. -/
  exploration : ExplorationOptions := {}
  /-- Budgets of the run. -/
  loop : LoopOptions := {}
  /-- By which refuted traces are remembered. -/
  fingerprint : List Link → Fingerprint := .ofActions
  deriving Inhabited

/-- What a check of a digraph comes to. -/
abbrev DigraphEnding := Ending Spot Link Tracked (List Nat)

/-- Decide whether a target can be reached: at most so many iterations, each with at most so many
turns of exploration. -/
def Digraph.check (g : Digraph) (o : DigraphOptions) (meter : Meter) (clock : Clock)
    (turns : Nat) : DigraphEnding :=
  let x : Explorer Spot Link Tracked :=
    { model := g.model, options := o.scope.exploration o.exploration, meter }
  let checker := Checker.ofSession x (g.refuter o.fingerprint) o.scope o.pruning turns
  ((checker.run o.loop clock turns o.initial).run {}).1

end AbstractionRefinement
