import AbstractionRefinement.Exploration
import AbstractionRefinement.Refinement

/-!
# Reports

What a whole run tells: its conclusion, the final graph, statistics, and one record per iteration.

A conclusion is one of four: the property holds, and the precision shows it; it is violated, along a
path and with a witness of the domain; it is left open, because a budget ran out; or the run failed.
In the last two cases the precision is the one the run had come to. The graph of a report is the one
that the run ended with, pruned and covered as it stands, and not a cleaned-up copy.

Statistics count iterations begun, so an iteration that failed is among them. The records are those
of explorations that came to an end, oldest first; there may be one fewer of them than iterations.

Spans of time are part of the statistics and of their written form, but are not measured by a run.
-/

namespace AbstractionRefinement

/-- Statistics of a run. Spans of time are filled in by a caller that measures them. -/
structure Statistics where
  /-- Iterations begun. -/
  iterations : Nat := 0
  /-- The whole time. -/
  elapsed : Duration := {}
  /-- The part of it spent on exploration. -/
  exploration : Duration := {}
  /-- The part of it spent on refinement. -/
  refinement : Duration := {}
  /-- The size of the final graph. -/
  graph : Metrics := {}
  /-- Counters of the explorations. -/
  counters : Counters := {}
  deriving DecidableEq, Inhabited

/-- The written form of statistics: times with three places, the mean number of children with
two. -/
def Statistics.text (s : Statistics) : String :=
  let seconds (d : Duration) := Numeral.fixedPlaces 3 d.toFloat
  let branching := Numeral.fixedPlaces 2 s.graph.branching
  let times := s!"{seconds s.elapsed}s (abstraction {seconds s.exploration}s, " ++
    s!"refinement {seconds s.refinement}s)"
  let size := s!"{s.graph.size} nodes, depth {s.graph.depth}, {s.graph.covered} covered, " ++
    s!"{s.graph.targets} targets, branching {branching}"
  let work := s!"{s.counters.created} nodes created, {s.counters.covered} covered, " ++
    s!"{s.counters.expansions} expansions"
  s!"iterations: {s.iterations}\ntime: {times}\ngraph: {size}\nabstractor: {work}"

/-- One iteration of a run. -/
structure Record (P : Type) where
  /-- Its number, from one. -/
  iteration : Nat
  /-- The precision of its exploration. -/
  prec : P
  /-- What its exploration said. -/
  verdict : Verdict
  /-- The size of the graph after its exploration. -/
  metrics : Metrics
  deriving DecidableEq

/-- What a run comes to. -/
inductive Conclusion (S A P W : Type) where
  /-- No target is reachable; the precision that shows it. -/
  | safe (prec : P)
  /-- A target is reachable, along this path. -/
  | violated (path : Path S A) (witness : W)
  /-- A budget ran out. -/
  | undecided (reason : Exhaustion) (prec : P)
  /-- An iteration failed under this precision. -/
  | failed (iteration : Nat) (prec : P) (cause : Failure)
  deriving DecidableEq

/-- The wording of the failure of an iteration. -/
def failureMessage (iteration : Nat) (cause : Failure) : String :=
  s!"iteration {iteration}: {cause.message}"

/-- Everything a run tells. -/
structure Report (S A P W : Type) where
  /-- What it came to. -/
  conclusion : Conclusion S A P W
  /-- The final graph. -/
  graph : Graph S A
  /-- Statistics. -/
  statistics : Statistics
  /-- One record per iteration, oldest first. -/
  records : List (Record P)
  deriving DecidableEq

end AbstractionRefinement
