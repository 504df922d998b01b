import AbstractionRefinement.Report

/-!
# The refinement loop

The loop alternates exploration and refinement until the target is shown to be unreachable, a
counterexample is genuine, a budget runs out or an operation fails. It is written for any pair of
collaborators that share a state `σ` (`Checker`); `Checker.ofSession` makes one of an explorer and a
refuter that work on a session.

Each iteration is counted before its exploration and recorded after it, unless the exploration
itself stopped early. A refined precision must be at least as fine as the one before.

A run begins with an empty graph; counters and remembered traces go on from what the shared state
holds. Each iteration asks whether iterations are left, explores within the seconds that are left of
the run, and refines if there are counterexamples. Before the next iteration the refined precision
is compared with the current one, and the clock is looked at once more.

A budget that is used up leaves the question open (`Conclusion.undecided`); any other failure is a
failure of the run, reported with the iteration and the precision at which it came. Both are
reports, with the graph and the statistics as they stand. A `Fault` is not: it ends the run without
a report.

The report depends on the shared state only through the graph and the counters. A time limit whose
deadline no clock can tell is a fault before the first iteration. Messages that a run might log on
its way are left out: the report and its records are all that it tells.
-/

namespace AbstractionRefinement

/-- How to explore when every counterexample is examined: all of them have to be there. -/
def Scope.exploration (scope : Scope) (o : ExplorationOptions) : ExplorationOptions :=
  match scope with
  | .shortest => o
  | .every => { o with stop := .never }

/-- Budgets of a run. A limit of zero is no limit. -/
structure LoopOptions where
  /-- How many iterations may run. -/
  maxIterations : Nat := 0
  /-- How many seconds the run may take. -/
  timeLimit : Nat := 0
  deriving DecidableEq, Inhabited

/-- The collaborators of the loop, over a shared state `σ`. -/
structure Checker (σ S A P W : Type) where
  /-- The graph. -/
  graph : σ → Graph S A
  /-- Counters of the explorations. -/
  counters : σ → Counters
  /-- Begin with an empty graph. -/
  restart : σ → σ
  /-- Explore under a precision, within a number of seconds if one is given; `none` if the
  exploration does not end. -/
  explore : Option Nat → P → Work σ (Option Verdict)
  /-- Examine counterexamples. -/
  refine : P → Work σ (Refinement S A P W)

/-- Where a run stands between two iterations. -/
structure Round (P : Type) where
  /-- The current precision. -/
  prec : P
  /-- Iterations begun. -/
  iterations : Nat := 0
  /-- Records so far, oldest first. -/
  records : List (Record P) := []

/-- How a run ends: with a report, with a fault, or not at all (`none`). -/
abbrev Ending (S A P W : Type) := Option (Except Fault (Report S A P W))

namespace Checker

variable {σ S A P W : Type} (c : Checker σ S A P W)

/-- End the run with a report on the current state. -/
def conclude (r : Round P) (conclusion : Conclusion S A P W) :
    StateM σ (Turn (Round P) (Ending S A P W)) := fun s ↦
  let statistics : Statistics :=
    { iterations := r.iterations, graph := (c.graph s).metrics, counters := c.counters s }
  (.done (some (.ok ⟨conclusion, c.graph s, statistics, r.records⟩)), s)

/-- End the run because an operation stopped early. An exhausted budget leaves the question open,
any other failure is a failure of the run. -/
def giveUp (r : Round P) : Abort → StateM σ (Turn (Round P) (Ending S A P W))
  | .fault f => return .done (some (.error f))
  | .failure (.exhausted reason) => c.conclude r (.undecided reason r.prec)
  | .failure cause => c.conclude r (.failed r.iterations r.prec cause)

/-- The seconds left of a run, if it is limited. -/
def secondsLeft (o : LoopOptions) (clock : Clock) (iteration : Nat) : Option Nat :=
  if 0 < o.timeLimit then some (o.timeLimit - clock.elapsed iteration) else none

/-- Go on with a refined precision, which must be at least as fine as the current one. -/
def advance [Precision P] [Described P] (o : LoopOptions) (clock : Clock) (r : Round P)
    (refined : P) : StateM σ (Turn (Round P) (Ending S A P W)) :=
  if !Precision.refines refined r.prec then
    c.giveUp r (.failure (.violation (.notFiner (describe refined) (describe r.prec))))
  else if 0 < o.timeLimit && o.timeLimit ≤ clock.elapsed r.iterations then
    c.conclude { r with prec := refined } (.undecided (.time o.timeLimit) refined)
  else return .again { r with prec := refined }

/-- The second half of an iteration: examine the counterexamples. -/
def refineRound [Precision P] [Described P] (o : LoopOptions) (clock : Clock) (r : Round P) :
    StateM σ (Turn (Round P) (Ending S A P W)) := do
  match ← (c.refine r.prec).run with
  | .error stop => c.giveUp r stop
  | .ok (.genuine path witness) => c.conclude r (.violated path witness)
  | .ok (.spurious refined) => c.advance o clock r refined

/-- One iteration. A look at the clock is numbered by the iterations begun. -/
def round [Precision P] [Described P] (o : LoopOptions) (clock : Clock) (r : Round P) :
    StateM σ (Turn (Round P) (Ending S A P W)) := do
  if 0 < o.maxIterations && o.maxIterations ≤ r.iterations then
    c.conclude r (.undecided (.iterations o.maxIterations) r.prec)
  else
    let deadline := secondsLeft o clock r.iterations
    let r := { r with iterations := r.iterations + 1 }
    match ← (c.explore deadline r.prec).run with
    | .error stop => c.giveUp r stop
    | .ok none => return .done none
    | .ok (some verdict) =>
      let record : Record P := ⟨r.iterations, r.prec, verdict, (c.graph (← get)).metrics⟩
      let r := { r with records := r.records ++ [record] }
      match verdict with
      | .safe => c.conclude r (.safe r.prec)
      | .suspect => c.refineRound o clock r

/-- A run from an initial precision, of at most so many iterations, on an empty graph. A time limit
without deadline is a fault before the first iteration. -/
def run [Precision P] [Described P] (o : LoopOptions) (clock : Clock) (turns : Nat)
    (prec : P) : StateM σ (Ending S A P W) := do
  match clock.checkLimit o.timeLimit with
  | .error f => return some (.error f)
  | .ok () =>
    modify c.restart
    let ending ← iterate (c.round o clock) turns { prec }
    return ending.join

/-- The checker of an explorer and a refuter on a session; each exploration is granted the given
number of turns. -/
def ofSession {R : Type} [DecidableEq S] [DecidableEq A] [DecidableEq P] [Described S]
    [Precision P] (x : Explorer S A P) (r : Refuter S A P W R) (scope : Scope) (pruning : Pruning)
    (turns : Nat) : Checker (Session S A) S A P W where
  graph := Session.graph
  counters := Session.counters
  restart s := { s with graph := .empty }
  explore := x.explore turns
  refine := r.run scope pruning

end Checker

end AbstractionRefinement
