import AbstractionRefinement.Loop
import AbstractionRefinement.Values.Refutation

/-!
# Checking a program

Whether the error location of a program can be reached, decided by the refinement loop over the
program analysis.

The check is `Checker.run` for an explorer and a refuter over programs, begun with an empty session
and with the variables that are tracked from the beginning. Three of the options belong to the
domain: which core explains an infeasible trace, whether siblings at one location are merged, and
how many alternatives are told apart; `maxEnum` bounds the latter during the analysis and `maxRuns`
during the simulation of a trace. Neither bound is a matter of soundness: a larger one makes the
analysis more precise, or lets a longer trace be examined.

`Program.checkWith` takes the explorer as it is, for statements about explorers that differ from the
usual one in a single respect. The fingerprint is an option, the readings of meter and clock are
given from outside, and `none` says that the turns did not suffice.
-/

namespace AbstractionRefinement

/-- Options of a program check. -/
structure ProgramOptions where
  /-- Which assumptions explain an infeasible trace. -/
  strategy : CoreStrategy := .last
  /-- Which counterexamples one refinement examines. -/
  scope : Scope := .shortest
  /-- How much of the graph a refuted counterexample invalidates. -/
  pruning : Pruning := .subtree
  /-- Whether siblings at one location are joined. -/
  merge : Bool := false
  /-- The largest number of alternatives that are told apart. -/
  maxEnum : Nat := 16
  /-- The largest number of runs that the simulation of a trace may hold. -/
  maxRuns : Nat := 65536
  /-- The variables tracked from the beginning. -/
  initial : TrackedVars := {}
  /-- How to explore. -/
  exploration : ExplorationOptions := {}
  /-- Budgets of the run. -/
  loop : LoopOptions := {}
  /-- By which refuted traces are remembered. -/
  fingerprint : List Move → Fingerprint := .ofActions
  deriving Inhabited

/-- What a check of a program comes to. -/
abbrev ProgramEnding := Ending ProgramState Move ProgramPrecision (List Valuation)

namespace Program

/-- The initial precision of a check. -/
def initialPrecision (o : ProgramOptions) : ProgramPrecision := ⟨(), o.initial⟩

/-- The explorer of a program check. -/
def explorer (p : Program) (o : ProgramOptions) (meter : Meter) :
    Explorer ProgramState Move ProgramPrecision where
  model := p.model o.maxEnum o.merge
  options := o.exploration
  meter := meter

/-- The check of a program with a given explorer: at most so many iterations, each with at most so
many turns of exploration. -/
def checkWith (p : Program) (o : ProgramOptions)
    (x : Explorer ProgramState Move ProgramPrecision) (clock : Clock) (turns : Nat) :
    ProgramEnding :=
  let refuter := p.refuter o.maxRuns o.strategy o.fingerprint
  let checker := Checker.ofSession x refuter o.scope o.pruning turns
  ((checker.run o.loop clock turns (initialPrecision o)).run {}).1

/-- Decide whether the error location of a program can be reached. -/
def check (p : Program) (o : ProgramOptions) (meter : Meter) (clock : Clock) (turns : Nat) :
    ProgramEnding :=
  let o := { o with exploration := o.scope.exploration o.exploration }
  p.checkWith o (p.explorer o meter) clock turns

end Program

end AbstractionRefinement
