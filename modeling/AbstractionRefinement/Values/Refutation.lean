import AbstractionRefinement.Values.Simulation

/-!
# Refutation of traces

Why a trace has no execution, in terms of variables. A core is a set of assumptions that are enough
to block every execution; the strategy says which one is chosen. The slice of a core gives, for each
state of the trace, the variables whose values matter from there to the point of failure.

The refined precision tracks every variable that matters at some state. That excludes the trace if
nothing else is needed between two states: a variable that is written and read again along one edge
matters at no state, is not tracked, and may let the trace come back.

The strategy `last` takes the statement at which the simulation got stuck and nothing else, and
`all` takes all assumptions up to there. `minimal` begins with these and leaves out, from the first
on, each without which the statements still have no execution; every attempt is one more simulation,
with some assumptions switched off.

What matters at a state is computed backwards from the point of failure: an assumption of the core
adds what it reads, and an assignment to a variable that matters replaces it by what the right-hand
side reads. `Program.slice` says for each state what this comes to. A faster way is one walk
backwards over all statements that notes down the set at every edge it passes, as
`Program.sliceByWalk` does; for the statements along a trace both give the same slice
(`Program.sliceByWalk_eq`).
-/

namespace AbstractionRefinement

/-- Which assumptions explain why a trace has no execution. -/
inductive CoreStrategy where
  /-- The one at which the simulation got stuck. -/
  | last
  /-- All of them, up to and including that one. -/
  | all
  /-- A subset of those from which none can be left out. -/
  | minimal
  deriving DecidableEq, Inhabited

/-- The variables that matter at each state of a trace. -/
structure Slice where
  /-- For each state, the variables that matter. -/
  perState : List IndexSet
  /-- The first state that needs a finer abstraction. -/
  cut : Nat
  deriving DecidableEq, Inhabited

/-- All variables that matter somewhere. -/
def Slice.vars (s : Slice) : IndexSet := s.perState.foldl IndexSet.union .empty

namespace Program

variable (p : Program) (maxRuns : Nat)

/-! ### Cores -/

/-- Whether the statement is an assumption. -/
def isAssumption (s : TraceStatement) : Bool :=
  match s.statement with
  | .assume _ => true
  | _ => false

/-- The positions of the assumptions among statements. -/
def assumptions (statements : List TraceStatement) : IndexSet :=
  .ofList ((List.range statements.length).filter fun i ↦ statements[i]?.any isAssumption)

/-- Leave out each candidate without which the statements still have no execution. -/
def minimize (statements : List TraceStatement) (core : IndexSet) :
    List Nat → Except Abort IndexSet
  | [] => .ok core
  | candidate :: rest => do
    let trial := core.erase candidate
    match ← p.simulate maxRuns (· ∈ trial) statements with
    | .stuck _ => minimize statements trial rest
    | .feasible _ => minimize statements core rest

/-- The assumptions that explain why the statements up to `failedAt` have no execution. -/
def core (strategy : CoreStrategy) (statements : List TraceStatement) (failedAt : Nat) :
    Except Abort IndexSet :=
  let upTo := statements.take (failedAt + 1)
  match strategy with
  | .last => .ok (.ofList [failedAt])
  | .all => .ok (assumptions upTo)
  | .minimal => p.minimize maxRuns upTo (assumptions upTo) (assumptions upTo).toList

/-! ### Slices -/

/-- The variables that matter before a statement, given those that matter after it. -/
def liveBefore (core : IndexSet) (i : Nat) (s : Statement) (live : IndexSet) : IndexSet :=
  match s with
  | .assume condition => if i ∈ core then live.union condition.vars else live
  | .assign x e => if x ∈ live then (live.erase x).union e.vars else live
  | .havoc x => live.erase x

/-- The variables that matter before the first of several statements, the last of which has nothing
after it; `i` is the number of statements before. -/
def liveFrom (core : IndexSet) : Nat → List TraceStatement → IndexSet
  | _, [] => .empty
  | i, s :: rest => liveBefore core i s.statement (liveFrom core (i + 1) rest)

/-- The variables that matter at the state at a position: those that matter before the first
statement of an edge at or after it. -/
def liveAt (core : IndexSet) (upTo : List TraceStatement) (position : Nat) : IndexSet :=
  let before := upTo.takeWhile (·.position < position)
  liveFrom core before.length (upTo.drop before.length)

/-- The variables that matter at each state of a trace with the given number of states, on the way
to the failure at `failedAt`. -/
def slice (statements : List TraceStatement) (states failedAt : Nat) (core : IndexSet) : Slice :=
  let upTo := statements.take (failedAt + 1)
  let failEdge := (upTo.getLast?.map TraceStatement.position).getD 0
  let perState := (List.range states).map fun k ↦
    if k ≤ failEdge then liveAt core upTo k else .empty
  let cut := (perState.findIdx? fun vars ↦ !vars.isEmpty).getD (min (failEdge + 1) (states - 1))
  ⟨perState, cut⟩

/-! ### Examination of a trace -/

/-- Decide whether the moves of a trace have an execution: one valuation for each state if so, and
the variables that matter at each state if not. -/
def checkMoves (strategy : CoreStrategy) (moves : List Move) :
    Except Abort (Feasibility (List Valuation) Slice) := do
  let statements ← orFault (p.statementsOf moves)
  match ← p.simulate maxRuns (fun _ ↦ true) statements with
  | .feasible run => return .feasible (run.reach moves.length).history
  | .stuck failedAt =>
    let core ← p.core maxRuns strategy statements failedAt
    return .infeasible (slice statements (moves.length + 1) failedAt core)

/-- The refuter of the program analysis: every variable that matters somewhere is tracked. -/
def refuter (strategy : CoreStrategy) (fingerprint : List Move → Fingerprint := .ofActions) :
    Refuter ProgramState Move ProgramPrecision (List Valuation) Slice where
  check t := p.checkMoves maxRuns strategy t.actions
  cutIndex := Slice.cut
  refine prec _ slice := refineSecond (fun tracked ↦ .ok (tracked.add slice.vars)) prec
  fingerprint := fingerprint

end Program

end AbstractionRefinement
