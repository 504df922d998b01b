import AbstractionRefinement.Refinement
import AbstractionRefinement.Values.Analysis

/-!
# Simulation of traces

Decides whether the statements along a trace have a concrete execution. The statements are executed
on a list of runs, each with the values known at its end and the values known at each state it has
passed. Variables begin unknown. Where a statement reads an unknown variable, the run forks over the
values of its type, and the value chosen is written back into the earlier valuations in which the
variable was unknown. An equality with an unknown variable on one side binds it without forking.

The number of runs held at once is bounded; exceeding the bound is a failure, not an answer. The
values to fork over are listed before the runs are counted. If the bound is so large that a type
passes whose values no memory can hold, making that list is a fault.

A simulation is stuck at the first statement after which no run is left, and its position is part of
the answer. If runs are left at the end, the first of them is the witness; variables that are still
unknown in it may have any value.

Assumptions can be switched off one by one (`active`), in which case they hold of every run. The
simulation of a trace switches none off; a core is found by trying which may be.

The order of runs is that of the values they were forked over, in ascending order and with the
earlier variable deciding first. It shows in the witness, and in which error is seen if several runs
come upon one.
-/

namespace AbstractionRefinement

/-! ### Runs -/

/-- A partial execution. -/
structure Simulated where
  /-- The values known now. -/
  values : Valuation := .empty
  /-- The values known at each state passed so far. -/
  history : List Valuation := []
  deriving DecidableEq, Inhabited

namespace Simulated

/-- Bind a variable in the last valuations of a history, back to the last one that binds it. The
history is given latest first. -/
def bindBack (x : VarId) (value : Value) : List Valuation → List Valuation
  | [] => []
  | v :: earlier =>
    if v.contains x then v :: earlier else v.insert x value :: bindBack x value earlier

/-- Choose the value of a variable that is unknown now, and since it was last written. -/
def bind (r : Simulated) (x : VarId) (value : Value) : Simulated :=
  { values := r.values.insert x value
    history := (bindBack x value r.history.reverse).reverse }

/-- Note the current values for every state up to the one at a position. -/
def reach (r : Simulated) (position : Nat) : Simulated :=
  { r with history := r.history ++ List.replicate (position + 1 - r.history.length) r.values }

end Simulated

/-- A statement of a trace. -/
structure TraceStatement where
  /-- The position of its edge in the trace. -/
  position : Nat
  /-- The statement. -/
  statement : Statement
  deriving DecidableEq, Inhabited

/-- How a simulation ends. -/
inductive Simulation where
  /-- An execution exists. -/
  | feasible (run : Simulated)
  /-- No execution gets past the statement at this position in the list of statements. -/
  | stuck (failedAt : Nat)
  deriving DecidableEq

/-- More runs than allowed. -/
def tooManyRuns (maxRuns : Nat) : Abort :=
  .failure (.solver s!"explicit simulation exceeded {maxRuns} valuations")

namespace Program

variable (p : Program) (maxRuns : Nat)

/-! ### Forking -/

/-- All ways an expression can evaluate from a run, behind the results `out` found before. `unknown`
lists the variables of the expression that have no value yet, and `pending` counts the runs that
wait meanwhile. -/
def resolveFrom (e : Expr) : List VarId → Nat → Array (Simulated × Value) → Simulated →
    Except Abort (Array (Simulated × Value))
  | unknown, pending, out, r => do
    match ← orMismatch (e.eval r.values) with
    | some value => return out.push (r, value)
    | none =>
      match unknown with
      | [] => throw (.failure (.violation (.reported s!"cannot evaluate {e.text}")))
      | x :: unknown =>
        let type ← orFault (p.varType x)
        if maxRuns < type.size then throw (tooManyRuns maxRuns)
        orFault (Memory.reserve Value.bytes type.count)
        if maxRuns < pending + type.count + out.size then throw (tooManyRuns maxRuns)
        let fork (acc : Nat × Array (Simulated × Value)) (value : Value) := do
          let out ← resolveFrom e unknown (pending + (acc.1 - 1)) acc.2 (r.bind x value)
          return (acc.1 - 1, out)
        let (_, out) ← type.values.foldlM fork (type.count, out)
        return out

/-- All ways an expression can evaluate from a run, forking over unknown variables. -/
def resolve (e : Expr) (r : Simulated) : Except Abort (Array (Simulated × Value)) :=
  p.resolveFrom maxRuns e (e.vars.toList.filter fun x ↦ !r.values.contains x) 0 #[] r

/-! ### Statements -/

/-- The runs in which a condition holds, given the value it has in each. -/
def keepTrue (forked : Array (Simulated × Value)) : Except Abort (Array Simulated) := do
  let kept ← forked.filterM fun rv ↦ orMismatch rv.2.asBool
  return kept.map Prod.fst

/-- Execute a statement on a run. An assumption that is not active is passed over. -/
def step (active : Bool) (r : Simulated) : Statement → Except Abort (Array Simulated)
  | .assume condition => do
    if !active then return #[r]
    match condition.forcedBinding r.values with
    | some (x, value) =>
      let type ← orFault (p.varType x)
      return if type.contains value then #[r.bind x value] else #[]
    | none =>
      let forked ← p.resolve maxRuns condition r
      keepTrue forked
  | .assign x e => do
    let forked ← p.resolve maxRuns e r
    return forked.map fun rv ↦ { rv.1 with values := rv.1.values.insert x rv.2 }
  | .havoc x => .ok #[{ r with values := r.values.erase x }]

/-- Execute a statement on each run. -/
def stepEach (active : Bool) (s : Statement) (runs : Array Simulated) :
    Except Abort (Array Simulated) :=
  let proceed (out : Array Simulated) (r : Simulated) := do
    let more ← p.step maxRuns active r s
    let out := out ++ more
    if maxRuns < out.size then throw (tooManyRuns maxRuns) else return out
  runs.foldlM proceed #[]

/-- Execute statements in order; `i` is the number of statements before. -/
def simulateFrom (active : Nat → Bool) (i : Nat) (runs : Array Simulated) :
    List TraceStatement → Except Abort Simulation
  | [] =>
    match runs[0]? with
    | some r => .ok (.feasible r)
    | none => .error (.failure (.violation (.reported "simulation lost every valuation")))
  | s :: rest => do
    let runs ← p.stepEach maxRuns (active i) s.statement (runs.map (·.reach s.position))
    if runs.isEmpty then return .stuck i
    simulateFrom active (i + 1) runs rest

/-- Execute the statements of a trace; assumptions that are not active are passed over. -/
def simulate (active : Nat → Bool) (statements : List TraceStatement) : Except Abort Simulation :=
  p.simulateFrom maxRuns active 0 #[{}] statements

/-! ### Statements of a trace -/

/-- The statements along moves, the first of which has the given position. -/
def statementsFrom : Nat → List Move → Except Fault (List TraceStatement)
  | _, [] => .ok []
  | i, m :: rest => do
    let edge ← p.edge m.edge
    let others ← statementsFrom (i + 1) rest
    return edge.body.map (⟨i, ·⟩) ++ others

/-- The statements along the moves of a trace. -/
def statementsOf (moves : List Move) : Except Fault (List TraceStatement) :=
  p.statementsFrom 0 moves

end Program

end AbstractionRefinement
