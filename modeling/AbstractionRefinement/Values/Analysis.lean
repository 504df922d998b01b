import AbstractionRefinement.Values.State

/-!
# The program analysis

The product of two analyses over the moves of a program. The first follows locations. The second
executes the statements of an edge on what is known of the variables: an assumption filters, and an
equality with one unknown side binds it; an assignment of an unknown value and an arbitrary
assignment forget the variable, unless its values are few enough to be told apart.

Tracked variables with few enough values are told apart from the beginning, by one initial state for
each combination of their values. The states are listed at once, so there has to be room for the
list; the bound on their number is compared with the sizes of the types, which are told in 64 bits
only, and does not by itself keep the list within what memory can hold.

Execution goes statement by statement on a list of valuations. An assumption drops a valuation on
which its condition is false. Where the condition forces the value of a tracked variable, the value
is entered if the type of the variable allows it, and the valuation is dropped if not. An arbitrary
assignment to a tracked variable with few values lists them all.

The order in which statements and valuations are gone through is fixed, and so is the order of the
successors; valuations that come out twice are kept twice, and it is for the exploration to merge or
cover them. States at one location may be merged by keeping the values they agree on, if this is
asked for.

Errors of type are not excluded beforehand. They come up when a condition or a right-hand side is
evaluated, and then the transfer fails with the text of the error (`orMismatch`).
-/

namespace AbstractionRefinement

/-- A type mismatch is a violation of the domain's contract. -/
def orMismatch {α : Type} : Except TypeMismatch α → Except Abort α
  | .ok a => .ok a
  | .error e => .error (.failure (.violation (.reported e.message)))

namespace Program

variable (p : Program)

/-! ### Locations -/

/-- The analysis that follows locations. -/
def locationAnalysis : Analysis At Move Unit where
  initial _ := .ok [⟨p.init⟩]
  successors s m _ := .ok (if m.source = s.location then [⟨m.target⟩] else [])
  leq s t := s = t
  isBottom _ := false

/-! ### Values -/

/-- The tracked variables whose values are few enough to be told apart, with their types. -/
def enumerableVars (maxEnum : Nat) : List VarId → Except Fault (List (VarId × VarType))
  | [] => .ok []
  | x :: rest => do
    let type ← p.varType x
    let others ← enumerableVars maxEnum rest
    return if type.size ≤ maxEnum then (x, type) :: others else others

/-- Every way to bind the variables to values of their types, the first variable varying slowest. -/
def bindAll (vars : List (VarId × VarType)) : List Valuation :=
  vars.foldl (fun vs xt ↦ vs.flatMap fun v ↦ xt.2.values.map fun a ↦ v.insert xt.1 a) [.empty]

/-- How many ways there are to bind the variables to values of their types. -/
def combinations (vars : List (VarId × VarType)) : Nat := vars.foldl (fun n xt ↦ n * xt.2.count) 1

/-- The same number, as far as the sizes of the types can be told. -/
def estimate (vars : List (VarId × VarType)) : Nat := vars.foldl (fun n xt ↦ n * xt.2.size) 1

/-- The initial knowledge: one state for each combination of values, if at most `maxEnum` of them
are estimated, and one that knows nothing otherwise. No type of a built program is empty, so the
list of all states is the longest one that is made, and the only one that has to be checked. -/
def initialKnowledge (maxEnum : Nat) (prec : TrackedVars) : Except Fault (List Knowledge) := do
  let vars ← p.enumerableVars maxEnum prec.vars.toList
  if vars.isEmpty || maxEnum < estimate vars then return [.top]
  Memory.reserve Knowledge.bytes (combinations vars)
  return (bindAll vars).map .known

/-- An assumption on one valuation. -/
def assumeOn (prec : TrackedVars) (condition : Expr) (v : Valuation) :
    Except Abort (List Valuation) := do
  match ← orMismatch (condition.eval v) with
  | some value =>
    let holds ← orMismatch value.asBool
    return if holds then [v] else []
  | none =>
    match condition.forcedBinding v with
    | none => return [v]
    | some (x, value) =>
      if !prec.tracks x then return [v]
      let type ← orFault (p.varType x)
      return if type.contains value then [v.insert x value] else []

/-- An assignment on one valuation. -/
def assignOn (prec : TrackedVars) (x : VarId) (e : Expr) (v : Valuation) :
    Except Abort (List Valuation) := do
  if !prec.tracks x then return [v]
  match ← orMismatch (e.eval v) with
  | some value => return [v.insert x value]
  | none => return [v.erase x]

/-- An arbitrary assignment on one valuation. -/
def havocOn (maxEnum : Nat) (prec : TrackedVars) (x : VarId) (v : Valuation) :
    Except Abort (List Valuation) := do
  if !prec.tracks x then return [v.erase x]
  let type ← orFault (p.varType x)
  return if type.size ≤ maxEnum then type.values.map fun a ↦ v.insert x a else [v.erase x]

/-- A statement on one valuation. -/
def executeOn (maxEnum : Nat) (prec : TrackedVars) : Statement → Valuation →
    Except Abort (List Valuation)
  | .assume condition => p.assumeOn prec condition
  | .assign x e => assignOn prec x e
  | .havoc x => p.havocOn maxEnum prec x

/-- A statement on each of several valuations. -/
def executeOnEach (maxEnum : Nat) (prec : TrackedVars) (s : Statement) (vs : List Valuation) :
    Except Abort (List Valuation) :=
  vs.flatMapM (p.executeOn maxEnum prec s)

/-- Statements in order on several valuations. -/
def executeAll (maxEnum : Nat) (prec : TrackedVars) (vs : List Valuation) :
    List Statement → Except Abort (List Valuation)
  | [] => .ok vs
  | s :: rest => do
    let vs ← p.executeOnEach maxEnum prec s vs
    executeAll maxEnum prec vs rest

/-- The analysis of values. -/
def valueAnalysis (maxEnum : Nat) : Analysis Knowledge Move TrackedVars where
  initial prec := orFault (p.initialKnowledge maxEnum prec)
  successors k m prec := do
    match k with
    | .bottom => return []
    | .known v =>
      let edge ← orFault (p.edge m.edge)
      let vs ← p.executeAll maxEnum prec [v] edge.body
      return vs.map .known
  leq := Knowledge.leq
  isBottom := Knowledge.isBottom

/-! ### Both -/

/-- The analysis of locations and values. -/
def analysis (maxEnum : Nat) : Analysis ProgramState Move ProgramPrecision :=
  p.locationAnalysis.product (p.valueAnalysis maxEnum)

/-- The moves along the edges that leave a location. -/
def enabledMoves (s : ProgramState) : Except Fault (List Move) := do
  let edges ← p.outgoing s.first.location
  return edges.map Edge.move

/-- Join two states at one location. -/
def mergeStates (s t : ProgramState) : Option ProgramState :=
  if s.first = t.first then some ⟨s.first, s.second.join t.second⟩ else none

/-- The model of a program: targets are the states at the error location, and states are
partitioned by location. -/
def model (maxEnum : Nat) (merge : Bool) : Model ProgramState Move ProgramPrecision where
  toAnalysis := p.analysis maxEnum
  enabled := p.enabledMoves
  isTarget s := s.first.location = p.error
  merge s t := if merge then mergeStates s t else none
  key s := s.first.location

end Program

end AbstractionRefinement
