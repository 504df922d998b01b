import AbstractionRefinement.Described
import AbstractionRefinement.Failure
import AbstractionRefinement.Program.Expr

/-!
# Programs

A program is a control-flow graph: locations joined by edges, each edge with statements that are
executed in order. Variables are declared with a type that bounds the values of an arbitrary
assignment (`havoc`) and of a variable that was never assigned; other assignments are not bounded by
it. One location is initial, one is the error location.

A `Draft` is what has been declared so far; `Draft.build` checks that everything it refers to is
declared, and gives the program.

Everything is referred to by its number: a variable, a location and an edge are positions in the
lists of the program. Names are kept for messages. A lookup out of range is a fault, and after
`Draft.build` none that starts from the program itself can fail.

The checks of `Draft.build` come in a fixed order, and the first that fails is reported. An initial
location and an error location have to be given, and to exist. Then come the variables one after the
other, of which none may have the name of an earlier one or an empty range; then the edges one after
the other, with both of their ends and all variables of their statements. Whether the operands of an
expression are of the right type is not among the checks: it is found when the expression is
evaluated.

The number of values of a type is kept in two ways. `VarType.count` is the number itself, and
`VarType.size` is what a word of 64 bits can tell of it, which is one less for the type of all
integers.
-/

namespace AbstractionRefinement

/-! ### Types of variables -/

/-- The type of a variable. -/
inductive VarType where
  /-- The integers from `lo` to `hi`. -/
  | int (lo hi : Int64)
  /-- The truth values. -/
  | bool
  deriving DecidableEq, Inhabited

namespace VarType

/-- The number of values. -/
def count : VarType → Nat
  | .int lo hi => (hi.toInt - lo.toInt + 1).toNat
  | .bool => 2

/-- The number of values, as far as it can be told in 64 bits. -/
def size (t : VarType) : Nat := min t.count (UInt64.size - 1)

/-- The value at a position, in ascending order. -/
def valueAt : VarType → Nat → Value
  | .int lo _, i => .int (Int64.ofInt (lo.toInt + i))
  | .bool, i => .bool (i != 0)

/-- The first values, in ascending order; false comes before true. -/
def firstValues (t : VarType) (limit : Nat) : List Value :=
  (List.range (min limit t.count)).map t.valueAt

/-- All values, in ascending order; false comes before true. -/
def values (t : VarType) : List Value := t.firstValues t.count

/-- Whether a value is of the type. -/
def contains : VarType → Value → Bool
  | .int lo hi, .int n => lo ≤ n && n ≤ hi
  | .bool, .bool _ => true
  | _, _ => false

end VarType

/-- A declared variable. -/
structure VarDecl where
  /-- Its name. -/
  name : String
  /-- Its type. -/
  type : VarType
  deriving DecidableEq, Inhabited

/-! ### Statements and edges -/

/-- A statement. -/
inductive Statement where
  /-- Blocks unless the condition holds. -/
  | assume (condition : Expr)
  /-- Stores the value of an expression. -/
  | assign (x : VarId) (value : Expr)
  /-- Stores an arbitrary value of the variable's type. -/
  | havoc (x : VarId)
  deriving DecidableEq, Inhabited

namespace Statement

/-- The variables read. -/
def reads : Statement → IndexSet
  | .assume e | .assign _ e => e.vars
  | .havoc _ => .empty

/-- The variable written. -/
def writes : Statement → Option VarId
  | .assign x _ | .havoc x => some x
  | .assume _ => none

/-- The written form of a statement. -/
def text : Statement → String
  | .assume e => s!"assume {e.text}"
  | .assign x e => s!"{varName x} := {e.text}"
  | .havoc x => s!"havoc {varName x}"

end Statement

/-- The position of a location in the list of locations. -/
abbrev Location := Nat

/-- The position of an edge in the list of edges. -/
abbrev EdgeId := Nat

/-- An edge between two locations. -/
structure Edge where
  /-- Its position among the edges. -/
  id : EdgeId
  /-- Where it begins. -/
  source : Location
  /-- Where it ends. -/
  target : Location
  /-- What is executed along it, in order. -/
  body : List Statement
  deriving DecidableEq, Inhabited

/-! ### Programs -/

/-- A control-flow graph with an initial and an error location. -/
structure Program where
  /-- The variables. -/
  vars : List VarDecl
  /-- The names of the locations. -/
  locations : List String
  /-- The edges. -/
  edges : List Edge
  /-- The initial location. -/
  init : Location
  /-- The error location. -/
  error : Location
  deriving DecidableEq, Inhabited

namespace Program

/-- The type of a variable, which must be declared. -/
def varType (p : Program) (x : VarId) : Except Fault VarType :=
  required .outOfRange ((p.vars[x]?).map VarDecl.type)

/-- The edge at a position, which must be there. -/
def edge (p : Program) (e : EdgeId) : Except Fault Edge := required .outOfRange p.edges[e]?

/-- The edges that leave a location, in the order of declaration. -/
def outgoing (p : Program) (l : Location) : Except Fault (List Edge) :=
  if l < p.locations.length then .ok (p.edges.filter (·.source = l)) else .error .outOfRange

/-- The first variable with a name. -/
def findVar? (p : Program) (name : String) : Option VarId := p.vars.findIdx? (·.name = name)

/-- The first location with a name. -/
def findLocation? (p : Program) (name : String) : Option Location :=
  p.locations.findIdx? (· = name)

end Program

/-! ### Drafts -/

/-- An edge before its position is known. -/
structure EdgeDraft where
  /-- Where it begins. -/
  source : Location
  /-- Where it ends. -/
  target : Location
  /-- What is executed along it, in order. -/
  body : List Statement
  deriving DecidableEq, Inhabited

/-- A program that has not been checked. -/
structure Draft where
  /-- The variables. -/
  vars : List VarDecl := []
  /-- The names of the locations. -/
  locations : List String := []
  /-- The edges. -/
  edges : List EdgeDraft := []
  /-- The initial location, if one was set. -/
  init : Option Location := none
  /-- The error location, if one was set. -/
  error : Option Location := none
  deriving DecidableEq, Inhabited

/-- Why a draft is no program. -/
inductive ModelError where
  /-- No initial location was set. -/
  | noInitial
  /-- No error location was set. -/
  | noError
  /-- A location was never declared. -/
  | unknownLocation (l : Location)
  /-- An edge uses a variable that was never declared. -/
  | unknownVariable (edge : EdgeId) (x : VarId)
  /-- Two variables have the same name. -/
  | duplicateVariable (name : String)
  /-- An integer type without values. -/
  | emptyRange (name : String) (lo hi : Int64)
  deriving DecidableEq, Inhabited

/-- The description of a location. -/
def describeLocation (l : Location) : String := s!"Loc({l})"

/-- The description of an edge's position. -/
def describeEdgeId (e : EdgeId) : String := s!"EdgeId({e})"

/-- The wording of a model error. -/
def ModelError.message : ModelError → String
  | .noInitial => "no initial location set"
  | .noError => "no error location set"
  | .unknownLocation l => s!"unknown location {describeLocation l}"
  | .unknownVariable e x => s!"edge {describeEdgeId e} uses undeclared variable {varName x}"
  | .duplicateVariable name => s!"variable '{name}' declared twice"
  | .emptyRange name lo hi => s!"variable '{name}' has an empty range {lo.toInt}..={hi.toInt}"

namespace Draft

/-- Check that a location is declared. -/
def checkLocation (d : Draft) (l : Location) : Except ModelError Unit :=
  if l < d.locations.length then .ok () else .error (.unknownLocation l)

/-- Check the variables in turn: no name is used before, no integer type is empty. -/
def checkVars (earlier : List VarDecl) : List VarDecl → Except ModelError Unit
  | [] => .ok ()
  | v :: rest =>
    if earlier.any (·.name = v.name) then .error (.duplicateVariable v.name)
    else match v.type with
      | .int lo hi =>
        if hi < lo then .error (.emptyRange v.name lo hi) else checkVars (earlier ++ [v]) rest
      | .bool => checkVars (earlier ++ [v]) rest

/-- The first undeclared variable of a statement: those read in ascending order, then the one
written. -/
def undeclared? (d : Draft) (s : Statement) : Option VarId :=
  (s.reads.toList ++ s.writes.toList).find? fun x ↦ d.vars.length ≤ x

/-- Check that an edge refers to declared locations and variables only. -/
def checkEdge (d : Draft) (e : Edge) : Except ModelError Unit := do
  d.checkLocation e.source
  d.checkLocation e.target
  match e.body.findSome? d.undeclared? with
  | some x => throw (.unknownVariable e.id x)
  | none => return ()

/-- Give edges their positions, from the given one on. -/
def numberEdges : EdgeId → List EdgeDraft → List Edge
  | _, [] => []
  | i, e :: rest => ⟨i, e.source, e.target, e.body⟩ :: numberEdges (i + 1) rest

/-- The program, if everything that the draft refers to is declared. -/
def build (d : Draft) : Except ModelError Program := do
  let some init := d.init | throw .noInitial
  let some error := d.error | throw .noError
  d.checkLocation init
  d.checkLocation error
  checkVars [] d.vars
  let edges := numberEdges 0 d.edges
  edges.forM d.checkEdge
  return { vars := d.vars, locations := d.locations, edges, init, error }

end Draft

end AbstractionRefinement
