import AbstractionRefinement.Analysis
import AbstractionRefinement.Fingerprint
import AbstractionRefinement.Product
import AbstractionRefinement.Program.Basic

/-!
# Explicit values

The abstract states, actions and precisions of the program analysis. A state is a location together
with the values of some variables; a variable without value may have any. The precision is the set
of variables whose values are tracked. An action is an edge that is taken.

What is known of the variables is a partial valuation, or that the state is unreachable
(`Knowledge.bottom`). More bindings mean fewer stores, so one piece of knowledge is below another if
it has all bindings of the other; the join keeps the bindings on which both agree. The order and the
join are those of sets of stores, as far as valuations can express them.

The description of a state lists the values in the order of the variables. An action has the number
of its edge and both of its ends, and its fingerprint is made of these three.

A precision is refined by adding variables and never loses one. That is also what "at least as fine"
means: tracking all the variables that the other tracks.
-/

namespace AbstractionRefinement

/-! ### Knowledge of values -/

/-- What is known about the variables. -/
inductive Knowledge where
  /-- No valuation is possible. -/
  | bottom
  /-- The variables bound have these values; the others may have any. -/
  | known (values : Valuation)
  deriving DecidableEq, Inhabited

namespace Knowledge

/-- The bytes that an entry takes in a list: a mark, and a map by its root, height and size. -/
def bytes : Nat := 32

/-- Nothing is known. -/
def top : Knowledge := .known .empty

/-- The value of a variable, if it is known. -/
def find? : Knowledge → VarId → Option Value
  | .bottom, _ => none
  | .known v, x => v.find? x

/-- Whether no valuation is possible. -/
def isBottom : Knowledge → Bool
  | .bottom => true
  | .known _ => false

/-- Whether the first knows everything that the second knows. -/
def leq : Knowledge → Knowledge → Bool
  | .bottom, _ => true
  | .known _, .bottom => false
  | .known v, .known w => v.isExtensionOf w

/-- What both know. -/
def join : Knowledge → Knowledge → Knowledge
  | .bottom, k | k, .bottom => k
  | .known v, .known w => .known (v.filter fun x a ↦ w.find? x = some a)

/-- The written form: the bindings between braces. -/
def text : Knowledge → String
  | .bottom => "bottom"
  | .known v => describeSet (v.toList.map fun b ↦ s!"{varName b.1}={b.2.text}")

end Knowledge

/-- The description of a variable. -/
def describeVar (x : VarId) : String := s!"VarId({x})"

instance : Described Value where
  describe
    | .int n => s!"Int({n.toInt})"
    | .bool b => s!"Bool({b})"

instance : Described Knowledge where
  describe
    | .bottom => "Bottom"
    | .known v =>
      let bindings := describeSet (v.toList.map fun b ↦ s!"{describeVar b.1}: {describe b.2}")
      s!"Val({bindings})"

/-! ### Locations and edges -/

/-- A control point that the analysis is at. -/
structure At where
  /-- The location. -/
  location : Location
  deriving DecidableEq, Inhabited

instance : Described At := ⟨fun s ↦ s!"LocState({describeLocation s.location})"⟩

/-- An edge that is taken. -/
structure Move where
  /-- The edge. -/
  edge : EdgeId
  /-- Where it begins. -/
  source : Location
  /-- Where it ends. -/
  target : Location
  deriving DecidableEq, Inhabited

instance : Described Move where
  describe m := describeRecord "CfaAction"
    [("edge", describeEdgeId m.edge), ("source", describeLocation m.source),
      ("target", describeLocation m.target)]

instance : ActionWords Move := ⟨fun m ↦ [m.edge.toUInt64, m.source.toUInt64, m.target.toUInt64]⟩

/-- The move along an edge. -/
def Edge.move (e : Edge) : Move := ⟨e.id, e.source, e.target⟩

/-! ### Tracked variables -/

/-- The variables whose values are tracked. -/
structure TrackedVars where
  /-- The variables. -/
  vars : IndexSet := .empty
  deriving DecidableEq, Inhabited

namespace TrackedVars

/-- Whether a variable is tracked. -/
def tracks (p : TrackedVars) (x : VarId) : Bool := x ∈ p.vars

/-- Track more variables. -/
def add (p : TrackedVars) (xs : IndexSet) : TrackedVars := ⟨p.vars.union xs⟩

end TrackedVars

instance : Precision TrackedVars where
  join p q := p.add q.vars
  refines p q := q.vars.isSubset p.vars

instance : Described TrackedVars where
  describe p := s!"ExplPrec({describeSet (p.vars.toList.map describeVar)})"

/-- A state of the program analysis. -/
abbrev ProgramState := PairState At Knowledge

/-- A precision of the program analysis: locations are always tracked. -/
abbrev ProgramPrecision := PairPrecision Unit TrackedVars

end AbstractionRefinement
