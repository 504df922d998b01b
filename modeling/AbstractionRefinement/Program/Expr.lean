import AbstractionRefinement.IndexMap
import AbstractionRefinement.IndexSet

/-!
# Expressions

Expressions over integer and boolean variables, evaluated under partial valuations. An unbound
variable is unknown, and so is every expression whose value depends on it; a conjunction with a
false operand and a disjunction with a true one do not depend on the other operand. Integers are
64-bit words and wrap. Operands of the wrong type are an error, found as soon as the operands that
the operator looks at are known.

An answer of the evaluation is therefore one of three things: a value, the news that the value is
not known, or an error of type. All operands are evaluated, from left to right, and the first error
is the one that is seen. It is seen even where the value does not depend on the operand in question:
a conjunction whose first operand is false still evaluates the second.

`Expr.forcedBinding` reads more out of an equation than its truth. If one side is a variable without
a value and the other side has one, the equation can hold only if the variable has that value. The
left side is looked at first, and no other form of condition forces anything.

In the text of an expression every operation with two operands is set in brackets, and variables
appear by their numbers.
-/

namespace AbstractionRefinement

/-! ### Values -/

/-- The position of a variable in the list of declarations. -/
abbrev VarId := Nat

/-- The written form of a variable. -/
def varName (x : VarId) : String := "v" ++ toString x

/-- The two types of values. -/
inductive Kind where
  /-- Integers. -/
  | int
  /-- Booleans. -/
  | bool
  deriving DecidableEq, Inhabited

/-- The name of a type. -/
def Kind.name : Kind → String
  | .int => "Int"
  | .bool => "Bool"

/-- A value of a variable or an expression. -/
inductive Value where
  /-- A 64-bit integer. -/
  | int (n : Int64)
  /-- A truth value. -/
  | bool (b : Bool)
  deriving DecidableEq, Inhabited

/-- An operand of one type where another was expected. -/
structure TypeMismatch where
  /-- The type that was expected. -/
  expected : Kind
  /-- The type that was found. -/
  actual : Kind
  deriving DecidableEq, Inhabited

/-- The wording of a type mismatch. -/
def TypeMismatch.message (e : TypeMismatch) : String :=
  s!"type mismatch: expected {e.expected.name}, got {e.actual.name}"

namespace Value

/-- The bytes that an entry takes in a list: a mark and a word. -/
def bytes : Nat := 16

/-- The type of a value. -/
def kind : Value → Kind
  | .int _ => .int
  | .bool _ => .bool

/-- The integer that a value is. -/
def asInt : Value → Except TypeMismatch Int64
  | .int n => .ok n
  | v => .error ⟨.int, v.kind⟩

/-- The truth value that a value is. -/
def asBool : Value → Except TypeMismatch Bool
  | .bool b => .ok b
  | v => .error ⟨.bool, v.kind⟩

/-- The written form of a value. -/
def text : Value → String
  | .int n => toString n.toInt
  | .bool b => if b then "true" else "false"

end Value

/-- Values of some variables; the others are unknown. -/
abbrev Valuation := IndexMap Value

/-! ### Syntax -/

/-- Operators from integers to integers. -/
inductive ArithOp where
  /-- Sum. -/
  | add
  /-- Difference. -/
  | sub
  /-- Product. -/
  | mul
  deriving DecidableEq, Inhabited

/-- Operators that compare integers. -/
inductive CompareOp where
  /-- Less than. -/
  | lt
  /-- At most. -/
  | le
  deriving DecidableEq, Inhabited

/-- Integer and boolean expressions. -/
inductive Expr where
  /-- A constant. -/
  | const (value : Value)
  /-- A variable. -/
  | var (x : VarId)
  /-- An arithmetic operation. -/
  | arith (op : ArithOp) (a b : Expr)
  /-- A comparison of integers. -/
  | compare (op : CompareOp) (a b : Expr)
  /-- Equality of two values of one type. -/
  | equal (a b : Expr)
  /-- Difference of two values of one type. -/
  | differ (a b : Expr)
  /-- Negation. -/
  | neg (a : Expr)
  /-- Conjunction. -/
  | conj (a b : Expr)
  /-- Disjunction. -/
  | disj (a b : Expr)
  deriving DecidableEq, Inhabited

/-- The result of an arithmetic operation, which wraps. -/
def ArithOp.apply : ArithOp → Int64 → Int64 → Int64
  | .add, m, n => m + n
  | .sub, m, n => m - n
  | .mul, m, n => m * n

/-- The result of a comparison. -/
def CompareOp.apply : CompareOp → Int64 → Int64 → Bool
  | .lt, m, n => m < n
  | .le, m, n => m ≤ n

/-- The sign of an arithmetic operation. -/
def ArithOp.sign : ArithOp → String
  | .add => "+"
  | .sub => "-"
  | .mul => "*"

/-- The sign of a comparison. -/
def CompareOp.sign : CompareOp → String
  | .lt => "<"
  | .le => "<="

namespace Expr

/-- The written form of an expression, every binary operation in parentheses. -/
def text : Expr → String
  | const value => value.text
  | var x => varName x
  | arith op a b => s!"({a.text} {op.sign} {b.text})"
  | compare op a b => s!"({a.text} {op.sign} {b.text})"
  | equal a b => s!"({a.text} == {b.text})"
  | differ a b => s!"({a.text} != {b.text})"
  | neg a => s!"!{a.text}"
  | conj a b => s!"({a.text} && {b.text})"
  | disj a b => s!"({a.text} || {b.text})"

/-- The variables of an expression. -/
def vars : Expr → IndexSet
  | const _ => .empty
  | var x => .ofList [x]
  | neg a => a.vars
  | arith _ a b | compare _ a b | equal a b | differ a b | conj a b | disj a b =>
    a.vars.union b.vars

/-! ### Evaluation -/

/-- Apply an operation if both operands are known. -/
def onBoth (f : Value → Value → Except TypeMismatch Value) :
    Option Value → Option Value → Except TypeMismatch (Option Value)
  | some x, some y => do return some (← f x y)
  | _, _ => .ok none

/-- An arithmetic operation on values. -/
def arithValues (op : ArithOp) (x y : Value) : Except TypeMismatch Value := do
  let m ← x.asInt
  let n ← y.asInt
  return .int (op.apply m n)

/-- A comparison of values. -/
def compareValues (op : CompareOp) (x y : Value) : Except TypeMismatch Value := do
  let m ← x.asInt
  let n ← y.asInt
  return .bool (op.apply m n)

/-- Whether two values of one type are equal. -/
def equalValues (x y : Value) : Except TypeMismatch Bool :=
  if x.kind = y.kind then .ok (x = y) else .error ⟨x.kind, y.kind⟩

/-- The truth value of an operand, if it is known. -/
def truthOf : Option Value → Except TypeMismatch (Option Bool)
  | some x => do return some (← x.asBool)
  | none => .ok none

/-- Conjunction of operands that may be unknown. -/
def conjTruth : Option Bool → Option Bool → Option Bool
  | some false, _ | _, some false => some false
  | some true, some true => some true
  | _, _ => none

/-- Disjunction of operands that may be unknown. -/
def disjTruth : Option Bool → Option Bool → Option Bool
  | some true, _ | _, some true => some true
  | some false, some false => some false
  | _, _ => none

/-- The value of an expression, `none` if it depends on an unknown variable. -/
def eval (v : Valuation) : Expr → Except TypeMismatch (Option Value)
  | const value => .ok (some value)
  | var x => .ok (v.find? x)
  | arith op a b => do
    let x ← a.eval v
    let y ← b.eval v
    onBoth (arithValues op) x y
  | compare op a b => do
    let x ← a.eval v
    let y ← b.eval v
    onBoth (compareValues op) x y
  | equal a b => do
    let x ← a.eval v
    let y ← b.eval v
    onBoth (fun x y ↦ do return .bool (← equalValues x y)) x y
  | differ a b => do
    let x ← a.eval v
    let y ← b.eval v
    onBoth (fun x y ↦ do return .bool (!(← equalValues x y))) x y
  | neg a => do
    let x ← truthOf (← a.eval v)
    return x.map fun t ↦ .bool (!t)
  | conj a b => do
    let x ← truthOf (← a.eval v)
    let y ← truthOf (← b.eval v)
    return (conjTruth x y).map .bool
  | disj a b => do
    let x ← truthOf (← a.eval v)
    let y ← truthOf (← b.eval v)
    return (disjTruth x y).map .bool

/-- The binding that `x = other` forces if `x` is an unknown variable and `other` is known. -/
def bindingOf (v : Valuation) (x other : Expr) : Option (VarId × Value) :=
  match x with
  | var y =>
    if v.contains y then none
    else match other.eval v with
      | .ok (some value) => some (y, value)
      | _ => none
  | _ => none

/-- The binding that an equality forces if one side is an unknown variable and the other is known;
the left side is looked at first. -/
def forcedBinding (v : Valuation) : Expr → Option (VarId × Value)
  | equal a b => (bindingOf v a b).or (bindingOf v b a)
  | _ => none

end Expr

end AbstractionRefinement
