import AbstractionRefinement.Duration
import AbstractionRefinement.Fingerprint
import AbstractionRefinement.Frontier

/-!
# Why a run ends early

Two kinds of trouble are kept apart. A `Fault` is a reference to something that is not there: a node
that is not in the graph, a variable that was never declared, an instant that no clock can tell, a
list that no memory can hold. It is a mistake of the caller and ends everything at once. A `Failure`
is an answer of an analysis that could not go on: a broken contract, a solver that gave up, a
refinement without progress, an exhausted budget. `Abort` is either.

Every cause is a constructor; the wording is in one `message` function per type.

A list whose length is known before it is made is given its room at once (`Memory.reserve`), and a
length that cannot be told in bytes is a fault. Apart from that, memory is taken to suffice: a list
that grows entry by entry is never refused.
-/

namespace AbstractionRefinement

/-! ### Faults -/

/-- A reference to something that is not there. -/
inductive Fault where
  /-- The node was never created, or has been pruned. -/
  | missingNode (id : NodeId)
  /-- A node was asked to cover itself. -/
  | selfCover
  /-- The number of states of a trace is not the number of its actions plus one. -/
  | unevenTrace
  /-- An undeclared variable, an unknown edge or location, or a position past the end. -/
  | outOfRange
  /-- A time limit that would run out later than any clock can tell. -/
  | beyondClock
  /-- A list that would be longer than any memory can hold. -/
  | beyondMemory
  deriving DecidableEq, Inhabited

/-- The wording of a fault; a position, an instant or a length out of range has none. -/
def Fault.message? : Fault → Option String
  | .missingNode id => some s!"node {nodeName id} is not in the graph"
  | .selfCover => some "a node cannot cover itself"
  | .unevenTrace => some "a trace has one more state than actions"
  | .outOfRange | .beyondClock | .beyondMemory => none

namespace Memory

/-- The bytes that one list may take: as many as a signed number of 64 bits can tell. -/
def maxBytes : Nat := 9223372036854775807

/-- Make room for a list of so many entries, each of so many bytes. -/
def reserve (bytes entries : Nat) : Except Fault Unit :=
  if bytes * entries ≤ maxBytes then .ok () else .error .beyondMemory

end Memory

/-! ### Failures -/

/-- A budget that ran out before a verdict was reached. -/
inductive Exhaustion where
  /-- As many nodes are live as are allowed. -/
  | nodes (limit : Nat)
  /-- The time granted, in seconds, has passed. -/
  | time (seconds : Nat)
  /-- More memory is in use than allowed, both in megabytes. -/
  | memory (limit used : Nat)
  /-- As many iterations have run as are allowed. -/
  | iterations (limit : Nat)
  deriving DecidableEq, Inhabited

/-- The wording of an exhausted budget. -/
def Exhaustion.message : Exhaustion → String
  | .nodes limit => s!"node limit of {limit} reached"
  | .time seconds => s!"time limit of {seconds}s reached"
  | .memory limit used => s!"memory limit of {limit} MB reached ({used} MB in use)"
  | .iterations limit => s!"iteration limit of {limit} reached"

/-- How a domain, or a caller of the engine, broke its contract. -/
inductive Violation where
  /-- The order does not hold between a state and itself. -/
  | notReflexive (state : String)
  /-- A merged state is not above both of its operands. -/
  | notUpperBound (left right : String)
  /-- Refinement was asked for although no counterexample exists. -/
  | noCounterexample
  /-- A refined precision is not at least as fine as the one before. -/
  | notFiner (refined current : String)
  /-- A violation that the domain words itself. -/
  | reported (text : String)
  deriving DecidableEq, Inhabited

/-- The wording of a violated contract. -/
def Violation.message : Violation → String
  | .notReflexive state => s!"partial order is not reflexive on {state}"
  | .notUpperBound left right => s!"merge of {left} and {right} is not an upper bound"
  | .noCounterexample => "refinement requested for a graph without counterexamples"
  | .notFiner refined current => s!"refined precision {refined} is not finer than {current}"
  | .reported text => text

/-- Why an analysis could not go on. -/
inductive Failure where
  /-- A contract was broken. -/
  | violation (cause : Violation)
  /-- The procedure that decides traces or successors gave up. -/
  | solver (text : String)
  /-- That procedure took too long. -/
  | timeout (after : Duration)
  /-- A counterexample was refuted again without changing the precision. -/
  | divergence (trace : Fingerprint)
  /-- A budget ran out. -/
  | exhausted (reason : Exhaustion)
  deriving DecidableEq, Inhabited

/-- The wording of a failure. -/
def Failure.message : Failure → String
  | .violation cause => s!"domain contract violated: {cause.message}"
  | .solver text => s!"solver error: {text}"
  | .timeout after => s!"solver timed out after {after.text}"
  | .divergence trace =>
    s!"refinement diverged: counterexample {trace.text} was refuted again " ++
      "without changing the precision"
  | .exhausted reason => s!"resource budget exhausted: {reason.message}"

/-- Why a computation stopped without a value. -/
inductive Abort where
  /-- The analysis could not go on. -/
  | failure (cause : Failure)
  /-- Something referred to is not there. -/
  | fault (cause : Fault)
  deriving DecidableEq, Inhabited

/-- A fault ends a computation that may also fail otherwise. -/
@[inline] def orFault {α : Type} : Except Fault α → Except Abort α
  | .ok a => .ok a
  | .error f => .error (.fault f)

/-- An answer that must exist; its absence is a fault. -/
@[inline] def required {α : Type} (f : Fault) : Option α → Except Fault α
  | some a => .ok a
  | none => .error f

end AbstractionRefinement
