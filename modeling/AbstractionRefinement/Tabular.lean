import AbstractionRefinement.Loop

/-!
# Domains given by tables

A domain whose states, transfer relation, order and merges are listed one by one, and whose
precision is a level. Nothing is closed or completed: the order holds where it is listed, so tables
can also describe domains that break their contract.

Actions are labels. A label is a type of its own and not a text, because how an action enters a
fingerprint belongs to the kind of action: a label contributes one word for each code point of its
name, which says nothing about how texts are hashed elsewhere.

Each rule says for which levels it applies, and the first that applies decides; without one there
are no states. A rule may answer with a failure instead of states, so every way in which a domain
can let the engine down can be brought about. States have a name, a key, and marks that say whether
they are targets, whether they are bottom and whether they are below themselves; what they are is
not interpreted.

Refutations are given by rules as well. A trace is feasible unless a rule speaks of it, by an action
that occurs in it or by its length. The rule says where the graph is to be cut and by how much the
level is raised, which may be by nothing or by less than nothing; it may also let the examination or
the refinement fail.
-/

namespace AbstractionRefinement

/-! ### Labels -/

/-- An action that is only a name. -/
structure Label where
  /-- The name. -/
  name : String
  deriving DecidableEq, Inhabited

/-- A label is described by its name. -/
instance : Described Label := ⟨Label.name⟩

/-- A label enters by the code points of its name, closed by a word that is no code point. -/
instance : ActionWords Label :=
  ⟨fun a ↦ a.name.toList.map (fun c ↦ c.toNat.toUInt64) ++ [0xFFFFFFFF]⟩

/-! ### States and levels -/

/-- A state of a table. -/
structure TableState where
  /-- Its position in the table. -/
  index : Nat
  /-- Its name. -/
  name : String
  /-- Its key. -/
  key : Nat := 0
  /-- Whether it violates the property. -/
  target : Bool := false
  /-- Whether it stands for nothing. -/
  bottom : Bool := false
  /-- Whether it is below itself without being listed. -/
  reflexive : Bool := true
  deriving DecidableEq, Inhabited

instance : Described TableState := ⟨TableState.name⟩

/-- The precision of a table: a number, larger is finer. -/
structure Level where
  /-- The number. -/
  value : Nat := 0
  deriving DecidableEq, Inhabited

instance : Precision Level where
  join p q := ⟨max p.value q.value⟩
  refines p q := q.value ≤ p.value

instance : Described Level := ⟨fun p ↦ s!"Level({p.value})"⟩

/-! ### Tables -/

/-- What a rule answers on levels from `min` to `max`. -/
structure LevelRule where
  /-- The lowest level. -/
  min : Nat := 0
  /-- The highest level, if there is one. -/
  max : Option Nat := none
  /-- The failure to answer with. -/
  failure : Option Failure := none
  /-- The positions of the states to answer with, if there is no failure. -/
  states : List Nat := []
  deriving DecidableEq, Inhabited

/-- Whether a rule speaks of a level. -/
def LevelRule.applies (r : LevelRule) (level : Level) : Bool :=
  r.min ≤ level.value && r.max.all (level.value ≤ ·)

/-- A rule for the successors of a state along an action. -/
structure StepRule extends LevelRule where
  /-- The position of the state. -/
  source : Nat
  /-- The action. -/
  action : Label
  deriving DecidableEq, Inhabited

/-- A domain given by tables. -/
structure Table where
  /-- The states. -/
  states : List TableState
  /-- Rules for the initial states; the first that applies decides. -/
  init : List LevelRule := []
  /-- Rules for successors; the first of its state and action that applies decides. -/
  steps : List StepRule := []
  /-- The order, by positions. -/
  order : List (Nat × Nat) := []
  /-- Two states and the one that replaces both; the first that fits decides. -/
  merges : List (Nat × Nat × Nat) := []
  deriving DecidableEq, Inhabited

namespace Table

variable (t : Table)

/-- What a decisive rule answers; without one, no states. Its positions must be in the table. -/
def answer (r : Option LevelRule) : Except Abort (List TableState) :=
  match r with
  | none => .ok []
  | some r =>
    match r.failure with
    | some cause => .error (.failure cause)
    | none => orFault (r.states.mapM fun i ↦ required .outOfRange t.states[i]?)

/-- The analysis of a table. -/
def analysis : Analysis TableState Label Level where
  initial level := t.answer (t.init.find? (·.applies level))
  successors s action level :=
    t.answer <| (t.steps.find? fun r ↦
      r.source = s.index && r.action = action && r.applies level).map StepRule.toLevelRule
  leq a b := (a.index, b.index) ∈ t.order || (a.index = b.index && a.reflexive)
  isBottom s := s.bottom

/-- The actions of the rules of a state, each once, in the order of first appearance. -/
def enabledActions (s : TableState) : List Label :=
  let actions := (t.steps.filter (·.source = s.index)).map StepRule.action
  actions.foldl (fun seen a ↦ if a ∈ seen then seen else seen ++ [a]) []

/-- The state that replaces two others. -/
def mergeStates (a b : TableState) : Option TableState :=
  (t.merges.find? fun m ↦ m.1 = a.index && m.2.1 = b.index).bind fun m ↦ t.states[m.2.2]?

/-- The model of a table; states have their keys, or all the same one. -/
def model (keyed : Bool) : Model TableState Label Level where
  toAnalysis := t.analysis
  enabled s := .ok (t.enabledActions s)
  isTarget s := s.target
  merge := t.mergeStates
  key s := if keyed then s.key else 0

end Table

/-! ### Rules about traces -/

/-- A rule that decides traces. -/
structure TraceRule where
  /-- An action that must occur. -/
  action : Option Label := none
  /-- The least number of actions. -/
  minLength : Nat := 0
  /-- The largest number of actions, if there is one. -/
  maxLength : Option Nat := none
  /-- The failure of the examination. -/
  failure : Option Failure := none
  /-- Where the trace is cut, if this is said. -/
  cut : Option Nat := none
  /-- By how much the level is raised. -/
  delta : Int := 1
  /-- The failure of the refinement. -/
  refineFailure : Option Failure := none
  deriving DecidableEq, Inhabited

/-- A rule that refuted a trace, and where the trace is cut. -/
structure RuleRefutation where
  /-- The rule. -/
  rule : TraceRule
  /-- The position of the cut. -/
  cut : Nat
  deriving DecidableEq, Inhabited

namespace TraceRule

/-- Whether a rule speaks of a trace with these actions. -/
def applies (r : TraceRule) (actions : List Label) : Bool :=
  r.action.all (· ∈ actions) && r.minLength ≤ actions.length &&
    r.maxLength.all (actions.length ≤ ·)

/-- Where a trace is cut: where the rule says, else behind the first occurrence of its action. -/
def cutOf (r : TraceRule) (actions : List Label) : Nat :=
  match r.cut, r.action with
  | some i, _ => i
  | none, some a => actions.idxOf a + 1
  | none, none => 0

/-- Raise a level, not below zero. -/
def raise (r : TraceRule) (level : Level) : Except Abort Level :=
  match r.refineFailure with
  | some cause => .error (.failure cause)
  | none => .ok ⟨(level.value + r.delta).toNat⟩

/-- Decide a trace by the first rule that speaks of it; without one it is feasible, and the witness
is its number of actions. -/
def decideTrace (rules : List TraceRule) (actions : List Label) :
    Except Abort (Feasibility Nat RuleRefutation) :=
  match rules.find? (·.applies actions) with
  | none => .ok (.feasible actions.length)
  | some r =>
    match r.failure with
    | some cause => .error (.failure cause)
    | none => .ok (.infeasible ⟨r, r.cutOf actions⟩)

/-- The refuter given by rules. -/
def refuter (rules : List TraceRule) : Refuter TableState Label Level Nat RuleRefutation where
  check t := decideTrace rules t.actions
  cutIndex := RuleRefutation.cut
  refine level _ refutation := refutation.rule.raise level
  fingerprint := .ofActions

end TraceRule

end AbstractionRefinement
