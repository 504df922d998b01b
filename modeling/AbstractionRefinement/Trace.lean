import AbstractionRefinement.Failure

/-!
# Traces

A trace alternates states and actions and begins and ends with a state. It is a first state followed
by steps, each an action and the state it leads to; so there is always one more state than actions.

A trace that is made from a list of states and a list of actions (`Trace.ofLists`) is refused unless
there is one more state than actions. Nothing else is checked: whether the states follow each other
is for an analysis to say.

The positions of states are counted from zero, and the action at a position leads from the state
there to the next. Looking up a position beyond the end is a fault.

A path through a graph is a trace of visits, each a node and its state; forgetting the nodes gives
the trace that a refuter is shown. The fingerprint of a trace is that of its actions, so two traces
that visit different states along the same actions have the same one.
-/

namespace AbstractionRefinement

/-- States and actions in turn: a first state, then steps. -/
structure Trace (S A : Type) where
  /-- The state in which the trace begins. -/
  start : S
  /-- Each action with the state behind it. -/
  steps : List (A × S)
  deriving DecidableEq

namespace Trace

variable {S T A : Type}

/-- The states, one more than there are actions. -/
def states (t : Trace S A) : List S := t.start :: t.steps.map Prod.snd

/-- The actions. -/
def actions (t : Trace S A) : List A := t.steps.map Prod.fst

/-- The number of actions. -/
def length (t : Trace S A) : Nat := t.steps.length

/-- Whether the trace is a single state. -/
def isEmpty (t : Trace S A) : Bool := t.steps.isEmpty

/-- The state in which the trace ends. -/
def last (t : Trace S A) : S := (t.steps.getLast?.map Prod.snd).getD t.start

@[simp] theorem length_states (t : Trace S A) : t.states.length = t.length + 1 := by
  simp [states, length]

@[simp] theorem length_actions (t : Trace S A) : t.actions.length = t.length := by
  simp [actions, length]

/-- The state at position `i`. -/
def stateAt (t : Trace S A) (i : Nat) : Except Fault S := required .outOfRange t.states[i]?

/-- The action at position `i`. -/
def actionAt (t : Trace S A) (i : Nat) : Except Fault A := required .outOfRange t.actions[i]?

/-- The trace with the given states and actions; there must be one more state than actions. -/
def ofLists (states : List S) (actions : List A) : Except Fault (Trace S A) :=
  match states with
  | [] => .error .unevenTrace
  | s :: rest =>
    if rest.length = actions.length then .ok ⟨s, actions.zip rest⟩ else .error .unevenTrace

/-- The same trace with every state replaced by its image. -/
def mapStates (f : S → T) (t : Trace S A) : Trace T A :=
  ⟨f t.start, t.steps.map fun step ↦ (step.1, f step.2)⟩

@[simp] theorem states_mapStates (f : S → T) (t : Trace S A) :
    (t.mapStates f).states = t.states.map f := by
  simp [states, mapStates, Function.comp_def]

@[simp] theorem actions_mapStates (f : S → T) (t : Trace S A) :
    (t.mapStates f).actions = t.actions := by
  simp [actions, mapStates, Function.comp_def]

/-- The fingerprint of the actions. -/
def fingerprint [ActionWords A] (t : Trace S A) : Fingerprint := .ofActions t.actions

end Trace

end AbstractionRefinement
