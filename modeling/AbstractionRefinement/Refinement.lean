import AbstractionRefinement.Analysis
import AbstractionRefinement.Session

/-!
# Refinement

Refinement examines counterexamples of the graph. If one is feasible it is genuine, and the graph
stays as it is. If all that are examined are refuted, the precision is refined by every refutation,
the graph is pruned, and the traces are remembered by their fingerprints.

When a remembered trace is refuted again, covering is the usual culprit: a node on the trace kept
covering what would have exposed the refinement. So its nodes release what they cover and may not
cover any more. If the precision does not change either, refinement diverges and says so.

What a counterexample means belongs to the domain. A `Refuter` says whether a trace is feasible,
with a witness if it is and a refutation if it is not, how a precision is refined by a refutation,
and at which position of the trace the graph is to be cut. The scope says which counterexamples are
examined (the first, or all), and how the refined precisions are put together; the pruning says
whether the graph is cut below these positions or given up altogether.

Counterexamples are examined before anything is changed. If one of them cannot be examined, or the
precision cannot be refined, nothing has happened to the graph and nothing is remembered. After
that, the traces are remembered one by one, and the coverings of those seen before are released
before anything is pruned. Traces are remembered by fingerprints, which two different traces may
share (`Refuter.fingerprint` is a parameter for that reason).
-/

namespace AbstractionRefinement

/-! ### Collaborators -/

/-- What the examination of a trace comes to. -/
inductive Feasibility (W R : Type) where
  /-- Some concrete execution follows the trace; the witness describes it. -/
  | feasible (witness : W)
  /-- No concrete execution follows the trace; the refutation says why. -/
  | infeasible (refutation : R)
  deriving DecidableEq

/-- What is needed to examine and to refute traces: witnesses `W`, refutations `R`. -/
structure Refuter (S A P W R : Type) where
  /-- Decide whether a trace is feasible. -/
  check : Trace S A → Except Abort (Feasibility W R)
  /-- The position in the trace of the first state that needs a finer abstraction. -/
  cutIndex : R → Nat
  /-- A precision that excludes the refuted trace. -/
  refine : P → Trace S A → R → Except Abort P
  /-- By which traces are remembered. -/
  fingerprint : List A → Fingerprint

/-- Which counterexamples one refinement examines. -/
inductive Scope where
  /-- The shortest one, the oldest of them. -/
  | shortest
  /-- All of them. -/
  | every
  deriving DecidableEq, Inhabited

/-- How much of the graph a refuted counterexample invalidates. -/
inductive Pruning where
  /-- The part below the node at the cut of its trace. -/
  | subtree
  /-- Everything. -/
  | everything
  deriving DecidableEq, Inhabited

/-- What one refinement comes to. -/
inductive Refinement (S A P W : Type) where
  /-- Every counterexample examined was refuted, and the graph has been pruned. -/
  | spurious (refined : P)
  /-- A counterexample is feasible. -/
  | genuine (path : Path S A) (witness : W)
  deriving DecidableEq

/-- A refuted counterexample. -/
structure Refuted (S A P : Type) where
  /-- Its path in the graph. -/
  path : Path S A
  /-- The position of the cut. -/
  cut : Nat
  /-- The precision that excludes it. -/
  refined : P

/-- What the examination of several counterexamples comes to. -/
inductive Examination (S A P W : Type) where
  /-- All of them were refuted. -/
  | refuted (traces : List (Refuted S A P))
  /-- One of them is feasible. -/
  | genuine (path : Path S A) (witness : W)

/-! ### Remembered traces -/

namespace Graph

variable {S A : Type}

/-- Let a node release what it covers and never cover again; nothing happens if it is not there. -/
def retireCoverer (g : Graph S A) (id : NodeId) : Graph S A :=
  match g.releaseCovered id with
  | .ok g => (g.disableCovering id).toOption.getD g
  | .error _ => g

end Graph

namespace Session

variable {S A : Type}

/-- Remember a refuted trace. If it was refuted before, its nodes stop covering; whether this is
so, the traces remembered, and the graph. -/
def observe (seen : List Fingerprint) (trace : Fingerprint) (nodes : List NodeId)
    (g : Graph S A) : Bool × List Fingerprint × Graph S A :=
  if trace ∈ seen then (true, seen, nodes.foldl Graph.retireCoverer g)
  else (false, seen ++ [trace], g)

/-- Remember a refuted trace; whether it was refuted before. -/
def observeRefuted (trace : Fingerprint) (nodes : List NodeId) : Work (Session S A) Bool := fun s ↦
  let (repeated, refuted, graph) := observe s.refuted trace nodes s.graph
  (.ok repeated, { s with refuted, graph })

end Session

/-! ### One refinement -/

/-- The counterexamples to examine. -/
def Scope.select : Scope → List NodeId → List NodeId
  | .shortest, ids => ids.take 1
  | .every, ids => ids

/-- The new precision: the one that excludes the only trace examined, or the join of the current
precision with those that exclude each trace. -/
def Scope.combine {P : Type} [Precision P] : Scope → P → List P → P
  | .shortest, prec, refined => refined.headD prec
  | .every, prec, refined => refined.foldl Precision.join prec

namespace Refuter

open Session

variable {S A P W R : Type} (r : Refuter S A P W R)

/-- Examine counterexamples in turn, up to the first that is feasible. -/
def examine (g : Graph S A) (prec : P) : List NodeId → Except Abort (Examination S A P W)
  | [] => .ok (.refuted [])
  | id :: rest => do
    let path ← orFault (g.pathTo id)
    match ← r.check path.trace with
    | .feasible witness => return .genuine path witness
    | .infeasible refutation =>
      let refined ← r.refine prec path.trace refutation
      match ← examine g prec rest with
      | .genuine path witness => return .genuine path witness
      | .refuted others => return .refuted (⟨path, r.cutIndex refutation, refined⟩ :: others)

/-- Remember refuted traces in turn; the first that was refuted before. -/
def observeAll : List (Refuted S A P) → Work (Session S A) (Option Fingerprint)
  | [] => return none
  | t :: rest => do
    let fingerprint := r.fingerprint t.path.actions
    let repeated ← observeRefuted fingerprint t.path.nodes
    let later ← observeAll rest
    return if repeated then some fingerprint else later

/-- The node at which a refuted trace is cut: a position past the end means the last node. -/
def cutNode (t : Refuted S A P) : NodeId := t.path.nodes.getD t.cut t.path.target

/-- The graph without what the refuted traces invalidate. -/
def pruneRefuted (pruning : Pruning) (g : Graph S A) (traces : List (Refuted S A P)) : Graph S A :=
  match pruning with
  | .everything => g.pruneAll
  | .subtree => traces.foldl (fun g t ↦ g.prune (cutNode t)) g

/-- Examine counterexamples and refine the precision if they are spurious. -/
def run [DecidableEq P] [Precision P] (scope : Scope) (pruning : Pruning) (prec : P) :
    Work (Session S A) (Refinement S A P W) := do
  let g ← currentGraph
  let targets := scope.select g.counterexamples
  if targets.isEmpty then throw (.failure (.violation .noCounterexample))
  match ← demand (r.examine g prec targets) with
  | .genuine path witness => return .genuine path witness
  | .refuted traces =>
    let refined := scope.combine prec (traces.map Refuted.refined)
    match ← r.observeAll traces with
    | some fingerprint =>
      if refined = prec then throw (.failure (.divergence fingerprint))
    | none => pure ()
    editGraph fun g ↦ .ok (pruneRefuted pruning g traces)
    return .spurious refined

end Refuter

end AbstractionRefinement
