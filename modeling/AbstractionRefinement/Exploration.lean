import AbstractionRefinement.Analysis
import AbstractionRefinement.Clock
import AbstractionRefinement.Iteration
import AbstractionRefinement.Session

/-!
# Exploration

Exploration grows a reachability graph under a fixed precision until it is complete or enough
counterexamples are known. It resumes from the incomplete nodes of the graph, so a pruned graph is
explored again only where it was cut.

Each turn takes a node from the frontier. If another node can stand for it, it is covered; otherwise
it is expanded: the successors of every enabled action are computed, siblings are merged, and a
child is made for each successor that is not there yet. New targets count as counterexamples; other
new nodes are covered if possible and queued if not.

The successors along different actions may be computed side by side. If all computations succeed,
their results are put in the order of the actions, so that nothing shows how they were computed; if
several fail, which failure is reported is left to the circumstances (`Meter.noticed`).

A node that is looked up by its position must be live, and a position that is not is a fault. No
exploration comes to such a fault, because the graphs it starts from are well formed.

A run that stops early keeps the nodes it has made. The turns are granted from outside; `none` says
that they did not suffice.
-/

namespace AbstractionRefinement

/-! ### Options -/

/-- When exploration may stop before the graph is complete. -/
inductive StopRule where
  /-- As soon as there is a counterexample. -/
  | first
  /-- As soon as there are this many counterexamples, and at least one. -/
  | atLeast (count : Nat)
  /-- Not before the graph is complete. -/
  | never
  deriving DecidableEq, Inhabited

/-- Whether so many counterexamples are enough. -/
def StopRule.reached : StopRule → Nat → Bool
  | .first, found => 1 ≤ found
  | .atLeast count, found => max count 1 ≤ found
  | .never, _ => false

/-- Options of an exploration. A limit of zero is no limit. -/
structure ExplorationOptions where
  /-- In which order nodes are taken. -/
  order : SearchOrder := .breadthFirst
  /-- When to stop early. -/
  stop : StopRule := .first
  /-- How many nodes may be live. -/
  maxNodes : Nat := 0
  /-- How many seconds one exploration may take. -/
  timeLimit : Nat := 0
  /-- How many megabytes may be in use. -/
  memoryLimit : Nat := 0
  /-- Whether to check the domain's contracts on every new state. -/
  validate : Bool := true
  /-- Whether the successors along different actions are computed side by side. -/
  parallel : Bool := false
  deriving DecidableEq, Inhabited

/-- What an exploration meets and does not determine: readings of the clock and of the memory in
use, where a look is numbered by the turn it is taken at, and the order of events between
computations that run side by side. -/
structure Meter extends Clock where
  /-- Megabytes in use, if known. -/
  memory : Nat → Option Nat := fun _ ↦ none
  /-- The position of the failure that is noticed, of all those in a list. -/
  noticed : List Abort → Nat := fun _ ↦ 0
  deriving Inhabited

/-- What one exploration says about the graph. -/
inductive Verdict where
  /-- Complete, without counterexample. -/
  | safe
  /-- There is a counterexample, which may be spurious. -/
  | suspect
  deriving DecidableEq, Inhabited

/-- A model with options for its exploration. -/
structure Explorer (S A P : Type) where
  /-- The abstract domain. -/
  model : Model S A P
  /-- How to explore it. -/
  options : ExplorationOptions := {}
  /-- Readings of clock and memory. -/
  meter : Meter := {}

/-- Where an exploration stands between two turns. -/
structure Pursuit where
  /-- The nodes that wait. -/
  frontier : Frontier
  /-- The counterexamples known. -/
  found : Nat
  /-- The turns done. -/
  turns : Nat := 0

namespace Explorer

open Session

variable {S A P : Type} (x : Explorer S A P)

/-! ### Contracts and budgets -/

/-- Check that the order is reflexive on a state, if contracts are to be checked. -/
def checkReflexive [Described S] (s : S) : Except Abort Unit :=
  if x.options.validate && !x.model.leq s s then
    .error (.failure (.violation (.notReflexive (describe s))))
  else .ok ()

/-- Check that a merged state is above both operands, if contracts are to be checked. -/
def checkMerged [Described S] (s t merged : S) : Except Abort Unit :=
  if x.options.validate && !(x.model.leq s merged && x.model.leq t merged) then
    .error (.failure (.violation (.notUpperBound (describe s) (describe t))))
  else .ok ()

/-- Check that one more node may be made. -/
def checkRoom (g : Graph S A) : Except Abort Unit :=
  if 0 < x.options.maxNodes && x.options.maxNodes ≤ g.live then
    .error (.failure (.exhausted (.nodes x.options.maxNodes)))
  else .ok ()

/-- How many turns pass between two looks at clock and memory. -/
def budgetInterval : Nat := 1000

/-- The seconds granted to an exploration: the smaller of the caller's and its own limit. -/
def granted (deadline : Option Nat) : Option Nat :=
  let own := if 0 < x.options.timeLimit then some x.options.timeLimit else none
  match deadline, own with
  | some a, some b => some (min a b)
  | a, b => a.or b

/-- Look at the clock, at the turn with the given number. -/
def checkTime (deadline : Option Nat) (turn : Nat) : Except Abort Unit :=
  match x.granted deadline with
  | some seconds =>
    if seconds ≤ x.meter.elapsed turn then .error (.failure (.exhausted (.time seconds)))
    else .ok ()
  | none => .ok ()

/-- Look at the memory in use, at the turn with the given number. -/
def checkMemory (turn : Nat) : Except Abort Unit :=
  match x.meter.memory turn with
  | some used =>
    if 0 < x.options.memoryLimit && x.options.memoryLimit ≤ used then
      .error (.failure (.exhausted (.memory x.options.memoryLimit used)))
    else .ok ()
  | none => .ok ()

/-- Look at clock and memory, unless the turn with the given number is not due for it. -/
def checkBudgets (deadline : Option Nat) (turn : Nat) : Except Abort Unit :=
  if turn % budgetInterval = 0 then do
    x.checkTime deadline turn
    x.checkMemory turn
  else .ok ()

/-! ### Roots -/

/-- Whether a root of the graph stands for the state. The roots looked at must be live. -/
def subsumedByRoot (g : Graph S A) (s : S) : Except Fault Bool :=
  g.roots.anyM fun r ↦ do return x.model.leq s (← g.node r).state

/-- Make a root for an initial state, unless it is bottom or a root stands for it. -/
def addInitial [Described S] (s : S) : Work (Session S A) Unit := do
  demand (x.checkReflexive s)
  if x.model.isBottom s then return ()
  let g ← currentGraph
  if ← demand (orFault (x.subsumedByRoot g s)) then return ()
  demand (x.checkRoom g)
  editGraph fun g ↦ .ok (g.addRoot s (x.model.key s) (x.model.isTarget s))
  count fun c ↦ { c with created := c.created + 1 }

/-- Make roots for all initial states, one after the other. -/
def addInitials [Described S] : List S → Work (Session S A) Unit
  | [] => return ()
  | s :: rest => do
    x.addInitial s
    addInitials rest

/-- Make the roots that are missing. -/
def addRoots [Described S] (prec : P) : Work (Session S A) Unit := do
  let states ← demand (x.model.initial prec)
  x.addInitials states
  editGraph fun g ↦ .ok (g.setInitialized true)

/-! ### Expansion -/

/-- Put a successor among its siblings: drop it if it is there, merge it with the first sibling
that merges with it, and append it otherwise. -/
def absorb [DecidableEq S] [Described S] : List S → S → Except Abort (List S)
  | [], s => .ok [s]
  | k :: kept, s =>
    if k = s then .ok (k :: kept)
    else match x.model.merge k s with
      | some merged => do
        x.checkMerged k s merged
        return merged :: kept
      | none => do
        let rest ← absorb kept s
        return k :: rest

/-- The siblings that are left of the successors along one action. -/
def absorbAll [DecidableEq S] [Described S] (kept : List S) : List S → Except Abort (List S)
  | [] => .ok kept
  | s :: rest => do
    x.checkReflexive s
    if x.model.isBottom s then absorbAll kept rest
    else do
      let kept ← x.absorb kept s
      absorbAll kept rest

/-- Whether a node has a child with this state along this action. The node must be live, and so
must the children looked at. -/
def hasChild [DecidableEq S] [DecidableEq A] (g : Graph S A) (id : NodeId) (action : A) (s : S) :
    Except Fault Bool := do
  let n ← g.node id
  n.children.anyM fun c ↦ do
    let child ← g.node c
    return child.action? = some action && child.state = s

/-- Make a child, unless it is there; the child made. -/
def addSuccessor [DecidableEq S] [DecidableEq A] (id : NodeId) (action : A) (s : S) :
    Work (Session S A) (List NodeId) := do
  let g ← currentGraph
  if ← demand (orFault (hasChild g id action s)) then return []
  demand (x.checkRoom g)
  let new := g.created
  editGraph fun g ↦ g.addChild id action s (x.model.key s) (x.model.isTarget s)
  let child ← demand (orFault ((← currentGraph).node new))
  count fun c ↦ { c with created := c.created + 1, maxDepth := max c.maxDepth child.depth }
  return [new]

/-- Make children for the siblings along one action; the children made. -/
def addSuccessors [DecidableEq S] [DecidableEq A] (id : NodeId) (action : A) :
    List S → Work (Session S A) (List NodeId)
  | [] => return []
  | s :: rest => do
    let made ← x.addSuccessor id action s
    let others ← addSuccessors id action rest
    return made ++ others

/-- Make children along each action in turn; the children made. -/
def addAll [DecidableEq S] [DecidableEq A] [Described S] (id : NodeId) :
    List (A × List S) → Work (Session S A) (List NodeId)
  | [] => return []
  | (action, states) :: rest => do
    let kept ← demand (x.absorbAll [] states)
    let made ← x.addSuccessors id action kept
    let others ← addAll id rest
    return made ++ others

/-- The values of computations that ran side by side, in their order. If some have failed, the
failure is the one at the position that is noticed. -/
def gather {α : Type} (noticed : List Abort → Nat) (results : List (Except Abort α)) :
    Except Abort (List α) :=
  match results.filterMap fun r ↦ match r with | .error e => some e | .ok _ => none with
  | [] => .ok (results.filterMap Except.toOption)
  | e :: others => .error ((e :: others).getD (noticed (e :: others)) e)

/-- The successors of a state along each of its enabled actions, one after the other or side by
side. -/
def successorsOf (s : S) (prec : P) : Except Abort (List (A × List S)) := do
  let actions ← orFault (x.model.enabled s)
  let along (a : A) : Except Abort (A × List S) := do return (a, ← x.model.successors s a prec)
  if x.options.parallel then gather x.meter.noticed (actions.map along) else actions.mapM along

/-- Expand a node; the children made. -/
def expand [DecidableEq S] [DecidableEq A] [Described S] (id : NodeId) (prec : P) :
    Work (Session S A) (List NodeId) := do
  let n ← demand (orFault ((← currentGraph).node id))
  let successors ← demand (x.successorsOf n.state prec)
  let made ← x.addAll id successors
  editGraph fun g ↦ g.setExpanded id true
  count fun c ↦ { c with expansions := c.expansions + 1 }
  return made

/-! ### Covering -/

/-- Cover a node, if another one can stand for it; whether this is so. -/
def tryCover (id : NodeId) : Work (Session S A) Bool := do
  let g ← currentGraph
  match ← demand (orFault (g.findCoverer x.model.leq id)) with
  | none => return false
  | some coverer =>
    editGraph fun g ↦ g.cover id coverer
    count fun c ↦ { c with covered := c.covered + 1 }
    return true

/-! ### The loop -/

/-- Sort new nodes: targets are counterexamples, others are covered or queued. -/
def settle (p : Pursuit) : List NodeId → Work (Session S A) Pursuit
  | [] => return p
  | id :: rest => do
    let n ← demand (orFault ((← currentGraph).node id))
    if n.target then settle { p with found := p.found + 1 } rest
    else if ← x.tryCover id then settle p rest
    else settle { p with frontier := p.frontier.push id n.key } rest

/-- One turn: take a node, and cover or expand it. A node that was covered or expanded while it
waited is passed over. -/
def turn [DecidableEq S] [DecidableEq A] [Described S] (deadline : Option Nat) (prec : P)
    (p : Pursuit) : Work (Session S A) (Turn Pursuit Unit) := do
  match p.frontier.pop? with
  | none => return .done ()
  | some (id, frontier) =>
    demand (x.checkBudgets deadline p.turns)
    let p := { p with frontier, turns := p.turns + 1 }
    let g ← currentGraph
    if !(g.node? id).any Node.isIncomplete then return .again p
    if ← x.tryCover id then return .again p
    let made ← x.expand id prec
    let p ← x.settle p made
    if x.options.stop.reached p.found then return .done () else return .again p

/-- The frontier of the incomplete nodes. -/
def initialFrontier (g : Graph S A) : Frontier :=
  g.incompleteNodes.foldl (fun f n ↦ f.push n.id n.key) { order := x.options.order }

/-- What a graph says. -/
def verdictOf (g : Graph S A) : Verdict := if g.isSafe then .safe else .suspect

/-- Grow the graph under a precision. The caller may grant a number of seconds, and grants a number
of turns; the answer is `none` if the turns did not suffice. A time limit without deadline is a
fault before anything else. -/
def explore [DecidableEq S] [DecidableEq A] [Described S] (turns : Nat) (deadline : Option Nat)
    (prec : P) : Work (Session S A) (Option Verdict) := do
  demand (orFault (x.meter.checkLimit x.options.timeLimit))
  let g ← currentGraph
  if !g.initialized then x.addRoots prec
  let g ← currentGraph
  let p : Pursuit := { frontier := x.initialFrontier g, found := g.counterexamples.length }
  if x.options.stop.reached p.found then return some (verdictOf g)
  match ← iterate (x.turn deadline prec) turns p with
  | none => return none
  | some () => return some (verdictOf (← currentGraph))

end Explorer

end AbstractionRefinement
