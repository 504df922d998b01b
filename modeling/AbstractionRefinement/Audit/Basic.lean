import AbstractionRefinement.Analysis
import AbstractionRefinement.Graph.Query

/-!
# Audits of a run

Checks that look at the outcome of a run from outside: the graph is a forest, nothing is left to
expand, traces follow the transfer relation, precisions only get finer. Each answers with the first
`Finding`, if there is one.

An audit believes nothing that the engine keeps about itself. The forest is visited from the roots
along child links, and the number of nodes that are met is compared with the number that is kept;
traces are replayed with the analysis, from its initial states on; the precisions of a run are
compared with each other, one iteration after the next. So a finding is either a mistake of the
engine or a domain that does not answer the same twice, except for `Finding.stopped`, where the
analysis could not go on.

Each finding is a constructor that holds what it is about, and its wording is in one function
(`Finding.message`). That the graphs of the engine pass the first of these audits is a consequence
of their being well formed.
-/

namespace AbstractionRefinement

/-- What an audit may find. -/
inductive Finding where
  /-- A node has two ways from the roots. -/
  | reachedTwice (id : NodeId)
  /-- A child is not in the graph. -/
  | danglingChild (id : NodeId)
  /-- The nodes reached from the roots are not all live nodes. -/
  | unreached (reached live : Nat)
  /-- A node is neither covered nor expanded. -/
  | unexplored (id : NodeId)
  /-- A node is covered by one that is not in the graph. -/
  | coveredByPruned (id coverer : NodeId)
  /-- A node is covered by one that does not know of it. -/
  | unlisted (coverer id : NodeId)
  /-- A covered node stands for vertices that its coverer does not stand for. -/
  | escapes (id : NodeId) (state : String) (coverer : NodeId) (covering : String)
      (vertices : List Nat)
  /-- A trace begins in a state that is not initial. -/
  | notInitial (state : String)
  /-- A step of a trace does not lead to a successor. -/
  | notSuccessor (step : Nat) (state previous action : String)
  /-- The analysis could not go on. -/
  | stopped (cause : Abort)
  /-- A precision is not as fine as the one of the iteration before. -/
  | coarser (iteration : Nat) (prec earlier : String)
  /-- A witness without vertices. -/
  | emptyWitness
  /-- A witness that begins at a vertex that is not initial. -/
  | badStart (v : Nat)
  /-- A witness that follows an edge that is not there. -/
  | missingEdge (v w : Nat)
  /-- A witness that ends at a vertex that is no target. -/
  | badEnd (v : Nat)
  deriving DecidableEq

/-- The wording of a finding. -/
def Finding.message : Finding → String
  | .reachedTwice id => s!"node {nodeName id} reached twice"
  | .danglingChild id => s!"dangling child {nodeName id}"
  | .unreached reached live => s!"{reached} nodes reachable from the initial nodes, {live} live"
  | .unexplored id => s!"node {nodeName id} is neither covered nor expanded"
  | .coveredByPruned id coverer => s!"{nodeName id} covered by pruned {nodeName coverer}"
  | .unlisted coverer id => s!"{nodeName coverer} does not list {nodeName id} as covered"
  | .escapes id state coverer covering vertices =>
    s!"{nodeName id} ({state}) covered by {nodeName coverer} ({covering}) but " ++
      s!"{describeList (vertices.map toString)} escapes"
  | .notInitial state => s!"{state} is not initial"
  | .notSuccessor step state previous action =>
    s!"step {step}: {state} is not a successor of {previous} along {action}"
  | .stopped (.failure cause) => cause.message
  | .stopped (.fault cause) => cause.message?.getD ""
  | .coarser iteration prec earlier =>
    s!"precision of iteration {iteration} ({prec}) is coarser than {earlier}"
  | .emptyWitness => "empty witness"
  | .badStart v => s!"witness starts at non-initial {v}"
  | .missingEdge v w => s!"witness uses missing edge {v} -> {w}"
  | .badEnd v => s!"witness ends at non-target {v}"

namespace Graph

variable {S A : Type}

/-- Visit the nodes of a stack and everything below them, the top of the stack first and the
youngest child first, in at most so many steps; the nodes visited. -/
def visitAll (g : Graph S A) : Nat → List NodeId → List NodeId → Except Finding (List NodeId)
  | 0, _, seen => .ok seen
  | _, [], seen => .ok seen
  | steps + 1, id :: stack, seen =>
    if id ∈ seen then .error (.reachedTwice id)
    else match g.node? id with
      | none => .error (.danglingChild id)
      | some n => g.visitAll steps (n.children.reverse ++ stack) (id :: seen)

/-- Every live node is reached exactly once from the roots along child links. No node is visited
twice, so one step more than there are slots is enough to see a repetition. -/
def auditForest (g : Graph S A) : Except Finding Unit := do
  let seen ← g.visitAll (g.created + 1) g.roots.reverse []
  if seen.length ≠ g.live then throw (.unreached seen.length g.live)

/-- Every uncovered node has been expanded. -/
def auditExhausted (g : Graph S A) : Except Finding Unit :=
  match g.nodes.find? fun n ↦ !n.isCovered && !n.expanded with
  | some n => .error (.unexplored n.id)
  | none => .ok ()

end Graph

namespace Analysis

variable {S A P : Type} [DecidableEq S] [Described S] [Described A]

/-- A computation of the analysis; if it stops, that is the finding. -/
def orStopped {α : Type} : Except Abort α → Except Finding α
  | .ok a => .ok a
  | .error cause => .error (.stopped cause)

/-- Each state is a successor of the one before; `i` is the number of steps before. -/
def auditSteps (a : Analysis S A P) (prec : P) (i : Nat) (s : S) :
    List (A × S) → Except Finding Unit
  | [] => .ok ()
  | (action, t) :: rest => do
    let successors ← orStopped (a.successors s action prec)
    if t ∈ successors then auditSteps a prec (i + 1) t rest
    else throw (.notSuccessor i (describe t) (describe s) (describe action))

/-- A trace begins in an initial state, and each later state is a successor of the one before. -/
def auditTrace (a : Analysis S A P) (prec : P) (t : Trace S A) : Except Finding Unit := do
  let initial ← orStopped (a.initial prec)
  if t.start ∈ initial then a.auditSteps prec 0 t.start t.steps
  else throw (.notInitial (describe t.start))

/-- The trace to every live node replays, in the order of creation. -/
def auditNodes (a : Analysis S A P) (prec : P) (g : Graph S A) : Except Finding Unit :=
  g.nodes.forM fun n ↦ do
    let path ← orStopped (orFault (g.pathTo n.id))
    a.auditTrace prec path.trace

end Analysis

/-- Each precision is at least as fine as the one before; `i` is the iteration of the second. -/
def auditMonotoneFrom {P : Type} [Precision P] [Described P] (i : Nat) :
    List P → Except Finding Unit
  | p :: q :: rest =>
    if Precision.refines q p then auditMonotoneFrom (i + 1) (q :: rest)
    else .error (.coarser i (describe q) (describe p))
  | _ => .ok ()

/-- The precisions of successive iterations, from the first on, only get finer. -/
def auditMonotone {P : Type} [Precision P] [Described P] (precs : List P) :
    Except Finding Unit :=
  auditMonotoneFrom 2 precs

end AbstractionRefinement
