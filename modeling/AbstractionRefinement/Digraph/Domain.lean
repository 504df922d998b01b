import AbstractionRefinement.Digraph.Basic
import AbstractionRefinement.Refinement

/-!
# Digraphs abstracted by tracked vertices

The precision is a set of vertices. A tracked vertex is kept apart; all others are summarised in one
abstract state, which remembers the vertices it excludes. A trace is refuted at its first mismatch
by tracking the vertex there, so every refinement is exact.

An action is an edge, by its two ends. It is enabled in a state that stands for its source, and
leads to the state of its target; so the successors of a state are exact on every vertex that is
tracked, and the state of all others may be entered and left anywhere.

Whether a trace is feasible is a question about its edges alone: the first has to begin at an
initial vertex, each has to begin where the one before it ends, and the last has to end at a target.
The first of these that fails is the mismatch (`Mismatch`), and the vertex at which it fails is
tracked from then on. A trace without edges is feasible if its state stands for an initial vertex
that is a target; if not, the initial vertices it stands for are tracked.

`Digraph.stubbornRefuter` tracks nothing, whatever it is shown. It is there to show what the loop
does with a refutation that teaches nothing.
-/

namespace AbstractionRefinement

/-! ### States, actions, precisions -/

/-- One vertex, or all vertices but some. -/
inductive Spot where
  /-- This vertex. -/
  | known (v : Nat)
  /-- Every vertex that is not excluded. -/
  | other (excluded : IndexSet)
  deriving DecidableEq, Inhabited

/-- A listing of vertices between braces. -/
def describeVertices (s : IndexSet) : String := describeSet (s.toList.map toString)

/-- The written form of an abstract state. -/
def Spot.text : Spot → String
  | .known v => s!"s{v}"
  | .other excluded => s!"*\\{describeVertices excluded}"

instance : Described Spot where
  describe
    | .known v => s!"Known({v})"
    | .other excluded => describeRecord "Any" [("except", describeVertices excluded)]

/-- An edge that is followed. -/
structure Link where
  /-- Where it begins. -/
  source : Nat
  /-- Where it ends. -/
  target : Nat
  deriving DecidableEq, Inhabited

instance : Described Link where
  describe e := describeRecord "GEdge" [("from", toString e.source), ("to", toString e.target)]

instance : ActionWords Link := ⟨fun e ↦ [e.source.toUInt64, e.target.toUInt64]⟩

/-- The vertices that are kept apart. -/
structure Tracked where
  /-- The vertices. -/
  vertices : IndexSet := .empty
  deriving DecidableEq, Inhabited

instance : Precision Tracked where
  join p q := ⟨p.vertices.union q.vertices⟩
  refines p q := q.vertices.isSubset p.vertices

instance : Described Tracked := ⟨fun p ↦ s!"Tracked({describeVertices p.vertices})"⟩

/-- The abstract state that stands for a vertex. -/
def Tracked.spotOf (p : Tracked) (v : Nat) : Spot :=
  if v ∈ p.vertices then .known v else .other p.vertices

namespace Spot

/-- Whether an abstract state may be at a vertex. -/
def covers : Spot → Nat → Bool
  | .known v, w => v = w
  | .other excluded, w => w ∉ excluded

/-- Whether the first state stands for nothing that the second does not stand for. -/
def leq : Spot → Spot → Bool
  | .known v, .known w => v = w
  | .known v, .other excluded => v ∉ excluded
  | .other _, .known _ => false
  | .other excluded, .other excluded' => excluded'.isSubset excluded

end Spot

namespace Digraph

variable (g : Digraph)

/-- The vertices that an abstract state stands for. -/
def concretize : Spot → IndexSet
  | .known v => .ofList [v]
  | .other excluded => (IndexSet.below g.order).filter (· ∉ excluded)

/-- Whether an abstract state stands for a vertex. -/
def standsFor : Spot → Nat → Bool
  | .known v, w => v = w
  | .other excluded, w => w < g.order && w ∉ excluded

theorem mem_concretize {s : Spot} {v : Nat} : v ∈ g.concretize s ↔ g.standsFor s v = true := by
  cases s with
  | known w =>
    rw [concretize, standsFor, decide_eq_true_eq, IndexSet.mem_ofList, List.mem_singleton]
    exact eq_comm
  | other excluded => simp [concretize, standsFor]

/-! ### The model -/

/-- The initial abstract states: tracked initial vertices in ascending order, then the summary if
some initial vertex is not tracked. -/
def initialSpots (p : Tracked) : List Spot :=
  (g.init.filter (· ∈ p.vertices)).toList.map .known ++
    if g.init.toList.any (· ∉ p.vertices) then [.other p.vertices] else []

/-- The analysis by tracked vertices. -/
def analysis : Analysis Spot Link Tracked where
  initial p := .ok (g.initialSpots p)
  successors s e p :=
    .ok (if s.covers e.source && g.hasEdge e.source e.target then [p.spotOf e.target] else [])
  leq := Spot.leq
  isBottom _ := false

/-- The edges that begin at a vertex the state may be at. -/
def enabledLinks (s : Spot) : List Link :=
  (g.edges.filter fun e ↦ s.covers e.1).map fun e ↦ ⟨e.1, e.2⟩

/-- The model of a digraph. -/
def model : Model Spot Link Tracked where
  toAnalysis := g.analysis
  enabled s := .ok (g.enabledLinks s)
  isTarget s := g.targets.toList.any s.covers

/-! ### Refutation -/

/-- Vertices to track, and where a trace goes wrong. -/
structure Mismatch where
  /-- The vertices to track. -/
  track : IndexSet
  /-- The position in the trace. -/
  index : Nat
  deriving DecidableEq, Inhabited

/-- The first place where an edge does not begin where the one before ends, and the vertex there;
`i` is the position between the first edge and the rest. -/
def firstBreak (i : Nat) (e : Link) : List Link → Option (Nat × Nat)
  | [] => none
  | f :: rest => if e.target = f.source then firstBreak (i + 1) f rest else some (i, e.target)

/-- Decide whether a trace of one state is feasible: some initial vertex it stands for is a
target. -/
def checkLone (s : Spot) : Feasibility (List Nat) Mismatch :=
  let candidates := g.concretize s
  match candidates.toList.find? fun v ↦ v ∈ g.init && v ∈ g.targets with
  | some v => .feasible [v]
  | none => .infeasible ⟨candidates.filter (· ∈ g.init), 0⟩

/-- Decide whether the edges of a trace form a path from an initial vertex to a target. -/
def checkLinks (first : Link) (rest : List Link) : Feasibility (List Nat) Mismatch :=
  if first.source ∉ g.init then .infeasible ⟨.ofList [first.source], 0⟩
  else match firstBreak 1 first rest with
    | some (i, v) => .infeasible ⟨.ofList [v], i⟩
    | none =>
      let last := (rest.getLastD first).target
      if last ∉ g.targets then .infeasible ⟨.ofList [last], rest.length + 1⟩
      else .feasible (first.source :: (first :: rest).map Link.target)

/-- Decide whether a trace is feasible. -/
def checkTrace (t : Trace Spot Link) : Feasibility (List Nat) Mismatch :=
  match t.actions with
  | [] => g.checkLone t.start
  | first :: rest => g.checkLinks first rest

/-- Track the vertices of a mismatch. -/
def trackMismatch (p : Tracked) (m : Mismatch) : Tracked := Precision.join p ⟨m.track⟩

/-- The refuter of the digraph analysis. -/
def refuter (fingerprint : List Link → Fingerprint := .ofActions) :
    Refuter Spot Link Tracked (List Nat) Mismatch where
  check t := .ok (g.checkTrace t)
  cutIndex := Mismatch.index
  refine p _ m := .ok (trackMismatch p m)
  fingerprint := fingerprint

/-- A refuter that never refines. -/
def stubbornRefuter : Refuter Spot Link Tracked (List Nat) Mismatch :=
  { g.refuter with refine := fun p _ _ ↦ .ok p }

end Digraph

end AbstractionRefinement
