import AbstractionRefinement.Proofs.Soundness

/-!
# Attained graphs

A graph is *attained* over a domain if explorations and refinements make it of the empty graph, in
any order, with any options and collaborators, whether they answer or stop early. Every attained
graph keeps the discipline of covering. Covering links therefore never run in a circle: a node is
given an uncovered coverer, so a chain of coverers can only get longer at its end.

The discipline leaves room for two things that one might expect to be excluded, and `ladder` shows
both in one graph: a coverer may be covered later, and a node may be covered by one of its own
descendants, once it has lost a child.

The generality of the notion is the point of it: no two explorations need to share their options, a
refinement may use another refuter than the one before, and any of them may have stopped in the
middle. So a statement about attained graphs is a statement about everything that a caller can do
with a session, except to edit the graph by hand.

The graph of the second paragraph is reached in a few steps and is checked by evaluation. It shows
that the discipline cannot be strengthened in these two respects.
-/

namespace AbstractionRefinement

variable {S A P : Type}

/-! ### Circles of coverers -/

/-- The second node covers the first. -/
def Graph.CoveredBy (g : Graph S A) (i j : NodeId) : Prop :=
  ∃ n, g.node? i = some n ∧ n.coveredBy = some j

theorem Graph.CoveredBy.unique {g : Graph S A} {i j k : NodeId} (h : g.CoveredBy i j)
    (h' : g.CoveredBy i k) : j = k := by
  obtain ⟨n, hn, hj⟩ := h
  obtain ⟨m, hm, hk⟩ := h'
  obtain rfl := Option.some.inj (hn.symm.trans hm)
  exact Option.some.inj (hj.symm.trans hk)

/-- **A chain that ends is no circle.** -/
theorem Graph.Grounded.not_circular {g : Graph S A} {i : NodeId} (h : g.Grounded i) :
    ¬Relation.TransGen g.CoveredBy i i := by
  induction h with
  | uncovered hn hc =>
    intro hcirc
    obtain ⟨j, ⟨m, hm, hj⟩, -⟩ := Relation.TransGen.head'_iff.1 hcirc
    obtain rfl := Option.some.inj (hn.symm.trans hm)
    cases hc.symm.trans hj
  | @covered i j n hn hc _ ih =>
    -- a circle through the node goes on through its only coverer
    intro hcirc
    have hij : g.CoveredBy i j := ⟨n, hn, hc⟩
    obtain ⟨k, hik, hki⟩ := Relation.TransGen.head'_iff.1 hcirc
    obtain rfl := hij.unique hik
    exact ih (Relation.TransGen.tail' hki hij)

/-! ### Operations keep the discipline -/

section Operations

variable [DecidableEq S] [DecidableEq A] [Described S] {M : Model S A P} {s t : Session S A}

theorem Model.Disciplined.operates (hs : M.Disciplined s.graph) (hop : M.Operates s t) :
    M.Disciplined t.graph := by
  cases hop with
  | explore x hx turns deadline prec =>
    subst hx
    exact hs.of_grows (Explorer.does_explore hs.wellFormed).change
  | refine r scope pruning prec => exact hs.of_cuts Refuter.does_run.change
  | memory => exact hs

theorem Model.Disciplined.of_operates (hs : M.Disciplined s.graph)
    (h : Relation.ReflTransGen M.Operates s t) : M.Disciplined t.graph := by
  induction h with
  | refl => exact hs
  | tail _ hop ih => exact ih.operates hop

/-- Operations over the domain make the graph of the empty one. -/
def Model.Attains (M : Model S A P) (g : Graph S A) : Prop :=
  ∃ s t : Session S A, s.graph = .empty ∧ Relation.ReflTransGen M.Operates s t ∧ t.graph = g

theorem Model.Attains.disciplined {g : Graph S A} (h : M.Attains g) : M.Disciplined g := by
  obtain ⟨s, t, hempty, hrun, rfl⟩ := h
  have hstart : M.Disciplined s.graph := hempty ▸ .empty
  exact hstart.of_operates hrun

end Operations

/-! ### A coverer that is covered, and a parent covered by its child -/

/-- A rung of a ladder. -/
structure Rung where
  /-- How high it is. -/
  height : Nat
  deriving DecidableEq

instance : Described Rung := ⟨fun r ↦ toString r.height⟩

/-- Rungs by height. From the lowest one leads an action to four others, of which the highest is a
target. -/
def ladder : Explorer Rung Unit Unit where
  model :=
    { initial := fun _ ↦ .ok [⟨0⟩]
      successors := fun _ _ _ ↦ .ok [⟨4⟩, ⟨5⟩, ⟨6⟩, ⟨7⟩]
      leq := fun r q ↦ r.height ≤ q.height
      isBottom := fun _ ↦ false
      enabled := fun r ↦ .ok (if r = ⟨0⟩ then [()] else [])
      isTarget := fun r ↦ r = ⟨7⟩ }
  options := { stop := .never }

/-- Every trace is refuted, and cut behind its first state. -/
def dismissal : Refuter Rung Unit Unit Unit Unit where
  check _ := .ok (.infeasible ())
  cutIndex _ := 1
  refine prec _ _ := .ok prec
  fingerprint _ := default

/-- The session after an exploration, a refinement and another exploration. -/
def climbed : Session Rung Unit :=
  (ladder.explore 9 none () (dismissal.run .shortest .subtree ()
    (ladder.explore 9 none () {}).2).2).2

theorem attains_climbed : ladder.model.Attains climbed.graph := by
  refine ⟨{}, climbed, rfl, ?_, rfl⟩
  exact .tail (.tail (.single (.explore ladder rfl 9 none ()))
    (.refine dismissal .shortest .subtree ())) (.explore ladder rfl 9 none ())

/-! ### Whole runs -/

/-- **The discipline of covering.** In every graph that explorations and refinements attain over any
domain, targets are idle, no node is both covered and expanded, a coverer is above what it covers
and has its key, a node that may not cover covers nothing, siblings along one action differ, and
from every node the chain of coverers ends at an uncovered one, so that there is no circle. Not
excluded are coverers that are covered themselves, and nodes covered from below. -/
theorem disciplined_of_attains :
    (∀ {S A P : Type} [DecidableEq S] [DecidableEq A] [Described S] {M : Model S A P}
      {g : Graph S A}, M.Attains g →
        M.Disciplined g ∧ ∀ i, ¬Relation.TransGen g.CoveredBy i i) ∧
    ∃ g, ladder.model.Attains g ∧
      (∃ i j k, g.CoveredBy i j ∧ g.CoveredBy j k) ∧
      ∃ i j, g.CoveredBy i j ∧ g.IsChild i j := by
  refine ⟨fun {S A P} _ _ _ {M g} h ↦ ⟨h.disciplined, fun i hcirc ↦ ?_⟩,
    climbed.graph, attains_climbed, ?_, ?_⟩
  · obtain ⟨j, ⟨n, hn, -⟩, -⟩ := Relation.TransGen.head'_iff.1 hcirc
    exact (h.disciplined.grounded hn).not_circular hcirc
  · exact ⟨1, 2, 3, Option.bind_eq_some_iff.1 (by decide +kernel),
      Option.bind_eq_some_iff.1 (by decide +kernel)⟩
  · exact ⟨0, 3, Option.bind_eq_some_iff.1 (by decide +kernel),
      Option.bind_eq_some_iff.1 (by decide +kernel)⟩

theorem disciplined_climbed : ladder.model.Attains climbed.graph ∧
    ladder.model.Disciplined climbed.graph ∧
    ∀ i, ¬Relation.TransGen climbed.graph.CoveredBy i i :=
  ⟨attains_climbed, disciplined_of_attains.1 attains_climbed⟩

end AbstractionRefinement
