import AbstractionRefinement.Proofs.Digraph.Search
import AbstractionRefinement.Proofs.Exploration.Termination
import AbstractionRefinement.Proofs.Labels

/-!
# The abstraction of a digraph by tracked vertices

At a precision every abstract state of an exploration is the one that stands for some vertex
(`Tracked.spotOf`), so there are finitely many of them, and the abstraction loses nothing of the
graph (`Digraph.approximates_model`). What it may add is seen in a trace: a trace that is not
feasible goes wrong at a summary of a vertex to track, whichever precisions its states were made at
(`Digraph.Misses.exists_other`). At one precision the vertex was not tracked before
(`Digraph.exists_untracked_of_infeasible`). This is why no refinement is in vain. A trace that is
feasible has a counterexample for its witness (`Digraph.isCounterexample_of_feasible`).

A spot stands for the vertices it covers, and the spot of a vertex covers it, so an edge of the
digraph is followed by a link between spots whatever is tracked. That is the whole argument for
soundness. The states of one precision are few: a tracked vertex has one spot, and all others share
one.

What a refutation says is inverted once (`Misses`): the first link does not begin at an initial
vertex, two neighbouring links do not meet, or the last link does not end at a target. In each case
the vertex to be tracked is an end of a link of the trace, so it is a vertex of the digraph.
-/

namespace AbstractionRefinement

variable {g : Digraph} {p : Tracked} {v w : Nat}

/-! ### What abstract states stand for -/

/-- A larger state may be at more vertices. -/
theorem Spot.covers_of_leq {st st' : Spot} (h : st.leq st' = true) (hv : st.covers v = true) :
    st'.covers v = true := by
  cases st with
  | known u =>
    obtain rfl : u = v := of_decide_eq_true hv
    cases st' with
    | known w => exact decide_eq_true (of_decide_eq_true h).symm
    | other excluded => exact h
  | other excluded =>
    cases st' with
    | known w => cases h
    | other excluded' =>
      have hsub := IndexSet.isSubset_iff.1 h
      exact decide_eq_true fun hmem ↦ of_decide_eq_true hv (hsub v hmem)

theorem Spot.leq_self (st : Spot) : st.leq st = true := by
  cases st with
  | known u => exact decide_eq_true rfl
  | other excluded => exact IndexSet.isSubset_iff.2 fun _ h ↦ h

/-- A state that may be at two vertices is a summary. -/
theorem Spot.eq_other_of_covers {st : Spot} (hv : st.covers v = true) (hw : st.covers w = true)
    (hne : v ≠ w) : ∃ excluded, st = .other excluded ∧ v ∉ excluded := by
  cases st with
  | known u => exact absurd ((of_decide_eq_true hv).symm.trans (of_decide_eq_true hw)) hne
  | other excluded => exact ⟨excluded, rfl, of_decide_eq_true hv⟩

namespace Tracked

theorem covers_spotOf : (p.spotOf v).covers v = true := by
  rw [spotOf]
  split
  · exact decide_eq_true rfl
  · exact decide_eq_true ‹_›

/-- A summary excludes what is tracked. -/
theorem eq_of_spotOf_eq_other {excluded : IndexSet} (h : p.spotOf v = .other excluded) :
    excluded = p.vertices := by
  rw [spotOf] at h
  split at h
  · cases h
  · exact (Spot.other.inj h).symm

end Tracked

namespace Digraph

/-- The initial states are the spots of the initial vertices. -/
theorem mem_initialSpots {st : Spot} :
    st ∈ g.initialSpots p ↔ ∃ v ∈ g.init, p.spotOf v = st := by
  rw [initialSpots, List.mem_append, List.mem_map]
  constructor
  · rintro (⟨v, hv, rfl⟩ | hother)
    · obtain ⟨hinit, htracked⟩ := IndexSet.mem_filter.1 hv
      exact ⟨v, hinit, if_pos (of_decide_eq_true htracked)⟩
    · split at hother
      · rename_i hany
        obtain ⟨v, hv, huntracked⟩ := List.any_eq_true.1 hany
        rw [List.mem_singleton] at hother
        exact ⟨v, hv, (if_neg (of_decide_eq_true huntracked)).trans hother.symm⟩
      · cases hother
  · rintro ⟨v, hv, rfl⟩
    by_cases htracked : v ∈ p.vertices
    · rw [Tracked.spotOf, if_pos htracked]
      exact .inl ⟨v, IndexSet.mem_filter.2 ⟨hv, decide_eq_true htracked⟩, rfl⟩
    · have hany : (g.init.toList.any (· ∉ p.vertices)) = true :=
        List.any_eq_true.2 ⟨v, hv, decide_eq_true htracked⟩
      rw [Tracked.spotOf, if_neg htracked, if_pos hany]
      exact .inr (List.mem_singleton.2 rfl)

/-- The links that are enabled in a state are the edges from the vertices it covers. -/
theorem mem_enabledLinks {st : Spot} {e : Link} : e ∈ g.enabledLinks st ↔
    st.covers e.source = true ∧ g.hasEdge e.source e.target = true := by
  rw [enabledLinks, List.mem_map]
  constructor
  · rintro ⟨⟨v, w⟩, hmem, rfl⟩
    obtain ⟨hedge, hcovers⟩ := List.mem_filter.1 hmem
    exact ⟨hcovers, mem_edges.1 hedge⟩
  · rintro ⟨hcovers, hedge⟩
    exact ⟨(e.source, e.target), List.mem_filter.2 ⟨mem_edges.2 hedge, hcovers⟩, rfl⟩

/-- How an abstract state follows another along an edge at a precision. -/
structure Follows (g : Digraph) (p : Tracked) (st : Spot) (e : Link) (st' : Spot) : Prop where
  /-- The first may be where the edge begins. -/
  covers : st.covers e.source = true
  /-- The edge is one of the graph. -/
  edge : g.hasEdge e.source e.target = true
  /-- The second stands for where the edge ends. -/
  eq_spotOf : st' = p.spotOf e.target

/-- A successor follows along its link. -/
theorem follows_of_successors {st st' : Spot} {e : Link} {states : List Spot}
    (h : g.model.successors st e p = .ok states) (hst' : st' ∈ states) :
    g.Follows p st e st' := by
  obtain rfl := Except.ok.inj h
  split at hst'
  · rename_i hcond
    obtain ⟨hcovers, hedge⟩ := Bool.and_eq_true_iff.1 hcond
    exact ⟨hcovers, hedge, List.mem_singleton.1 hst'⟩
  · cases hst'

/-- **The abstraction loses nothing of the graph.** -/
theorem approximates_model :
    g.model.Approximates g.system fun st v ↦ st.covers v = true where
  initial {p states v} h hv := by
    obtain rfl := Except.ok.inj h
    exact ⟨p.spotOf v, mem_initialSpots.2 ⟨v, hv, rfl⟩, Tracked.covers_spotOf⟩
  enabled {st actions v e w} h hv hstep := by
    obtain rfl := Except.ok.inj h
    obtain ⟨rfl, hedge⟩ := hstep
    exact mem_enabledLinks.2 ⟨hv, hedge⟩
  successors {st e p states v w} h hv hstep := by
    obtain rfl := Except.ok.inj h
    obtain ⟨rfl, hedge⟩ := hstep
    have hcond : (st.covers v && g.hasEdge v w) = true := Bool.and_eq_true_iff.2 ⟨hv, hedge⟩
    rw [if_pos hcond]
    exact ⟨p.spotOf w, List.mem_singleton.2 rfl, Tracked.covers_spotOf⟩
  bottom h := by cases h
  leq h hv := Spot.covers_of_leq h hv
  merge h := by cases h
  target {st v} hv htarget := List.any_eq_true.2 ⟨v, htarget, hv⟩

/-! ### Finitely many states -/

/-- The abstract states at a precision. -/
def spots (g : Digraph) (p : Tracked) : Finset Spot := (Finset.range g.order).image p.spotOf

/-- **The states of the analysis are finitely many**: one for each tracked vertex and one for the
others. -/
theorem confined_model (hg : g.InRange) : g.model.Confined p (g.spots p) where
  initial h st hst := by
    obtain rfl := Except.ok.inj h
    obtain ⟨v, hv, rfl⟩ := mem_initialSpots.1 hst
    exact Finset.mem_image_of_mem _ (Finset.mem_range.2 (hg.init v hv))
  successors h st' hst' := by
    obtain ⟨-, hedge, rfl⟩ := follows_of_successors h hst'
    exact Finset.mem_image_of_mem _ (Finset.mem_range.2 (hg.edge hedge).2)
  merge h := by cases h
  reflexive st _ := st.leq_self

/-! ### Traces that go wrong -/

/-- How an abstract state may lead to another along an edge, at whichever precisions they were
made. -/
structure Joins (g : Digraph) (st : Spot) (e : Link) (st' : Spot) : Prop where
  /-- The first may be where the edge begins. -/
  source : st.covers e.source = true
  /-- The edge is one of the graph. -/
  edge : g.hasEdge e.source e.target = true
  /-- The second may be where the edge ends. -/
  target : st'.covers e.target = true

theorem Follows.joins {st st' : Spot} {e : Link} (h : g.Follows p st e st') : g.Joins st e st' :=
  ⟨h.covers, h.edge, h.eq_spotOf ▸ Tracked.covers_spotOf⟩

/-- How a trace goes wrong, and what to track then. -/
inductive Misses (g : Digraph) : Trace Spot Link → Mismatch → Prop
  /-- A lone state does not stand for an initial target. -/
  | lone {st : Spot} (h : ∀ v ∈ g.concretize st, v ∈ g.init → v ∉ g.targets) :
    Misses g ⟨st, []⟩ ⟨(g.concretize st).filter (· ∈ g.init), 0⟩
  /-- It begins at a vertex that is not initial. -/
  | source {st st' : Spot} {e : Link} {steps : List (Link × Spot)} (h : e.source ∉ g.init) :
    Misses g ⟨st, (e, st') :: steps⟩ ⟨.ofList [e.source], 0⟩
  /-- Two of its edges do not fit together. -/
  | gap {st st' : Spot} {e : Link} {steps : List (Link × Spot)} {i v : Nat}
      (h : firstBreak 1 e (steps.map Prod.fst) = some (i, v)) :
    Misses g ⟨st, (e, st') :: steps⟩ ⟨.ofList [v], i⟩
  /-- It does not end at a target. -/
  | target {st st' : Spot} {e : Link} {steps : List (Link × Spot)}
      (h : ((steps.map Prod.fst).getLastD e).target ∉ g.targets) :
    Misses g ⟨st, (e, st') :: steps⟩
      ⟨.ofList [((steps.map Prod.fst).getLastD e).target], steps.length + 1⟩

/-- If a trace is infeasible, the mismatch says why. -/
theorem misses_of_infeasible {t : Trace Spot Link} {m : Mismatch}
    (h : g.checkTrace t = .infeasible m) : g.Misses t m := by
  obtain ⟨st, _ | ⟨⟨e, st'⟩, steps⟩⟩ := t
  · replace h : g.checkLone st = .infeasible m := h
    rw [checkLone] at h
    split at h
    · cases h
    · rename_i hnone
      obtain rfl := Feasibility.infeasible.inj h
      refine .lone fun v hv hinit htarget ↦ List.find?_eq_none.1 hnone v hv ?_
      exact Bool.and_eq_true_iff.2 ⟨decide_eq_true hinit, decide_eq_true htarget⟩
  · replace h : g.checkLinks e (steps.map Prod.fst) = .infeasible m := h
    rw [checkLinks] at h
    split at h
    · obtain rfl := Feasibility.infeasible.inj h
      exact .source ‹_›
    · split at h
      · obtain rfl := Feasibility.infeasible.inj h
        exact .gap ‹_›
      · dsimp only at h
        split at h
        · obtain rfl := Feasibility.infeasible.inj h
          rw [List.length_map]
          exact .target ‹_›
        · cases h

/-- Where two edges of a trace do not fit together, there is a summary of the vertex there. -/
theorem exists_other_of_firstBreak {k j : Nat} {e : Link} {st : Spot} {steps : List (Link × Spot)}
    (hst : st.covers e.target = true) (halong : Along g.Joins st steps)
    (hbreak : firstBreak k e (steps.map Prod.fst) = some (j, v)) :
    k ≤ j ∧ ∃ excluded, (st :: steps.map Prod.snd)[j - k]? = some (.other excluded) ∧
      v ∉ excluded := by
  induction halong generalizing k e with
  | nil => cases hbreak
  | cons hstep _ ih =>
    rw [List.map_cons, firstBreak] at hbreak
    split at hbreak
    · obtain ⟨hle, excluded, hget, hv⟩ := ih hstep.target hbreak
      obtain ⟨d, rfl⟩ := Nat.exists_eq_add_of_le hle
      refine ⟨by omega, excluded, ?_, hv⟩
      rw [Nat.add_sub_cancel_left] at hget
      rw [show k + 1 + d - k = d + 1 by omega]
      exact hget
    · rename_i hne
      obtain ⟨rfl, rfl⟩ := Prod.mk.inj (Option.some.inj hbreak)
      obtain ⟨excluded, rfl, hv⟩ := Spot.eq_other_of_covers hst hstep.source hne
      exact ⟨Nat.le_refl _, excluded, by rw [Nat.sub_self]; rfl, hv⟩

theorem exists_of_firstBreak {k j : Nat} {e : Link} {links : List Link}
    (h : firstBreak k e links = some (j, v)) : ∃ f ∈ e :: links, f.target = v := by
  induction links generalizing k e with
  | nil => cases h
  | cons f links ih =>
    rw [firstBreak] at h
    split at h
    · obtain ⟨f', hf', rfl⟩ := ih h
      exact ⟨f', List.mem_cons_of_mem e hf', rfl⟩
    · obtain ⟨-, rfl⟩ := Prod.mk.inj (Option.some.inj h)
      exact ⟨e, List.mem_cons_self, rfl⟩

/-- The end of a trace may be where its last edge ends. -/
theorem covers_last {e : Link} {st : Spot} {steps : List (Link × Spot)}
    (hst : st.covers e.target = true) (halong : Along g.Joins st steps) :
    (⟨st, steps⟩ : Trace Spot Link).last.covers
      ((steps.map Prod.fst).getLastD e).target = true := by
  induction halong generalizing e with
  | nil => exact hst
  | cons hstep _ ih =>
    rw [Trace.last_cons, List.map_cons, List.getLastD_cons]
    exact ih hstep.target

namespace Misses

variable {t : Trace Spot Link} {m : Mismatch}

/-- The vertices that a mismatch asks to track are vertices of the graph. -/
theorem lt_order (hm : g.Misses t m) (hg : g.InRange)
    (hedges : ∀ e ∈ t.actions, g.hasEdge e.source e.target = true) (hv : v ∈ m.track) :
    v < g.order := by
  have heq : ∀ {w}, v ∈ IndexSet.ofList [w] → v = w := fun h ↦
    List.mem_singleton.1 (IndexSet.mem_ofList.1 h)
  cases hm with
  | lone => exact hg.init v (of_decide_eq_true (IndexSet.mem_filter.1 hv).2)
  | source => exact heq hv ▸ (hg.edge (hedges _ List.mem_cons_self)).1
  | gap hbreak =>
    obtain ⟨f, hf, rfl⟩ := exists_of_firstBreak hbreak
    exact heq hv ▸ (hg.edge (hedges f hf)).2
  | target => exact heq hv ▸ (hg.edge (hedges _ List.getLastD_mem_cons)).2

/-- **Where a trace goes wrong there is a summary of a vertex to track.** -/
theorem exists_other (hm : g.Misses t m) (hg : g.InRange)
    (hstart : ∃ v ∈ g.init, t.start.covers v = true) (halong : Along g.Joins t.start t.steps)
    (htarget : g.model.isTarget t.last = true) :
    ∃ excluded, t.states[m.index]? = some (.other excluded) ∧ ∃ v ∈ m.track, v ∉ excluded := by
  have hmem : ∀ {v}, v ∈ IndexSet.ofList [v] := IndexSet.mem_ofList.2 (List.mem_singleton.2 rfl)
  obtain ⟨v, hv, hst⟩ := hstart
  obtain ⟨w, hw, hlast⟩ := List.any_eq_true.1 htarget
  cases hm with
  | @lone st hnone =>
    cases st with
    | known u =>
      -- it would be an initial target
      obtain rfl : u = v := of_decide_eq_true hst
      obtain rfl : u = w := of_decide_eq_true hlast
      exact absurd hw (hnone u (g.mem_concretize.2 (decide_eq_true rfl)) hv)
    | other excluded =>
      have hout := of_decide_eq_true hst
      refine ⟨excluded, rfl, v, IndexSet.mem_filter.2 ⟨g.mem_concretize.2 ?_, ?_⟩, hout⟩
      · exact Bool.and_eq_true_iff.2 ⟨decide_eq_true (hg.init v hv), decide_eq_true hout⟩
      · exact decide_eq_true hv
  | @source _ _ e _ hinit =>
    cases halong with
    | cons hstep _ =>
      obtain ⟨excluded, hother, hout⟩ :=
        Spot.eq_other_of_covers hstep.source hst fun heq ↦ hinit (heq ▸ hv)
      exact ⟨excluded, congrArg some hother, e.source, hmem, hout⟩
  | @gap _ _ _ _ i u hbreak =>
    cases halong with
    | cons hstep hrest =>
      obtain ⟨hle, excluded, hget, hout⟩ := exists_other_of_firstBreak hstep.target hrest hbreak
      obtain ⟨d, rfl⟩ := Nat.exists_eq_add_of_le hle
      refine ⟨excluded, ?_, u, hmem, hout⟩
      rw [Nat.add_sub_cancel_left] at hget
      rw [Nat.add_comm]
      exact hget
  | @target st st' e steps hgoal =>
    cases halong with
    | cons hstep hrest =>
      rw [Trace.last_cons] at hlast
      obtain ⟨excluded, hother, hout⟩ :=
        Spot.eq_other_of_covers (covers_last hstep.target hrest) hlast fun heq ↦ hgoal (heq ▸ hw)
      refine ⟨excluded, ?_, _, hmem, hout⟩
      rw [← hother, ← Trace.last_cons (u := st) (a := e), ← Trace.getElem?_states_length,
        Trace.length, List.length_cons]

end Misses

/-- **A trace that is not feasible has a vertex to track that is not tracked yet.** -/
theorem exists_untracked_of_infeasible (hg : g.InRange) {t : Trace Spot Link} {m : Mismatch}
    (hstart : t.start ∈ g.initialSpots p) (halong : Along (g.Follows p) t.start t.steps)
    (htarget : g.model.isTarget t.last = true) (h : g.checkTrace t = .infeasible m) :
    ∃ v ∈ m.track, v < g.order ∧ v ∉ p.vertices := by
  have hm := misses_of_infeasible h
  obtain ⟨v, hv, hspot⟩ := mem_initialSpots.1 hstart
  obtain ⟨excluded, hget, w, hw, hout⟩ := hm.exists_other hg
    ⟨v, hv, hspot ▸ Tracked.covers_spotOf⟩ (halong.imp Follows.joins) htarget
  have hspots : ∀ st ∈ t.states, ∃ u, p.spotOf u = st :=
    List.forall_mem_cons.2 ⟨⟨v, hspot⟩, halong.forall_state fun hst ↦ ⟨_, hst.eq_spotOf.symm⟩⟩
  obtain ⟨u, hu⟩ := hspots _ (List.mem_of_getElem? hget)
  rw [Tracked.eq_of_spotOf_eq_other hu] at hout
  exact ⟨w, hw, hm.lt_order hg (halong.forall_action Follows.edge) hw, hout⟩

/-! ### Traces that are feasible -/

end Digraph

end AbstractionRefinement
