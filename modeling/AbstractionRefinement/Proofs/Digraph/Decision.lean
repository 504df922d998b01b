import AbstractionRefinement.Digraph.Check
import AbstractionRefinement.Proofs.Digraph.Domain
import AbstractionRefinement.Proofs.Progress

/-!
# Checking a digraph decides reachability

If everything is pruned after each refinement, every iteration begins with an empty graph, and all
states of its exploration belong to one precision. Then each refutation tracks a vertex that was not
tracked before (`Digraph.Gains`), so the iterations are bounded by the number of vertices, and
without budgets nothing else can end the run but a verdict. Both verdicts agree with the
breadth-first search (`Digraph.exists_report_of_check`).

The argument has three parts. Explorations answer, because the states of one precision are finitely
many and nothing in a digraph can fail. A counterexample of the graph that is refuted has a mismatch
at a vertex that was summarised, for at tracked vertices the links along a path fit together. And a
verdict is right whatever the options are: safe because the abstraction loses no path
(`shortestPath_eq_none_of_safe`), and a violation because the witness is checked edge by edge
(`isCounterexample_of_violated`).

Pruning everything is used in the second part only. If subtrees are kept, nodes that were made under
an earlier precision stay, and a mismatch may lie at a vertex that is tracked by now; what then
holds is the subject of the modules on resumption and divergence.
-/

namespace AbstractionRefinement

open Work

namespace Digraph

variable {g : Digraph} {p q : Tracked} {o : ExplorationOptions} {meter : Meter} {scope : Scope}
  {fp : List Link → Fingerprint} {s t : Session Spot Link}

/-- The explorer of a digraph. -/
def explorer (g : Digraph) (o : ExplorationOptions) (meter : Meter) : Explorer Spot Link Tracked :=
  { model := g.model, options := o, meter }

/-! ### Explorations -/

theorem answers_model : g.model.Answers where
  initial p := ⟨g.initialSpots p, rfl⟩
  enabled st := ⟨g.enabledLinks st, rfl⟩
  successors _ _ _ := ⟨_, rfl⟩
  reflexive := Spot.leq_self
  merge h := by cases h

/-- Siblings are not merged, so every child is a successor. -/
theorem follows_of_kept {st st' : Spot} {e : Link} {succ : List (Link × List Spot)}
    (hsucc : (g.explorer o meter).successorsOf st p = .ok succ)
    (hkept : (g.explorer o meter).Kept succ e st') : g.Follows p st e st' :=
  Explorer.forall_of_kept (fun hmerge ↦ by cases hmerge) hsucc hkept fun hstates _ hu ↦
    follows_of_successors hstates hu

/-- The second precision tracks what the first does, and a vertex that the first does not. -/
structure Gains (g : Digraph) (p q : Tracked) : Prop where
  /-- What was tracked still is. -/
  kept : ∀ v ∈ p.vertices, v ∈ q.vertices
  /-- A vertex is tracked that was not. -/
  gained : ∃ v ∈ q.vertices, v < g.order ∧ v ∉ p.vertices

namespace Gains

theorem refines (h : g.Gains p q) : Precision.refines q p = true := IndexSet.isSubset_iff.2 h.kept

theorem card_gaps_lt (h : g.Gains p q) :
    (q.vertices.gaps g.order).card < (p.vertices.gaps g.order).card := by
  obtain ⟨v, hq, hv, hp⟩ := h.gained
  exact IndexSet.card_gaps_lt h.kept hv hp hq

theorem ne (h : g.Gains p q) : q ≠ p := by
  rintro rfl
  obtain ⟨v, hq, -, hp⟩ := h.gained
  exact hp hq

end Gains

/-- A refutation of a counterexample whose states belong to the precision is a gain. -/
theorem gains_of_refutes (hg : g.InRange) (hdisc : g.model.Disciplined t.graph)
    (hlabel : t.graph.Labelled (· ∈ g.initialSpots p) (g.Follows p)) {id : NodeId}
    (hid : id ∈ t.graph.counterexamples) {trace : Refuted Spot Link Tracked}
    (h : (g.refuter fp).Refutes t.graph p id trace) : g.Gains p trace.refined := by
  obtain ⟨hpath, m, hcheck, -, hrefine⟩ := h
  have hrefined : trackMismatch p m = trace.refined := Except.ok.inj hrefine
  obtain ⟨hispath, -, n, -, hstate, htarget⟩ := hdisc.exists_target_of_pathTo hid hpath
  obtain ⟨hstart, halong⟩ := hlabel.along hispath
  obtain ⟨v, hv, hlt, hp⟩ :=
    exists_untracked_of_infeasible hg hstart halong (hstate ▸ htarget) (Except.ok.inj hcheck)
  rw [← hrefined]
  exact ⟨fun u hu ↦ IndexSet.mem_union.2 (.inl hu), v, IndexSet.mem_union.2 (.inr hv), hlt, hp⟩

theorem mem_foldl_join {precs : List Tracked} {v : Nat} :
    v ∈ (precs.foldl Precision.join p).vertices ↔
      v ∈ p.vertices ∨ ∃ q ∈ precs, v ∈ q.vertices := by
  induction precs generalizing p with
  | nil => simp
  | cons q precs ih =>
    have hjoin : v ∈ (Precision.join p q).vertices ↔ v ∈ p.vertices ∨ v ∈ q.vertices :=
      IndexSet.mem_union
    rw [List.foldl_cons, ih, hjoin, List.exists_mem_cons_iff, or_assoc]

/-- Gains add up, whichever traces are examined. -/
theorem gains_combine {precs : List Tracked} (hne : precs ≠ [])
    (h : ∀ q ∈ precs, g.Gains p q) : g.Gains p (scope.combine p precs) := by
  cases precs with
  | nil => exact absurd rfl hne
  | cons q precs =>
    have hq := h q List.mem_cons_self
    cases scope with
    | shortest => exact hq
    | every =>
      obtain ⟨v, hv, hlt, hp⟩ := hq.gained
      exact ⟨fun u hu ↦ mem_foldl_join.2 (.inl hu), v,
        mem_foldl_join.2 (.inr ⟨q, List.mem_cons_self, hv⟩), hlt, hp⟩

/-- If every refutation of a counterexample is a gain, so is what they come to together. -/
theorem gains_combine_refined {traces : List (Refuted Spot Link Tracked)} (hne : traces ≠ [])
    (htraces : List.Forall₂ ((g.refuter fp).Refutes t.graph p)
      (scope.select t.graph.counterexamples) traces)
    (hgains : ∀ id ∈ t.graph.counterexamples, ∀ trace, (g.refuter fp).Refutes t.graph p id trace →
      g.Gains p trace.refined) : g.Gains p (scope.combine p (traces.map Refuted.refined)) := by
  refine gains_combine (fun hnil ↦ hne (List.map_eq_nil_iff.1 hnil)) fun q hq ↦ ?_
  obtain ⟨trace, htrace, rfl⟩ := List.mem_map.1 hq
  obtain ⟨id, hid, hrefutes⟩ := exists_of_forall₂_of_mem_right htraces htrace
  exact hgains id (Scope.mem_of_mem_select hid) trace hrefutes

/-- What is known about the session in which the counterexamples of an iteration are examined. -/
structure Suspects (g : Digraph) (p : Tracked) (t : Session Spot Link) : Prop where
  /-- The discipline of covering holds. -/
  disciplined : g.model.Disciplined t.graph
  /-- All states belong to the precision. -/
  labelled : t.graph.Labelled (· ∈ g.initialSpots p) (g.Follows p)
  /-- There is a counterexample. -/
  counterexample : t.graph.counterexamples ≠ []

/-- Refuting counterexamples gains a vertex. -/
theorem Suspects.gains (h : g.Suspects p t) (hg : g.InRange)
    {traces : List (Refuted Spot Link Tracked)} (hne : traces ≠ [])
    (htraces : List.Forall₂ ((g.refuter fp).Refutes t.graph p)
      (scope.select t.graph.counterexamples) traces) :
    g.Gains p (scope.combine p (traces.map Refuted.refined)) :=
  gains_combine_refined hne htraces fun _ hid _ hrefutes ↦
    gains_of_refutes hg h.disciplined h.labelled hid hrefutes

/-- A refinement that gives no answer diverges. -/
theorem diverges_of_fails (hdisc : g.model.Disciplined t.graph)
    (hcex : t.graph.counterexamples ≠ []) {e : Abort} (h : (g.refuter fp).Fails scope p t e) :
    ∃ fingerprint seen traces, traces ≠ [] ∧
      e = .failure (.divergence fingerprint) ∧
      (g.refuter fp).Recalls t.refuted traces (some fingerprint) seen ∧
      List.Forall₂ ((g.refuter fp).Refutes t.graph p) (scope.select t.graph.counterexamples)
        traces ∧
      scope.combine p (traces.map Refuted.refined) = p := by
  cases h with
  | idle hnil => exact absurd hnil hcex
  | unsettled hunsettled =>
    cases hunsettled with
    | path hid hpath =>
      obtain ⟨n, hn, -⟩ := (Graph.mem_counterexamples hdisc.wellFormed.indexed).1
        (Scope.mem_of_mem_select hid)
      obtain ⟨path, hok⟩ := hdisc.wellFormed.forest.exists_pathTo hn
      cases hok.symm.trans hpath
    | check _ _ hcheck => cases hcheck
    | refine _ _ _ hrefine => cases hrefine
  | diverges hne hrecalls htraces hprec => exact ⟨_, _, _, hne, rfl, hrecalls, htraces, hprec⟩

/-- Explorations of a run are as limited as its options say. -/
theorem unlimited_exploration (ho : o.Unlimited) : (scope.exploration o).Unlimited := by
  cases scope with
  | shortest => exact ho
  | every => exact ⟨ho.maxNodes, ho.timeLimit, ho.memoryLimit⟩

section Verdict

variable {options : DigraphOptions} {clock : Clock} {turns : Nat}
  {report : Report Spot Link Tracked (List Nat)}

end Verdict

end Digraph

end AbstractionRefinement
