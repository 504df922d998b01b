import AbstractionRefinement.Proofs.Graph.Removal
import AbstractionRefinement.Proofs.Refinement.Cuts

/-!
# What a refinement leaves

A refinement examines all its counterexamples before it changes anything, so whatever ends it up to
there leaves the session as it was. Then it remembers the traces, which may let nodes retire as
coverers but leaves the forest alone (`Graph.Relinks`), and last it prunes, unless it diverges.
These are all the ways in which it can end (`Refuter.Effect`).

Traces overlap, and a node at which a trace is cut may be gone already when its turn comes. What is
left does not depend on this (`Refuter.contains_pruneRefuted`). A counterexample is below every node
of its trace, so each one examined is gone, and no target is uncovered in its place as long as no
target was covered.

The cases of `Refuter.Effect` are the outcomes of a refinement together with what each leaves: no
counterexample was there to examine; one could not be settled; one is genuine; the run diverges, and
then nodes have retired but nothing is pruned; or the precision is refined, and what is left of the
graph is said node by node.

It is an inversion, made once from the code; what is said about single outcomes elsewhere starts
from it.
-/

namespace AbstractionRefinement

open Work Session

variable {S A : Type}

namespace Graph

variable {g g' g'' : Graph S A} {a i : NodeId}

/-! ### Changes of covering links -/

/-- The second graph is the first with other covering links and other leaves to cover. -/
def Relinks (g g' : Graph S A) : Prop :=
  ∃ f, Rewrites f g g' ∧ ∀ i n, (f i n).expanded = n.expanded

theorem Relinks.refl (g : Graph S A) : g.Relinks g := ⟨_, .refl g, fun _ _ ↦ rfl⟩

theorem Relinks.trans (h : g.Relinks g') (h' : g'.Relinks g'') : g.Relinks g'' := by
  obtain ⟨f, hf, hexp⟩ := h
  obtain ⟨f', hf', hexp'⟩ := h'
  exact ⟨_, hf.trans hf', fun i n ↦ (hexp' i _).trans (hexp i n)⟩

theorem Relinks.sameTree (h : g.Relinks g') : SameTree g g' := by
  obtain ⟨f, hf, -⟩ := h
  exact hf.sameTree

/-- Retiring a coverer changes coverings and nothing else. -/
theorem relinks_retireCoverer : g.Relinks (g.retireCoverer a) := by
  cases hn : g.node? a with
  | none =>
    rw [retireCoverer_of_none hn]
    exact .refl g
  | some n => exact ⟨_, rewrites_retireCoverer hn, fun _ _ ↦ rfl⟩

theorem relinks_foldl_retireCoverer {nodes : List NodeId} :
    g.Relinks (nodes.foldl retireCoverer g) := by
  induction nodes generalizing g with
  | nil => exact .refl g
  | cons a nodes ih => exact relinks_retireCoverer.trans ih

theorem SameTree.isChild (h : SameTree g g') (hc : g.IsChild a i) : g'.IsChild a i := by
  obtain ⟨n, hn, he⟩ := hc
  obtain ⟨m, hm, hb⟩ := h.symm.node? hn
  exact ⟨m, hm, by rw [Node.parent?, (Node.bare_eq_iff.1 hb).2.2.2.1]; exact he⟩

/-- Graphs of the same tree agree on what is below a node. -/
theorem SameTree.below_iff (h : SameTree g g') : g'.Below a i ↔ g.Below a i :=
  ⟨Relation.ReflTransGen.mono (fun _ _ hc ↦ h.symm.isChild hc) a i,
    Relation.ReflTransGen.mono (fun _ _ hc ↦ h.isChild hc) a i⟩

/-! ### Along a path -/

/-- The last node of a path is below each of its nodes. -/
theorem Descends.below_last {u v : Visit S} {steps : List (A × Visit S)} (h : g.Descends u steps)
    (hv : v ∈ (⟨u, steps⟩ : Path S A).states) :
    g.Below v.node (⟨u, steps⟩ : Path S A).last.node := by
  induction h generalizing v with
  | nil =>
    obtain rfl := List.mem_singleton.1 hv
    exact .refl
  | @cons u w _ _ n hn _ hin _ ih =>
    rw [Trace.last_cons]
    rcases List.mem_cons.1 hv with rfl | hv
    · have hchild : g.IsChild v.node w.node := ⟨n, hn, by rw [Node.parent?, hin]; rfl⟩
      exact .head hchild (ih List.mem_cons_self)
    · exact ih hv

/-- The end of a path is below every node of it. -/
theorem IsPath.below_target {t : Path S A} (ht : g.IsPath t) (ha : a ∈ t.nodes) :
    g.Below a t.target := by
  obtain ⟨v, hv, rfl⟩ := List.mem_map.1 ha
  exact ht.descends.below_last hv

end Graph

namespace Refuter

variable {P W R : Type} {r : Refuter S A P W R} {g : Graph S A} {i : NodeId}

/-! ### Cuts -/

/-- A trace is cut at one of its nodes: the one at the given position, or the last. -/
theorem getElem?_nodes_cut {t : Refuted S A P} :
    t.path.nodes[min t.cut t.path.length]? = some (cutNode t) := by
  have hlength : t.path.nodes.length = t.path.length + 1 := by
    rw [Path.nodes, List.length_map, Trace.length_states]
  have hlast : t.path.nodes[t.path.length]? = some t.path.target := by
    rw [Path.nodes, List.getElem?_map, Trace.getElem?_states_length]
    rfl
  rw [cutNode, List.getD_eq_getElem?_getD]
  rcases Nat.lt_or_ge t.path.length t.cut with hlt | hle
  · rw [Nat.min_eq_right (Nat.le_of_lt hlt), hlast, List.getElem?_eq_none (hlength ▸ hlt)]
    rfl
  · rw [Nat.min_eq_left hle, List.getElem?_eq_getElem (hlength ▸ Nat.lt_succ_of_le hle)]
    rfl

/-- **What is left of the graph** if traces are cut one after the other. -/
theorem contains_pruneRefuted (hg : g.WellFormed) {traces : List (Refuted S A P)} :
    (pruneRefuted .subtree g traces).contains i = true ↔
      g.contains i = true ∧ ∀ t ∈ traces, ¬g.Below (cutNode t) i := by
  rw [pruneRefuted, ← List.foldl_map (f := cutNode) (g := Graph.prune), hg.contains_foldl_prune,
    List.forall_mem_map]

/-! ### Ways to end -/

/-- Remembering traces only changes links, and gives an answer. -/
theorem relinks_observeAll (r : Refuter S A P W R) (traces : List (Refuted S A P))
    (s : Session S A) :
    ∃ repeated u, r.observeAll traces s = (.ok repeated, u) ∧ s.graph.Relinks u.graph := by
  induction traces generalizing s with
  | nil => exact ⟨none, s, rfl, .refl _⟩
  | cons t traces ih =>
    have hfirst : ∃ again w, observeRefuted (r.fingerprint t.path.actions) t.path.nodes s =
        (.ok again, w) ∧ s.graph.Relinks w.graph := by
      by_cases hseen : r.fingerprint t.path.actions ∈ s.refuted
      · simp only [observeRefuted, observe, if_pos hseen]
        exact ⟨_, _, rfl, Graph.relinks_foldl_retireCoverer⟩
      · simp only [observeRefuted, observe, if_neg hseen]
        exact ⟨_, _, rfl, .refl _⟩
    obtain ⟨again, w, hw, hsw⟩ := hfirst
    obtain ⟨later, u, hu, hwu⟩ := ih w
    refine ⟨if again then some (r.fingerprint t.path.actions) else later, u, ?_, hsw.trans hwu⟩
    rw [observeAll, bind_of_ok (congrArg Prod.fst hw), hw, bind_of_ok (congrArg Prod.fst hu), hu]
    rfl

variable [DecidableEq P] [Precision P] {scope : Scope} {pruning : Pruning} {prec : P}
  {s t : Session S A} {outcome : Except Abort (Refinement S A P W)}

/-- How a refinement may end, and in which session. -/
inductive Effect (r : Refuter S A P W R) (scope : Scope) (pruning : Pruning) (prec : P)
    (s : Session S A) : Except Abort (Refinement S A P W) → Session S A → Prop
  /-- Before anything is changed, without having refuted everything. -/
  | unchanged {outcome : Except Abort (Refinement S A P W)}
      (h : ∀ refined, outcome ≠ .ok (.spurious refined)) : Effect r scope pruning prec s outcome s
  /-- By divergence, after the traces have been remembered. -/
  | diverges {fingerprint : Fingerprint} {u : Session S A} (h : s.graph.Relinks u.graph) :
    Effect r scope pruning prec s (.error (.failure (.divergence fingerprint))) u
  /-- With a refined precision, and everything that the traces invalidate pruned. -/
  | prunes {traces : List (Refuted S A P)} {refined : P} {u : Session S A}
      (hne : scope.select s.graph.counterexamples ≠ [])
      (htraces : List.Forall₂ (r.Refutes s.graph prec) (scope.select s.graph.counterexamples)
        traces)
      (hu : u.graph.WellFormed) (h : s.graph.Relinks u.graph) :
    Effect r scope pruning prec s (.ok (.spurious refined))
      { u with graph := pruneRefuted pruning u.graph traces }

/-- **What one refinement does**, in each of its outcomes. -/
theorem effect_run (hs : s.graph.WellFormed) (h : r.run scope pruning prec s = (outcome, t)) :
    r.Effect scope pruning prec s outcome t := by
  rw [run, currentGraph_bind] at h
  dsimp only at h
  split at h
  · obtain ⟨rfl, rfl⟩ := Prod.mk.inj h
    exact .unchanged fun _ heq ↦ by cases heq
  rename_i hne
  rw [List.isEmpty_iff] at hne
  have hfinds : r.Finds s.graph prec (scope.select s.graph.counterexamples)
    (r.examine s.graph prec (scope.select s.graph.counterexamples)) := finds_examine
  cases hexam : r.examine s.graph prec (scope.select s.graph.counterexamples) with
  | error e =>
    rw [hexam, bind_of_error (m := demand (.error e)) rfl] at h
    obtain ⟨rfl, rfl⟩ := Prod.mk.inj h
    exact .unchanged fun _ heq ↦ by cases heq
  | ok exam =>
    rw [demand_bind hexam] at h
    rw [hexam] at hfinds
    cases exam with
    | genuine path witness =>
      obtain ⟨rfl, rfl⟩ := Prod.mk.inj h
      exact .unchanged fun _ heq ↦ by cases heq
    | refuted traces =>
      obtain ⟨repeated, u, hu, hsu⟩ := r.relinks_observeAll traces s
      have hwf : u.graph.WellFormed :=
        wellFormed_of_cuts ((does_observeAll (E := fun _ _ ↦ True)).change_of_eq hu) hs
      dsimp only at h
      rw [bind_of_ok (congrArg Prod.fst hu), hu] at h
      cases repeated with
      | none =>
        obtain ⟨rfl, rfl⟩ := Prod.mk.inj h
        exact .prunes hne hfinds hwf hsu
      | some fingerprint =>
        dsimp only at h
        split at h
        · obtain ⟨rfl, rfl⟩ := Prod.mk.inj h
          exact .diverges hsu
        · obtain ⟨rfl, rfl⟩ := Prod.mk.inj h
          exact .prunes hne hfinds hwf hsu

/-! ### Atomicity and progress -/

omit [DecidableEq P] [Precision P] in
/-- A refuted counterexample is below the node at which its trace is cut. -/
theorem Refutes.below {id : NodeId} {trace : Refuted S A P} (h : r.Refutes g prec id trace) :
    g.Below (cutNode trace) id := by
  obtain ⟨hpath, htarget⟩ := Graph.isPath_of_pathTo h.1
  rw [← htarget]
  exact hpath.below_target (List.mem_of_getElem? getElem?_nodes_cut)

/-- **If every counterexample is gone there is none**, as long as no target was covered. -/
theorem counterexamples_of_cuts (h : Relation.ReflTransGen Cuts s t) (hs : s.graph.WellFormed)
    (htargets : ∀ {i n}, s.graph.node? i = some n → n.target = true → n.coveredBy = none)
    (hgone : ∀ id ∈ s.graph.counterexamples, t.graph.node? id = none) :
    t.graph.counterexamples = [] := by
  refine List.eq_nil_iff_forall_not_mem.2 fun id hid ↦ ?_
  obtain ⟨m, hm, hcex⟩ := (Graph.mem_counterexamples (wellFormed_of_cuts h hs).indexed).1 hid
  obtain ⟨n, hn, hnm⟩ := (shrinks_of_cuts h hs).node? hm
  rw [Node.isCounterexample, Bool.and_eq_true] at hcex
  have hntarget : n.target = true := hnm.target ▸ hcex.1
  have hncex : n.isCounterexample = true := by
    rw [Node.isCounterexample, Node.isCovered, hntarget, htargets hn hntarget]
    rfl
  rw [hgone id ((Graph.mem_counterexamples hs.indexed).2 ⟨n, hn, hncex⟩)] at hm
  cases hm

/-- **Atomicity and progress of a refinement** in a graph without covered targets. If it gives a
genuine counterexample, or stops for any other reason than divergence, the session is as before. If
it diverges, nothing but covering links and leaves to cover differs in the graph. If every
counterexample examined was refuted, there was one; by pruning everything the graph is empty and has
to be initialized again; by pruning below cuts exactly those nodes are left that are not below the
node of an examined trace at its cut, or its last node if the cut is past the end, so that every
counterexample examined is gone, and if all were examined there is none. -/
theorem atomic_of_run (hs : s.graph.WellFormed)
    (htargets : ∀ {i n}, s.graph.node? i = some n → n.target = true → n.coveredBy = none)
    (h : r.run scope pruning prec s = (outcome, t)) :
    (∀ path witness, outcome = .ok (.genuine path witness) → t = s) ∧
      (∀ e, outcome = .error e → (∀ f, e ≠ .failure (.divergence f)) → t = s) ∧
      (∀ f, outcome = .error (.failure (.divergence f)) → s.graph.Relinks t.graph) ∧
      ∀ refined, outcome = .ok (.spurious refined) →
        scope.select s.graph.counterexamples ≠ [] ∧
        (pruning = .everything → (∀ i, t.graph.node? i = none) ∧ t.graph.live = 0 ∧
          t.graph.roots = [] ∧ t.graph.initialized = false) ∧
        (pruning = .subtree →
          (∃ traces, List.Forall₂ (r.Refutes s.graph prec)
              (scope.select s.graph.counterexamples) traces ∧
            ∀ i, t.graph.contains i = true ↔ s.graph.contains i = true ∧ ∀ trace ∈ traces,
              ∃ a, trace.path.nodes[min trace.cut trace.path.length]? = some a ∧
                ¬s.graph.Below a i) ∧
          (∀ id ∈ scope.select s.graph.counterexamples, t.graph.node? id = none) ∧
          (scope = .every → t.graph.counterexamples = [])) := by
  have hcuts := does_run.change_of_eq h
  cases effect_run hs h with
  | unchanged hno =>
    refine ⟨fun _ _ _ ↦ rfl, fun _ _ _ ↦ rfl, fun _ _ ↦ .refl _, fun refined heq ↦ ?_⟩
    exact absurd heq (hno refined)
  | @diverges f u hsu =>
    refine ⟨fun _ _ heq ↦ ?_, fun e heq hother ↦ ?_, fun _ _ ↦ hsu, fun _ heq ↦ ?_⟩
    · cases heq
    · exact absurd (Except.error.inj heq).symm (hother f)
    · cases heq
  | @prunes traces refined u hne htraces hu hsu =>
    refine ⟨fun _ _ heq ↦ ?_, fun _ heq ↦ ?_, fun _ heq ↦ ?_, fun _ _ ↦ ⟨hne, ?_, ?_⟩⟩
    · cases heq
    · cases heq
    · cases heq
    · rintro rfl
      exact ⟨fun _ ↦ Graph.node?_pruneAll, rfl, rfl, rfl⟩
    · rintro rfl
      have hleft : ∀ i, (pruneRefuted .subtree u.graph traces).contains i = true ↔
          s.graph.contains i = true ∧ ∀ trace ∈ traces, ¬s.graph.Below (cutNode trace) i := by
        intro i
        rw [contains_pruneRefuted hu, hsu.sameTree.contains_eq]
        simp only [hsu.sameTree.below_iff]
      have hgone : ∀ id ∈ scope.select s.graph.counterexamples,
          (pruneRefuted .subtree u.graph traces).node? id = none := by
        intro id hid
        obtain ⟨trace, htrace, hrefutes⟩ := exists_of_forall₂_of_mem_left htraces hid
        by_contra hlive
        obtain ⟨m, hm⟩ := Option.ne_none_iff_exists'.1 hlive
        exact ((hleft id).1 (Graph.contains_iff.2 ⟨m, hm⟩)).2 trace htrace hrefutes.below
      refine ⟨⟨traces, htraces, fun i ↦ ?_⟩, hgone, ?_⟩
      · simp only [getElem?_nodes_cut, Option.some.injEq, exists_eq_left']
        exact hleft i
      · rintro rfl
        exact counterexamples_of_cuts hcuts hs htargets hgone

end Refuter

/-- A root with a target, a node that is covered by another one, and below that two more targets. -/
def grove : List (Edit Nat Nat) :=
  [.addRoot 0 0 false, .addChild 0 10 1 0 false, .addChild 1 20 2 0 true, .addChild 1 21 3 0 true,
    .addChild 0 11 4 0 true, .addChild 0 12 5 0 false, .setExpanded 0 true, .setExpanded 1 true,
    .setInitialized true, .cover 5 1]

/-- Every trace is refuted. One is cut past its end, the others behind their first state. -/
def feller : Refuter Nat Nat Unit Unit Nat where
  check trace := .ok (.infeasible (if trace.last = 3 then 9 else 1))
  cutIndex cut := cut
  refine prec _ _ := .ok prec
  fingerprint actions := ⟨(actions.getLastD 0).toUInt64⟩

/-- Refuting all targets at once leaves the root and the node that was covered, although one trace
is cut at a node that is already gone. If a trace has been refuted before, the same refinement
diverges, and the node is released. -/
theorem atomic_grove : ∃ g t u f, (Graph.empty : Graph Nat Nat).applyAll grove = .ok g ∧
    g.counterexamples = [4, 2, 3] ∧ g.incompleteNodes = [] ∧
    feller.run .every .subtree () { graph := g } = (.ok (.spurious ()), t) ∧
    t.graph.nodeIds = [0, 5] ∧ t.graph.counterexamples = [] ∧
    feller.run .every .subtree () { graph := g, refuted := [⟨20⟩] } =
      (.error (.failure (.divergence f)), u) ∧
    g.Relinks u.graph ∧ u.graph.incompleteNodes.map Node.id = [5] := by
  have hbuilt : ((Graph.empty : Graph Nat Nat).applyAll grove).toOption.any (fun g ↦
      g.counterexamples == [4, 2, 3] && g.incompleteNodes.isEmpty &&
      (feller.run .every .subtree () { graph := g }).1 == .ok (.spurious ()) &&
      (feller.run .every .subtree () { graph := g }).2.graph.nodeIds == [0, 5] &&
      (feller.run .every .subtree () { graph := g, refuted := [⟨20⟩] }).1 ==
        .error (.failure (.divergence ⟨20⟩)) &&
      (feller.run .every .subtree () { graph := g, refuted := [⟨20⟩] }).2.graph.incompleteNodes.map
        Node.id == [5] &&
      g.targetNodes.all (!·.isCovered)) = true := by
    decide +kernel
  obtain ⟨g, hg, htest⟩ := exists_of_toOption_any hbuilt
  simp only [Bool.and_eq_true, List.isEmpty_iff, beq_iff_eq] at htest
  obtain ⟨⟨⟨⟨⟨⟨hcex, hinc⟩, hrefined⟩, hids⟩, hdiverges⟩, hinc'⟩, huncovered⟩ := htest
  have hwf : g.WellFormed := foldlM_induct hg Graph.wellFormed_empty fun _ hb he ↦ hb.apply he
  have htargets : ∀ {i n}, g.node? i = some n → n.target = true → n.coveredBy = none := by
    intro i n hn htarget
    have hmem := List.mem_filter.2 ⟨Graph.mem_nodes.2 ⟨i, hn⟩, htarget⟩
    simpa [Node.isCovered] using List.all_eq_true.1 huncovered n hmem
  have hpruned := Refuter.atomic_of_run (s := { graph := g }) hwf htargets
    (Prod.ext hrefined rfl : feller.run .every .subtree () { graph := g } = (_, _))
  have hkept := Refuter.atomic_of_run (s := { graph := g, refuted := [⟨20⟩] }) hwf htargets
    (Prod.ext hdiverges rfl :
      feller.run .every .subtree () { graph := g, refuted := [⟨20⟩] } = (_, _))
  refine ⟨g, _, _, ⟨20⟩, hg, hcex, hinc, Prod.ext hrefined rfl, hids, ?_,
    Prod.ext hdiverges rfl, hkept.2.2.1 ⟨20⟩ rfl, hinc'⟩
  exact ((hpruned.2.2.2 () rfl).2.2 rfl).2.2 rfl

end AbstractionRefinement
