import AbstractionRefinement.Proofs.Graph.Edits
import AbstractionRefinement.Proofs.Graph.Paths
import AbstractionRefinement.Proofs.Refinement.Cuts

/-!
# The shortest counterexample

Depths are stored when nodes are created, and paths are found by climbing; in a forest both say the
same (`Graph.IsPath.length_eq`). So a list of counterexamples by stored depth is a list by the
lengths of their paths, and the one that comes first, which is the only one that a refinement by a
single trace asks about (`Refuter.Consults`), has no longer path than any other.

The order is by depth and then by position. It is strict on the nodes of a graph, whose positions
differ, so inserting nodes one by one sorts them (`pairwise_foldr_insertByDepth`), and the list does
not depend on the order in which they came.

The main result is about every graph that edits make of the empty one (`shortest_of_applyAll`): each
live node has a path that ends there, each counterexample is listed once, the list is sorted by the
lengths of the paths, and a refinement that examines one counterexample asks its refuter about a
shortest one. What it asks cannot be read off its answer. So `Refuter.Consults` says that the answer
does not change when the refuter is replaced by one that agrees with it on this trace.
-/

namespace AbstractionRefinement

variable {S A P W R : Type}

/-- The first node is less deep than the second, or as deep and older. -/
def Node.Before (n m : Node S A) : Prop := n.depth < m.depth ∨ n.depth = m.depth ∧ n.id < m.id

/-- What comes before is no deeper. -/
theorem Node.Before.depth_le {n m : Node S A} (h : n.Before m) : n.depth ≤ m.depth := by
  unfold Before at h
  omega

theorem Node.Before.trans {n m k : Node S A} (h : n.Before m) (h' : m.Before k) : n.Before k := by
  rcases h with h | ⟨h, hid⟩
  · exact .inl (Nat.lt_of_lt_of_le h h'.depth_le)
  · rcases h' with h' | ⟨h', hid'⟩
    · exact .inl (h ▸ h')
    · exact .inr ⟨h.trans h', Nat.lt_trans hid hid'⟩

theorem Node.before_of_not_before {n m : Node S A} (h : ¬n.Before m) (hne : n.id ≠ m.id) :
    m.Before n := by
  rcases Nat.lt_trichotomy n.depth m.depth with hlt | heq | hgt
  · exact absurd (.inl hlt) h
  · have hid : ¬n.id < m.id := fun hid ↦ h (.inr ⟨heq, hid⟩)
    exact .inr ⟨heq.symm, Nat.lt_of_le_of_ne (Nat.not_lt.1 hid) hne.symm⟩
  · exact .inl hgt

namespace Graph

variable {g : Graph S A} {id : NodeId} {n : Node S A} {t : Path S A}

/-! ### Depths and lengths -/

/-- Each step leads one level down. -/
theorem Descends.depth_eq {u : Visit S} {steps : List (A × Visit S)} {m : Node S A}
    (h : g.Descends u steps) (hg : g.Forest) (hm : g.node? u.node = some m)
    (hn : g.node? (⟨u, steps⟩ : Path S A).last.node = some n) :
    n.depth = m.depth + steps.length := by
  induction h generalizing m with
  | nil =>
    obtain rfl := Option.some.inj (hm.symm.trans hn)
    rfl
  | @cons u w a steps k hk _ hin _ ih =>
    rw [Trace.last_cons] at hn
    obtain ⟨-, p, hp, hdepth⟩ := hg.parent hk hin
    obtain rfl := Option.some.inj (hm.symm.trans hp)
    rw [ih hk hn, hdepth, List.length_cons]
    omega

/-- **A path is as long as its end is deep.** -/
theorem IsPath.length_eq (h : g.IsPath t) (hg : g.Forest) (hn : g.node? t.target = some n) :
    t.length = n.depth := by
  obtain ⟨m, hm, -, hroot⟩ := h.root
  rw [h.descends.depth_eq hg hm hn, hg.root_depth hm hroot, Nat.zero_add]
  rfl

/-- The path to a node is as long as the node is deep. -/
theorem length_eq_of_pathTo (hg : g.Forest) (hn : g.node? id = some n)
    (h : g.pathTo id = .ok t) : t.length = n.depth := by
  obtain ⟨hpath, rfl⟩ := isPath_of_pathTo h
  exact hpath.length_eq hg hn

/-! ### The order of counterexamples -/

/-- A node goes before those that are deeper, or as deep and younger. -/
theorem pairwise_insertByDepth {l : List (Node S A)} (hnew : ∀ m ∈ l, n.id ≠ m.id)
    (hl : l.Pairwise Node.Before) : (insertByDepth n l).Pairwise Node.Before := by
  induction l with
  | nil => exact List.pairwise_singleton _ _
  | cons k l ih =>
    obtain ⟨hk, hrest⟩ := List.pairwise_cons.1 hl
    obtain ⟨hne, hnew⟩ := List.forall_mem_cons.1 hnew
    rw [insertByDepth]
    split
    · rename_i hnk
      have hbefore : n.Before k := hnk
      exact List.pairwise_cons.2
        ⟨List.forall_mem_cons.2 ⟨hbefore, fun m hm ↦ hbefore.trans (hk m hm)⟩, hl⟩
    · rename_i hnk
      refine List.pairwise_cons.2 ⟨fun m hm ↦ ?_, ih hnew hrest⟩
      rcases List.mem_cons.1 (perm_insertByDepth.mem_iff.1 hm) with rfl | hm
      · exact Node.before_of_not_before hnk hne
      · exact hk m hm

/-- Inserting nodes one by one sorts them by depth, and by position where it is equal. -/
theorem pairwise_foldr_insertByDepth {l : List (Node S A)} (hl : (l.map Node.id).Nodup) :
    (l.foldr insertByDepth []).Pairwise Node.Before := by
  induction l with
  | nil => exact .nil
  | cons n l ih =>
    obtain ⟨hn, hl⟩ := List.nodup_cons.1 hl
    refine pairwise_insertByDepth (fun m hm heq ↦ hn ?_) (ih hl)
    rw [heq]
    exact List.mem_map_of_mem (perm_foldr_insertByDepth.mem_iff.1 hm)

/-- The live node at the first position comes before the one at the second. -/
def Precedes (g : Graph S A) (i j : NodeId) : Prop :=
  ∃ n m, g.node? i = some n ∧ g.node? j = some m ∧ n.Before m

/-- **Counterexamples are listed by depth, and those of one depth by age.** -/
theorem Indexed.pairwise_counterexamples (hg : g.Indexed) :
    g.counterexamples.Pairwise g.Precedes := by
  have hids : ((g.nodes.filter Node.isCounterexample).map Node.id).Nodup :=
    (List.filter_sublist.map Node.id).nodup hg.nodup_nodes
  have hlive : ∀ m ∈ (g.nodes.filter Node.isCounterexample).foldr insertByDepth [],
      g.node? m.id = some m := by
    intro m hm
    have hmem := perm_foldr_insertByDepth.mem_iff.1 hm
    obtain ⟨i, hi⟩ := mem_nodes.1 (List.mem_filter.1 hmem).1
    rwa [hg.id_eq hi]
  refine List.pairwise_map.2 ((pairwise_foldr_insertByDepth hids).imp_of_mem ?_)
  intro k m hk hm hkm
  exact ⟨k, m, hlive k hk, hlive m hm, hkm⟩

/-- The first counterexample is as shallow as any. -/
theorem Indexed.depth_le_of_head? (hg : g.Indexed) {i j : NodeId} {m : Node S A}
    (hi : g.counterexamples.head? = some i) (hj : j ∈ g.counterexamples)
    (hn : g.node? i = some n) (hm : g.node? j = some m) : n.depth ≤ m.depth := by
  obtain ⟨rest, hrest⟩ := List.head?_eq_some_iff.1 hi
  rw [hrest] at hj
  have hsorted := hg.pairwise_counterexamples
  rw [hrest] at hsorted
  rcases List.mem_cons.1 hj with rfl | hj
  · exact Nat.le_of_eq (congrArg Node.depth (Option.some.inj (hn.symm.trans hm)))
  · obtain ⟨k, l, hk, hl, hle⟩ := (List.pairwise_cons.1 hsorted).1 j hj
    obtain rfl := Option.some.inj (hn.symm.trans hk)
    obtain rfl := Option.some.inj (hm.symm.trans hl)
    exact hle.depth_le

/-- **No counterexample has a shorter path than the first.** -/
theorem WellFormed.length_le_of_head? (hg : g.WellFormed) {i j : NodeId} {t' : Path S A}
    (hi : g.counterexamples.head? = some i) (hj : j ∈ g.counterexamples)
    (ht : g.pathTo i = .ok t) (ht' : g.pathTo j = .ok t') : t.length ≤ t'.length := by
  obtain ⟨n, hn, -⟩ := (mem_counterexamples hg.indexed).1 (List.mem_of_mem_head? hi)
  obtain ⟨m, hm, -⟩ := (mem_counterexamples hg.indexed).1 hj
  rw [length_eq_of_pathTo hg.forest hn ht, length_eq_of_pathTo hg.forest hm ht']
  exact hg.indexed.depth_le_of_head? hi hj hn hm

end Graph

/-! ### The trace that a refinement asks about -/

namespace Refuter

open Session Work

variable {r : Refuter S A P W R}

theorem observeAll_withCheck {check : Trace S A → Except Abort (Feasibility W R)}
    {traces : List (Refuted S A P)} :
    ({ r with check } : Refuter S A P W R).observeAll traces = r.observeAll traces := by
  induction traces with
  | nil => rfl
  | cons t traces ih => rw [observeAll, observeAll, ih]

variable [DecidableEq P] [Precision P] {pruning : Pruning} {prec : P} {s : Session S A}
  {id : NodeId} {path : Path S A}

/-- A refinement by a single trace asks about the trace of this path and about no other. -/
structure Consults (r : Refuter S A P W R) (pruning : Pruning) (prec : P) (s : Session S A)
    (path : Path S A) : Prop where
  /-- If the trace is feasible, the path is the answer. -/
  genuine : ∀ witness, r.check path.trace = .ok (.feasible witness) →
    r.run .shortest pruning prec s = (.ok (.genuine path witness), s)
  /-- What is said about other traces does not matter. -/
  only : ∀ check, check path.trace = r.check path.trace →
    ({ r with check } : Refuter S A P W R).run .shortest pruning prec s =
      r.run .shortest pruning prec s

/-- **The first counterexample is the one asked about.** -/
theorem consults_of_head? (hid : s.graph.counterexamples.head? = some id)
    (hpath : s.graph.pathTo id = .ok path) : r.Consults pruning prec s path := by
  have hselect : Scope.shortest.select s.graph.counterexamples = [id] := by
    obtain ⟨rest, hrest⟩ := List.head?_eq_some_iff.1 hid
    rw [hrest]
    rfl
  constructor
  · intro witness hcheck
    have hexam : r.examine s.graph prec [id] = .ok (.genuine path witness) := by
      simp [examine, hpath, hcheck, orFault, bind, Except.bind, pure, Except.pure]
    rw [run, currentGraph_bind]
    simp only [hselect]
    rw [if_neg (by simp), demand_bind hexam]
    rfl
  · intro check hcheck
    have hexam : ({ r with check } : Refuter S A P W R).examine s.graph prec [id] =
        r.examine s.graph prec [id] := by
      simp only [examine, hpath, orFault, bind, Except.bind, hcheck]
    rw [run, run, currentGraph_bind, currentGraph_bind]
    simp only [hselect, hexam, observeAll_withCheck]

end Refuter

/-! ### Any sequence of edits -/

namespace Graph

variable {g : Graph S A}

/-- **Counterexamples and their traces.** Whatever edits make of the empty graph: from every live
node one climbs to a root, along a path that is as long as the node is deep, with the states of the
nodes on it and the actions between them; every uncovered target is listed once, by depth and then
by age; and the trace that a refinement by a single trace asks about is that of a path to an
uncovered target, and no other uncovered target has a shorter one. -/
theorem shortest_of_applyAll [DecidableEq P] [Precision P] {edits : List (Edit S A)}
    (h : (empty : Graph S A).applyAll edits = .ok g) :
    (∀ id n, g.node? id = some n → ∃ t, g.pathTo id = .ok t ∧ g.IsPath t ∧
      t.start.node ∈ g.roots ∧ t.target = id ∧ t.length = n.depth) ∧
    ((∀ id, id ∈ g.counterexamples ↔
      ∃ n, g.node? id = some n ∧ n.target = true ∧ n.coveredBy = none) ∧
      g.counterexamples.Pairwise g.Precedes) ∧
    ∀ (r : Refuter S A P W R) (pruning : Pruning) (prec : P) (s : Session S A), s.graph = g →
      g.counterexamples ≠ [] → ∃ t, r.Consults pruning prec s t ∧
        t.target ∈ g.counterexamples ∧ g.pathTo t.target = .ok t ∧
        ∀ id ∈ g.counterexamples, ∃ t', g.pathTo id = .ok t' ∧ t.length ≤ t'.length := by
  have hg : g.WellFormed := foldlM_induct h wellFormed_empty fun _ hb he ↦ hb.apply he
  refine ⟨fun id n hn ↦ ?_, ⟨fun id ↦ ?_, hg.indexed.pairwise_counterexamples⟩, ?_⟩
  · obtain ⟨t, ht⟩ := hg.forest.exists_pathTo hn
    obtain ⟨hpath, rfl⟩ := isPath_of_pathTo ht
    obtain ⟨m, hm, -, hroot⟩ := hpath.root
    exact ⟨t, ht, hpath, hg.indexed.mem_roots.2 ⟨m, hm, hroot⟩, rfl, hpath.length_eq hg.forest hn⟩
  · rw [mem_counterexamples hg.indexed]
    simp [Node.isCounterexample, Node.isCovered]
  · rintro r pruning prec s rfl hne
    obtain ⟨id, rest, hrest⟩ := List.exists_cons_of_ne_nil hne
    have hid : s.graph.counterexamples.head? = some id := by rw [hrest]; rfl
    have hmem : id ∈ s.graph.counterexamples := List.mem_of_mem_head? hid
    have hfound : ∀ j ∈ s.graph.counterexamples, ∃ t, s.graph.pathTo j = .ok t := by
      intro j hj
      obtain ⟨n, hn, -⟩ := (mem_counterexamples hg.indexed).1 hj
      exact hg.forest.exists_pathTo hn
    obtain ⟨t, ht⟩ := hfound id hmem
    obtain ⟨-, rfl⟩ := isPath_of_pathTo ht
    refine ⟨t, Refuter.consults_of_head? hid ht, hmem, ht, fun j hj ↦ ?_⟩
    obtain ⟨t', ht'⟩ := hfound j hj
    exact ⟨t', ht', hg.length_le_of_head? hid hj ht ht'⟩

/-- A target three levels down, another one below the root that is pruned, and a third two levels
down, which is the youngest. -/
def regraded : List (Edit Nat Nat) :=
  [.addRoot 0 0 false, .addChild 0 5 1 0 false, .addChild 1 6 2 0 false, .addChild 2 7 3 0 true,
    .addChild 0 8 4 0 true, .prune 4, .addChild 1 9 5 0 true]

/-- A refuter to which every trace is feasible. -/
def acceptAll : Refuter Nat Nat Unit Nat Unit where
  check t := .ok (.feasible t.length)
  cutIndex _ := 0
  refine _ _ _ := .ok ()
  fingerprint _ := default

theorem shortest_regraded : ∃ g : Graph Nat Nat, empty.applyAll regraded = .ok g ∧
    g.counterexamples = [5, 3] ∧ g.counterexamples.Pairwise g.Precedes ∧
    (∃ t, g.pathTo 3 = .ok t ∧ g.IsPath t ∧ t.length = 3) ∧
    ∃ t, acceptAll.Consults .subtree () { graph := g } t ∧
      ∀ id ∈ g.counterexamples, ∃ t', g.pathTo id = .ok t' ∧ t.length ≤ t'.length := by
  have hrun : (empty.applyAll regraded).toOption.any (fun g ↦ g.counterexamples = [5, 3] ∧
      (g.node? 3).any (·.depth = 3)) = true := by
    decide +kernel
  obtain ⟨g, hg, htest⟩ := exists_of_toOption_any hrun
  obtain ⟨hcex, hnode⟩ := of_decide_eq_true htest
  obtain ⟨n, hn, hdepth⟩ := (Option.any_eq_true _ _).1 hnode
  obtain ⟨hpaths, ⟨-, hsorted⟩, hasks⟩ :=
    shortest_of_applyAll (P := Unit) (W := Nat) (R := Unit) hg
  obtain ⟨t, ht, hpath, -, -, hlength⟩ := hpaths 3 n hn
  obtain ⟨t', hconsults, -, -, hleast⟩ :=
    hasks acceptAll .subtree () { graph := g } rfl (by rw [hcex]; exact List.cons_ne_nil _ _)
  exact ⟨g, hg, hcex, hsorted, ⟨t, ht, hpath, hlength.trans (of_decide_eq_true hdepth)⟩,
    t', hconsults, hleast⟩

end Graph

end AbstractionRefinement
