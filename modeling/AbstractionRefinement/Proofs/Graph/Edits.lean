import AbstractionRefinement.Audit.Basic
import AbstractionRefinement.Graph.Edit
import AbstractionRefinement.Proofs.Graph.Pruning
import AbstractionRefinement.Proofs.Work

/-!
# Graphs made by edits

Whatever edits make of the empty graph is well formed. Each edit keeps the invariant, whatever it is
asked to do, and there are two kinds of them: an edit brings the next position to life, or it brings
nothing to life (`apply_cases`). So positions are handed out in ascending order, and none of them
twice, however much is pruned in between.

Well-formedness is stated link by link. That the links form a forest is then a theorem: from the
roots, every live node is reached once (`WellFormed.perm_nodeIds`), and the audit, which walks down
from the roots with a stack, finds nothing (`WellFormed.auditForest_eq_ok`).

The statements are about lists of edits of which each succeeds. A list in which one fails gives no
graph, and then nothing is claimed; the failure itself leaves nothing behind, since an edit is a
function and the graph before it is unchanged.

Positions that were handed out are collected by comparing a graph with the next one (`handedOut`),
and not by looking at the edits, so the result would notice an edit that brings an old position back
to life.
-/

namespace AbstractionRefinement.Graph

variable {S A : Type} {g g' : Graph S A} {a i x : NodeId} {n : Node S A}

/-! ### One edit -/

/-- **One edit keeps a graph well formed.** -/
theorem WellFormed.apply (hg : g.WellFormed) {e : Edit S A} (h : g.apply e = .ok g') :
    g'.WellFormed := by
  cases e with
  | addRoot state key target => exact Except.ok.inj h ▸ hg.addRoot
  | addChild parent action state key target => exact hg.addChild h
  | setExpanded id value => exact hg.setExpanded h
  | setInitialized value => exact Except.ok.inj h ▸ hg.setInitialized value
  | cover id coverer => exact hg.cover h
  | uncover id => exact hg.uncover h
  | releaseCovered id => exact hg.releaseCovered h
  | disableCovering id => exact hg.disableCovering h
  | prune id => exact Except.ok.inj h ▸ hg.prune
  | pruneAll => exact Except.ok.inj h ▸ wellFormed_pruneAll

/-- No position is used or comes to life. -/
def NoneBorn (g g' : Graph S A) : Prop :=
  g'.created = g.created ∧ ∀ i, g'.contains i = true → g.contains i = true

/-- The next position is used and comes to life, and no other does. -/
def NextBorn (g g' : Graph S A) : Prop :=
  g'.created = g.created + 1 ∧ ∀ i, g'.contains i = true ↔ i = g.created ∨ g.contains i = true

theorem SameTree.noneBorn (h : SameTree g g') : NoneBorn g g' :=
  ⟨h.created, fun _ hi ↦ h.contains_eq ▸ hi⟩

/-- Adding a root makes one node, at the next position. -/
theorem nextBorn_addRoot {state : S} {key : Nat} {target : Bool} :
    NextBorn g (g.addRoot state key target) := by
  refine ⟨created_addRoot, fun i ↦ ?_⟩
  rw [contains_iff, contains_iff, node?_addRoot]
  by_cases hi : i = g.created <;> simp [hi]

/-- Adding a child makes one node, at the next position. -/
theorem nextBorn_addChild {parent : NodeId} {action : A} {state : S} {key : Nat} {target : Bool}
    (h : g.addChild parent action state key target = .ok g') : NextBorn g g' := by
  obtain ⟨p, hp, -⟩ := eq_of_addChild h
  refine ⟨created_addChild h, fun i ↦ ?_⟩
  rw [contains_iff, contains_iff, node?_addChild hp h]
  by_cases hi : i = g.created
  · simp [hi]
  · rw [if_neg hi]
    by_cases hip : i = parent
    · simp [hip, hp]
    · simp [hip, hi]

/-- Pruning makes no node. -/
theorem WellFormed.noneBorn_prune (hg : g.WellFormed) : NoneBorn g (g.prune a) := by
  refine ⟨created_prune, fun i hi ↦ ?_⟩
  obtain ⟨n, hn⟩ := contains_iff.1 hi
  obtain ⟨m, hm, -⟩ := hg.node?_prune hn
  exact contains_iff.2 ⟨m, hm⟩

/-- Uncovering succeeds only on a node that is there. -/
theorem exists_node?_of_uncover (h : g.uncover i = .ok g') : ∃ n, g.node? i = some n := by
  obtain ⟨n, hn, -⟩ := bind_eq_ok.1 h
  exact ⟨n, node_eq_ok.1 hn⟩

/-- Covering succeeds only on a node that is there. -/
theorem exists_node?_of_cover (h : g.cover i a = .ok g') : ∃ n, g.node? i = some n := by
  rw [cover, if_neg (ne_of_cover h)] at h
  obtain ⟨g₁, hu, -⟩ := bind_eq_ok.1 h
  exact exists_node?_of_uncover hu

/-- Releasing succeeds only on a node that is there. -/
theorem exists_node?_of_releaseCovered (h : g.releaseCovered i = .ok g') :
    ∃ n, g.node? i = some n := by
  obtain ⟨n, hn, -⟩ := bind_eq_ok.1 h
  exact ⟨n, node_eq_ok.1 hn⟩

/-- **What one edit brings to life**: the next position or nothing. -/
theorem WellFormed.apply_cases (hg : g.WellFormed) {e : Edit S A} (h : g.apply e = .ok g') :
    NoneBorn g g' ∨ NextBorn g g' := by
  cases e with
  | addRoot state key target => exact .inr (Except.ok.inj h ▸ nextBorn_addRoot)
  | addChild parent action state key target => exact .inr (nextBorn_addChild h)
  | setExpanded id value =>
    obtain rfl := eq_update_of_setExpanded h
    have htree : SameTree g (g.update id fun n ↦ { n with expanded := value }) :=
      .update _ fun _ ↦ rfl
    exact .inl htree.noneBorn
  | setInitialized value =>
    obtain rfl := Except.ok.inj h
    exact .inl ⟨rfl, fun _ hi ↦ hi⟩
  | cover id coverer =>
    obtain ⟨n, hn⟩ := exists_node?_of_cover h
    exact .inl (rewrites_cover hn h).1.sameTree.noneBorn
  | uncover id =>
    obtain ⟨n, hn⟩ := exists_node?_of_uncover h
    exact .inl (rewrites_uncover hn h).sameTree.noneBorn
  | releaseCovered id =>
    obtain ⟨n, hn⟩ := exists_node?_of_releaseCovered h
    exact .inl (rewrites_releaseCovered hn h).sameTree.noneBorn
  | disableCovering id =>
    obtain rfl := eq_update_of_disableCovering h
    have htree : SameTree g (g.update id fun n ↦ { n with canCover := false }) :=
      .update _ fun _ ↦ rfl
    exact .inl htree.noneBorn
  | prune id => exact .inl (Except.ok.inj h ▸ hg.noneBorn_prune)
  | pruneAll =>
    obtain rfl := Except.ok.inj h
    exact .inl ⟨created_pruneAll, fun i hi ↦ by simp [contains] at hi⟩

/-! ### Positions handed out -/

/-- The positions that come to life between two graphs. -/
def born (g g' : Graph S A) : List NodeId :=
  (List.range g'.created).filter fun i ↦ g'.contains i && !g.contains i

/-- The positions that come to life in the course of a sequence of edits, in order. -/
def handedOut (g : Graph S A) : List (Edit S A) → List NodeId
  | [] => []
  | e :: rest =>
    match g.apply e with
    | .ok g' => born g g' ++ g'.handedOut rest
    | .error _ => []

theorem NoneBorn.born_eq (h : NoneBorn g g') : born g g' = [] := by
  rw [born, List.filter_eq_nil_iff]
  intro i _ hi
  rw [Bool.and_eq_true] at hi
  simp [h.2 i hi.1] at hi

theorem NextBorn.born_eq (h : NextBorn g g') : born g g' = [g.created] := by
  have hnew : g'.contains g.created = true := (h.2 _).2 (.inl rfl)
  have hold : g.contains g.created = false := by
    rw [contains, node?_eq_none (Nat.le_refl _)]
    rfl
  have hbelow : (List.range g.created).filter (fun i ↦ g'.contains i && !g.contains i) = [] := by
    rw [List.filter_eq_nil_iff]
    intro i hi hborn
    rw [Bool.and_eq_true] at hborn
    rcases (h.2 i).1 hborn.1 with rfl | hc
    · exact Nat.lt_irrefl _ (List.mem_range.1 hi)
    · simp [hc] at hborn
  rw [born, h.1, List.range_succ, List.filter_append, hbelow, List.nil_append,
    List.filter_singleton, hnew, hold]
  rfl

/-- **Positions are handed out one after the other.** -/
theorem WellFormed.handedOut_eq (hg : g.WellFormed) {edits : List (Edit S A)}
    (h : g.applyAll edits = .ok g') :
    g.created ≤ g'.created ∧
      g.handedOut edits = List.range' g.created (g'.created - g.created) := by
  induction edits generalizing g with
  | nil =>
    obtain rfl := Except.ok.inj h
    exact ⟨Nat.le_refl _, by simp [handedOut]⟩
  | cons e rest ih =>
    rw [applyAll, List.foldlM_cons] at h
    obtain ⟨g₁, he, h⟩ := bind_eq_ok.1 h
    obtain ⟨hle, hrest⟩ := ih (hg.apply he) h
    have hcons : g.handedOut (e :: rest) = born g g₁ ++ g₁.handedOut rest := by
      rw [handedOut, he]
    rw [hcons]
    rcases hg.apply_cases he with hb | hb
    · rw [hb.1] at hle hrest
      exact ⟨hle, by rw [hb.born_eq, hrest, List.nil_append]⟩
    · rw [hb.1] at hle hrest
      refine ⟨by omega, ?_⟩
      have hlen : g'.created - g.created = g'.created - (g.created + 1) + 1 := by omega
      rw [hb.born_eq, hrest, hlen, List.range'_succ]
      rfl

/-! ### The forest, walked from its roots -/

/-- The positions of a graph are listed in ascending order. -/
theorem WellFormed.nodeIds_eq (hg : g.WellFormed) :
    g.nodeIds = (List.range g.created).filter g.contains := by
  rw [nodeIds, nodes_eq, List.map_filterMap, ← List.filterMap_eq_filter]
  refine List.filterMap_congr fun i _ ↦ ?_
  cases hn : g.node? i with
  | none => simp [contains, hn, Option.guard]
  | some n => simp [contains, hn, Option.guard, hg.indexed.id_eq hn]

/-- Below a node there are, beside it, what is below its children. -/
theorem WellFormed.perm_subtree (hg : g.WellFormed) (ha : g.node? a = some n) :
    (g.subtree g.created a).Perm (a :: n.children.flatMap (g.subtree g.created)) := by
  have hsucc : g.subtree (g.created + 1) a = a :: n.children.flatMap (g.subtree g.created) := by
    rw [subtree, childrenOf_eq ha]
  rw [← hsucc, List.perm_ext_iff_of_nodup (hg.nodup_subtree ha) (hg.nodup_subtree ha)]
  intro x
  rw [hg.mem_subtree_created ha]
  refine ⟨fun h ↦ hg.mem_subtree_of_below ha h ?_, hg.below_of_mem_subtree ha⟩
  obtain ⟨m, hm⟩ := h.exists_node? ha
  have := lt_created hm
  grind

/-- Every live node is below a root. -/
theorem WellFormed.exists_root (hg : g.WellFormed) (hx : g.node? x = some n) :
    ∃ r ∈ g.roots, g.Below r x := by
  induction x using Nat.strong_induction_on generalizing n with
  | _ x ih =>
    cases he : n.incoming with
    | none => exact ⟨x, hg.indexed.mem_roots.2 ⟨n, hx, he⟩, .refl⟩
    | some e =>
      obtain ⟨hlt, p, hp, -⟩ := hg.forest.parent hx he
      obtain ⟨r, hr, hb⟩ := ih e.parent hlt hp
      exact ⟨r, hr, hb.tail ⟨n, hx, by rw [Node.parent?, he]; rfl⟩⟩

/-- A root is a node. -/
theorem WellFormed.exists_node?_of_mem_roots (hg : g.WellFormed) (hr : a ∈ g.roots) :
    ∃ n, g.node? a = some n := by
  obtain ⟨n, hn, -⟩ := hg.indexed.mem_roots.1 hr
  exact ⟨n, hn⟩

/-- Nothing but itself is above a root. -/
theorem WellFormed.eq_of_below_root (hg : g.WellFormed) (hr : x ∈ g.roots) (h : g.Below a x) :
    a = x := by
  rcases Relation.ReflTransGen.cases_tail h with rfl | ⟨p, -, m, hm, hp⟩
  · rfl
  · obtain ⟨n, hn, he⟩ := hg.indexed.mem_roots.1 hr
    obtain rfl := Option.some.inj (hn.symm.trans hm)
    rw [Node.parent?, he] at hp
    cases hp

/-- **From the roots, every live node is reached once.** -/
theorem WellFormed.perm_nodeIds (hg : g.WellFormed) :
    (g.roots.flatMap (g.subtree g.created)).Perm g.nodeIds := by
  rw [hg.nodeIds_eq]
  refine (List.perm_ext_iff_of_nodup ?_ (List.nodup_range.filter _)).2 fun x ↦ ?_
  · rw [List.nodup_flatMap]
    refine ⟨fun r hr ↦ ?_, hg.indexed.roots_ascending.imp_of_mem fun {r s} hr hs hlt ↦ ?_⟩
    · obtain ⟨n, hn⟩ := hg.exists_node?_of_mem_roots hr
      exact hg.nodup_subtree hn
    · intro x hxr hxs
      obtain ⟨n, hn⟩ := hg.exists_node?_of_mem_roots hr
      obtain ⟨m, hm⟩ := hg.exists_node?_of_mem_roots hs
      -- ancestors of one node are comparable, and roots are not
      rcases (hg.below_of_mem_subtree hn hxr).total (hg.below_of_mem_subtree hm hxs) with h | h
      · exact absurd (hg.eq_of_below_root hs h) (Nat.ne_of_lt hlt)
      · exact absurd (hg.eq_of_below_root hr h) (Nat.ne_of_gt hlt)
  · rw [List.mem_flatMap, List.mem_filter, List.mem_range, contains_iff]
    constructor
    · rintro ⟨r, hr, hx⟩
      obtain ⟨n, hn⟩ := hg.exists_node?_of_mem_roots hr
      obtain ⟨m, hm⟩ := (hg.below_of_mem_subtree hn hx).exists_node? hn
      exact ⟨lt_created hm, m, hm⟩
    · rintro ⟨-, m, hm⟩
      obtain ⟨r, hr, hb⟩ := hg.exists_root hm
      obtain ⟨n, hn⟩ := hg.exists_node?_of_mem_roots hr
      exact ⟨r, hr, (hg.mem_subtree_created hn).2 hb⟩

/-- The audit's walk visits what is below its stack, if that is nowhere repeated and there are
enough steps. -/
theorem WellFormed.visitAll_perm (hg : g.WellFormed) {steps : Nat} {stack seen : List NodeId}
    (hlive : ∀ a ∈ stack, ∃ n, g.node? a = some n)
    (hnodup : (stack.flatMap (g.subtree g.created) ++ seen).Nodup)
    (hsteps : (stack.flatMap (g.subtree g.created)).length ≤ steps) :
    ∃ visited, g.visitAll steps stack seen = .ok visited ∧
      visited.Perm (stack.flatMap (g.subtree g.created) ++ seen) := by
  induction steps generalizing stack seen with
  | zero =>
    rw [List.length_eq_zero_iff.1 (Nat.le_zero.1 hsteps)]
    exact ⟨seen, by rw [visitAll], .refl _⟩
  | succ steps ih =>
    cases stack with
    | nil => exact ⟨seen, by rw [visitAll]; simp, .refl _⟩
    | cons a stack =>
      obtain ⟨n, hn⟩ := hlive a List.mem_cons_self
      -- taking a node puts its children in its place
      have hperm : ((a :: stack).flatMap (g.subtree g.created) ++ seen).Perm
          ((n.children.reverse ++ stack).flatMap (g.subtree g.created) ++ a :: seen) := by
        rw [List.flatMap_cons, List.flatMap_append]
        refine (((hg.perm_subtree hn).append_right _).append_right _).trans ?_
        refine List.Perm.trans ?_ List.perm_middle.symm
        have hrev := (n.children.reverse_perm.flatMap_right (g.subtree g.created)).symm
        exact ((hrev.append_right _).append_right _).cons a
      have hout : a ∉ seen := fun hmem ↦ by
        have := hperm.nodup_iff.1 hnodup
        rw [List.nodup_append] at this
        exact (List.nodup_cons.1 this.2.1).1 hmem
      rw [visitAll, if_neg hout, hn]
      have hlive' : ∀ b ∈ n.children.reverse ++ stack, ∃ m, g.node? b = some m := by
        intro b hb
        rcases List.mem_append.1 hb with hb | hb
        · obtain ⟨m, hm, -⟩ := (hg.forest.mem_children hn).1 (List.mem_reverse.1 hb)
          exact ⟨m, hm⟩
        · exact hlive b (List.mem_cons_of_mem _ hb)
      have hlength := hperm.length_eq
      rw [List.length_append, List.length_append, List.length_cons] at hlength
      obtain ⟨visited, hvisit, hv⟩ := ih hlive' (hperm.nodup_iff.1 hnodup) (by omega)
      exact ⟨visited, hvisit, hv.trans hperm.symm⟩

/-- **The audit finds nothing in a well-formed graph.** -/
theorem WellFormed.auditForest_eq_ok (hg : g.WellFormed) : g.auditForest = .ok () := by
  have hperm : (g.roots.reverse.flatMap (g.subtree g.created)).Perm g.nodeIds :=
    (g.roots.reverse_perm.flatMap_right _).trans hg.perm_nodeIds
  have hnodup : g.nodeIds.Nodup := hg.nodeIds_eq ▸ List.nodup_range.filter _
  have hlength : g.nodeIds.length = g.live := by rw [hg.nodeIds_eq, hg.indexed.live_eq]
  have hle : g.nodeIds.length ≤ g.created := by
    rw [hg.nodeIds_eq]
    exact (List.length_filter_le _ _).trans (by simp)
  have hlive : ∀ a ∈ g.roots.reverse, ∃ n, g.node? a = some n :=
    fun a ha ↦ hg.exists_node?_of_mem_roots (List.mem_reverse.1 ha)
  have hsteps : (g.roots.reverse.flatMap (g.subtree g.created)).length ≤ g.created + 1 := by
    rw [hperm.length_eq]
    omega
  have hdisjoint : (g.roots.reverse.flatMap (g.subtree g.created) ++ []).Nodup := by
    rw [List.append_nil]
    exact hperm.nodup_iff.2 hnodup
  obtain ⟨visited, hvisit, hv⟩ := hg.visitAll_perm hlive hdisjoint hsteps
  rw [List.append_nil] at hv
  rw [auditForest, hvisit]
  simp [bind, Except.bind, (hv.trans hperm).length_eq, hlength, pure, Except.pure]

/-! ### Any sequence of edits -/

/-- **The representation invariant of graphs.** Whatever edits make of the empty graph, every index
agrees with the nodes; from the roots every live node is reached once, and the audit confirms it;
and the positions handed out on the way were `0, 1, 2, …`, so none of them twice. -/
theorem wellFormed_of_applyAll {edits : List (Edit S A)}
    (h : (empty : Graph S A).applyAll edits = .ok g) :
    g.WellFormed ∧ (g.roots.flatMap (g.subtree g.created)).Perm g.nodeIds ∧
      g.auditForest = .ok () ∧
      (empty : Graph S A).handedOut edits = List.range g.created := by
  have hg : g.WellFormed := foldlM_induct h wellFormed_empty fun _ hb he ↦ hb.apply he
  refine ⟨hg, hg.perm_nodeIds, hg.auditForest_eq_ok, ?_⟩
  rw [(wellFormed_empty.handedOut_eq h).2, List.range_eq_range']
  rfl

/-- Two roots, the first with two children. The second root covers a child and is then pruned;
another child is made, and is covered by the one released. -/
def regrown : List (Edit Nat Nat) :=
  [.addRoot 0 0 false, .addRoot 1 0 false, .addChild 0 7 2 0 false, .addChild 0 8 3 1 true,
    .cover 2 1, .setExpanded 0 true, .prune 1, .addChild 0 9 4 0 false, .cover 4 2]

theorem wellFormed_regrown : ∃ g : Graph Nat Nat, empty.applyAll regrown = .ok g ∧
    g.nodeIds = [0, 2, 3, 4] ∧ g.WellFormed ∧
    (g.roots.flatMap (g.subtree g.created)).Perm g.nodeIds ∧ g.auditForest = .ok () ∧
    (empty : Graph Nat Nat).handedOut regrown = List.range g.created := by
  have hrun : (empty.applyAll regrown).toOption.any (·.nodeIds = [0, 2, 3, 4]) = true := by
    decide +kernel
  obtain ⟨g, hg, hids⟩ := exists_of_toOption_any hrun
  exact ⟨g, hg, by simpa using hids, wellFormed_of_applyAll hg⟩

end AbstractionRefinement.Graph
