import AbstractionRefinement.Proofs.Graph.Edits
import AbstractionRefinement.Proofs.Graph.Passes

/-!
# What pruning takes away

Pruning, as `Graph.prune` puts it, makes one pass over all slots and treats every node alike,
without asking where the removed part ends; that following links from node to node comes to the same
is shown where the passes are (`WellFormed.pruneByLinks_eq`). This module says what it comes to at
each node. The survivors are the live nodes without a pruned ancestor, also after several prunings,
of which the later ones may find their node gone (`WellFormed.contains_foldl_prune`). One survivor
loses a child, the parent of the pruned node, and it alone counts as unexpanded afterwards; all
others lose nothing but their links to removed nodes (`Prunes`).

A node is incomplete afterwards for one of three reasons (`WellFormed.incomplete_prune_iff`): it was
so before, it is the parent, or the node that covered it is gone. One node may have more than one of
them, since nothing prevents a node from being covered from below.
-/

namespace AbstractionRefinement.Graph

variable {S A : Type} {g : Graph S A} {a b i : NodeId} {n m p : Node S A}

/-! ### Survivors -/

/-- What is above a live node is live. -/
theorem WellFormed.exists_node?_of_below (hg : g.WellFormed) (h : g.Below a i)
    (hn : g.node? i = some n) : ∃ p, g.node? a = some p := by
  induction h generalizing n with
  | refl => exact ⟨n, hn⟩
  | tail _ hc ih =>
    obtain ⟨m, hm, he⟩ := hc
    obtain ⟨e, hinc, rfl⟩ := Option.map_eq_some_iff.1 he
    obtain ⟨-, q, hq, -⟩ := hg.forest.parent hm hinc
    exact ih hq

theorem prune_of_none (ha : g.node? a = none) : g.prune a = g := by
  have hno : ¬g.contains a = true := by simp [contains, ha]
  rw [Graph.prune, if_neg hno]

theorem WellFormed.node?_prune_iff (hg : g.WellFormed) (ha : g.node? a = some p) :
    (g.prune a).node? i = some m ↔ ∃ n, g.node? i = some n ∧ ¬g.Below a i ∧
      m = detach (g.subtree g.created a) a n := by
  rw [Graph.prune, if_pos (contains_iff.2 ⟨p, ha⟩), hg.indexed.node?_remove_iff,
    hg.mem_subtree_created ha]

/-- **Survivors** are the live nodes that the pruned node is not above. -/
theorem WellFormed.contains_prune (hg : g.WellFormed) :
    (g.prune a).contains i = true ↔ g.contains i = true ∧ ¬g.Below a i := by
  rw [contains_iff, contains_iff]
  cases ha : g.node? a with
  | none =>
    rw [prune_of_none ha]
    refine ⟨fun ⟨n, hn⟩ ↦ ⟨⟨n, hn⟩, fun h ↦ ?_⟩, fun h ↦ h.1⟩
    obtain ⟨p, hp⟩ := hg.exists_node?_of_below h hn
    cases ha.symm.trans hp
  | some p =>
    constructor
    · rintro ⟨m, hm⟩
      obtain ⟨n, hn, hout, -⟩ := (hg.node?_prune_iff ha).1 hm
      exact ⟨⟨n, hn⟩, hout⟩
    · rintro ⟨⟨n, hn⟩, hout⟩
      exact ⟨_, (hg.node?_prune_iff ha).2 ⟨n, hn, hout, rfl⟩⟩

theorem WellFormed.isChild_of_prune (hg : g.WellFormed) (h : (g.prune a).IsChild b i) :
    g.IsChild b i := by
  obtain ⟨m, hm, he⟩ := h
  obtain ⟨n, hn, ⟨rfl, -⟩ | ⟨-, rfl, -⟩⟩ := hg.node?_prune hm
  · exact ⟨m, hn, he⟩
  · exact ⟨n, hn, he⟩

theorem WellFormed.isChild_prune (hg : g.WellFormed) (h : g.IsChild b i)
    (hi : (g.prune a).contains i = true) : (g.prune a).IsChild b i := by
  obtain ⟨n, hn, he⟩ := h
  obtain ⟨m, hm⟩ := contains_iff.1 hi
  refine ⟨m, hm, ?_⟩
  obtain ⟨k, hk, hor⟩ := hg.node?_prune hm
  obtain rfl := Option.some.inj (hn.symm.trans hk)
  rcases hor with ⟨rfl, -⟩ | ⟨-, rfl, -⟩ <;> exact he

/-- A survivor keeps its ancestors, and gets no new ones. -/
theorem WellFormed.below_prune (hg : g.WellFormed) (hi : (g.prune a).contains i = true) :
    (g.prune a).Below b i ↔ g.Below b i := by
  constructor
  · exact fun h ↦ Relation.ReflTransGen.mono (fun _ _ hc ↦ hg.isChild_of_prune hc) b i h
  · intro h
    induction h with
    | refl => exact .refl
    | @tail q i hbq hqi ih =>
      -- a survivor's parent is not below the pruned node either
      have hout := (hg.contains_prune.1 hi).2
      have hq : (g.prune a).contains q = true := by
        obtain ⟨n, hn, -⟩ := id hqi
        obtain ⟨k, hk⟩ := hg.exists_node?_of_below (.single hqi) hn
        exact hg.contains_prune.2 ⟨contains_iff.2 ⟨k, hk⟩, fun h ↦ hout (h.tail hqi)⟩
      exact (ih hq).tail (hg.isChild_prune hqi hi)

/-- **Survivors of several prunings**: no matter in which order the nodes are pruned, and which of
them are gone by then, what is left are the live nodes that none of them is above. -/
theorem WellFormed.contains_foldl_prune (hg : g.WellFormed) {ids : List NodeId} :
    (ids.foldl Graph.prune g).contains i = true ↔
      g.contains i = true ∧ ∀ a ∈ ids, ¬g.Below a i := by
  induction ids generalizing g with
  | nil => simp
  | cons a ids ih =>
    rw [List.foldl_cons, ih hg.prune, List.forall_mem_cons]
    constructor
    · rintro ⟨hi, hrest⟩
      obtain ⟨hlive, hout⟩ := hg.contains_prune.1 hi
      exact ⟨hlive, hout, fun b hb h ↦ hrest b hb ((hg.below_prune hi).2 h)⟩
    · rintro ⟨hlive, hout, hrest⟩
      have hi := hg.contains_prune.2 ⟨hlive, hout⟩
      exact ⟨hi, fun b hb h ↦ hrest b hb ((hg.below_prune hi).1 h)⟩

/-! ### What is left of a survivor -/

/-- A live node is not on the list of what is removed just if it survives. -/
theorem WellFormed.not_contains_subtree (hg : g.WellFormed) (ha : g.node? a = some p)
    (hn : g.node? i = some n) :
    (!(g.subtree g.created a).contains i) = (g.prune a).contains i := by
  rw [Bool.eq_iff_iff, hg.contains_prune, contains_iff, Bool.not_eq_true', ← Bool.not_eq_true,
    List.contains_iff_mem, hg.mem_subtree_created ha]
  exact ⟨fun h ↦ ⟨⟨n, hn⟩, h⟩, fun h ↦ h.2⟩

/-- What is left of a node when pruning at `a`, whose node is `p`, leaves the graph `g'`: the parent
loses this child and counts as unexpanded, and links to removed nodes are dropped. -/
def leftOf (g' : Graph S A) (a : NodeId) (p : Node S A) (i : NodeId) (n : Node S A) : Node S A :=
  { n with
    children := if p.parent? = some i then n.children.erase a else n.children
    expanded := if p.parent? = some i then false else n.expanded
    coveredBy := n.coveredBy.filter g'.contains
    covers := n.covers.filter g'.contains }

theorem WellFormed.detach_eq (hg : g.WellFormed) (ha : g.node? a = some p)
    (hn : g.node? i = some n) :
    detach (g.subtree g.created a) a n = (g.prune a).leftOf a p i n := by
  have hmem := hg.mem_children_iff ha hn
  have hnodup : n.children.Nodup := (hg.forest.children_ascending hn).imp Nat.ne_of_lt
  have hchildren : n.children.filter (· != a) =
      if p.parent? = some i then n.children.erase a else n.children := by
    rw [← hnodup.erase_eq_filter]
    split
    · rfl
    · rename_i hp
      exact List.erase_of_not_mem (mt hmem.1 hp)
  have hexpanded : (n.expanded && !n.children.contains a) =
      if p.parent? = some i then false else n.expanded := by
    split
    · rename_i hp
      rw [List.contains_iff_mem.2 (hmem.2 hp), Bool.not_true, Bool.and_false]
    · rename_i hp
      have hout : n.children.contains a = false := by simpa using mt hmem.1 hp
      rw [hout, Bool.not_false, Bool.and_true]
  -- both ends of a link are live, so a link goes just if its other end does
  have hcoveredBy : n.coveredBy.filter (fun j ↦ !(g.subtree g.created a).contains j) =
      n.coveredBy.filter (g.prune a).contains := by
    cases hc : n.coveredBy with
    | none => rfl
    | some j =>
      obtain ⟨-, k, hk⟩ := hg.linked.coverer hn hc
      rw [Option.filter_some, Option.filter_some, hg.not_contains_subtree ha hk]
  have hcovers : n.covers.filter (fun j ↦ !(g.subtree g.created a).contains j) =
      n.covers.filter (g.prune a).contains := by
    refine List.filter_congr fun j hj ↦ ?_
    obtain ⟨k, hk, -⟩ := (hg.linked.mem_covers hn).1 hj
    exact hg.not_contains_subtree ha hk
  rw [detach, leftOf, hchildren, hexpanded, hcoveredBy, hcovers]

/-! ### The whole graph -/

/-- The second graph is the first after pruning at `a`, whose node is `p`. -/
structure Prunes (g : Graph S A) (a : NodeId) (p : Node S A) (g' : Graph S A) : Prop where
  /-- The graph is well formed again. -/
  wellFormed : g'.WellFormed
  /-- No position is given back. -/
  created : g'.created = g.created
  /-- Gone are the nodes that `a` is above, itself included. -/
  survives : ∀ i, g'.contains i = true ↔ g.contains i = true ∧ ¬g.Below a i
  /-- A survivor keeps everything but the child that goes and the links to what goes. -/
  left : ∀ {i n m}, g.node? i = some n → g'.node? i = some m → m = g'.leftOf a p i n
  /-- A pruned root is no root any more. -/
  roots : g'.roots = if p.parent? = none then g.roots.erase a else g.roots
  /-- And with it not all roots are there any more. -/
  initialized : g'.initialized = if p.parent? = none then false else g.initialized

theorem WellFormed.prunes (hg : g.WellFormed) (ha : g.node? a = some p) :
    g.Prunes a p (g.prune a) where
  wellFormed := hg.prune
  created := created_prune
  survives _ := hg.contains_prune
  left {i n m} hn hm := by
    obtain ⟨k, hk, -, rfl⟩ := (hg.node?_prune_iff ha).1 hm
    obtain rfl := Option.some.inj (hn.symm.trans hk)
    exact hg.detach_eq ha hn
  roots := by
    have hnodup : g.roots.Nodup := hg.indexed.roots_ascending.imp Nat.ne_of_lt
    rw [Graph.prune, if_pos (contains_iff.2 ⟨p, ha⟩)]
    show g.roots.filter (· != a) = _
    rw [← hnodup.erase_eq_filter]
    split
    · rfl
    · rename_i hp
      exact List.erase_of_not_mem (mt (hg.mem_roots_iff ha).1 hp)
  initialized := by
    rw [Graph.prune, if_pos (contains_iff.2 ⟨p, ha⟩)]
    show (g.initialized && !g.roots.contains a) = _
    split
    · rename_i hp
      rw [List.contains_iff_mem.2 ((hg.mem_roots_iff ha).2 hp), Bool.not_true, Bool.and_false]
    · rename_i hp
      have hout : g.roots.contains a = false := by simpa using mt (hg.mem_roots_iff ha).1 hp
      rw [hout, Bool.not_false, Bool.and_true]

/-- No coverer is left to a node just if it had none, or one that is removed. -/
theorem WellFormed.filter_coveredBy_eq_none (hg : g.WellFormed) (hn : g.node? i = some n) :
    n.coveredBy.filter (g.prune a).contains = none ↔ ∀ j, n.coveredBy = some j → g.Below a j := by
  rw [Option.filter_eq_none_iff]
  refine forall_congr' fun j ↦ ⟨fun h hj ↦ ?_, fun h hj hsurv ↦ ?_⟩
  · obtain ⟨-, k, hk⟩ := hg.linked.coverer hn hj
    by_contra hout
    exact h hj (hg.contains_prune.2 ⟨contains_iff.2 ⟨k, hk⟩, hout⟩)
  · exact (hg.contains_prune.1 hsurv).2 (h hj)

/-- **What there is to expand after pruning**: what there was, the parent unless a survivor covers
it, and what removed nodes covered; targets and, but for the parent, expanded nodes excepted. -/
theorem WellFormed.incomplete_prune_iff (hg : g.WellFormed) (ha : g.node? a = some p) :
    (∃ m, (g.prune a).node? i = some m ∧ m.isIncomplete = true) ↔
      ∃ n, g.node? i = some n ∧ ¬g.Below a i ∧
        (n.isIncomplete = true ∨
          p.parent? = some i ∧ (∀ j, n.coveredBy = some j → g.Below a j) ∧ n.target = false ∨
          n.expanded = false ∧ n.target = false ∧ ∃ j, n.coveredBy = some j ∧ g.Below a j) := by
  -- both sides speak about one node, of which they ask the same
  have hnode : (∃ m, (g.prune a).node? i = some m ∧ m.isIncomplete = true) ↔
      ∃ n, g.node? i = some n ∧ ¬g.Below a i ∧
        ((g.prune a).leftOf a p i n).isIncomplete = true := by
    constructor
    · rintro ⟨m, hm, hinc⟩
      obtain ⟨n, hn, hout, rfl⟩ := (hg.node?_prune_iff ha).1 hm
      exact ⟨n, hn, hout, hg.detach_eq ha hn ▸ hinc⟩
    · rintro ⟨n, hn, hout, hinc⟩
      exact ⟨_, (hg.node?_prune_iff ha).2 ⟨n, hn, hout, (hg.detach_eq ha hn).symm⟩, hinc⟩
  rw [hnode]
  refine exists_congr fun n ↦ and_congr_right fun hn ↦ and_congr_right fun _ ↦ ?_
  have hcov := hg.filter_coveredBy_eq_none (a := a) hn
  simp only [Node.isIncomplete, Node.isCovered, leftOf, Bool.and_eq_true, Bool.not_eq_true',
    Option.isSome_eq_false_iff, Option.isNone_iff_eq_none, hcov]
  -- what remains is a matter of the marks of one node
  by_cases hp : p.parent? = some i <;> cases n.coveredBy <;> simp [hp] <;> tauto

/-- **Exact effect of pruning.** Carried out link by link, pruning follows no link to a node that is
not there, and comes to `Graph.prune`. Pruning at a live node removes the nodes that it is above,
itself included, and no others; a survivor keeps its position, state, key, incoming edge, target
mark, depth and leave to cover; its parent loses it from its children and counts as unexpanded, or,
if it is a root, the roots lose it and are incomplete; other nodes keep children and mark; a
survivor loses its coverer just if that is removed, and of what it covers just what is removed. So
what there is to expand is what there was, the parent if uncovered, and what removed nodes covered.
Pruning at a node that is not live changes nothing. -/
theorem prune_exactly (hg : g.WellFormed) (a : NodeId) :
    (∀ turns, g.live < turns → g.pruneByLinks turns a = .ok (some (g.prune a))) ∧
      (g.node? a = none → g.prune a = g) ∧
      ∀ p, g.node? a = some p → g.Prunes a p (g.prune a) ∧
        ∀ i, (∃ m, (g.prune a).node? i = some m ∧ m.isIncomplete = true) ↔
          ∃ n, g.node? i = some n ∧ ¬g.Below a i ∧
            (n.isIncomplete = true ∨
              p.parent? = some i ∧ (∀ j, n.coveredBy = some j → g.Below a j) ∧
                n.target = false ∨
              n.expanded = false ∧ n.target = false ∧
                ∃ j, n.coveredBy = some j ∧ g.Below a j) :=
  ⟨fun _ h ↦ hg.pruneByLinks_eq h, prune_of_none,
    fun _ ha ↦ ⟨hg.prunes ha, fun _ ↦ hg.incomplete_prune_iff ha⟩⟩

/-- A root with three children, the first with two of its own. Links cross from one part to the
other in both directions: the root is covered from below, a grandchild by its uncle, and the uncle
by its sibling. -/
def crossed : List (Edit Nat Nat) :=
  [.addRoot 0 0 false, .addChild 0 1 10 0 false, .addChild 1 2 11 0 false,
    .addChild 1 3 12 0 false, .addChild 0 4 13 0 false, .addChild 0 5 14 0 true,
    .setExpanded 0 true, .setExpanded 1 true, .setInitialized true,
    .cover 0 2, .cover 4 1, .cover 3 2, .cover 2 4]

/-- Nothing waited in it; pruning the first child removes three nodes, and leaves the root and the
uncle to be expanded. -/
theorem prune_crossed : ∃ g p, (empty : Graph Nat Nat).applyAll crossed = .ok g ∧ g.WellFormed ∧
    g.node? 1 = some p ∧ g.pruneByLinks 7 1 = .ok (some (g.prune 1)) ∧ g.Prunes 1 p (g.prune 1) ∧
    g.incompleteNodes = [] ∧ (g.prune 1).nodeIds = [0, 4, 5] ∧
    (g.prune 1).incompleteNodes.map Node.id = [0, 4] := by
  have hrun : ((empty : Graph Nat Nat).applyAll crossed).toOption.any (fun g ↦ g.contains 1 &&
      g.live == 6 && g.incompleteNodes.isEmpty && (g.prune 1).nodeIds == [0, 4, 5] &&
      (g.prune 1).incompleteNodes.map Node.id == [0, 4]) = true := by
    decide +kernel
  obtain ⟨g, hg, htest⟩ := exists_of_toOption_any hrun
  have hwf : g.WellFormed := foldlM_induct hg wellFormed_empty fun _ hb he ↦ hb.apply he
  simp only [Bool.and_eq_true, List.isEmpty_iff, beq_iff_eq] at htest
  obtain ⟨⟨⟨⟨hone, hlive⟩, hinc⟩, hids⟩, hinc'⟩ := htest
  obtain ⟨p, hp⟩ := contains_iff.1 hone
  obtain ⟨hlinks, -, hexact⟩ := prune_exactly hwf 1
  exact ⟨g, p, hg, hwf, hp, hlinks 7 (by rw [hlive]; decide), (hexact p hp).1, hinc, hids, hinc'⟩

end AbstractionRefinement.Graph
