import AbstractionRefinement.Proofs.Exploration.Termination
import AbstractionRefinement.Proofs.Graph.Pruning

/-!
# How many nodes an exploration expands

An exploration marks a node as expanded once and never takes the mark back, so the expansions it
counts are the nodes that carry the mark now and did not before (`Explorer.expansions_of_grows`). A
turn expands one node at most, one that no node may cover (`Explorer.picks_turn`), also if it stops
early; so of the nodes made by one exploration no two of the same state are expanded
(`Graph.ExpandsApart`). In a finite domain that leaves one expansion for each state, and one for
each older node that was incomplete.

`Explorer.exists_ending_within` adds this bound to the fact that the exploration ends.

The bound is on the counter and not on nodes that are left, so it has to be kept through the
explorations that stop early: an abort between two expansions, or in the middle of one, leaves a
counter that agrees with the marks. Every function of the exploration other than the expansion
itself keeps the counter (`Keeps`), and this is proved once for each of them.

The bound is attained. The carousel has three states and goes round; explored, cut below its root
and explored again, it is expanded as often as the bound allows.
-/

namespace AbstractionRefinement

open Work Session

variable {S A P : Type}

/-! ### Steps that count no expansion -/

namespace Session

variable {α : Type}

/-- The expansions counted so far. -/
def expansions (s : Session S A) : Nat := s.counters.expansions

theorem keeps_demand {x : Except Abort α} : Keeps (expansions (S := S) (A := A)) (demand x) :=
  fun _ ↦ rfl

theorem keeps_currentGraph : Keeps expansions (currentGraph (S := S) (A := A)) := fun _ ↦ rfl

/-- An edit of the graph counts no expansion, whether or not it succeeds. -/
theorem keeps_editGraph {f : Graph S A → Except Fault (Graph S A)} :
    Keeps expansions (editGraph f) := by
  intro s
  rw [editGraph]
  split <;> rfl

theorem keeps_count {f : Counters → Counters} (hf : ∀ c, (f c).expansions = c.expansions) :
    Keeps (expansions (S := S) (A := A)) (count f) := fun s ↦ hf s.counters

end Session

/-! ### Nodes that are expanded -/

namespace Graph

/-- The nodes that count as expanded. -/
def expandedNodes (g : Graph S A) : Finset NodeId :=
  {i ∈ Finset.range g.created | (g.node? i).any Node.expanded = true}

variable {g g' : Graph S A} {i : NodeId}

/-- The nodes counted are the live ones that are marked as expanded. -/
theorem mem_expandedNodes :
    i ∈ g.expandedNodes ↔ ∃ n, g.node? i = some n ∧ n.expanded = true := by
  rw [expandedNodes, Finset.mem_filter, Finset.mem_range, Option.any_eq_true]
  constructor
  · exact fun h ↦ h.2
  · rintro ⟨n, hn, hexp⟩
    exact ⟨lt_created hn, n, hn, hexp⟩

/-- An incomplete node does not count as expanded. -/
theorem notMem_expandedNodes {n : Node S A} (hn : g.node? i = some n)
    (hinc : n.isIncomplete = true) : i ∉ g.expandedNodes := by
  intro hmem
  obtain ⟨m, hm, hexp⟩ := mem_expandedNodes.1 hmem
  obtain rfl := Option.some.inj (hn.symm.trans hm)
  cases hexp.symm.trans (Node.isIncomplete_iff.1 hinc).1

/-- A node that counts as expanded goes on doing so while the graph grows. -/
theorem expandedNodes_subset (h : g.Extends g') : g.expandedNodes ⊆ g'.expandedNodes := by
  intro i hi
  obtain ⟨n, hn, hexp⟩ := mem_expandedNodes.1 hi
  obtain ⟨m, hm, hnm⟩ := h.node? hn
  exact mem_expandedNodes.2 ⟨m, hm, hnm.expanded hexp⟩

/-- A node that is expanded was so before, or was incomplete, or is new. -/
theorem expandedNodes_subset_union (h : g.Extends g') :
    g'.expandedNodes ⊆ g.expandedNodes ∪ g.unfinished g.created ∪
      {i ∈ g'.expandedNodes | g.created ≤ i} := by
  intro i hi
  obtain ⟨m, hm, hexp⟩ := mem_expandedNodes.1 hi
  rw [Finset.mem_union, Finset.mem_union]
  rcases Nat.lt_or_ge i g.created with hlt | hge
  · left
    obtain ⟨n, hn, hnm⟩ := h.exists_node? hlt hm
    cases hinc : n.isIncomplete with
    | true => exact .inr (mem_unfinished.2 ⟨hlt, n, hn, hinc⟩)
    | false => exact .inl (mem_expandedNodes.2 ⟨n, hn, (hnm.settled hinc).2 ▸ hexp⟩)
  · exact .inr (Finset.mem_filter.2 ⟨hi, hge⟩)

/-- Of the nodes made from position `since` on, no two of the same state are expanded. -/
def ExpandsApart (since : NodeId) (g : Graph S A) : Prop :=
  ∀ ⦃i j : NodeId⦄ ⦃n m : Node S A⦄, since ≤ i → since ≤ j → g.node? i = some n →
    g.node? j = some m → n.expanded = true → m.expanded = true → n.state = m.state → i = j

/-- The live nodes are as many as the positions that hold one. -/
theorem Indexed.live_eq_card (hg : g.Indexed) :
    g.live = {i ∈ Finset.range g.created | g.contains i = true}.card := by
  rw [hg.live_eq, Finset.card_def, Finset.filter_val, Finset.range_val, Multiset.range,
    Multiset.filter_coe, Multiset.coe_card]
  simp only [Bool.decide_eq_true]

/-- A graph that grows has no fewer live nodes than before. -/
theorem live_le_of_extends (hg : g.Indexed) (hg' : g'.Indexed) (h : g.Extends g') :
    g.live ≤ g'.live := by
  rw [hg.live_eq_card, hg'.live_eq_card]
  refine Finset.card_le_card fun i hi ↦ ?_
  obtain ⟨hlt, hlive⟩ := Finset.mem_filter.1 hi
  obtain ⟨n, hn⟩ := contains_iff.1 hlive
  obtain ⟨m, hm, -⟩ := h.node? hn
  exact Finset.mem_filter.2 ⟨Finset.mem_range.2 (lt_created hm), contains_iff.2 ⟨m, hm⟩⟩

/-- No more nodes are incomplete than are live. -/
theorem card_unfinished_le_live (hg : g.Indexed) : (g.unfinished g.created).card ≤ g.live := by
  rw [hg.live_eq_card]
  refine Finset.card_le_card fun i hi ↦ ?_
  obtain ⟨hlt, n, hn, -⟩ := mem_unfinished.1 hi
  exact Finset.mem_filter.2 ⟨Finset.mem_range.2 hlt, contains_iff.2 ⟨n, hn⟩⟩

end Graph

namespace Explorer

variable [DecidableEq S] [DecidableEq A] [Described S] {x : Explorer S A P} {prec : P}
  {deadline : Option Nat} {s t : Session S A} {p : Pursuit} {id : NodeId}

/-! ### Counting marks -/

/-- A step counts an expansion just if it marks a node. -/
theorem Grows.expandedNodes (h : x.Grows prec s t) :
    t.expansions = s.expansions ∧ t.graph.expandedNodes = s.graph.expandedNodes ∨
      ∃ id ∉ s.graph.expandedNodes, t.expansions = s.expansions + 1 ∧
        t.graph.expandedNodes = insert id s.graph.expandedNodes := by
  have hext := h.extends
  -- a step that marks nothing
  have hsame : (∀ {i m}, t.graph.node? i = some m → m.expanded = true →
      ∃ n, s.graph.node? i = some n ∧ n.expanded = true) →
      t.graph.expandedNodes = s.graph.expandedNodes := by
    intro hback
    refine Finset.Subset.antisymm (fun i hi ↦ ?_) (Graph.expandedNodes_subset hext)
    obtain ⟨m, hm, hexp⟩ := Graph.mem_expandedNodes.1 hi
    exact Graph.mem_expandedNodes.2 (hback hm hexp)
  cases h with
  | root =>
    refine .inl ⟨rfl, hsame fun {i m} hm hexp ↦ ?_⟩
    rw [Graph.node?_addRoot] at hm
    split at hm
    · obtain rfl := Option.some.inj hm
      cases hexp
    · exact ⟨m, hm, hexp⟩
  | ready => exact .inl ⟨rfl, rfl⟩
  | child hn _ _ _ _ hadd =>
    refine .inl ⟨rfl, hsame fun {i m} hm hexp ↦ ?_⟩
    rw [Graph.node?_addChild hn hadd] at hm
    split at hm
    · obtain rfl := Option.some.inj hm
      cases hexp
    · split at hm
      · rename_i hi
        subst hi
        obtain rfl := Option.some.inj hm
        exact ⟨_, hn, hexp⟩
      · exact ⟨m, hm, hexp⟩
  | @expanded id n _ _ hn hinc _ _ hset =>
    refine .inr ⟨id, Graph.notMem_expandedNodes hn hinc, rfl, Finset.ext fun i ↦ ?_⟩
    rw [Finset.mem_insert, Graph.mem_expandedNodes, Graph.mem_expandedNodes,
      Graph.eq_update_of_setExpanded hset, Graph.node?_update]
    split
    · rename_i hi
      rw [hi, hn]
      simp
    · rename_i hi
      simp [hi]
  | cover hn _ _ hcov =>
    refine .inl ⟨rfl, hsame fun {i m} hm hexp ↦ ?_⟩
    obtain ⟨k, hk, rfl⟩ := (Graph.rewrites_cover hn hcov).1.exists_node? hm
    exact ⟨k, hk, hexp⟩

/-- **The expansions counted are the nodes newly marked.** -/
theorem expansions_of_grows (h : Relation.ReflTransGen (x.Grows prec) s t) :
    t.expansions + s.graph.expandedNodes.card = s.expansions + t.graph.expandedNodes.card := by
  induction h with
  | refl => rfl
  | tail _ hstep ih =>
    rcases hstep.expandedNodes with ⟨hcount, hnodes⟩ | ⟨id, hnot, hcount, hnodes⟩
    · rw [hcount, hnodes, ih]
    · rw [hcount, hnodes, Finset.card_insert_of_notMem hnot]
      omega

/-- Where no expansion is counted, the same nodes are expanded as before. -/
theorem expandedNodes_eq_of_grows (h : Relation.ReflTransGen (x.Grows prec) s t)
    (hcount : t.expansions = s.expansions) : t.graph.expandedNodes = s.graph.expandedNodes := by
  have hcard := expansions_of_grows h
  exact (Finset.eq_of_subset_of_card_le (Graph.expandedNodes_subset (extends_of_grows h))
    (by omega)).symm

/-- Where one expansion is counted, one node is expanded in addition. -/
theorem expandedNodes_eq_insert_of_grows (h : Relation.ReflTransGen (x.Grows prec) s t)
    (hcount : t.expansions = s.expansions + 1) (hs : id ∉ s.graph.expandedNodes)
    (ht : id ∈ t.graph.expandedNodes) :
    t.graph.expandedNodes = insert id s.graph.expandedNodes := by
  have hcard := expansions_of_grows h
  have hsub : insert id s.graph.expandedNodes ⊆ t.graph.expandedNodes :=
    Finset.insert_subset ht (Graph.expandedNodes_subset (extends_of_grows h))
  refine (Finset.eq_of_subset_of_card_le hsub ?_).symm
  rw [Finset.card_insert_of_notMem hs]
  omega

/-! ### Functions that expand nothing -/

omit [DecidableEq S] [DecidableEq A] in
/-- Taking up an initial state is not an expansion. -/
theorem keeps_addInitial {st : S} : Keeps expansions (x.addInitial (A := A) st) := by
  refine keeps_demand.bind fun _ ↦ ?_
  split
  · exact .pure
  · refine keeps_currentGraph.bind fun g ↦ keeps_demand.bind fun subsumed ↦ ?_
    split
    · exact .pure
    · exact keeps_demand.bind fun _ ↦ keeps_editGraph.bind fun _ ↦ keeps_count fun _ ↦ rfl

omit [DecidableEq S] [DecidableEq A] in
theorem keeps_addInitials {states : List S} :
    Keeps expansions (x.addInitials (A := A) states) := by
  induction states with
  | nil => exact .pure
  | cons st states ih => exact keeps_addInitial.bind fun _ ↦ ih

omit [DecidableEq S] [DecidableEq A] in
/-- Adding the roots is not an expansion. -/
theorem keeps_addRoots : Keeps expansions (x.addRoots (A := A) prec) :=
  keeps_demand.bind fun _ ↦ keeps_addInitials.bind fun _ ↦ keeps_editGraph

omit [Described S] in
/-- Taking up a successor is not counted: the expansion is, once, when all are taken up. -/
theorem keeps_addSuccessor {a : A} {st : S} : Keeps expansions (x.addSuccessor id a st) := by
  refine keeps_currentGraph.bind fun g ↦ keeps_demand.bind fun has ↦ ?_
  split
  · exact .pure
  · exact keeps_demand.bind fun _ ↦ keeps_editGraph.bind fun _ ↦ keeps_currentGraph.bind fun _ ↦
      keeps_demand.bind fun _ ↦ .bind (keeps_count fun _ ↦ rfl) fun _ ↦ .pure

omit [Described S] in
theorem keeps_addSuccessors {a : A} {states : List S} :
    Keeps expansions (x.addSuccessors id a states) := by
  induction states with
  | nil => exact .pure
  | cons st states ih => exact keeps_addSuccessor.bind fun _ ↦ ih.bind fun _ ↦ .pure

/-- Nor is taking up all successors of a node. -/
theorem keeps_addAll {succ : List (A × List S)} : Keeps expansions (x.addAll id succ) := by
  induction succ with
  | nil => exact .pure
  | cons r succ ih =>
    exact keeps_demand.bind fun _ ↦ keeps_addSuccessors.bind fun _ ↦ ih.bind fun _ ↦ .pure

omit [DecidableEq S] [DecidableEq A] [Described S] in
/-- An attempt to cover a node is not an expansion. -/
theorem keeps_tryCover : Keeps expansions (x.tryCover (A := A) id) := by
  refine keeps_currentGraph.bind fun g ↦ keeps_demand.bind fun c ↦ ?_
  split
  · exact .pure
  · exact keeps_editGraph.bind fun _ ↦ .bind (keeps_count fun _ ↦ rfl) fun _ ↦ .pure

omit [DecidableEq S] [DecidableEq A] [Described S] in
/-- Settling nodes, by covering or by putting them aside, is not an expansion. -/
theorem keeps_settle {ids : List NodeId} : Keeps expansions (x.settle (A := A) p ids) := by
  induction ids generalizing p with
  | nil => exact .pure
  | cons i ids ih =>
    refine keeps_currentGraph.bind fun g ↦ keeps_demand.bind fun n ↦ ?_
    split
    · exact ih
    · refine keeps_tryCover.bind fun covered ↦ ?_
      split
      · exact ih
      · exact ih

/-! ### What a turn expands -/

/-- An expansion counts once, unless it stops early: then it counts nothing. -/
theorem does_expand_count : Does (fun _ _ ↦ True) (fun _ t ↦ t.expansions = s.expansions)
    (x.expand id prec) s fun _ t ↦ t.expansions = s.expansions + 1 := by
  refine does_currentGraph_bind (does_demand_bind (fun _ _ ↦ rfl) fun n _ ↦
    does_demand_bind (fun _ _ ↦ rfl) fun succ _ ↦ ?_)
  have hadd : Does (fun _ _ ↦ True) (fun _ t ↦ t.expansions = s.expansions) (x.addAll id succ) s
      fun _ t ↦ t.expansions = s.expansions :=
    ⟨.single trivial, fun _ _ ↦ keeps_addAll s, fun _ _ ↦ keeps_addAll s⟩
  refine hadd.bind fun made t _ ht ↦ ?_
  have hedit : Does (fun _ _ ↦ True) (fun _ t ↦ t.expansions = s.expansions)
      (editGraph fun g ↦ g.setExpanded id true) t fun _ t ↦ t.expansions = s.expansions :=
    ⟨.single trivial, fun _ _ ↦ (keeps_editGraph t).trans ht,
      fun _ _ ↦ (keeps_editGraph t).trans ht⟩
  refine hedit.bind fun _ u _ hu ↦ .of_eq rfl (.single trivial) ?_
  exact congrArg (· + 1) hu

/-- Nothing is expanded in addition, or one incomplete node that no node may cover. -/
def Picks (x : Explorer S A P) (s t : Session S A) : Prop :=
  t.graph.expandedNodes = s.graph.expandedNodes ∨
    ∃ id n, s.graph.node? id = some n ∧ n.isIncomplete = true ∧
      s.graph.findCoverer x.model.leq id = .ok none ∧
      t.graph.expandedNodes = insert id s.graph.expandedNodes

/-- **A turn expands at most one node**, whether it is completed or stops early. -/
theorem picks_turn (hp : Pursues p s.graph) : x.Picks s (x.turn deadline prec p s).2 := by
  have hnone : ∀ {t}, Relation.ReflTransGen (x.Grows prec) s t → t.expansions = s.expansions →
      x.Picks s t := fun h hcount ↦ .inl (expandedNodes_eq_of_grows h hcount)
  -- what holds of the session a computation leaves, be it a value or not
  have hdoes : Does (x.Grows prec) (fun _ t ↦ x.Picks s t) (x.turn deadline prec p) s
      fun _ t ↦ x.Picks s t := by
    rw [turn]
    split
    · exact .pure (.inl rfl)
    rename_i id f _
    refine does_demand_bind (fun _ _ ↦ .inl rfl) fun _ _ ↦ does_currentGraph_bind ?_
    split
    · exact .pure (.inl rfl)
    rename_i hid
    obtain ⟨n, hn, hinc⟩ : ∃ n, s.graph.node? id = some n ∧ n.isIncomplete = true := by
      rw [Bool.not_eq_true', Bool.not_eq_false, Option.any_eq_true] at hid
      exact hid
    have hcover : Does (x.Grows prec) (x.Stops prec deadline) (x.tryCover id) s
        fun covered t ↦ Covers x id s t covered := does_tryCover hp.wellFormed hn hinc
    have hpicks := hnone hcover.change (keeps_tryCover s)
    refine Does.bind (Q := fun covered t ↦ Covers x id s t covered ∧ x.Picks s t)
      ⟨hcover.change, fun c hc ↦ ⟨hcover.value c hc, hpicks⟩, fun _ _ ↦ hpicks⟩ ?_
    rintro covered t - ⟨hcov, ht⟩
    cases covered with
    | true => exact .pure ht
    | false =>
      obtain ⟨rfl, hfind⟩ := hcov.failed rfl
      have hexpand : Does (x.Grows prec) (x.Stops prec deadline) (x.expand id prec) t
          fun made u ↦ Expands id t u made := does_expand hp.wellFormed hn hinc
      have hcount : Does _ _ (x.expand id prec) t _ := does_expand_count
      refine Does.bind (Q := fun made u ↦ Expands id t u made ∧ u.expansions = t.expansions + 1)
        ⟨hexpand.change, fun m hm ↦ ⟨hexpand.value m hm, hcount.value m hm⟩,
          fun e he ↦ hnone hexpand.change (hcount.stop e he)⟩ ?_
      rintro made u htu ⟨hexp, hone⟩
      have hsettle : Does (x.Grows prec) (x.Stops prec deadline)
          (x.settle { p with frontier := f, turns := p.turns + 1 } made) u _ :=
        does_settle (wellFormed_of_grows htu hp.wellFormed) (hexp.made_eq ▸ List.nodup_range')
          hexp.fresh
      -- sorting the nodes made expands nothing, so the node taken is the only one
      have hpicks :
          x.Picks t (x.settle { p with frontier := f, turns := p.turns + 1 } made u).2 := by
        have hid := Graph.expandedNodes_subset (extends_of_grows hsettle.change)
          (Graph.mem_expandedNodes.2 hexp.self)
        exact .inr ⟨id, n, hn, hinc, hfind, expandedNodes_eq_insert_of_grows
          (htu.trans hsettle.change) ((keeps_settle u).trans hone)
          (Graph.notMem_expandedNodes hn hinc) hid⟩
      refine Does.bind (Q := fun _ w ↦ x.Picks t w)
        ⟨hsettle.change, fun _ _ ↦ hpicks, fun _ _ ↦ hpicks⟩ fun p' w _ hw ↦ ?_
      split
      · exact .pure hw
      · exact .pure hw
  cases h : (x.turn deadline prec p s).1 with
  | ok r => exact hdoes.value r h
  | error e => exact hdoes.stop e h

/-! ### One expansion for each state -/

variable {U : Finset S} {since : NodeId} {turns : Nat}

omit [DecidableEq A] [Described S] in
/-- **What a turn preserves.** The node it expands is an old one, or its state has not been expanded
since. -/
theorem Picks.expandsApart (h : x.Picks s t) (hst : s.graph.Extends t.graph)
    (hs : s.graph.WellFormed) (hmade : x.model.MadeSince U since s.graph)
    (hrefl : ∀ st ∈ U, x.model.leq st st = true) (hapart : s.graph.ExpandsApart since) :
    t.graph.ExpandsApart since := by
  intro i j n m hi hj hn hm hnexp hmexp hstate
  have hit := Graph.mem_expandedNodes.2 ⟨n, hn, hnexp⟩
  have hjt := Graph.mem_expandedNodes.2 ⟨m, hm, hmexp⟩
  -- a node expanded before has kept its state
  have hback : ∀ {i n}, t.graph.node? i = some n → i ∈ s.graph.expandedNodes →
      ∃ k, s.graph.node? i = some k ∧ k.expanded = true ∧ n.state = k.state := by
    intro i n hn hmem
    obtain ⟨k, hk, hkexp⟩ := Graph.mem_expandedNodes.1 hmem
    obtain ⟨n', hn', hkn⟩ := hst.node? hk
    obtain rfl := Option.some.inj (hn.symm.trans hn')
    exact ⟨k, hk, hkexp, hkn.state⟩
  have hold : i ∈ s.graph.expandedNodes → j ∈ s.graph.expandedNodes → i = j := by
    intro hi' hj'
    obtain ⟨k, hk, hkexp, hnk⟩ := hback hn hi'
    obtain ⟨l, hl, hlexp, hml⟩ := hback hm hj'
    exact hapart hi hj hk hl hkexp hlexp (hnk.symm.trans (hstate.trans hml))
  rcases h with heq | ⟨id, k, hk, hinc, hfind, heq⟩
  · rw [heq] at hit hjt
    exact hold hit hjt
  · -- the state of the node taken differs from those expanded before
    have hnew : ∀ {j m}, since ≤ id → since ≤ j → t.graph.node? j = some m →
        j ∈ s.graph.expandedNodes → m.state ≠ k.state := by
      intro j m hid hj hm hmem
      obtain ⟨l, hl, hlexp, hml⟩ := hback hm hmem
      rw [hml]
      exact ((Graph.mem_unexplored hs.indexed).1
        (hmade.mem_unexplored hs hrefl hk hinc hid hfind)).2 hj hl hlexp
    obtain ⟨k', hk', hkk⟩ := hst.node? hk
    rw [heq, Finset.mem_insert] at hit hjt
    rcases hit with rfl | hi' <;> rcases hjt with rfl | hj'
    · rfl
    · obtain rfl := Option.some.inj (hn.symm.trans hk')
      exact absurd (hstate.symm.trans hkk.state) (hnew hi hj hm hj')
    · obtain rfl := Option.some.inj (hm.symm.trans hk')
      exact absurd (hstate.trans hkk.state) (hnew hj hi hn hi')
    · exact hold hi' hj'

/-- **What all turns preserve**, up to the verdict or to where they stop early. -/
theorem does_pursue_apart (hU : x.model.Confined prec U) (hs : s.graph.WellFormed)
    (hmade : x.model.MadeSince U since s.graph) (hapart : s.graph.ExpandsApart since) :
    Does (x.Grows prec) (fun _ t ↦ t.graph.ExpandsApart since) (x.pursue turns deadline prec) s
      fun r t ↦ ∀ v, r = some v → t.graph.ExpandsApart since := by
  refine does_currentGraph_bind ?_
  dsimp only
  split
  · exact .pure fun _ _ ↦ hapart
  · refine (Does.iterate (I := fun p u ↦ Pursues p u.graph ∧ x.model.MadeSince U since u.graph ∧
        u.graph.ExpandsApart since) (R := fun _ u ↦ u.graph.ExpandsApart since) ?_
      ⟨pursues_initial hs, hmade, hapart⟩).bind ?_
    · rintro p s ⟨hp, hmade, hapart⟩
      have hturn : Does (x.Grows prec) (x.Stops prec deadline) (x.turn deadline prec p) s _ :=
        does_turn hp
      have hext := extends_of_grows hturn.change
      have hapart' := (picks_turn hp).expandsApart hext hp.wellFormed hmade hU.reflexive hapart
      refine ⟨hturn.change, fun r hr ↦ ?_, fun _ _ ↦ hapart'⟩
      have hwf := wellFormed_of_grows hturn.change hp.wellFormed
      cases r with
      | again p' =>
        exact ⟨hp.advances (hturn.value _ hr).1 hext hwf, hmade.of_grows hU hturn.change, hapart'⟩
      | done a => exact hapart'
    · rintro r t - hr
      cases r with
      | none => exact .pure fun v hv ↦ by cases hv
      | some a => exact .of_eq currentGraph_bind .refl fun _ _ ↦ hr a rfl

/-- With no expansion counted, no new node is expanded. -/
theorem expandsApart_of_expansions_eq (h : Relation.ReflTransGen (x.Grows prec) s t)
    (hcount : t.expansions = s.expansions) : t.graph.ExpandsApart s.graph.created := by
  intro i j n m hi _ hn _ hexp
  have hmem := Graph.mem_expandedNodes.2 ⟨n, hn, hexp⟩
  rw [expandedNodes_eq_of_grows h hcount] at hmem
  obtain ⟨k, hk, -⟩ := Graph.mem_expandedNodes.1 hmem
  exact absurd (Graph.lt_created hk) (Nat.not_lt.2 hi)

/-- The roots are added, unless they are there. -/
def prepare (x : Explorer S A P) (prec : P) : Work (Session S A) Unit := do
  unless (← currentGraph).initialized do x.addRoots prec

/-- Adding the roots, where they are missing, grows the graph and stops for the reasons an
exploration may stop for. -/
theorem does_prepare (hs : s.graph.WellFormed) :
    Does (x.Grows prec) (x.Stops prec deadline) (x.prepare prec) s fun _ _ ↦ True := by
  refine does_currentGraph_bind ?_
  split
  · exact .pure trivial
  · exact (does_addRoots hs).imp fun _ _ _ _ ↦ trivial

/-- An exploration checks its time limit, adds the roots and pursues what is waiting. -/
theorem explore_eq_prepare : x.explore turns deadline prec =
    demand (orFault (x.meter.checkLimit x.options.timeLimit)) >>= fun _ ↦
      x.prepare prec >>= fun _ ↦ x.pursue turns deadline prec := by
  rw [explore_eq, prepare]
  simp only [bind_assoc]
  refine congrArg (_ >>= ·) (funext fun _ ↦ congrArg (_ >>= ·) (funext fun g ↦ ?_))
  cases g.initialized <;> rfl

omit [DecidableEq S] [DecidableEq A] in
theorem keeps_prepare : Keeps expansions (x.prepare (A := A) prec) := by
  refine keeps_currentGraph.bind fun g ↦ ?_
  split
  · exact .pure
  · exact keeps_addRoots

/-- However an exploration ends, it has not expanded two nodes of the same state, of those it made.
-/
theorem does_explore_apart (hU : x.model.Confined prec U) (hs : s.graph.WellFormed) :
    Does (x.Grows prec) (fun _ t ↦ t.graph.ExpandsApart s.graph.created)
      (x.explore turns deadline prec) s
      fun r t ↦ ∀ v, r = some v → t.graph.ExpandsApart s.graph.created := by
  rw [explore_eq_prepare]
  have hrefl : Relation.ReflTransGen (x.Grows prec) s s := .refl
  have hstart := expandsApart_of_expansions_eq hrefl rfl
  refine does_demand_bind (fun _ _ ↦ hstart) fun _ _ ↦ ?_
  have hprep : Does (x.Grows prec) (x.Stops prec deadline) (x.prepare prec) s _ := does_prepare hs
  have hapart := expandsApart_of_expansions_eq hprep.change (keeps_prepare s)
  refine Does.bind (Q := fun _ t ↦ t.graph.ExpandsApart s.graph.created)
    ⟨hprep.change, fun _ _ ↦ hapart, fun _ _ ↦ hapart⟩ fun _ t hst ht ↦ ?_
  exact does_pursue_apart hU (wellFormed_of_grows hst hs) (Model.MadeSince.created.of_grows hU hst)
    ht

/-! ### The bound -/

omit [DecidableEq A] [Described S] in
/-- New nodes that are expanded are no more than the states. -/
theorem card_new_le (hmade : x.model.MadeSince U since s.graph)
    (hapart : s.graph.ExpandsApart since) :
    {i ∈ s.graph.expandedNodes | since ≤ i}.card ≤ U.card := by
  refine Nat.le_trans (Finset.card_le_card_of_injOn (t := U.image some)
    (fun i ↦ (s.graph.node? i).map Node.state) ?_ ?_) Finset.card_image_le
  · intro i hi
    obtain ⟨hexp, hi⟩ := Finset.mem_filter.1 hi
    obtain ⟨n, hn, -⟩ := Graph.mem_expandedNodes.1 hexp
    show (s.graph.node? i).map Node.state ∈ U.image some
    rw [hn]
    exact Finset.mem_image_of_mem _ (hmade hi hn).mem
  · intro i hi j hj hstate
    obtain ⟨hiexp, hi⟩ := Finset.mem_filter.1 hi
    obtain ⟨hjexp, hj⟩ := Finset.mem_filter.1 hj
    obtain ⟨n, hn, hnexp⟩ := Graph.mem_expandedNodes.1 hiexp
    obtain ⟨m, hm, hmexp⟩ := Graph.mem_expandedNodes.1 hjexp
    simp only [hn, hm, Option.map_some, Option.some.injEq] at hstate
    exact hapart hi hj hn hm hnexp hmexp hstate

/-- **A bound on expansions**: one for each node that was incomplete at the beginning, and one for
each state that can be reached. -/
theorem expansions_le (h : Relation.ReflTransGen (x.Grows prec) s t)
    (hmade : x.model.MadeSince U s.graph.created t.graph)
    (hapart : t.graph.ExpandsApart s.graph.created) :
    t.expansions ≤ s.expansions + ((s.graph.unfinished s.graph.created).card + U.card) := by
  have hnew := card_new_le hmade hapart
  have hcount := expansions_of_grows h
  have hcard := Nat.le_trans
    (Finset.card_le_card (Graph.expandedNodes_subset_union (extends_of_grows h)))
    (Nat.le_trans (Finset.card_union_le _ _) (Nat.add_le_add_right (Finset.card_union_le _ _) _))
  omega

variable (deadline) in
/-- **Termination over a finite domain, with a bound.** Whatever well-formed graph it begins with,
an exploration in `U` ends with a verdict or stops early, given enough turns. Of the nodes it makes,
no two of the same state are expanded; so it expands at most as many nodes as are live when the
roots are there, and one more for each state of `U`. -/
theorem exists_ending_within (hU : x.model.Confined prec U) (hs : s.graph.WellFormed) :
    ∃ N r t, r ≠ .ok none ∧
      (∀ turns, N ≤ turns → x.explore turns deadline prec s = (r, t)) ∧
      t.graph.ExpandsApart s.graph.created ∧
      t.counters.expansions ≤
        s.counters.expansions + ((x.prepare prec s).2.graph.live + U.card) := by
  have hends : Ends (fun turns ↦ x.explore turns deadline prec) s := ends_explore hU hs
  obtain ⟨N, r, t, hr, hN⟩ := hends
  have hrun := hN N (Nat.le_refl N)
  have hdoes : Does (x.Grows prec) _ (x.explore N deadline prec) s _ := does_explore_apart hU hs
  have hapart : t.graph.ExpandsApart s.graph.created := by
    rcases r with e | ⟨_ | v⟩
    · exact hdoes.stop_of_eq hrun
    · exact absurd rfl hr
    · exact hdoes.value_of_eq hrun v rfl
  have hst := hdoes.change_of_eq hrun
  have hle := expansions_le hst (Model.MadeSince.created.of_grows hU hst) hapart
  -- the nodes left to expand were live, and adding roots takes none away
  have hprep : Does (x.Grows prec) (x.Stops prec deadline) (x.prepare prec) s _ := does_prepare hs
  have hlive := Graph.live_le_of_extends hs.indexed (wellFormed_of_grows hprep.change hs).indexed
    (extends_of_grows hprep.change)
  have hold := Graph.card_unfinished_le_live hs.indexed
  refine ⟨N, r, t, hr, hN, hapart, Nat.le_trans hle ?_⟩
  exact Nat.add_le_add_left (Nat.add_le_add_right (Nat.le_trans hold hlive) _) _

end Explorer

/-! ### The bound is attained -/

/-- Where a carousel stands. -/
inductive Stand
  | front
  | side
  | back
  deriving DecidableEq

instance : Described Stand where
  describe
    | .front => "front"
    | .side => "side"
    | .back => "back"

/-- All stands. -/
def Stand.all : Finset Stand := {.front, .side, .back}

theorem Stand.mem_all (st : Stand) : st ∈ all := by cases st <;> decide

/-- Where it stands after a turn. -/
def Stand.turned : Stand → Stand
  | .front => .side
  | .side => .back
  | .back => .front

/-- A carousel goes round and round. -/
def carousel : Explorer Stand Unit Unit where
  model :=
    { initial := fun _ ↦ .ok [.front]
      successors := fun st _ _ ↦ .ok [st.turned]
      leq := fun st q ↦ st = q
      isBottom := fun _ ↦ false
      enabled := fun _ ↦ .ok [()]
      isTarget := fun _ ↦ false }

/-- A carousel explored once. -/
def explored : Session Stand Unit := (carousel.explore 9 none () {}).2

/-- The same, cut below the root, which may not cover any more. -/
def recut : Session Stand Unit :=
  { explored with graph := (explored.graph.retireCoverer 0).prune 1 }

theorem wellFormed_explored : explored.graph.WellFormed := by
  have hdoes : Does (carousel.Grows ()) (carousel.Stops () none) (carousel.explore 9 none ()) {}
    _ := Explorer.does_explore Graph.wellFormed_empty
  exact Explorer.wellFormed_of_grows hdoes.change Graph.wellFormed_empty

theorem wellFormed_recut : recut.graph.WellFormed := by
  dsimp only [recut]
  exact wellFormed_explored.retireCoverer.prune

/-- Exploring again takes four expansions: the root that is left, and a node for each stand. -/
theorem ending_within_recut : ∃ N r t, r ≠ .ok none ∧
    (∀ turns, N ≤ turns → carousel.explore turns none () recut = (r, t)) ∧
    t.graph.ExpandsApart recut.graph.created ∧
    t.counters.expansions ≤
      recut.counters.expansions + ((carousel.prepare () recut).2.graph.live + Stand.all.card) ∧
    (carousel.explore 9 none () recut).2.counters.expansions =
      recut.counters.expansions + ((carousel.prepare () recut).2.graph.live + Stand.all.card) := by
  have hU : carousel.model.Confined () Stand.all :=
    ⟨fun _ st _ ↦ st.mem_all, fun _ st _ ↦ st.mem_all, fun {_ _ u} _ _ _ ↦ u.mem_all,
      fun st _ ↦ decide_eq_true rfl⟩
  obtain ⟨N, r, t, hr, hN, hapart, hle⟩ :=
    Explorer.exists_ending_within none hU wellFormed_recut
  exact ⟨N, r, t, hr, hN, hapart, hle, by decide +kernel⟩

end AbstractionRefinement
