import AbstractionRefinement.Proofs.Exploration.Run

/-!
# The loop of an exploration

Between two turns every incomplete node waits in the frontier, and the counterexamples are counted
(`Explorer.Pursues`). A turn advances in one of three ways (`Explorer.Advances`): it passes a node
over, covers it, or expands it and sorts the nodes it made. The invariant gives the outcome of the
loop, and thereby of a whole exploration: the graph is initialized, and it is complete or there are
enough counterexamples (`Explorer.does_explore`).

An exploration that is content with one counterexample goes on only while there is none. So the
counterexamples it leaves were there before, or are roots, or come from one expansion
(`Explorer.gathers_of_explore`).

The count of counterexamples that a loop keeps is compared with the graph (`Graph.census`). It
starts from the counterexamples there are and goes up by those among the new nodes, so the stop rule
looks at the number in the graph. A node is sorted once, right after it is made, and is then
covered, counted, queued, or left alone as a target that is covered.

The order of the frontier does not come into any of this. What is used of it is that the node taken
was held and that the others stay (`nodes_of_pop?`), which holds of all three search orders.
-/

namespace AbstractionRefinement

open Work Session

/-! ### What a frontier holds -/

namespace Frontier

/-- The nodes held, in the order of leaving. -/
def nodes (f : Frontier) : List NodeId := f.held.map Waiting.node

theorem mem_insertByKey {w v : Waiting} {l : List Waiting} :
    v ∈ insertByKey w l ↔ v = w ∨ v ∈ l := by
  induction l with
  | nil => simp [insertByKey]
  | cons u l ih =>
    rw [insertByKey]
    split
    · exact List.mem_cons
    · rw [List.mem_cons, ih, List.mem_cons, or_left_comm]

/-- After a node is added, it waits, and so does all that waited before. -/
theorem mem_nodes_push {f : Frontier} {i j : NodeId} {key : Nat} :
    i ∈ (f.push j key).nodes ↔ i = j ∨ i ∈ f.nodes := by
  have hheld : ∀ w, w ∈ (f.push j key).held ↔ w = ⟨j, key⟩ ∨ w ∈ f.held := by
    intro w
    rw [push]
    split
    · simp [or_comm]
    · exact List.mem_cons
    · exact mem_insertByKey
  rw [nodes, nodes, List.mem_map, List.mem_map]
  constructor
  · rintro ⟨w, hw, rfl⟩
    rcases (hheld w).1 hw with rfl | hw
    · exact .inl rfl
    · exact .inr ⟨w, hw, rfl⟩
  · rintro (rfl | ⟨w, hw, rfl⟩)
    · exact ⟨⟨i, key⟩, (hheld _).2 (.inl rfl), rfl⟩
    · exact ⟨w, (hheld _).2 (.inr hw), rfl⟩

/-- The node that is taken is the first that waits. -/
theorem nodes_of_pop? {f f' : Frontier} {id : NodeId} (h : f.pop? = some (id, f')) :
    f.nodes = id :: f'.nodes := by
  rw [pop?] at h
  split at h
  · cases h
  · rename_i w rest hheld
    obtain ⟨rfl, rfl⟩ := Prod.mk.inj (Option.some.inj h)
    rw [nodes, hheld]
    rfl

/-- If no node can be taken, none waits. -/
theorem nodes_of_pop?_eq_none {f : Frontier} (h : f.pop? = none) : f.nodes = [] := by
  rw [pop?] at h
  split at h
  · rename_i hheld
    rw [nodes, hheld]
    rfl
  · cases h

end Frontier

/-! ### The number of counterexamples -/

namespace Graph

variable {S A : Type} {g g' : Graph S A}

/-- Whether a position holds a counterexample. -/
def accuses (g : Graph S A) (i : NodeId) : Bool := (g.node? i).any Node.isCounterexample

/-- The number of counterexamples. -/
def census (g : Graph S A) : Nat := (List.range g.created).countP g.accuses

theorem length_insertByDepth {n : Node S A} {l : List (Node S A)} :
    (insertByDepth n l).length = l.length + 1 := by
  induction l with
  | nil => rfl
  | cons m l ih =>
    rw [insertByDepth]
    split
    · rfl
    · rw [List.length_cons, ih, List.length_cons]

/-- The counterexamples that are listed are as many as those counted. -/
theorem length_counterexamples : g.counterexamples.length = g.census := by
  have hsort : ∀ l : List (Node S A), (l.foldr insertByDepth []).length = l.length := by
    intro l
    induction l with
    | nil => rfl
    | cons n l ih => rw [List.foldr_cons, length_insertByDepth, ih, List.length_cons]
  rw [counterexamples, List.length_map, hsort, ← List.countP_eq_length_filter, nodes_eq,
    List.countP_filterMap, census]
  refine List.countP_congr fun i _ ↦ ?_
  rw [accuses]
  cases g.node? i <;> simp

/-- A position that held a counterexample before an exploration holds one afterwards, and the other
way round. -/
theorem accuses_extends (h : g.Extends g') {i : NodeId} (hi : i < g.created) :
    g'.accuses i = g.accuses i := by
  rw [accuses, accuses]
  cases hm : g'.node? i with
  | none =>
    cases hn : g.node? i with
    | none => rfl
    | some n =>
      obtain ⟨m, hm', -⟩ := h.node? hn
      cases hm.symm.trans hm'
  | some m =>
    obtain ⟨n, hn, hnm⟩ := h.exists_node? hi hm
    rw [hn]
    exact hnm.isCounterexample

/-- Growth adds the counterexamples among the new nodes. -/
theorem census_extends (h : g.Extends g') : g'.census =
    g.census + (List.range' g.created (g'.created - g.created)).countP g'.accuses := by
  have hrange : List.range g'.created =
      List.range g.created ++ List.range' g.created (g'.created - g.created) := by
    have happend := List.range'_append_1 (s := 0) (m := g.created) (n := g'.created - g.created)
    rw [Nat.zero_add, Nat.add_sub_cancel' h.created] at happend
    rw [List.range_eq_range', List.range_eq_range', happend]
  rw [census, hrange, List.countP_append, census]
  congr 1
  refine List.countP_congr fun i hi ↦ ?_
  rw [accuses_extends h (List.mem_range.1 hi)]

/-- A graph without counterexamples is safe, and the other way round. -/
theorem census_eq_zero_iff : g.census = 0 ↔ g.isSafe = true := by
  rw [census, List.countP_eq_zero, isSafe, targetNodes, List.all_eq_true]
  constructor
  · intro h n hn
    obtain ⟨hmem, htarget⟩ := List.mem_filter.1 hn
    obtain ⟨i, hi⟩ := mem_nodes.1 hmem
    by_contra hcov
    refine h i (List.mem_range.2 (lt_created hi)) ?_
    rw [accuses, hi, Option.any_some, Node.isCounterexample, htarget, eq_false_of_ne_true hcov]
    rfl
  · intro h i _ hacc
    obtain ⟨n, hn, hcex⟩ := (Option.any_eq_true _ _).1 hacc
    rw [Node.isCounterexample, Bool.and_eq_true] at hcex
    have hcov := h n (List.mem_filter.2 ⟨mem_nodes.2 ⟨i, hn⟩, hcex.1⟩)
    rw [hcov] at hcex
    cases hcex.2

/-- A graph is complete if none of its nodes is incomplete. -/
theorem isComplete_iff : g.isComplete = true ↔
    ∀ {i n}, g.node? i = some n → n.isIncomplete = false := by
  rw [isComplete, List.all_eq_true]
  constructor
  · intro h i n hn
    exact Bool.not_eq_eq_eq_not.1 (h n (mem_nodes.2 ⟨i, hn⟩))
  · intro h n hn
    obtain ⟨i, hi⟩ := mem_nodes.1 hn
    exact Bool.not_eq_eq_eq_not.2 (h hi)

end Graph

/-- No rule is content with no counterexample. -/
theorem StopRule.not_reached_zero {rule : StopRule} : rule.reached 0 = false := by
  cases rule with
  | first => rfl
  | atLeast count => simp [reached]
  | never => rfl

/-- A rule that is content with one counterexample is content with more. -/
theorem StopRule.reached_of_pos {rule : StopRule} (h : rule.reached 1 = true) {found : Nat}
    (hpos : 0 < found) : rule.reached found = true := by
  cases rule with
  | first => exact decide_eq_true hpos
  | atLeast count => exact decide_eq_true (Nat.le_trans (of_decide_eq_true h) hpos)
  | never => cases h

/-- The pursuit after a node was taken from the frontier. -/
def Pursuit.took (p : Pursuit) (frontier : Frontier) : Pursuit :=
  { p with frontier, turns := p.turns + 1 }

namespace Explorer

variable {S A P : Type} {x : Explorer S A P} {prec : P} {deadline : Option Nat}
  {s t : Session S A} {p p' : Pursuit} {ids : List NodeId}

/-! ### Sorting the nodes made -/

/-- What sorting new nodes does: nothing is made, what stays incomplete is queued, and the
counterexamples are counted. -/
structure Settles (p : Pursuit) (ids : List NodeId) (s t : Session S A) (p' : Pursuit) : Prop where
  /-- Nothing is made. -/
  created_eq : t.graph.created = s.graph.created
  /-- It is still the same turn. -/
  turns_eq : p'.turns = p.turns
  /-- What waits goes on waiting. -/
  kept : ∀ i ∈ p.frontier.nodes, i ∈ p'.frontier.nodes
  /-- New nodes that stay incomplete wait. -/
  queued : ∀ i ∈ ids, ∀ {m}, t.graph.node? i = some m → m.isIncomplete = true →
    i ∈ p'.frontier.nodes
  /-- New counterexamples count. -/
  found_eq : p'.found = p.found + ids.countP t.graph.accuses

/-- New nodes: live, neither expanded nor covered. -/
def Fresh (s : Session S A) (ids : List NodeId) : Prop :=
  ∀ i ∈ ids, ∃ m, s.graph.node? i = some m ∧ m.expanded = false ∧ m.coveredBy = none

/-- New nodes stay new while another is covered. -/
theorem Fresh.covers {id : NodeId} {covered : Bool} (h : Fresh s ids)
    (hcov : Covers x id s t covered) (hst : s.graph.Extends t.graph) (hid : id ∉ ids) :
    Fresh t ids := by
  intro i hi
  obtain ⟨n, hn, he, hc⟩ := h i hi
  obtain ⟨m, hm, -⟩ := hst.node? hn
  obtain ⟨he', hc'⟩ := hcov.marks (fun h ↦ hid (h ▸ hi)) hn hm
  exact ⟨m, hm, he'.trans he, hc'.trans hc⟩

/-- A new node that is not covered is a counterexample if it is a target. -/
theorem accuses_of_fresh {i : NodeId} {n : Node S A} (hst : s.graph.Extends t.graph)
    (hn : s.graph.node? i = some n) (hc : n.coveredBy = none) :
    t.graph.accuses i = n.target := by
  rw [Graph.accuses_extends hst (Graph.lt_created hn), Graph.accuses, hn, Option.any_some,
    Node.isCounterexample, Node.isCovered, hc]
  exact Bool.and_true _

/-! ### Turns -/

/-- What holds between two turns. -/
structure Pursues (p : Pursuit) (g : Graph S A) : Prop where
  /-- The graph is well formed. -/
  wellFormed : g.WellFormed
  /-- Every incomplete node waits. -/
  waiting : ∀ {i n}, g.node? i = some n → n.isIncomplete = true → i ∈ p.frontier.nodes
  /-- The counterexamples are counted. -/
  found_eq : p.found = g.census

/-- How a turn advances. -/
inductive Advances (x : Explorer S A P) (p : Pursuit) (s : Session S A) :
    Pursuit → Session S A → Prop
  /-- The node taken is complete, or gone. -/
  | skipped {id : NodeId} {f : Frontier} (hpop : p.frontier.pop? = some (id, f))
      (hid : ∀ {n}, s.graph.node? id = some n → n.isIncomplete = false) :
    Advances x p s (p.took f) s
  /-- The node taken is covered. -/
  | covered {id : NodeId} {f : Frontier} {n m : Node S A} {t : Session S A}
      (hpop : p.frontier.pop? = some (id, f)) (hn : s.graph.node? id = some n)
      (hinc : n.isIncomplete = true) (hcreated : t.graph.created = s.graph.created)
      (hm : t.graph.node? id = some m) (hcov : m.isCovered = true) :
    Advances x p s (p.took f) t
  /-- The node taken, which no node may cover, is expanded, and the nodes made are sorted. -/
  | expanded {id : NodeId} {f : Frontier} {n : Node S A} {u t : Session S A} {made : List NodeId}
      {p' : Pursuit} (hpop : p.frontier.pop? = some (id, f)) (hn : s.graph.node? id = some n)
      (hinc : n.isIncomplete = true) (hfind : s.graph.findCoverer x.model.leq id = .ok none)
      (hexp : Expands id s u made) (hut : u.graph.Extends t.graph)
      (hset : Settles (p.took f) made u t p') :
    Advances x p s p' t

/-- **One turn keeps the invariant of the loop.** -/
theorem Pursues.advances (h : Pursues p s.graph) (hadv : Advances x p s p' t)
    (hst : s.graph.Extends t.graph) (ht : t.graph.WellFormed) : Pursues p' t.graph := by
  refine ⟨ht, fun {i m} hm hminc ↦ ?_, ?_⟩
  · -- an old node that is incomplete was so before, and waited
    have hold : i < s.graph.created → i ∈ p.frontier.nodes := by
      intro hi
      obtain ⟨n, hn, hnm⟩ := hst.exists_node? hi hm
      refine h.waiting hn ?_
      by_contra hninc
      cases hminc.symm.trans (hnm.isIncomplete_eq_false (eq_false_of_ne_true hninc))
    cases hadv with
    | skipped hpop hid =>
      have hmem := hold (Graph.lt_created hm)
      rw [Frontier.nodes_of_pop? hpop, List.mem_cons] at hmem
      rcases hmem with rfl | hmem
      · cases hminc.symm.trans (hid hm)
      · exact hmem
    | covered hpop _ _ hcreated hm' hcov =>
      have hmem := hold (hcreated ▸ Graph.lt_created hm)
      rw [Frontier.nodes_of_pop? hpop, List.mem_cons] at hmem
      rcases hmem with rfl | hmem
      · obtain rfl := Option.some.inj (hm.symm.trans hm')
        simp [Node.isIncomplete, hcov] at hminc
      · exact hmem
    | expanded hpop hn _ _ hexp hut hset =>
      by_cases hi : i < s.graph.created
      · have hmem := hold hi
        rw [Frontier.nodes_of_pop? hpop, List.mem_cons] at hmem
        rcases hmem with rfl | hmem
        · obtain ⟨k, hk, hke⟩ := hexp.self
          obtain ⟨l, hl, hkl⟩ := hut.node? hk
          obtain rfl := Option.some.inj (hm.symm.trans hl)
          have hkinc : k.isIncomplete = false := by simp [Node.isIncomplete, hke]
          cases hminc.symm.trans (hkl.isIncomplete_eq_false hkinc)
        · exact hset.kept i hmem
      · refine hset.queued i ?_ hm hminc
        have hlt := Graph.lt_created hm
        rw [hset.created_eq, hexp.created_eq] at hlt
        rw [hexp.made_eq]
        exact List.mem_range'_1.2 ⟨Nat.not_lt.1 hi, hlt⟩
  · rw [Graph.census_extends hst, ← h.found_eq]
    cases hadv with
    | skipped => simp [Pursuit.took]
    | covered _ _ _ hcreated => simp [Pursuit.took, hcreated]
    | @expanded _ _ _ _ _ made _ _ _ _ _ hexp _ hset =>
      have hlen : t.graph.created - s.graph.created = made.length := by
        rw [hset.created_eq, hexp.created_eq, Nat.add_sub_cancel_left]
      rw [hlen, ← hexp.made_eq]
      exact hset.found_eq

/-- With nothing left to take, the graph is complete. -/
theorem Pursues.isComplete {g : Graph S A} (h : Pursues p g) (hempty : p.frontier.nodes = []) :
    g.isComplete = true := by
  refine Graph.isComplete_iff.2 fun {i n} hn ↦ eq_false_of_ne_true fun hinc ↦ ?_
  have hmem := h.waiting hn hinc
  rw [hempty] at hmem
  exact List.not_mem_nil hmem

/-- The incomplete nodes of the graph wait at the beginning, and no others. -/
theorem mem_nodes_initialFrontier {g : Graph S A} {i : NodeId} :
    i ∈ (x.initialFrontier g).nodes ↔ ∃ n ∈ g.incompleteNodes, n.id = i := by
  have hfold : ∀ (l : List (Node S A)) (f : Frontier),
      i ∈ (l.foldl (fun f n ↦ f.push n.id n.key) f).nodes ↔ i ∈ f.nodes ∨ ∃ n ∈ l, n.id = i := by
    intro l
    induction l with
    | nil => simp
    | cons n l ih =>
      intro f
      rw [List.foldl_cons, ih, Frontier.mem_nodes_push, List.exists_mem_cons_iff, or_assoc,
        or_left_comm, eq_comm]
  rw [initialFrontier, hfold]
  simp [Frontier.nodes]

/-- The invariant holds before the first turn. -/
theorem pursues_initial {g : Graph S A} (hg : g.WellFormed) :
    Pursues { frontier := x.initialFrontier g, found := g.counterexamples.length } g where
  wellFormed := hg
  waiting {i n} hn hinc := mem_nodes_initialFrontier.2
    ⟨n, List.mem_filter.2 ⟨Graph.mem_nodes.2 ⟨i, hn⟩, hinc⟩, hg.indexed.id_eq hn⟩
  found_eq := Graph.length_counterexamples

/-! ### Conclusions -/

/-- What a finished exploration says about the graph it leaves. -/
structure Concludes (x : Explorer S A P) (v : Verdict) (g : Graph S A) : Prop where
  /-- The verdict is that of the graph. -/
  verdict_eq : v = verdictOf g
  /-- All roots are there. -/
  initialized : g.initialized = true
  /-- The graph is complete, or there are enough counterexamples. -/
  complete : g.isComplete = true ∨ x.options.stop.reached g.census = true

/-- A safe verdict is given about a complete graph without counterexamples. -/
theorem Concludes.safe {g : Graph S A} (h : Concludes x .safe g) :
    g.isComplete = true ∧ g.isSafe = true := by
  have hsafe : g.isSafe = true := by
    by_contra hne
    have := h.verdict_eq
    rw [verdictOf, if_neg hne] at this
    cases this
  refine ⟨h.complete.resolve_right fun hstop ↦ ?_, hsafe⟩
  rw [Graph.census_eq_zero_iff.2 hsafe, StopRule.not_reached_zero] at hstop
  cases hstop

/-- A graph under suspicion has a counterexample. -/
theorem Concludes.suspect {g : Graph S A} (h : Concludes x .suspect g) :
    g.counterexamples ≠ [] := by
  intro hnil
  have hsafe : g.isSafe = true := by
    rw [← Graph.census_eq_zero_iff, ← Graph.length_counterexamples, hnil, List.length_nil]
  have hverdict := h.verdict_eq
  rw [verdictOf, if_pos hsafe] at hverdict
  cases hverdict

/-! ### Gathering counterexamples -/

/-- Where the counterexamples of the second graph are: each was in the first or is a root, or all
are new children of one node. -/
def Gathers (s t : Session S A) : Prop :=
  (∀ i m, t.graph.node? i = some m → m.isCounterexample = true →
      i < s.graph.created ∨ m.incoming = none) ∨
    ∃ id, ∀ i m, t.graph.node? i = some m → m.isCounterexample = true →
      s.graph.created ≤ i ∧ m.parent? = some id

/-- A turn gathers the counterexamples it makes below the node it expands. -/
theorem Pursues.gathers {s₀ : Session S A} (h : Pursues p s.graph) (hfound : p.found = 0)
    (hadv : Advances x p s p' t) (hst : s.graph.Extends t.graph)
    (hs₀ : s₀.graph.created ≤ s.graph.created) : Gathers s₀ t := by
  -- there were none before
  have hnew : ∀ {i m}, t.graph.node? i = some m → m.isCounterexample = true →
      s.graph.created ≤ i := by
    intro i m hm hcex
    by_contra hlt
    have hlt := Nat.not_le.1 hlt
    obtain ⟨n, hn, hnm⟩ := hst.exists_node? hlt hm
    have hcensus := h.found_eq.symm.trans hfound
    refine List.countP_eq_zero.1 hcensus i (List.mem_range.2 hlt) ?_
    rw [Graph.accuses, hn, Option.any_some, ← hnm.isCounterexample]
    exact hcex
  cases hadv with
  | skipped =>
    exact .inl fun i m hm hcex ↦ absurd (Graph.lt_created hm) (Nat.not_lt.2 (hnew hm hcex))
  | covered _ _ _ hcreated =>
    refine .inl fun i m hm hcex ↦ absurd (Graph.lt_created hm) (Nat.not_lt.2 ?_)
    rw [hcreated]
    exact hnew hm hcex
  | @expanded id _ _ u _ _ _ _ _ _ _ hexp hut hset =>
    refine .inr ⟨id, fun i m hm hcex ↦ ⟨Nat.le_trans hs₀ (hnew hm hcex), ?_⟩⟩
    obtain ⟨k, hk, hkm⟩ := hut.exists_node? (hset.created_eq ▸ Graph.lt_created hm) hm
    rw [Node.parent?, hkm.incoming]
    exact hexp.parent (hnew hm hcex) hk

/-- Roots that are made before the turns are no obstacle. -/
theorem Gathers.of_addsRoots {u : Session S A} (h : Gathers u t) (hroots : AddsRoots s u)
    (hsu : s.graph.Extends u.graph) (hut : u.graph.Extends t.graph) : Gathers s t := by
  rcases h with hold | ⟨id, hnew⟩
  · refine .inl fun i m hm hcex ↦ ?_
    rcases hold i m hm hcex with hi | hroot
    · rcases Nat.lt_or_ge i s.graph.created with hlt | hge
      · exact .inl hlt
      · obtain ⟨k, hk, hkm⟩ := hut.exists_node? hi hm
        exact .inr (hkm.incoming.trans (hroots i k hge hk))
    · exact .inr hroot
  · refine .inr ⟨id, fun i m hm hcex ↦ ?_⟩
    obtain ⟨hge, hparent⟩ := hnew i m hm hcex
    exact ⟨Nat.le_trans hsu.created hge, hparent⟩

/-! ### What the functions do -/

variable [DecidableEq S] [DecidableEq A] [Described S]

/-- **New nodes are settled**: those that stay incomplete are queued, and the counterexamples are
counted. -/
theorem does_settle (hs : s.graph.WellFormed) (hnd : ids.Nodup) (hfresh : Fresh s ids) :
    Does (x.Grows prec) (x.Stops prec deadline) (x.settle p ids) s
      fun p' t ↦ Settles p ids s t p' := by
  induction ids generalizing p s with
  | nil =>
    exact .pure ⟨rfl, rfl, fun _ h ↦ h, fun i hi ↦ (List.not_mem_nil hi).elim, rfl⟩
  | cons id ids ih =>
    obtain ⟨n, hn, he, hc⟩ := hfresh id List.mem_cons_self
    obtain ⟨hout, hnd⟩ := List.nodup_cons.1 hnd
    have hrest : Fresh s ids := fun i hi ↦ hfresh i (List.mem_cons_of_mem _ hi)
    have hnode : orFault (s.graph.node id) = .ok n := orFault_eq_ok.2 (Graph.node_eq_ok.2 hn)
    refine does_currentGraph_bind (does_demand_bind_of_ok hnode ?_)
    split
    · rename_i htarget
      refine (ih hs hnd hrest).imp fun p' t hst h ↦ ?_
      have hst := extends_of_grows hst
      refine ⟨h.created_eq, h.turns_eq, h.kept, fun i hi m hm hinc ↦ ?_, ?_⟩
      · rcases List.mem_cons.1 hi with rfl | hi
        · -- a target is complete
          obtain ⟨k, hk, hnk⟩ := hst.node? hn
          obtain rfl := Option.some.inj (hm.symm.trans hk)
          rw [Node.isIncomplete, hnk.target, htarget] at hinc
          simp at hinc
        · exact h.queued i hi hm hinc
      · rw [h.found_eq, List.countP_cons, accuses_of_fresh hst hn hc, htarget, if_pos rfl]
        show p.found + 1 + _ = _
        omega
    · rename_i htarget
      have htarget := eq_false_of_ne_true htarget
      have hninc : n.isIncomplete = true := by
        rw [Node.isIncomplete, Node.isCovered, he, hc, htarget]
        rfl
      refine (does_tryCover hs hn hninc).bind fun covered u hsu hcov ↦ ?_
      have hsu' := extends_of_grows hsu
      cases covered with
      | true =>
        obtain ⟨k, hk, hkc⟩ := hcov.self rfl
        have hwf := wellFormed_of_grows hsu hs
        refine (ih hwf hnd (hrest.covers hcov hsu' hout)).imp fun p' t hut h ↦ ?_
        have hut := extends_of_grows hut
        refine ⟨h.created_eq.trans hcov.created_eq, h.turns_eq, h.kept, fun i hi m hm hinc ↦ ?_, ?_⟩
        · rcases List.mem_cons.1 hi with rfl | hi
          · -- a covered node stays covered
            obtain ⟨l, hl, hkl⟩ := hut.node? hk
            obtain rfl := Option.some.inj (hm.symm.trans hl)
            have hkinc : k.isIncomplete = false := by simp [Node.isIncomplete, hkc]
            cases hinc.symm.trans (hkl.isIncomplete_eq_false hkinc)
          · exact h.queued i hi hm hinc
        · rw [h.found_eq, List.countP_cons, accuses_of_fresh (hsu'.trans hut) hn hc, htarget]
          rfl
      | false =>
        obtain ⟨rfl, -⟩ := hcov.failed rfl
        refine (ih hs hnd hrest).imp fun p' t hst h ↦ ?_
        have hst := extends_of_grows hst
        refine ⟨h.created_eq, h.turns_eq, fun i hi ↦ ?_, fun i hi m hm hinc ↦ ?_, ?_⟩
        · exact h.kept i (Frontier.mem_nodes_push.2 (.inr hi))
        · rcases List.mem_cons.1 hi with rfl | hi
          · exact h.kept i (Frontier.mem_nodes_push.2 (.inl rfl))
          · exact h.queued i hi hm hinc
        · rw [h.found_eq, List.countP_cons, accuses_of_fresh hst hn hc, htarget]
          rfl

/-- What one turn comes to. -/
theorem does_turn (h : Pursues p s.graph) :
    Does (x.Grows prec) (x.Stops prec deadline) (x.turn deadline prec p) s fun r t ↦
      match r with
      | .again p' => Advances x p s p' t ∧
          (x.options.stop.reached p'.found = true → x.options.stop.reached p.found = true)
      | .done () => (p.frontier.nodes = [] ∧ t = s) ∨
          ∃ p', Advances x p s p' t ∧ x.options.stop.reached p'.found = true := by
  rw [turn]
  split
  · rename_i hpop
    exact .pure (.inl ⟨Frontier.nodes_of_pop?_eq_none hpop, rfl⟩)
  · rename_i id f hpop
    refine does_demand_bind (fun e he ↦ .budget he) fun _ _ ↦ does_currentGraph_bind ?_
    split
    · rename_i hid
      refine .pure ⟨.skipped hpop fun {n} hn ↦ ?_, fun h ↦ h⟩
      rw [hn] at hid
      simpa using hid
    · rename_i hid
      obtain ⟨n, hn, hinc⟩ : ∃ n, s.graph.node? id = some n ∧ n.isIncomplete = true := by
        rw [Bool.not_eq_true', Bool.not_eq_false, Option.any_eq_true] at hid
        exact hid
      refine (does_tryCover h.wellFormed hn hinc).bind fun covered t hst hcov ↦ ?_
      cases covered with
      | true =>
        obtain ⟨m, hm, hmc⟩ := hcov.self rfl
        exact .pure ⟨.covered hpop hn hinc hcov.created_eq hm hmc, fun h ↦ h⟩
      | false =>
        obtain ⟨rfl, hfind⟩ := hcov.failed rfl
        refine (does_expand h.wellFormed hn hinc).bind fun made u hsu hexp ↦ ?_
        have hnd : made.Nodup := hexp.made_eq ▸ List.nodup_range'
        refine (does_settle (wellFormed_of_grows hsu h.wellFormed) hnd hexp.fresh).bind ?_
        intro p' t hut hset
        have hadv : Advances x p _ p' t :=
          .expanded hpop hn hinc hfind hexp (extends_of_grows hut) hset
        split
        · rename_i hstop
          exact .pure (.inr ⟨p', hadv, hstop⟩)
        · rename_i hstop
          exact .pure ⟨hadv, fun h ↦ absurd h hstop⟩

/-- The part of an exploration that follows once the roots are there. -/
def pursue (x : Explorer S A P) (turns : Nat) (deadline : Option Nat) (prec : P) :
    Work (Session S A) (Option Verdict) := do
  let g ← currentGraph
  let p : Pursuit := { frontier := x.initialFrontier g, found := g.counterexamples.length }
  if x.options.stop.reached p.found then return some (verdictOf g)
  match ← iterate (x.turn deadline prec) turns p with
  | none => return none
  | some () => return some (verdictOf (← currentGraph))

/-- An exploration checks its time limit, adds the roots unless they are there, and pursues what is
waiting. -/
theorem explore_eq {turns : Nat} : x.explore turns deadline prec =
    demand (orFault (x.meter.checkLimit x.options.timeLimit)) >>= fun _ ↦
      currentGraph >>= fun g ↦
        if g.initialized then x.pursue turns deadline prec
        else x.addRoots prec >>= fun _ ↦ x.pursue turns deadline prec := by
  refine congrArg (_ >>= ·) (funext fun _ ↦ congrArg (_ >>= ·) (funext fun g ↦ ?_))
  cases g.initialized <;> rfl

/-- What the turns come to, once the roots are there. -/
theorem does_pursue {turns : Nat} (hs : s.graph.WellFormed) (hinit : s.graph.initialized = true) :
    Does (x.Grows prec) (x.Stops prec deadline) (x.pursue turns deadline prec) s
      fun r t ↦ ∀ v, r = some v → Concludes x v t.graph := by
  refine does_currentGraph_bind ?_
  dsimp only
  split
  · rename_i hstop
    refine .pure fun v hv ↦ ⟨(Option.some.inj hv).symm, hinit, .inr ?_⟩
    rw [← Graph.length_counterexamples]
    exact hstop
  · refine (Does.iterate (I := fun p u ↦ u.graph.initialized = true ∧ Pursues p u.graph)
      (R := fun _ u ↦ u.graph.initialized = true ∧
        (u.graph.isComplete = true ∨ x.options.stop.reached u.graph.census = true))
      ?_ ⟨hinit, pursues_initial hs⟩).bind ?_
    · rintro p t ⟨htinit, hp⟩
      refine (does_turn hp).imp fun r u htu hr ↦ ?_
      have htu' := extends_of_grows htu
      have hu := wellFormed_of_grows htu hp.wellFormed
      cases r with
      | again p' => exact ⟨htu'.initialized htinit, hp.advances hr.1 htu' hu⟩
      | done a =>
        refine ⟨htu'.initialized htinit, ?_⟩
        rcases hr with ⟨hempty, rfl⟩ | ⟨p', hadv, hstop⟩
        · exact .inl (hp.isComplete hempty)
        · exact .inr ((hp.advances hadv htu' hu).found_eq ▸ hstop)
    · rintro r t - hr
      cases r with
      | none => exact .pure fun v hv ↦ by cases hv
      | some a =>
        obtain ⟨htinit, hor⟩ := hr a rfl
        exact .of_eq currentGraph_bind .refl fun v hv ↦ ⟨(Option.some.inj hv).symm, htinit, hor⟩

/-- **Outcome of an exploration.** From a well-formed graph it only grows the graph, stops early
only for the reasons listed, and a verdict concludes. -/
theorem does_explore {turns : Nat} (hs : s.graph.WellFormed) :
    Does (x.Grows prec) (x.Stops prec deadline) (x.explore turns deadline prec) s
      fun r t ↦ ∀ v, r = some v → Concludes x v t.graph := by
  rw [explore_eq]
  refine does_demand_bind (fun e he ↦ ?_) fun _ _ ↦ does_currentGraph_bind ?_
  · obtain ⟨f, hf, rfl⟩ := orFault_eq_error.1 he
    exact .limit hf
  · split
    · rename_i hinit
      exact does_pursue hs hinit
    · refine (does_addRoots hs).bind ?_
      rintro _ t hst ⟨hinit, -⟩
      exact does_pursue (wellFormed_of_grows hst hs) hinit

/-- A search that stops at the first counterexample makes all of them below one node. -/
theorem does_pursue_gathers {turns : Nat} (hone : x.options.stop.reached 1 = true)
    (hs : s.graph.WellFormed) :
    Does (x.Grows prec) (x.Stops prec deadline) (x.pursue turns deadline prec) s
      fun r t ↦ ∀ v, r = some v → Gathers s t := by
  refine does_currentGraph_bind ?_
  dsimp only
  split
  · exact .pure fun _ _ ↦ .inl fun i m hm _ ↦ .inl (Graph.lt_created hm)
  · rename_i hstop
    have hfound : s.graph.counterexamples.length = 0 :=
      Nat.eq_zero_of_not_pos fun hpos ↦ hstop (StopRule.reached_of_pos hone hpos)
    refine (Does.iterate (I := fun p u ↦ Pursues p u.graph ∧ p.found = 0 ∧
      s.graph.created ≤ u.graph.created) (R := fun _ u ↦ Gathers s u) ?_
      ⟨pursues_initial hs, hfound, Nat.le_refl _⟩).bind ?_
    · rintro p t ⟨hp, hzero, hle⟩
      refine (does_turn hp).imp fun r u htu hr ↦ ?_
      have htu' := extends_of_grows htu
      cases r with
      | again p' =>
        obtain ⟨hadv, hreached⟩ := hr
        refine ⟨hp.advances hadv htu' (wellFormed_of_grows htu hp.wellFormed), ?_,
          Nat.le_trans hle htu'.created⟩
        refine Nat.eq_zero_of_not_pos fun hpos ↦ ?_
        have hreached := hreached (StopRule.reached_of_pos hone hpos)
        rw [hzero, StopRule.not_reached_zero] at hreached
        cases hreached
      | done a =>
        rcases hr with ⟨hempty, rfl⟩ | ⟨p', hadv, -⟩
        · refine .inl fun i m hm hcex ↦ ?_
          have hcensus := hp.found_eq.symm.trans hzero
          refine absurd ?_
            (List.countP_eq_zero.1 hcensus i (List.mem_range.2 (Graph.lt_created hm)))
          rw [Graph.accuses, hm]
          exact hcex
        · exact hp.gathers hzero hadv htu' hle
    · rintro r t - hr
      cases r with
      | none => exact .pure fun v hv ↦ by cases hv
      | some a => exact .of_eq currentGraph_bind .refl fun _ _ ↦ hr a rfl

/-- **An exploration that is content with one counterexample gathers them.** -/
theorem gathers_of_explore {turns : Nat} (hone : x.options.stop.reached 1 = true)
    (hs : s.graph.WellFormed) {v : Verdict}
    (h : x.explore turns deadline prec s = (.ok (some v), t)) : Gathers s t := by
  have hdoes : Does (x.Grows prec) (x.Stops prec deadline) (x.explore turns deadline prec) s
      fun r t ↦ ∀ v, r = some v → Gathers s t := by
    rw [explore_eq]
    refine does_demand_bind (fun e he ↦ ?_) fun _ _ ↦ does_currentGraph_bind ?_
    · obtain ⟨f, hf, rfl⟩ := orFault_eq_error.1 he
      exact .limit hf
    · split
      · exact does_pursue_gathers hone hs
      · refine (does_addRoots hs).bind ?_
        rintro _ u hsu ⟨-, hroots⟩
        refine (does_pursue_gathers hone (wellFormed_of_grows hsu hs)).imp fun r t hut hr v hv ↦ ?_
        exact (hr v hv).of_addsRoots hroots (extends_of_grows hsu) (extends_of_grows hut)
  exact hdoes.value_of_eq h v rfl

end Explorer

end AbstractionRefinement
