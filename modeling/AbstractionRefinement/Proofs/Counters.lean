import AbstractionRefinement.Proofs.Attained
import Mathlib.Data.Finset.Card

/-!
# Counters and the graph

The counters of a session are changed where the graph is, but only explorations change them. What
refinements take away stays counted. So the number of nodes created and the largest depth speak of
all nodes there have ever been, and the numbers of covered and of expanded nodes are bounds for the
live ones.

To speak of nodes that are gone, their depths are written down when they are made, position by
position (`Session.Tallied`). A step of an exploration adds entries for the nodes that it makes
(`Session.Tallied.grows`), and nothing else does. A node made by an exploration is still there when
the exploration ends, so each entry is the depth of a node of one of the sessions passed
(`Model.Passes`).

The sessions that are passed are all those that any sequence of explorations and refinements goes
through, including ones that stopped early. So the account is exact at every point: there are as
many depths as nodes were created, each belongs to a node that could be seen at some point, and the
largest depth is the largest among them.

For covered nodes and expansions only bounds are possible, since pruning uncovers nodes and forgets
expansions while the counters stay.
-/

namespace AbstractionRefinement

variable {S A P : Type}

/-! ### Counting live nodes -/

namespace Graph

variable {g g' : Graph S A}

/-- The positions of the live nodes with a property. -/
def marked (g : Graph S A) (f : Node S A → Bool) : Finset NodeId :=
  {i ∈ Finset.range g.created | (g.node? i).any f = true}

theorem mem_marked {f : Node S A → Bool} {i : NodeId} :
    i ∈ g.marked f ↔ ∃ n, g.node? i = some n ∧ f n = true := by
  rw [marked, Finset.mem_filter, Finset.mem_range, Option.any_eq_true]
  exact and_iff_right_of_imp fun ⟨_, hn, _⟩ ↦ lt_created hn

/-- Marked nodes are counted as they are listed. -/
theorem card_marked {f : Node S A → Bool} : (g.marked f).card = g.nodes.countP f := by
  have hcard : (g.marked f).card =
      ((List.range g.created).filter fun i ↦ (g.node? i).any f).length := by
    rw [← List.toFinset_card_of_nodup (List.nodup_range.filter _)]
    congr 1
    ext i
    simp [marked]
  rw [hcard, nodes_eq, List.countP_filterMap, ← List.countP_eq_length_filter]
  refine List.countP_congr fun i _ ↦ ?_
  cases g.node? i <;> simp

/-- Where all nodes with a property had it before, up to some, there are at most so many more. -/
theorem countP_nodes_le {f : Node S A → Bool} (gained : Finset NodeId)
    (h : ∀ {i m}, g'.node? i = some m → f m = true →
      i ∈ gained ∨ ∃ n, g.node? i = some n ∧ f n = true) :
    g'.nodes.countP f ≤ g.nodes.countP f + gained.card := by
  rw [← card_marked, ← card_marked, Nat.add_comm]
  refine Nat.le_trans (Finset.card_le_card fun i hi ↦ ?_) (Finset.card_union_le gained _)
  obtain ⟨m, hm, hfm⟩ := mem_marked.1 hi
  exact Finset.mem_union.2 ((h hm hfm).imp_right mem_marked.2)

/-- The marks that a node has at a position are marks that it had, or are among those gained. -/
structure Marks (g : Graph S A) (covered expanded : Finset NodeId) (i : NodeId) (m : Node S A) :
    Prop where
  /-- A covered node. -/
  covered : m.isCovered = true → i ∈ covered ∨ ∃ n, g.node? i = some n ∧ n.isCovered = true
  /-- An expanded node. -/
  expanded : m.expanded = true → i ∈ expanded ∨ ∃ n, g.node? i = some n ∧ n.expanded = true

/-- A node with the marks that it had. -/
theorem Marks.kept {covered expanded : Finset NodeId} {i : NodeId} {n m : Node S A}
    (hn : g.node? i = some n) (hc : m.coveredBy = n.coveredBy)
    (he : m.expanded = n.expanded) : g.Marks covered expanded i m where
  covered h := .inr ⟨n, hn, by rwa [Node.isCovered, ← hc]⟩
  expanded h := .inr ⟨n, hn, he ▸ h⟩

end Graph

/-! ### One step of an exploration -/

section Steps

variable [DecidableEq S] [DecidableEq A] [Described S] {x : Explorer S A P} {prec : P}
  {s t : Session S A}

/-- **Marks are counted.** A node that is covered after a step was so before, or is counted by it,
and likewise for nodes that are expanded. -/
theorem Explorer.Grows.marks (h : x.Grows prec s t) : ∃ covered expanded : Finset NodeId,
    t.counters.covered = s.counters.covered + covered.card ∧
    t.counters.expansions = s.counters.expansions + expanded.card ∧
    ∀ {i m}, t.graph.node? i = some m → s.graph.Marks covered expanded i m := by
  cases h with
  | root =>
    refine ⟨∅, ∅, rfl, rfl, fun {i m} hm ↦ ?_⟩
    rw [Graph.node?_addRoot] at hm
    split at hm
    · -- a new node has no mark
      obtain rfl := Option.some.inj hm
      exact ⟨nofun, nofun⟩
    · exact .kept hm rfl rfl
  | ready => exact ⟨∅, ∅, rfl, rfl, fun hm ↦ .kept hm rfl rfl⟩
  | @child id n _ _ _ _ hn _ _ _ _ hadd =>
    refine ⟨∅, ∅, rfl, rfl, fun {i m} hm ↦ ?_⟩
    rw [Graph.node?_addChild hn hadd] at hm
    split at hm
    · obtain rfl := Option.some.inj hm
      exact ⟨nofun, nofun⟩
    · split at hm
      · rename_i hi
        obtain rfl := Option.some.inj hm
        have hn : s.graph.node? i = some n := hi ▸ hn
        exact .kept hn rfl rfl
      · exact .kept hm rfl rfl
  | @expanded id n _ _ hn _ _ _ hset =>
    refine ⟨∅, {id}, rfl, rfl, fun {i m} hm ↦ ?_⟩
    rw [Graph.eq_update_of_setExpanded hset, Graph.node?_update] at hm
    split at hm
    · rename_i hi
      rw [hi, hn] at hm
      obtain rfl := Option.some.inj hm
      exact ⟨fun hc ↦ .inr ⟨n, hi ▸ hn, hc⟩, fun _ ↦ .inl (Finset.mem_singleton.2 hi)⟩
    · exact .kept hm rfl rfl
  | @cover id coverer n _ hn _ _ hcov =>
    refine ⟨{id}, ∅, rfl, rfl, fun {i m} hm ↦ ?_⟩
    obtain ⟨k, hk, rfl⟩ := (Graph.rewrites_cover hn hcov).1.exists_node? hm
    by_cases hi : i = id
    · exact ⟨fun _ ↦ .inl (Finset.mem_singleton.2 hi), fun he ↦ .inr ⟨k, hk, he⟩⟩
    · exact .kept hk (if_neg hi) rfl

/-- **Births are counted.** A step makes no node, or one at the next position whose depth is taken
into account. -/
theorem Explorer.Grows.births (h : x.Grows prec s t) :
    (t.graph.created = s.graph.created ∧ t.counters.created = s.counters.created ∧
      t.counters.maxDepth = s.counters.maxDepth) ∨
    ∃ n, t.graph.node? s.graph.created = some n ∧ t.graph.created = s.graph.created + 1 ∧
      t.counters.created = s.counters.created + 1 ∧
      t.counters.maxDepth = max s.counters.maxDepth n.depth := by
  cases h with
  | root =>
    exact .inr ⟨_, Graph.node?_addRoot.trans (if_pos rfl), Graph.created_addRoot, rfl,
      (Nat.max_zero _).symm⟩
  | ready => exact .inl ⟨rfl, rfl, rfl⟩
  | child hn _ _ _ _ hadd =>
    exact .inr ⟨_, (Graph.node?_addChild hn hadd).trans (if_pos rfl),
      Graph.created_addChild hadd, rfl, rfl⟩
  | expanded _ _ _ _ hset =>
    rw [Graph.eq_update_of_setExpanded hset]
    exact .inl ⟨Graph.created_update, rfl, rfl⟩
  | cover hn _ _ hcov => exact .inl ⟨(Graph.rewrites_cover hn hcov).1.created, rfl, rfl⟩

end Steps

/-! ### Depths written down -/

/-- The counters tell the same as the graph and a list of the depths of all nodes ever made. -/
structure Session.Tallied (depths : List Nat) (s : Session S A) : Prop where
  /-- One entry for each position. -/
  length : depths.length = s.graph.created
  /-- A live node is as deep as is written down. -/
  depth : ∀ {i n}, s.graph.node? i = some n → depths[i]? = some n.depth
  /-- All nodes are counted. -/
  created : s.counters.created = s.graph.created
  /-- The largest depth is that of the deepest node. -/
  maxDepth : s.counters.maxDepth = depths.foldl max 0
  /-- Live covered nodes are counted. -/
  covered : s.graph.nodes.countP Node.isCovered ≤ s.counters.covered
  /-- Live expanded nodes are counted. -/
  expanded : s.graph.nodes.countP Node.expanded ≤ s.counters.expansions

namespace Session.Tallied

variable {depths : List Nat} {s t : Session S A}

theorem empty (hgraph : s.graph = .empty) (hcounters : s.counters = {}) : s.Tallied [] where
  length := by rw [hgraph]; rfl
  depth h := by rw [hgraph] at h; cases h
  created := by rw [hgraph, hcounters]; rfl
  maxDepth := by rw [hcounters]; rfl
  covered := by rw [hgraph]; exact Nat.zero_le _
  expanded := by rw [hgraph]; exact Nat.zero_le _

/-- What is taken away stays written down. -/
theorem shrinks (h : s.Tallied depths) (hgraph : s.graph.Shrinks t.graph)
    (hcounters : t.counters = s.counters) : t.Tallied depths where
  length := h.length.trans hgraph.created.symm
  depth hm := by
    obtain ⟨n, hn, hnm⟩ := hgraph.node? hm
    rw [h.depth hn, hnm.depth]
  created := by rw [hcounters, h.created, hgraph.created]
  maxDepth := by rw [hcounters, h.maxDepth]
  covered := by
    rw [hcounters]
    refine Nat.le_trans (Graph.countP_nodes_le ∅ fun {i m} hm hc ↦ .inr ?_) h.covered
    obtain ⟨n, hn, hnm⟩ := hgraph.node? hm
    refine ⟨n, hn, ?_⟩
    rcases hnm.coveredBy with hnone | heq
    · rw [Node.isCovered, hnone] at hc
      cases hc
    · rwa [Node.isCovered, heq] at hc
  expanded := by
    rw [hcounters]
    refine Nat.le_trans (Graph.countP_nodes_le ∅ fun {i m} hm he ↦ .inr ?_) h.expanded
    obtain ⟨n, hn, hnm⟩ := hgraph.node? hm
    exact ⟨n, hn, (hnm.expanded he).1⟩

variable [DecidableEq S] [DecidableEq A] [Described S] {x : Explorer S A P} {prec : P}

/-- **One step of an exploration** adds the depths of the nodes that it makes. -/
theorem grows (h : s.Tallied depths) (hst : x.Grows prec s t) :
    ∃ new, t.Tallied (depths ++ new) ∧
      ∀ i, s.graph.created ≤ i → i < t.graph.created → t.graph.contains i = true := by
  obtain ⟨covered, expanded, hcovered, hexpanded, hmarks⟩ := hst.marks
  have hcov : t.graph.nodes.countP Node.isCovered ≤ t.counters.covered := by
    rw [hcovered]
    exact Nat.le_trans (Graph.countP_nodes_le covered fun hm ↦ (hmarks hm).covered)
      (Nat.add_le_add_right h.covered _)
  have hexp : t.graph.nodes.countP Node.expanded ≤ t.counters.expansions := by
    rw [hexpanded]
    exact Nat.le_trans (Graph.countP_nodes_le expanded fun hm ↦ (hmarks hm).expanded)
      (Nat.add_le_add_right h.expanded _)
  -- an older node is as deep as before
  have hold : ∀ {i m}, i < s.graph.created → t.graph.node? i = some m →
      depths[i]? = some m.depth := by
    intro i m hi hm
    obtain ⟨n, hn, hnm⟩ := hst.extends.exists_node? hi hm
    rw [h.depth hn, hnm.depth]
  rcases hst.births with ⟨hsame, hcreated, hmax⟩ | ⟨k, hk, hnext, hcreated, hmax⟩
  · refine ⟨[], ?_, fun i hi hlt ↦ absurd (hsame ▸ hlt) (Nat.not_lt.2 hi)⟩
    rw [List.append_nil]
    exact ⟨h.length.trans hsame.symm, fun hm ↦ hold (hsame ▸ Graph.lt_created hm) hm,
      by rw [hcreated, h.created, hsame], hmax.trans h.maxDepth, hcov, hexp⟩
  · refine ⟨[k.depth], ⟨?_, fun {i m} hm ↦ ?_, ?_, ?_, hcov, hexp⟩, fun i hi hlt ↦ ?_⟩
    · rw [List.length_append, h.length, hnext, List.length_singleton]
    · rcases Nat.lt_or_ge i s.graph.created with hi | hi
      · rw [List.getElem?_append_left (h.length ▸ hi), hold hi hm]
      · obtain rfl := hst.eq_created hi hm
        obtain rfl := Option.some.inj (hk.symm.trans hm)
        rw [← h.length, List.getElem?_concat_length]
    · rw [hcreated, h.created, hnext]
    · rw [hmax, h.maxDepth, List.foldl_concat]
    · obtain rfl : i = s.graph.created := by omega
      exact Graph.contains_iff.2 ⟨k, hk⟩

/-- **So does an exploration**, and at its end these nodes are there. -/
theorem of_grows (h : s.Tallied depths) (hst : Relation.ReflTransGen (x.Grows prec) s t) :
    ∃ new, t.Tallied (depths ++ new) ∧
      ∀ i, s.graph.created ≤ i → i < t.graph.created → t.graph.contains i = true := by
  induction hst with
  | refl =>
    exact ⟨[], (List.append_nil depths).symm ▸ h, fun i hi hlt ↦ absurd hlt (Nat.not_lt.2 hi)⟩
  | @tail u t _ hstep ih =>
    obtain ⟨new, hu, hmade⟩ := ih
    obtain ⟨new', ht, hmade'⟩ := hu.grows hstep
    refine ⟨new ++ new', List.append_assoc depths new new' ▸ ht, fun i hi hlt ↦ ?_⟩
    rcases Nat.lt_or_ge i u.graph.created with hiu | hiu
    · obtain ⟨n, hn⟩ := Graph.contains_iff.1 (hmade i hi hiu)
      obtain ⟨m, hm, -⟩ := hstep.extends.node? hn
      exact Graph.contains_iff.2 ⟨m, hm⟩
    · exact hmade' i hiu hlt

end Session.Tallied

/-- Refinement leaves the counters as they are. -/
theorem Refuter.counters_of_cuts {s t : Session S A} (h : Relation.ReflTransGen Cuts s t) :
    t.counters = s.counters := by
  induction h with
  | refl => rfl
  | tail _ hstep ih =>
    rw [← ih]
    cases hstep <;> rfl

/-! ### Whole histories -/

/-- What is known of the sessions passed: the depths of all nodes ever made. -/
structure Session.Recounts (passed : List (Session S A)) (depths : List Nat) (t : Session S A) :
    Prop where
  /-- The links of the graph fit together. -/
  wellFormed : t.graph.WellFormed
  /-- The counters tell the same. -/
  tallied : t.Tallied depths
  /-- A node of a session passed is as deep as is written down. -/
  depth : ∀ s ∈ passed, ∀ {i n}, s.graph.node? i = some n → depths[i]? = some n.depth
  /-- What is written down was there. -/
  met : ∀ i < depths.length, ∃ s ∈ passed, s.graph.contains i = true

namespace Session.Recounts

variable {passed : List (Session S A)} {depths : List Nat} {s t : Session S A}

theorem of_cuts (h : s.Recounts passed depths) (hst : Relation.ReflTransGen Refuter.Cuts s t) :
    t.Recounts (t :: passed) depths := by
  have ht : t.Tallied depths :=
    h.tallied.shrinks (Refuter.shrinks_of_cuts hst h.wellFormed) (Refuter.counters_of_cuts hst)
  refine ⟨Refuter.wellFormed_of_cuts hst h.wellFormed, ht, ?_, fun i hi ↦ ?_⟩
  · exact List.forall_mem_cons.2 ⟨fun hn ↦ ht.depth hn, h.depth⟩
  · obtain ⟨u, hu, hi⟩ := h.met i hi
    exact ⟨u, List.mem_cons_of_mem t hu, hi⟩

theorem of_grows [DecidableEq S] [DecidableEq A] [Described S] {x : Explorer S A P} {prec : P}
    (h : s.Recounts passed depths) (hst : Relation.ReflTransGen (x.Grows prec) s t) :
    ∃ depths', t.Recounts (t :: passed) depths' := by
  obtain ⟨new, ht, hmade⟩ := h.tallied.of_grows hst
  refine ⟨depths ++ new, Explorer.wellFormed_of_grows hst h.wellFormed, ht, ?_, fun i hi ↦ ?_⟩
  · refine List.forall_mem_cons.2 ⟨fun hn ↦ ht.depth hn, fun u hu i n hn ↦ ?_⟩
    have hdepth := h.depth u hu hn
    rwa [List.getElem?_append_left (List.getElem?_eq_some_iff.1 hdepth).1]
  · rcases Nat.lt_or_ge i depths.length with hlt | hge
    · obtain ⟨u, hu, hi⟩ := h.met i hlt
      exact ⟨u, List.mem_cons_of_mem t hu, hi⟩
    · exact ⟨t, List.mem_cons_self, hmade i (h.tallied.length ▸ hge) (ht.length ▸ hi)⟩

end Session.Recounts

section Histories

variable [DecidableEq S] [DecidableEq A] [Described S]

/-- The sessions passed, the last one first, from a new one on: between them explorations and
refinements, whether they answer or stop early, and any other cuts. -/
inductive Model.Passes (M : Model S A P) : List (Session S A) → Session S A → Prop
  /-- A new session. -/
  | new {s : Session S A} (hgraph : s.graph = .empty) (hcounters : s.counters = {}) :
    Passes M [s] s
  /-- An exploration or a refinement. -/
  | operate {s t : Session S A} {passed : List (Session S A)} (h : Passes M passed s)
      (hop : M.Operates s t) : Passes M (t :: passed) t
  /-- Pruning apart from a refinement. -/
  | cut {s t : Session S A} {passed : List (Session S A)} (h : Passes M passed s)
      (hcut : Refuter.Cuts s t) : Passes M (t :: passed) t

variable {M : Model S A P} {s t : Session S A} {passed : List (Session S A)}

/-- An operation only adds or only takes away. -/
theorem Model.Operates.grows_or_cuts (h : M.Operates s t) (hs : s.graph.WellFormed) :
    (∃ (x : Explorer S A P) (prec : P), Relation.ReflTransGen (x.Grows prec) s t) ∨
      Relation.ReflTransGen Refuter.Cuts s t := by
  cases h with
  | explore x hx turns deadline prec => exact .inl ⟨x, prec, (Explorer.does_explore hs).change⟩
  | refine r scope pruning prec => exact .inr Refuter.does_run.change
  | memory => exact .inr (.single .remember)

/-- **All along a history** the depths of the nodes ever made are known. -/
theorem Model.Passes.exists_recounts (h : M.Passes passed t) :
    ∃ depths, t.Recounts passed depths := by
  induction h with
  | new hgraph hcounters =>
    refine ⟨[], hgraph ▸ Graph.wellFormed_empty, .empty hgraph hcounters, ?_, fun i hi ↦ nomatch hi⟩
    exact List.forall_mem_singleton.2 fun hn ↦ by rw [hgraph] at hn; cases hn
  | operate _ hop ih =>
    obtain ⟨depths, hs⟩ := ih
    rcases hop.grows_or_cuts hs.wellFormed with ⟨x, prec, hst⟩ | hst
    · exact hs.of_grows hst
    · exact ⟨depths, hs.of_cuts hst⟩
  | cut _ hcut ih =>
    obtain ⟨depths, hs⟩ := ih
    exact ⟨depths, hs.of_cuts (.single hcut)⟩

/-- **Counters stay in step with the graph.** Through any explorations and refinements from a new
session on, whether they answer or stop early, and any pruning between them, the counter of nodes is
the number of nodes ever made. The largest depth counted is that of the deepest node ever made,
pruned since or not, and zero if none was made. The live covered nodes and the live expanded nodes
are at most as many as are counted.

The nodes ever made are told by the list of their depths, which has an entry for each position given
out: the depth that the node there has in all sessions passed that have it, and there is one. -/
theorem Model.counters_of_passes (h : M.Passes passed t) : ∃ depths : List Nat,
    (∀ s ∈ passed, ∀ {i n}, s.graph.node? i = some n → depths[i]? = some n.depth) ∧
    (∀ i < depths.length, ∃ s ∈ passed, s.graph.contains i = true) ∧
    depths.length = t.graph.created ∧
    t.counters.created = t.graph.created ∧
    t.counters.maxDepth = depths.foldl max 0 ∧
    t.graph.nodes.countP Node.isCovered ≤ t.counters.covered ∧
    t.graph.nodes.countP Node.expanded ≤ t.counters.expansions := by
  obtain ⟨depths, ht⟩ := h.exists_recounts
  exact ⟨depths, ht.depth, ht.met, ht.tallied.length, ht.tallied.created, ht.tallied.maxDepth,
    ht.tallied.covered, ht.tallied.expanded⟩

end Histories

/-- What is left when a ladder that was climbed is given up: no node, and the counters. -/
def abandoned : Session Rung Unit := { climbed with graph := climbed.graph.pruneAll }

theorem exists_passes_abandoned : ∃ passed, ladder.model.Passes passed abandoned := by
  have hnew : ladder.model.Passes [{}] {} := .new rfl rfl
  have hexplored := hnew.operate (.explore ladder rfl 9 none ())
  have hrefined := hexplored.operate (.refine dismissal .shortest .subtree ())
  have hclimbed : ladder.model.Passes (climbed :: _) climbed :=
    hrefined.operate (.explore ladder rfl 9 none ())
  have hcut : Refuter.Cuts climbed abandoned := .pruneAll
  exact ⟨_, hclimbed.cut hcut⟩

/-- The counters of an exploration whose nodes have all been removed still tell what it did. -/
theorem counters_abandoned : ∃ passed, ladder.model.Passes passed abandoned ∧
    abandoned.graph.nodes = [] ∧ abandoned.counters = ⟨5, 4, 2, 1⟩ ∧ ∃ depths : List Nat,
      (∀ s ∈ passed, ∀ {i n}, s.graph.node? i = some n → depths[i]? = some n.depth) ∧
      (∀ i < depths.length, ∃ s ∈ passed, s.graph.contains i = true) ∧
      depths.length = 5 ∧ depths.foldl max 0 = 1 := by
  obtain ⟨passed, h⟩ := exists_passes_abandoned
  obtain ⟨depths, hdepth, hmet, hlength, -, hmax, -, -⟩ := Model.counters_of_passes h
  have hcounters : abandoned.counters = ⟨5, 4, 2, 1⟩ := by decide +kernel
  refine ⟨passed, h, by decide +kernel, hcounters, depths, hdepth, hmet, ?_, ?_⟩
  · exact hlength.trans (by decide +kernel)
  · rw [← hmax, hcounters]

end AbstractionRefinement
