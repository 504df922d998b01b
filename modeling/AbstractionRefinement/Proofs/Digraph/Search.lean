import AbstractionRefinement.Digraph.Domain
import AbstractionRefinement.Proofs.Soundness
import Mathlib.Data.Finset.Card
import Mathlib.Data.List.Chain

/-!
# Reachability in a digraph

A digraph is a transition system whose steps are its edges (`Digraph.system`). The breadth-first
search answers for this system: a path that it finds is a counterexample
(`Digraph.isCounterexample_of_shortestPath`), and it finds none only if no target can be reached
(`Digraph.shortestPath_eq_none_iff`). The bound on its steps is no restriction, because every step
takes a walk from the queue and each vertex enters the queue once: what is queued and what has not
been seen together get smaller (`IndexSet.gaps`).

The invariant of the search is `Searches`. Every queued walk begins at an initial vertex and follows
edges, initial vertices have been seen, and every vertex that was seen waits in the queue, or is no
target and has had all its successors seen. When the queue is empty, the vertices seen are closed
under edges, so they hold every reachable vertex, and none of these is a target.

Counting is done once (`InRange.card_gaps_unseen`): discovering vertices makes the gaps of the set
of seen vertices smaller by their number. The searches with a stack and with arrays use the same
equation.
-/

namespace AbstractionRefinement

/-! ### Counting what is missing -/

namespace IndexSet

/-- The indices below a bound that are not in the set. -/
def gaps (s : IndexSet) (bound : Nat) : Finset Nat := {i ∈ Finset.range bound | i ∉ s}

variable {s t : IndexSet} {bound i : Nat} {l : List Nat}

/-- The gaps of a set are the numbers below the bound that it lacks. -/
theorem mem_gaps : i ∈ s.gaps bound ↔ i < bound ∧ i ∉ s := by
  rw [gaps, Finset.mem_filter, Finset.mem_range]

/-- There are no more gaps than numbers below the bound. -/
theorem card_gaps_le : (s.gaps bound).card ≤ bound := by
  have hcard := Finset.card_filter_le (Finset.range bound) (· ∉ s)
  rwa [Finset.card_range] at hcard

/-- A larger set with one more index below the bound has fewer gaps. -/
theorem card_gaps_lt (h : ∀ j ∈ s, j ∈ t) (hi : i < bound) (hs : i ∉ s) (ht : i ∈ t) :
    (t.gaps bound).card < (s.gaps bound).card := by
  refine Finset.card_lt_card ((Finset.ssubset_iff_of_subset fun j hj ↦ ?_).2 ⟨i, ?_, ?_⟩)
  · obtain ⟨hlt, hj⟩ := mem_gaps.1 hj
    exact mem_gaps.2 ⟨hlt, fun hjs ↦ hj (h j hjs)⟩
  · exact mem_gaps.2 ⟨hi, hs⟩
  · exact fun hmem ↦ (mem_gaps.1 hmem).2 ht

/-- Every new member fills one gap. -/
theorem card_gaps_insertAll (hnd : l.Nodup) (hl : ∀ j ∈ l, j < bound ∧ j ∉ s) :
    ((s.insertAll l).gaps bound).card + l.length = (s.gaps bound).card := by
  have hsub : l.toFinset ⊆ s.gaps bound := fun j hj ↦ mem_gaps.2 (hl j (List.mem_toFinset.1 hj))
  have hsdiff : (s.insertAll l).gaps bound = s.gaps bound \ l.toFinset := by
    ext j
    rw [mem_gaps, Finset.mem_sdiff, mem_gaps, mem_insertAll, List.mem_toFinset, not_or, and_assoc]
  rw [hsdiff, ← List.toFinset_card_of_nodup hnd]
  exact Finset.card_sdiff_add_card_eq_card hsub

theorem nodup_toList : s.toList.Nodup := s.ascending.imp fun h ↦ Nat.ne_of_lt h

/-- A set below the bound and its gaps make up all indices. -/
theorem card_gaps_add_length (h : ∀ j ∈ s, j < bound) :
    (s.gaps bound).card + s.toList.length = bound := by
  have hsub : s.toList.toFinset ⊆ Finset.range bound := fun j hj ↦
    Finset.mem_range.2 (h j (List.mem_toFinset.1 hj))
  have hsdiff : s.gaps bound = Finset.range bound \ s.toList.toFinset := by
    ext j
    rw [mem_gaps, Finset.mem_sdiff, Finset.mem_range, List.mem_toFinset, mem_toList]
  rw [hsdiff, ← List.toFinset_card_of_nodup nodup_toList,
    Finset.card_sdiff_add_card_eq_card hsub, Finset.card_range]

end IndexSet

namespace Digraph

variable {g : Digraph} {v w : Nat}

/-! ### Edges -/

/-- The test for an edge decides it. -/
theorem hasEdge_iff : g.hasEdge v w = true ↔ w ∈ g.successors v := decide_eq_true_iff

/-- The edges that are listed are those that the test finds. -/
theorem mem_edges : (v, w) ∈ g.edges ↔ g.hasEdge v w = true := by
  have hlookup : w ∈ g.successors v ↔ ∃ ws, g.next.find? v = some ws ∧ w ∈ ws := by
    rw [successors]
    cases g.next.find? v with
    | none => simp [IndexSet.empty, ← IndexSet.mem_toList]
    | some ws => simp
  rw [hasEdge_iff, hlookup, edges, List.mem_flatMap]
  constructor
  · rintro ⟨b, hb, hmem⟩
    obtain ⟨u, hu, heq⟩ := List.mem_map.1 hmem
    obtain ⟨rfl, rfl⟩ := Prod.mk.inj heq
    exact ⟨b.2, IndexMap.find?_eq_some_iff.2 hb, hu⟩
  · rintro ⟨ws, hws, hw⟩
    exact ⟨(v, ws), IndexMap.find?_eq_some_iff.1 hws, List.mem_map.2 ⟨w, hw, rfl⟩⟩

/-- Everything that the graph mentions is one of its vertices. -/
structure InRange (g : Digraph) : Prop where
  /-- Initial vertices exist. -/
  init : ∀ v ∈ g.init, v < g.order
  /-- The ends of an edge exist. -/
  edge : ∀ {v w}, g.hasEdge v w = true → v < g.order ∧ w < g.order
  /-- Targets exist. -/
  target : ∀ v ∈ g.targets, v < g.order

/-- Adding an edge adds one successor of one vertex. -/
theorem mem_successors_addEdge {next : IndexMap IndexSet} {e : Nat × Nat} :
    w ∈ ((addEdge next e).find? v).getD .empty ↔
      (v, w) = e ∨ w ∈ (next.find? v).getD .empty := by
  rw [addEdge, IndexMap.find?_insert, Prod.ext_iff]
  by_cases hv : v = e.1
  · rw [if_pos hv, Option.getD_some, IndexSet.mem_insert, hv]
    simp
  · simp [hv]

/-- The edges of a graph given by lists are those listed between vertices that exist. -/
theorem hasEdge_ofLists {order : Nat} {init targets : List Nat} {edges : List (Nat × Nat)} :
    (ofLists order init edges targets).hasEdge v w = true ↔
      (v, w) ∈ edges ∧ v < order ∧ w < order := by
  have hfold : ∀ (l : List (Nat × Nat)) (next : IndexMap IndexSet),
      w ∈ ((l.foldl addEdge next).find? v).getD .empty ↔
        (v, w) ∈ l ∨ w ∈ (next.find? v).getD .empty := by
    intro l
    induction l with
    | nil => simp
    | cons e l ih =>
      intro next
      rw [List.foldl_cons, ih, mem_successors_addEdge, List.mem_cons, or_assoc, or_left_comm]
  rw [hasEdge_iff, successors, ofLists, hfold, List.mem_filter, IndexMap.find?_empty]
  simp only [Option.getD_none, Bool.and_eq_true, decide_eq_true_eq]
  exact or_iff_left List.not_mem_nil

/-- **A graph that is built from lists is in range**, whatever the lists name. -/
theorem inRange_ofLists {order : Nat} {init targets : List Nat} {edges : List (Nat × Nat)} :
    (ofLists order init edges targets).InRange where
  init _ hv := of_decide_eq_true (List.mem_filter.1 (IndexSet.mem_ofList.1 hv)).2
  edge h := (hasEdge_ofLists.1 h).2
  target _ hv := of_decide_eq_true (List.mem_filter.1 (IndexSet.mem_ofList.1 hv)).2

/-! ### Counterexamples -/

/-- The transition system of a digraph: a step follows an edge. -/
def system (g : Digraph) : System Nat Link where
  initial v := v ∈ g.init
  step v e w := e = ⟨v, w⟩ ∧ g.hasEdge v w = true
  target v := v ∈ g.targets

/-- The vertices of a walk that shows a target to be reachable. -/
structure IsCounterexample (g : Digraph) (l : List Nat) : Prop where
  /-- It begins at an initial vertex. -/
  initial : ∃ v ∈ g.init, l.head? = some v
  /-- It follows edges. -/
  edges : l.IsChain fun v w ↦ g.hasEdge v w = true
  /-- It ends at a target. -/
  target : ∃ v ∈ g.targets, l.getLast? = some v

/-- What comes along edges after a reachable vertex is reachable. -/
theorem reachable_of_isChain {l : List Nat} (hv : g.system.Reachable v)
    (hl : (v :: l).IsChain fun v w ↦ g.hasEdge v w = true) :
    ∀ w ∈ v :: l, g.system.Reachable w := by
  induction l generalizing v with
  | nil => exact List.forall_mem_singleton.2 hv
  | cons u l ih =>
    obtain ⟨hvu, hl⟩ := List.isChain_cons_cons.1 hl
    have hu : g.system.Reachable u := .step hv ⟨rfl, hvu⟩
    exact List.forall_mem_cons.2 ⟨hv, ih hu hl⟩

/-- A counterexample shows a target to be reachable. -/
theorem IsCounterexample.exists_reachable {l : List Nat} (h : g.IsCounterexample l) :
    ∃ v ∈ g.targets, g.system.Reachable v := by
  obtain ⟨v, hv, hlast⟩ := h.target
  obtain ⟨u, hu, hhead⟩ := h.initial
  cases l with
  | nil => cases hhead
  | cons w l =>
    obtain rfl : w = u := Option.some.inj hhead
    exact ⟨v, hv, reachable_of_isChain (.initial hu) h.edges v (List.mem_of_getLast? hlast)⟩

/-! ### Search -/

/-- A walk from an initial vertex along edges. -/
inductive Walk.Legal (g : Digraph) : Walk → Prop
  /-- It begins at an initial vertex. -/
  | start {v : Nat} (hv : v ∈ g.init) : Legal g ⟨v, []⟩
  /-- It goes on along an edge. -/
  | extend {walk : Walk} {v : Nat} (h : Legal g walk) (hv : g.hasEdge walk.last v = true) :
    Legal g (walk.extend v)

/-- Extending a walk adds a vertex at its end. -/
theorem Walk.toList_extend {walk : Walk} : (walk.extend v).toList = walk.toList ++ [v] := by
  rw [toList, extend, List.reverse_cons, toList]

theorem Walk.getLast?_toList {walk : Walk} : walk.toList.getLast? = some walk.last := by
  rw [toList, List.getLast?_reverse, List.head?_cons]

/-- A legal walk to a target is a counterexample. -/
theorem Walk.Legal.isCounterexample {walk : Walk} (h : walk.Legal g)
    (htarget : walk.last ∈ g.targets) : g.IsCounterexample walk.toList := by
  have hlegal : (∃ v ∈ g.init, walk.toList.head? = some v) ∧
      walk.toList.IsChain fun v w ↦ g.hasEdge v w = true := by
    clear htarget
    induction h with
    | @start v hv => exact ⟨⟨v, hv, rfl⟩, .singleton v⟩
    | @extend walk v _ hedge ih =>
      obtain ⟨⟨u, hu, hhead⟩, hchain⟩ := ih
      rw [toList_extend]
      refine ⟨⟨u, hu, ?_⟩, hchain.append (.singleton v) fun a ha b hb ↦ ?_⟩
      · rw [List.head?_append, hhead, Option.some_or]
      · rw [getLast?_toList, Option.mem_some_iff] at ha
        rw [List.head?_cons, Option.mem_some_iff] at hb
        exact ha ▸ hb ▸ hedge
  exact ⟨hlegal.1, hlegal.2, walk.last, htarget, getLast?_toList⟩

/-- What holds between two steps of the search. -/
structure Searches (g : Digraph) (queue : List Walk) (seen : IndexSet) : Prop where
  /-- Walks in the queue are legal. -/
  legal : ∀ walk ∈ queue, walk.Legal g
  /-- Initial vertices have been seen. -/
  initial : ∀ v ∈ g.init, v ∈ seen
  /-- What has been seen waits in the queue, or it is no target and its successors have been seen.
  -/
  settled : ∀ v ∈ seen, (∃ walk ∈ queue, walk.last = v) ∨
    v ∉ g.targets ∧ ∀ w ∈ g.successors v, w ∈ seen

/-- The successors of the end of a walk that the search has not seen. -/
def unseen (g : Digraph) (walk : Walk) (seen : IndexSet) : List Nat :=
  (g.successors walk.last).toList.filter (· ∉ seen)

/-- The vertices that a walk discovers are the successors of its last one that have not been seen.
-/
theorem mem_unseen {walk : Walk} {seen : IndexSet} :
    v ∈ g.unseen walk seen ↔ g.hasEdge walk.last v = true ∧ v ∉ seen := by
  rw [unseen, List.mem_filter, decide_eq_true_eq, IndexSet.mem_toList, hasEdge_iff]

/-- Each new walk takes the place of a vertex that has not been seen. -/
theorem InRange.card_gaps_unseen (hg : g.InRange) (walk : Walk) (seen : IndexSet) :
    ((seen.insertAll (g.unseen walk seen)).gaps g.order).card + (g.unseen walk seen).length =
      (seen.gaps g.order).card := by
  refine IndexSet.card_gaps_insertAll (IndexSet.nodup_toList.filter _) fun w hw ↦ ?_
  exact ⟨(hg.edge (mem_unseen.1 hw).1).2, (mem_unseen.1 hw).2⟩

/-- One step of the search from a walk that does not end in a target: its extensions are queued
behind all others. -/
theorem searchFrom_cons {steps : Nat} {walk : Walk} {queue : List Walk} {seen : IndexSet}
    (h : walk.last ∉ g.targets) : g.searchFrom (steps + 1) (walk :: queue) seen =
      g.searchFrom steps (queue ++ (g.unseen walk seen).map walk.extend)
        (seen.insertAll (g.unseen walk seen)) := by
  rw [searchFrom, if_neg h]
  rfl

namespace Searches

variable {queue : List Walk} {walk : Walk} {seen : IndexSet}

/-- The invariant of the search holds of the walks of one vertex. -/
theorem start : g.Searches (g.init.toList.map (⟨·, []⟩)) g.init where
  legal := by
    intro walk hwalk
    obtain ⟨v, hv, rfl⟩ := List.mem_map.1 hwalk
    exact .start hv
  initial _ hv := hv
  settled v hv := .inl ⟨⟨v, []⟩, List.mem_map.2 ⟨v, hv, rfl⟩, rfl⟩

/-- **A step of the search keeps the invariant.** -/
theorem step (h : g.Searches (walk :: queue) seen) (htarget : walk.last ∉ g.targets) :
    g.Searches (queue ++ (g.unseen walk seen).map walk.extend)
      (seen.insertAll (g.unseen walk seen)) where
  legal := by
    obtain ⟨hwalk, hqueue⟩ := List.forall_mem_cons.1 h.legal
    refine List.forall_mem_append.2 ⟨hqueue, fun walk' hwalk' ↦ ?_⟩
    obtain ⟨v, hv, rfl⟩ := List.mem_map.1 hwalk'
    exact .extend hwalk (mem_unseen.1 hv).1
  initial v hv := IndexSet.mem_insertAll.2 (.inl (h.initial v hv))
  settled v hv := by
    rcases IndexSet.mem_insertAll.1 hv with hseen | hnew
    · rcases h.settled v hseen with ⟨walk', hwalk', rfl⟩ | ⟨hv, hsucc⟩
      · rcases List.mem_cons.1 hwalk' with rfl | hwalk'
        · -- the walk taken: its successors have been seen, or are seen now
          refine .inr ⟨htarget, fun w hw ↦ IndexSet.mem_insertAll.2 ?_⟩
          by_cases hw' : w ∈ seen
          · exact .inl hw'
          · exact .inr (mem_unseen.2 ⟨hasEdge_iff.2 hw, hw'⟩)
        · exact .inl ⟨walk', List.mem_append_left _ hwalk', rfl⟩
      · exact .inr ⟨hv, fun w hw ↦ IndexSet.mem_insertAll.2 (.inl (hsucc w hw))⟩
    · refine .inl ⟨walk.extend v, List.mem_append_right _ (List.mem_map.2 ⟨v, hnew, rfl⟩), rfl⟩

/-- With nothing left in the queue, every reachable vertex has been seen, and none is a target. -/
theorem not_target (h : g.Searches [] seen) (hv : g.system.Reachable v) :
    v ∈ seen ∧ v ∉ g.targets := by
  have hclosed : ∀ {v}, v ∈ seen → v ∉ g.targets ∧ ∀ w ∈ g.successors v, w ∈ seen := by
    intro v hv
    refine (h.settled v hv).resolve_left ?_
    rintro ⟨walk, hwalk, -⟩
    exact List.not_mem_nil hwalk
  have hseen : v ∈ seen := by
    induction hv with
    | initial hv => exact h.initial _ hv
    | step _ hstep ih => exact (hclosed ih).2 _ (hasEdge_iff.1 hstep.2)
  exact ⟨hseen, (hclosed hseen).1⟩

/-- What the search finds is a counterexample. -/
theorem legal_of_searchFrom {steps : Nat} {found : Walk} (h : g.Searches queue seen)
    (hfound : g.searchFrom steps queue seen = some found) :
    found.Legal g ∧ found.last ∈ g.targets := by
  induction steps generalizing queue seen with
  | zero => cases hfound
  | succ steps ih =>
    cases queue with
    | nil => cases hfound
    | cons walk queue =>
      by_cases htarget : walk.last ∈ g.targets
      · rw [searchFrom, if_pos htarget] at hfound
        obtain rfl := Option.some.inj hfound
        exact ⟨h.legal _ List.mem_cons_self, htarget⟩
      · rw [searchFrom_cons htarget] at hfound
        exact ih (h.step htarget) hfound

/-- **The search finds nothing only if there is nothing to be found**, given a step for every walk
queued and every vertex that has not been seen. -/
theorem not_target_of_searchFrom {steps : Nat} (hg : g.InRange) (h : g.Searches queue seen)
    (hsteps : queue.length + (seen.gaps g.order).card ≤ steps)
    (hnone : g.searchFrom steps queue seen = none) (hv : g.system.Reachable v) :
    v ∉ g.targets := by
  induction steps generalizing queue seen with
  | zero =>
    have hnil : queue = [] := List.length_eq_zero_iff.1 (by omega)
    subst hnil
    exact (h.not_target hv).2
  | succ steps ih =>
    cases queue with
    | nil => exact (h.not_target hv).2
    | cons walk queue =>
      have htarget : walk.last ∉ g.targets := by
        intro htarget
        rw [searchFrom, if_pos htarget] at hnone
        cases hnone
      rw [searchFrom_cons htarget] at hnone
      refine ih (h.step htarget) ?_ hnone
      have hnew := hg.card_gaps_unseen walk seen
      rw [List.length_append, List.length_map]
      rw [List.length_cons] at hsteps
      omega

end Searches

/-- **A path that is found is a counterexample.** -/
theorem isCounterexample_of_shortestPath {l : List Nat} (h : g.shortestPath = some l) :
    g.IsCounterexample l := by
  obtain ⟨walk, hwalk, rfl⟩ := Option.map_eq_some_iff.1 h
  obtain ⟨hlegal, htarget⟩ := Searches.start.legal_of_searchFrom hwalk
  exact hlegal.isCounterexample htarget

/-- **No path is found exactly if no target can be reached.** -/
theorem shortestPath_eq_none_iff (hg : g.InRange) :
    g.shortestPath = none ↔ ∀ {v}, g.system.Reachable v → v ∉ g.targets := by
  constructor
  · intro hnone v hv
    refine Searches.start.not_target_of_searchFrom hg ?_ (Option.map_eq_none_iff.1 hnone) hv
    rw [List.length_map, Nat.add_comm, IndexSet.card_gaps_add_length hg.init]
  · intro hsafe
    refine Option.eq_none_iff_forall_ne_some.2 fun l hl ↦ ?_
    obtain ⟨v, htarget, hv⟩ := (isCounterexample_of_shortestPath hl).exists_reachable
    exact hsafe hv htarget

end Digraph

end AbstractionRefinement
