import AbstractionRefinement.Proofs.Digraph.Search
import Mathlib.Data.Set.Card

/-!
# Shortest paths and reachable vertices

The breadth-first search finds a counterexample of least length
(`Digraph.length_le_of_shortestPath`). Two facts about its queue carry the argument
(`Digraph.Layers`): the walks in it are in the order of their lengths, which differ by one at most,
and each is as short as any walk to the same vertex. Neither says anything about vertices that have
left the queue, and nothing need be said: a walk that is shorter than all that wait ends at a vertex
that has left it (`Digraph.Searches.left_of_shorter`), because otherwise a walk to its end would
wait that is not longer.

The second search counts vertices. It forgets how it came to them, and it ends with exactly those
that can be reached (`Digraph.mem_reachable`).

Both results are about every digraph that can be built, and both use the same count of gaps as the
proof that the searches end. The second one has its own invariant (`Explores`), in which the order
of the stack plays no part.

The example has two routes to its target, of which the longer one is listed first, and mentions
vertices that do not exist; it shows that neither the order of the lists nor what they name out of
range has an influence.
-/

namespace AbstractionRefinement.Digraph

variable {g : Digraph} {v w : Nat} {queue : List Walk} {walk : Walk} {seen : IndexSet}

/-! ### Lengths of walks -/

/-- The number of edges of a walk. -/
def Walk.length (walk : Walk) : Nat := walk.before.length

@[simp] theorem Walk.length_extend : (walk.extend v).length = walk.length + 1 :=
  List.length_cons

theorem Walk.length_toList : walk.toList.length = walk.length + 1 := by
  rw [toList, List.length_reverse, List.length_cons, length]

/-- A list of vertices along edges from an initial vertex is a legal walk. -/
theorem exists_legal_of_isChain {l : List Nat} (hne : l ≠ [])
    (hhead : ∃ v ∈ g.init, l.head? = some v) (hl : l.IsChain fun v w ↦ g.hasEdge v w = true) :
    ∃ walk : Walk, walk.Legal g ∧ walk.toList = l := by
  induction l using List.reverseRecOn with
  | nil => exact absurd rfl hne
  | append_singleton l v ih =>
    obtain ⟨u, hu, hhead⟩ := hhead
    rcases eq_or_ne l [] with rfl | hl'
    · obtain rfl : v = u := Option.some.inj hhead
      exact ⟨⟨v, []⟩, .start hu, rfl⟩
    · obtain ⟨hchain, -, hlink⟩ := List.isChain_append.1 hl
      rw [List.head?_append_of_ne_nil l hl'] at hhead
      obtain ⟨walk, hwalk, rfl⟩ := ih hl' ⟨u, hu, hhead⟩ hchain
      have hedge : g.hasEdge walk.last v = true :=
        hlink walk.last Walk.getLast?_toList v (List.head?_cons ..)
      exact ⟨walk.extend v, .extend hwalk hedge, Walk.toList_extend⟩

/-- Every counterexample is a legal walk to a target. -/
theorem IsCounterexample.exists_legal {l : List Nat} (h : g.IsCounterexample l) :
    ∃ walk : Walk, walk.Legal g ∧ walk.last ∈ g.targets ∧ walk.length + 1 = l.length := by
  obtain ⟨u, hu, hhead⟩ := h.initial
  have hne : l ≠ [] := by
    rintro rfl
    cases hhead
  obtain ⟨walk, hwalk, rfl⟩ := exists_legal_of_isChain hne h.initial h.edges
  obtain ⟨v, hv, hlast⟩ := h.target
  rw [Walk.getLast?_toList] at hlast
  obtain rfl := Option.some.inj hlast
  exact ⟨walk, hwalk, hv, Walk.length_toList.symm⟩

/-! ### The order of the queue -/

/-- The queue of the search, as to lengths. -/
structure Layers (g : Digraph) (queue : List Walk) : Prop where
  /-- Longer walks come later, and lengths differ by one at most. -/
  near : queue.Pairwise fun a b ↦ a.length ≤ b.length ∧ b.length ≤ a.length + 1
  /-- No walk to the same vertex is shorter. -/
  least : ∀ walk ∈ queue, ∀ other : Walk, other.Legal g → other.last = walk.last →
    walk.length ≤ other.length

/-- **A walk shorter than all that wait ends at a vertex that has left the queue**: it is no target,
and its successors have been seen. -/
theorem Searches.left_of_shorter (h : g.Searches queue seen) (hlayers : g.Layers queue)
    (hwalk : walk.Legal g) (hshort : ∀ q ∈ queue, walk.length < q.length) :
    walk.last ∉ g.targets ∧ ∀ w ∈ g.successors walk.last, w ∈ seen := by
  -- once seen, a vertex has left the queue: a walk to it that waits would be too long
  have hleft : ∀ {u : Walk}, u.Legal g → (∀ q ∈ queue, u.length < q.length) → u.last ∈ seen →
      u.last ∉ g.targets ∧ ∀ w ∈ g.successors u.last, w ∈ seen := by
    intro u hu hshort hseen
    refine (h.settled _ hseen).resolve_left ?_
    rintro ⟨q, hq, hlast⟩
    exact absurd (hshort q hq) (Nat.not_lt.2 (hlayers.least q hq u hu hlast.symm))
  induction hwalk with
  | start hv => exact hleft (.start hv) hshort (h.initial _ hv)
  | @extend walk v hwalk hedge ih =>
    refine hleft (.extend hwalk hedge) hshort ?_
    have hbefore : ∀ q ∈ queue, walk.length < q.length := fun q hq ↦
      Nat.lt_of_succ_lt (hshort q hq)
    exact (ih hbefore).2 v (hasEdge_iff.1 hedge)

namespace Layers

/-- The first walk is as short as any that wait. -/
theorem head_le (h : g.Layers (walk :: queue)) : ∀ q ∈ walk :: queue, walk.length ≤ q.length :=
  List.forall_mem_cons.2
    ⟨Nat.le_refl _, fun q hq ↦ ((List.pairwise_cons.1 h.near).1 q hq).1⟩

theorem start : g.Layers (g.init.toList.map (⟨·, []⟩)) := by
  have hzero : ∀ q ∈ g.init.toList.map (⟨·, []⟩ : Nat → Walk), q.length = 0 :=
    List.forall_mem_map.2 fun _ _ ↦ rfl
  refine ⟨?_, fun q hq other _ _ ↦ ?_⟩
  · refine List.pairwise_of_forall_mem_list fun a ha b hb ↦ ?_
    rw [hzero a ha, hzero b hb]
    exact ⟨Nat.le_refl 0, Nat.zero_le 1⟩
  · rw [hzero q hq]
    exact Nat.zero_le _

/-- **A step of the search keeps the order of the queue.** -/
theorem step (h : g.Layers (walk :: queue)) (hs : g.Searches (walk :: queue) seen) :
    g.Layers (queue ++ (g.unseen walk seen).map walk.extend) where
  near := by
    obtain ⟨hhead, hqueue⟩ := List.pairwise_cons.1 h.near
    have hnew : ∀ q ∈ (g.unseen walk seen).map walk.extend, q.length = walk.length + 1 :=
      List.forall_mem_map.2 fun _ _ ↦ Walk.length_extend
    refine List.pairwise_append.2 ⟨hqueue, ?_, fun a ha b hb ↦ ?_⟩
    · refine List.pairwise_of_forall_mem_list fun a ha b hb ↦ ?_
      rw [hnew a ha, hnew b hb]
      exact ⟨Nat.le_refl _, Nat.le_succ _⟩
    · rw [hnew b hb]
      exact ⟨(hhead a ha).2, Nat.succ_le_succ (hhead a ha).1⟩
  least := by
    refine List.forall_mem_append.2
      ⟨fun q hq ↦ h.least q (List.mem_cons_of_mem _ hq), List.forall_mem_map.2 fun v hv ↦ ?_⟩
    intro other hother hlast
    obtain ⟨-, hfresh⟩ := mem_unseen.1 hv
    rw [Walk.length_extend]
    cases hother with
    | @start u hu =>
      obtain rfl : u = v := hlast
      exact absurd (hs.initial u hu) hfresh
    | @extend other u hother hedge =>
      obtain rfl : u = v := hlast
      rw [Walk.length_extend]
      -- from a shorter walk the vertex would have been seen
      refine Nat.succ_le_succ (Nat.not_lt.1 fun hlt ↦ hfresh ?_)
      have hshort : ∀ q ∈ walk :: queue, other.length < q.length := fun q hq ↦
        Nat.lt_of_lt_of_le hlt (h.head_le q hq)
      exact (hs.left_of_shorter h hother hshort).2 u (hasEdge_iff.1 hedge)

/-- **What the search finds is as short as any walk to a target.** -/
theorem length_le_of_searchFrom {steps : Nat} {found other : Walk} (h : g.Layers queue)
    (hs : g.Searches queue seen) (hfound : g.searchFrom steps queue seen = some found)
    (hother : other.Legal g) (htarget : other.last ∈ g.targets) : found.length ≤ other.length := by
  induction steps generalizing queue seen with
  | zero => cases hfound
  | succ steps ih =>
    cases queue with
    | nil => cases hfound
    | cons walk queue =>
      by_cases hwalk : walk.last ∈ g.targets
      · rw [searchFrom, if_pos hwalk] at hfound
        obtain rfl := Option.some.inj hfound
        refine Nat.not_lt.1 fun hlt ↦ ?_
        have hshort : ∀ q ∈ walk :: queue, other.length < q.length := fun q hq ↦
          Nat.lt_of_lt_of_le hlt (h.head_le q hq)
        exact (hs.left_of_shorter h hother hshort).1 htarget
      · rw [searchFrom_cons hwalk] at hfound
        exact ih (h.step hs) (hs.step hwalk) hfound

end Layers

/-- **No counterexample is shorter than the one found.** -/
theorem length_le_of_shortestPath {l l' : List Nat} (h : g.shortestPath = some l)
    (h' : g.IsCounterexample l') : l.length ≤ l'.length := by
  obtain ⟨found, hfound, rfl⟩ := Option.map_eq_some_iff.1 h
  obtain ⟨other, hother, htarget, hlength⟩ := h'.exists_legal
  rw [Walk.length_toList, ← hlength]
  exact Nat.succ_le_succ (Layers.start.length_le_of_searchFrom .start hfound hother htarget)

/-! ### Counting what can be reached -/

/-- What holds between two steps of the search for all reachable vertices. -/
structure Explores (g : Digraph) (stack : List Nat) (seen : IndexSet) : Prop where
  /-- Initial vertices have been seen. -/
  initial : ∀ v ∈ g.init, v ∈ seen
  /-- What has been seen can be reached. -/
  reachable : ∀ v ∈ seen, g.system.Reachable v
  /-- What is on the stack has been seen. -/
  stacked : ∀ v ∈ stack, v ∈ seen
  /-- What has been seen waits on the stack, or its successors have been seen. -/
  settled : ∀ v ∈ seen, v ∈ stack ∨ ∀ w ∈ g.successors v, w ∈ seen

theorem reachFrom_cons {steps : Nat} {stack : List Nat} :
    g.reachFrom (steps + 1) (v :: stack) seen =
      g.reachFrom steps (g.unseen ⟨v, []⟩ seen ++ stack)
        (seen.insertAll (g.unseen ⟨v, []⟩ seen)) := rfl

namespace Explores

variable {stack : List Nat}

theorem start : g.Explores g.init.toList g.init where
  initial _ hv := hv
  reachable _ hv := .initial hv
  stacked _ hv := hv
  settled _ hv := .inl hv

/-- **A step of the search keeps the invariant.** -/
theorem step (h : g.Explores (v :: stack) seen) :
    g.Explores (g.unseen ⟨v, []⟩ seen ++ stack) (seen.insertAll (g.unseen ⟨v, []⟩ seen)) where
  initial u hu := IndexSet.mem_insertAll.2 (.inl (h.initial u hu))
  reachable u hu := by
    rcases IndexSet.mem_insertAll.1 hu with hu | hu
    · exact h.reachable u hu
    · have hv : g.system.Reachable v := h.reachable v (h.stacked v List.mem_cons_self)
      exact .step hv ⟨rfl, (mem_unseen.1 hu).1⟩
  stacked := List.forall_mem_append.2
    ⟨fun _ hu ↦ IndexSet.mem_insertAll.2 (.inr hu),
      fun u hu ↦ IndexSet.mem_insertAll.2 (.inl (h.stacked u (List.mem_cons_of_mem _ hu)))⟩
  settled u hu := by
    rcases IndexSet.mem_insertAll.1 hu with hseen | hnew
    · rcases h.settled u hseen with hstack | hsucc
      · rcases List.mem_cons.1 hstack with rfl | hstack
        · -- the vertex taken: its successors have been seen, or are seen now
          refine .inr fun w hw ↦ IndexSet.mem_insertAll.2 ?_
          by_cases hw' : w ∈ seen
          · exact .inl hw'
          · exact .inr (mem_unseen.2 ⟨hasEdge_iff.2 hw, hw'⟩)
        · exact .inl (List.mem_append_right _ hstack)
      · exact .inr fun w hw ↦ IndexSet.mem_insertAll.2 (.inl (hsucc w hw))
    · exact .inl (List.mem_append_left _ hnew)

/-- With nothing left on the stack, exactly the reachable vertices have been seen. -/
theorem mem_iff (h : g.Explores [] seen) : w ∈ seen ↔ g.system.Reachable w := by
  refine ⟨h.reachable w, fun hw ↦ ?_⟩
  induction hw with
  | initial hv => exact h.initial _ hv
  | step _ hstep ih =>
    exact (h.settled _ ih).resolve_left List.not_mem_nil _ (hasEdge_iff.1 hstep.2)

/-- **The search ends with exactly the reachable vertices**, given a step for every vertex on the
stack and every vertex that has not been seen. -/
theorem mem_reachFrom {steps : Nat} (hg : g.InRange) (h : g.Explores stack seen)
    (hsteps : stack.length + (seen.gaps g.order).card ≤ steps) :
    w ∈ g.reachFrom steps stack seen ↔ g.system.Reachable w := by
  induction steps generalizing stack seen with
  | zero =>
    have hnil : stack = [] := List.length_eq_zero_iff.1 (by omega)
    subst hnil
    exact h.mem_iff
  | succ steps ih =>
    cases stack with
    | nil => exact h.mem_iff
    | cons v stack =>
      rw [reachFrom_cons]
      refine ih h.step ?_
      have hnew := hg.card_gaps_unseen ⟨v, []⟩ seen
      rw [List.length_append]
      rw [List.length_cons] at hsteps
      omega

end Explores

/-- **The reachable vertices are found.** -/
theorem mem_reachable (hg : g.InRange) : w ∈ g.reachable ↔ g.system.Reachable w := by
  refine Explores.start.mem_reachFrom hg ?_
  rw [Nat.add_comm, IndexSet.card_gaps_add_length hg.init]

/-- As many vertices are found as can be reached. -/
theorem length_reachable (hg : g.InRange) :
    g.reachable.toList.length = {v | g.system.Reachable v}.ncard := by
  have hset : {v | g.system.Reachable v} = g.reachable.toList.toFinset := by
    ext v
    rw [Set.mem_ofPred_eq, ← mem_reachable hg, Finset.mem_coe, List.mem_toFinset,
      IndexSet.mem_toList]
  rw [hset, Set.ncard_coe_finset, List.toFinset_card_of_nodup IndexSet.nodup_toList]

/-! ### The yardstick -/

/-- **The search decides reachability.** Whatever lists a graph is made of: no path is given exactly
if no target can be reached from an initial vertex; a path that is given leads along edges from an
initial vertex to a target, and no such path is shorter; and as many vertices are counted as can be
reached. -/
theorem shortestPath_exact (order : Nat) (init : List Nat) (edges : List (Nat × Nat))
    (targets : List Nat) :
    let g := ofLists order init edges targets
    (g.shortestPath = none ↔ ¬∃ v ∈ g.targets, g.system.Reachable v) ∧
      (∀ l, g.shortestPath = some l →
        g.IsCounterexample l ∧ ∀ l', g.IsCounterexample l' → l.length ≤ l'.length) ∧
      g.reachable.toList.length = {v | g.system.Reachable v}.ncard := by
  refine ⟨(shortestPath_eq_none_iff inRange_ofLists).trans ?_, fun l hl ↦ ?_,
    length_reachable inRange_ofLists⟩
  · constructor
    · rintro hsafe ⟨v, htarget, hv⟩
      exact hsafe hv htarget
    · intro hnone v hv htarget
      exact hnone ⟨v, htarget, hv⟩
  · exact ⟨isCounterexample_of_shortestPath hl, fun l' hl' ↦ length_le_of_shortestPath hl hl'⟩

/-- Two routes from the initial vertex to the target, the longer one listed first. Vertex 5 is out
of reach, and the vertices 7 and 9 do not exist. -/
def routes : Digraph :=
  ofLists 6 [0, 7] [(0, 3), (3, 1), (0, 1), (1, 2), (2, 4), (1, 4), (0, 1), (5, 4), (9, 4)] [4, 7]

/-- Of two routes to a target the shorter one is found. -/
theorem routes_exact : routes.shortestPath = some [0, 1, 4] ∧ routes.IsCounterexample [0, 1, 4] ∧
    (∀ l, routes.IsCounterexample l → 3 ≤ l.length) ∧
    {v | routes.system.Reachable v}.ncard = 5 := by
  have hpath : routes.shortestPath = some [0, 1, 4] := by decide
  have hcount : routes.reachable.toList.length = 5 := by decide
  obtain ⟨-, hshortest, hreach⟩ := shortestPath_exact 6 [0, 7]
    [(0, 3), (3, 1), (0, 1), (1, 2), (2, 4), (1, 4), (0, 1), (5, 4), (9, 4)] [4, 7]
  obtain ⟨hcex, hleast⟩ := hshortest _ hpath
  exact ⟨hpath, hcex, hleast, hreach.symm.trans hcount⟩

end AbstractionRefinement.Digraph
