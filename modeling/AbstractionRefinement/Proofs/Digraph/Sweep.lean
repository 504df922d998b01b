import AbstractionRefinement.Failure
import AbstractionRefinement.Iteration
import AbstractionRefinement.Proofs.Digraph.Search

/-!
# Breadth-first search with arrays

`Digraph.searchFrom` queues walks. A search that is to be fast queues vertices, and keeps two arrays
beside the queue: one says which vertices have been seen, and one says from which vertex each of
them was reached first. When a target comes up, a second loop follows the entries of the latter back
to an initial vertex. All entries are looked up by index, and an index out of range is a fault.

This module carries the search out in this way (`sweep`) and shows that it comes to
`Digraph.shortestPath` (`InRange.sweep_eq`). A queued vertex stands for the walk that the parents
lead back along (`LeadsBack`), and stays so: an entry is made only when a vertex is first seen, and
then the vertex is on none of the walks queued before, since all their vertices have been seen
(`StandsFor`). The second loop, too, is bounded: a walk that is found in a number of steps has no
more vertices than that.
-/

namespace AbstractionRefinement.Digraph

variable {g : Digraph} {u v : Nat}

/-! ### The search -/

/-- What the search keeps. -/
structure Sweep where
  /-- For each vertex, the one from which it was reached first, if any. -/
  parent : Array (Option Nat)
  /-- For each vertex, whether it has been queued. -/
  seen : Array Bool
  /-- The vertices to look at, the next one first. -/
  queue : List Nat

/-- Queue an initial vertex. -/
def Sweep.begin (s : Sweep) (v : Nat) : Except Fault Sweep :=
  if v < s.seen.size then
    .ok { s with seen := s.seen.setIfInBounds v true, queue := s.queue ++ [v] }
  else .error .outOfRange

/-- Queue a vertex that `u` has an edge to, unless it has been queued. -/
def Sweep.discover (u : Nat) (s : Sweep) (v : Nat) : Except Fault Sweep := do
  let known ← required .outOfRange s.seen[v]?
  if known then return s
  else if v < s.parent.size then
    return {
      parent := s.parent.setIfInBounds v (some u)
      seen := s.seen.setIfInBounds v true
      queue := s.queue ++ [v] }
  else .error .outOfRange

/-- Look at the next vertex. The answer is the target found, with the parents, if there is one. -/
def sweepTurn (g : Digraph) (s : Sweep) :
    Except Fault (Turn Sweep (Option (Nat × Array (Option Nat)))) :=
  match s.queue with
  | [] => .ok (.done none)
  | v :: rest =>
    if v ∈ g.targets then .ok (.done (some (v, s.parent)))
    else do
      let s ← (g.successors v).toList.foldlM (Sweep.discover v) { s with queue := rest }
      return .again s

/-- Go back by one parent, with the vertices passed so far; the answer is the way forward. -/
def backTurn (parent : Array (Option Nat)) (back : Nat × List Nat) :
    Except Fault (Turn (Nat × List Nat) (List Nat)) := do
  match ← required .outOfRange parent[back.1]? with
  | some u => return .again (u, back.2 ++ [u])
  | none => return .done back.2.reverse

/-- Search for a shortest path to a target; there is no answer if the turns granted to each loop do
not suffice. -/
def sweep (g : Digraph) (turns : Nat) : Except Fault (Option (Option (List Nat))) := do
  let s ← g.init.toList.foldlM Sweep.begin
    { parent := .replicate g.order none, seen := .replicate g.order false, queue := [] }
  match ← iterate g.sweepTurn turns s with
  | none => return none
  | some none => return some none
  | some (some (v, parent)) => return (← iterate (backTurn parent) turns (v, [v])).map some

/-! ### Parents -/

/-- The parents of a vertex lead back along these vertices, to one without parent. -/
def LeadsBack (parent : Array (Option Nat)) : Nat → List Nat → Prop
  | v, [] => parent[v]? = some none
  | v, u :: before => parent[v]? = some (some u) ∧ LeadsBack parent u before

/-- An entry for another vertex changes nothing. -/
theorem LeadsBack.set {parent : Array (Option Nat)} {before : List Nat}
    (h : LeadsBack parent v before)
    {w : Nat} (hw : w ∉ v :: before) {entry : Option Nat} :
    LeadsBack (parent.setIfInBounds w entry) v before := by
  induction before generalizing v with
  | nil =>
    have hne : w ≠ v := fun he ↦ hw (he ▸ List.mem_cons_self)
    rw [LeadsBack, Array.getElem?_setIfInBounds_ne hne]
    exact h
  | cons u before ih =>
    have hne : w ≠ v := fun he ↦ hw (he ▸ List.mem_cons_self)
    refine ⟨?_, ih h.2 fun hmem ↦ hw (List.mem_cons_of_mem _ hmem)⟩
    rw [Array.getElem?_setIfInBounds_ne hne]
    exact h.1

/-- **The way back**: the loop passes the vertices that the parents lead along, and no others. -/
theorem LeadsBack.iterate_backTurn {parent : Array (Option Nat)} {before : List Nat}
    (h : LeadsBack parent v before) (path : List Nat) {turns : Nat}
    (hturns : before.length < turns) :
    iterate (backTurn parent) turns (v, path) = .ok (some (path ++ before).reverse) := by
  induction before generalizing v path turns with
  | nil =>
    obtain ⟨turns, rfl⟩ := Nat.exists_eq_add_one.2 hturns
    rw [LeadsBack] at h
    simp [iterate, backTurn, h, required, bind, Except.bind, pure, Except.pure]
  | cons u before ih =>
    obtain ⟨turns, rfl⟩ := Nat.exists_eq_add_one.2 (Nat.zero_lt_of_lt hturns)
    have hstep : backTurn parent (v, path) = .ok (.again (u, path ++ [u])) := by
      simp [backTurn, h.1, required, bind, Except.bind, pure, Except.pure]
    have hrest := ih h.2 (path ++ [u]) (Nat.lt_of_succ_lt_succ hturns)
    rw [List.append_assoc, List.singleton_append] at hrest
    rw [iterate, hstep]
    exact hrest

/-! ### One step -/

/-- The arrays and the queue of vertices stand for a queue of walks and the set of vertices seen. -/
structure StandsFor (g : Digraph) (s : Sweep) (walks : List Walk) (vertices : IndexSet) :
    Prop where
  /-- The ends of the walks are queued. -/
  queue : s.queue = walks.map Walk.last
  /-- There is a mark for every vertex, set if it has been seen. -/
  seen : ∀ v, s.seen[v]? = if v < g.order then some (decide (v ∈ vertices)) else none
  /-- There is an entry for the parent of every vertex. -/
  parents : s.parent.size = g.order
  /-- The parents lead back along the walks. -/
  leads : ∀ w ∈ walks, LeadsBack s.parent w.last w.before
  /-- All vertices of the walks have been seen. -/
  known : ∀ w ∈ walks, ∀ v ∈ w.last :: w.before, v ∈ vertices

namespace StandsFor

variable {s : Sweep} {walks : List Walk} {vertices : IndexSet} {w : Walk}

/-- Every vertex has a mark. -/
theorem lt_size (h : g.StandsFor s walks vertices) (hv : v < g.order) : v < s.seen.size := by
  have hmark := h.seen v
  rw [if_pos hv] at hmark
  exact (Array.getElem?_eq_some_iff.1 hmark).1

/-- Setting the mark of a vertex is adding it to those that have been seen. -/
theorem getElem?_mark (h : g.StandsFor s walks vertices) (hv : v < g.order) (u : Nat) :
    (s.seen.setIfInBounds v true)[u]? =
      if u < g.order then some (decide (u ∈ vertices.insert v)) else none := by
  by_cases hu : u = v
  · rw [hu, Array.getElem?_setIfInBounds_self_of_lt (h.lt_size hv), if_pos hv]
    simp
  · rw [Array.getElem?_setIfInBounds_ne (Ne.symm hu), h.seen]
    simp [hu]

/-- **A vertex seen for the first time**, along an edge from the end of a walk that has been taken
from the queue: the walk that goes on to it is queued. -/
theorem discover (h : g.StandsFor s walks vertices) (hv : v < g.order) (hnew : v ∉ vertices)
    (hleads : LeadsBack s.parent w.last w.before)
    (hknown : ∀ v ∈ w.last :: w.before, v ∈ vertices) :
    ∃ s', s.discover w.last v = .ok s' ∧
      g.StandsFor s' (walks ++ [w.extend v]) (vertices.insert v) ∧
      LeadsBack s'.parent w.last w.before := by
  have hmark : s.seen[v]? = some false := by
    rw [h.seen, if_pos hv, decide_eq_false hnew]
  have hfresh : ∀ {w' : Walk}, (∀ u ∈ w'.last :: w'.before, u ∈ vertices) →
      v ∉ w'.last :: w'.before := fun hall hmem ↦ hnew (hall v hmem)
  have hback : LeadsBack (s.parent.setIfInBounds v (some w.last)) w.last w.before :=
    hleads.set (hfresh hknown)
  refine ⟨⟨s.parent.setIfInBounds v (some w.last), s.seen.setIfInBounds v true, s.queue ++ [v]⟩,
    ?_, ⟨?_, h.getElem?_mark hv, ?_, ?_, ?_⟩, hback⟩
  · have hroom : v < s.parent.size := h.parents ▸ hv
    simp [Sweep.discover, hmark, required, bind, Except.bind, pure, Except.pure, hroom]
  · rw [List.map_append, ← h.queue]
    rfl
  · rw [Array.size_setIfInBounds, h.parents]
  · refine List.forall_mem_append.2 ⟨fun w' hw' ↦ ?_, List.forall_mem_singleton.2 ⟨?_, hback⟩⟩
    · exact (h.leads w' hw').set (hfresh (h.known w' hw'))
    · exact Array.getElem?_setIfInBounds_self_of_lt (h.parents ▸ hv)
  · refine List.forall_mem_append.2 ⟨fun w' hw' u hu ↦ ?_, List.forall_mem_singleton.2 ?_⟩
    · exact IndexSet.mem_insert.2 (.inr (h.known w' hw' u hu))
    · refine List.forall_mem_cons.2 ⟨IndexSet.mem_insert.2 (.inl rfl), fun u hu ↦ ?_⟩
      exact IndexSet.mem_insert.2 (.inr (hknown u hu))

/-- **Looking at all edges** from the end of a walk: the vertices that have not been seen are
queued, each with the walk that goes on to it. -/
theorem foldlM_discover (h : g.StandsFor s walks vertices)
    (hleads : LeadsBack s.parent w.last w.before) (hknown : ∀ v ∈ w.last :: w.before, v ∈ vertices)
    {vs : List Nat} (hvs : ∀ v ∈ vs, v < g.order) (hnodup : vs.Nodup) :
    ∃ s', vs.foldlM (Sweep.discover w.last) s = .ok s' ∧
      g.StandsFor s' (walks ++ (vs.filter (· ∉ vertices)).map w.extend)
        (vertices.insertAll (vs.filter (· ∉ vertices))) := by
  induction vs generalizing s walks vertices with
  | nil => exact ⟨s, rfl, by simpa [IndexSet.insertAll] using h⟩
  | cons v vs ih =>
    obtain ⟨hv, hvs⟩ := List.forall_mem_cons.1 hvs
    obtain ⟨hout, hnodup⟩ := List.nodup_cons.1 hnodup
    by_cases hseen : v ∈ vertices
    · have hskip : s.discover w.last v = .ok s := by
        simp [Sweep.discover, h.seen, hv, hseen, required, bind, Except.bind, pure, Except.pure]
      obtain ⟨s', hrun, hs'⟩ := ih h hleads hknown hvs hnodup
      refine ⟨s', ?_, ?_⟩
      · rw [List.foldlM_cons, hskip]
        exact hrun
      · rw [List.filter_cons_of_neg (by simpa using hseen)]
        exact hs'
    · obtain ⟨s₁, hstep, hs₁, hleads₁⟩ := h.discover hv hseen hleads hknown
      obtain ⟨s', hrun, hs'⟩ := ih hs₁ hleads₁
        (fun u hu ↦ IndexSet.mem_insert.2 (.inr (hknown u hu))) hvs hnodup
      -- the other vertices are not this one, so that seeing it makes no difference to them
      have hfilter : vs.filter (· ∉ vertices.insert v) = vs.filter (· ∉ vertices) :=
        List.filter_congr fun u hu ↦ by
          have hne : u ≠ v := fun he ↦ hout (he ▸ hu)
          simp [IndexSet.mem_insert, hne]
      refine ⟨s', ?_, ?_⟩
      · rw [List.foldlM_cons, hstep]
        exact hrun
      · rw [hfilter] at hs'
        rw [List.filter_cons_of_pos (by simpa using hseen), List.map_cons, List.append_cons]
        exact hs'

/-! ### The whole search -/

/-- The loop ends when nothing is queued. -/
theorem iterate_sweepTurn_nil {turns : Nat} (h : s.queue = []) (hturns : 0 < turns) :
    iterate g.sweepTurn turns s = .ok (some none) := by
  obtain ⟨turns, rfl⟩ := Nat.exists_eq_add_one.2 hturns
  rw [iterate, sweepTurn, h]
  rfl

/-- **One turn of the loop** is one step of the search for walks. -/
theorem sweepTurn_eq (hg : g.InRange) (h : g.StandsFor s (w :: walks) vertices)
    (htarget : w.last ∉ g.targets) :
    ∃ s', g.sweepTurn s = .ok (.again s') ∧
      g.StandsFor s' (walks ++ (g.unseen w vertices).map w.extend)
        (vertices.insertAll (g.unseen w vertices)) := by
  obtain ⟨hleads, hrest⟩ := List.forall_mem_cons.1 h.leads
  obtain ⟨hknown, hothers⟩ := List.forall_mem_cons.1 h.known
  have htaken : g.StandsFor { s with queue := walks.map Walk.last } walks vertices :=
    ⟨rfl, h.seen, h.parents, hrest, hothers⟩
  obtain ⟨s', hrun, hs'⟩ := htaken.foldlM_discover hleads hknown
    (fun v hv ↦ (hg.edge (hasEdge_iff.2 hv)).2) (IndexSet.nodup_toList (s := g.successors w.last))
  refine ⟨s', ?_, hs'⟩
  rw [sweepTurn, h.queue, List.map_cons]
  simp only [if_neg htarget, hrun, bind, Except.bind]
  rfl

/-- **The loop finds what the search for walks finds**, given a step for every walk queued and every
vertex that has not been seen; a walk that is found is not longer than the steps taken. -/
theorem iterate_sweepTurn (hg : g.InRange) (steps bound : Nat) (h : g.StandsFor s walks vertices)
    (hsteps : walks.length + (vertices.gaps g.order).card ≤ steps)
    (hbound : ∀ w ∈ walks, w.before.length + steps ≤ bound) :
    ∃ answer, (∀ turns, steps < turns → iterate g.sweepTurn turns s = .ok (some answer)) ∧
      match g.searchFrom steps walks vertices with
      | none => answer = none
      | some w => w.before.length ≤ bound ∧
        ∃ parent, answer = some (w.last, parent) ∧ LeadsBack parent w.last w.before := by
  induction steps generalizing s walks vertices with
  | zero =>
    have hnil : walks = [] := List.length_eq_zero_iff.1 (by omega)
    exact ⟨none, fun turns hlt ↦ iterate_sweepTurn_nil (by rw [h.queue, hnil]; rfl) hlt, rfl⟩
  | succ steps ih =>
    cases walks with
    | nil =>
      exact ⟨none, fun turns hlt ↦ iterate_sweepTurn_nil h.queue (Nat.zero_lt_of_lt hlt), rfl⟩
    | cons w walks =>
      have hlen := hbound w List.mem_cons_self
      by_cases htarget : w.last ∈ g.targets
      · refine ⟨some (w.last, s.parent), fun turns hlt ↦ ?_, ?_⟩
        · obtain ⟨turns, rfl⟩ := Nat.exists_eq_add_one.2 (Nat.zero_lt_of_lt hlt)
          have hturn : g.sweepTurn s = .ok (.done (some (w.last, s.parent))) := by
            rw [sweepTurn, h.queue, List.map_cons]
            exact if_pos htarget
          rw [iterate, hturn]
          rfl
        · rw [searchFrom, if_pos htarget]
          exact ⟨by omega, s.parent, rfl, h.leads w List.mem_cons_self⟩
      · obtain ⟨s', hturn, hs'⟩ := h.sweepTurn_eq hg htarget
        have hnew := hg.card_gaps_unseen w vertices
        obtain ⟨answer, hanswer, hmatch⟩ := ih hs'
          (by
            rw [List.length_append, List.length_map]
            rw [List.length_cons] at hsteps
            omega)
          (List.forall_mem_append.2 ⟨fun w' hw' ↦ by
            have hle := hbound w' (List.mem_cons_of_mem _ hw')
            omega, List.forall_mem_map.2 fun v _ ↦ by
            rw [Walk.extend, List.length_cons]
            omega⟩)
        refine ⟨answer, fun turns hlt ↦ ?_, ?_⟩
        · obtain ⟨turns, rfl⟩ := Nat.exists_eq_add_one.2 (Nat.zero_lt_of_lt hlt)
          rw [iterate, hturn]
          exact hanswer turns (Nat.lt_of_succ_lt_succ hlt)
        · rw [searchFrom_cons htarget]
          exact hmatch

end StandsFor

/-- Queueing initial vertices: each stands for the walk of which it is the only vertex. -/
theorem exists_foldlM_begin {s : Sweep} {us vs : List Nat} {vertices : IndexSet}
    (hvs : ∀ v ∈ vs, v < g.order) (hparent : s.parent = .replicate g.order none)
    (h : g.StandsFor s (us.map (⟨·, []⟩)) vertices) :
    ∃ s', vs.foldlM Sweep.begin s = .ok s' ∧
      g.StandsFor s' ((us ++ vs).map (⟨·, []⟩)) (vertices.insertAll vs) := by
  induction vs generalizing s us vertices with
  | nil => exact ⟨s, rfl, by simpa [IndexSet.insertAll] using h⟩
  | cons v vs ih =>
    obtain ⟨hv, hvs⟩ := List.forall_mem_cons.1 hvs
    have hnext : g.StandsFor ⟨s.parent, s.seen.setIfInBounds v true, s.queue ++ [v]⟩
        ((us ++ [v]).map (⟨·, []⟩)) (vertices.insert v) := by
      refine ⟨?_, h.getElem?_mark hv, h.parents, List.forall_mem_map.2 fun u hu ↦ ?_,
        List.forall_mem_map.2 fun u hu ↦ List.forall_mem_singleton.2 ?_⟩
      · rw [h.queue]
        simp
      · -- no entry has been made yet
        have hlt : u < g.order := by
          rcases List.mem_append.1 hu with hu | hu
          · have hlead := h.leads ⟨u, []⟩ (List.mem_map.2 ⟨u, hu, rfl⟩)
            exact h.parents ▸ (Array.getElem?_eq_some_iff.1 hlead).1
          · exact List.mem_singleton.1 hu ▸ hv
        show s.parent[u]? = some none
        rw [hparent, Array.getElem?_replicate, if_pos hlt]
      · rcases List.mem_append.1 hu with hu | hu
        · have hmem := h.known ⟨u, []⟩ (List.mem_map.2 ⟨u, hu, rfl⟩) u List.mem_cons_self
          exact IndexSet.mem_insert.2 (.inr hmem)
        · exact IndexSet.mem_insert.2 (.inl (List.mem_singleton.1 hu))
    obtain ⟨s', hrun, hs'⟩ :=
      ih (s := ⟨s.parent, s.seen.setIfInBounds v true, s.queue ++ [v]⟩) hvs hparent hnext
    refine ⟨s', ?_, ?_⟩
    · rw [List.foldlM_cons, Sweep.begin, if_pos (h.lt_size hv)]
      exact hrun
    · rw [List.append_cons]
      exact hs'

/-- **The search with arrays comes to the shortest path**: no index is out of range, and one turn
more than there are vertices suffices for either loop. -/
theorem InRange.sweep_eq (hg : g.InRange) {turns : Nat} (h : g.order < turns) :
    g.sweep turns = .ok (some g.shortestPath) := by
  have hempty : g.StandsFor ⟨.replicate g.order none, .replicate g.order false, []⟩
      (([] : List Nat).map (⟨·, []⟩)) .empty := by
    refine ⟨rfl, fun v ↦ ?_, Array.size_replicate, List.forall_mem_nil _, List.forall_mem_nil _⟩
    rw [Array.getElem?_replicate]
    rfl
  obtain ⟨s, hbegin, hs⟩ := exists_foldlM_begin hg.init rfl hempty
  have hall : IndexSet.empty.insertAll g.init.toList = g.init := by
    ext v
    exact IndexSet.mem_insertAll.trans (or_iff_right List.not_mem_nil)
  rw [List.nil_append, hall] at hs
  obtain ⟨answer, hanswer, hmatch⟩ := hs.iterate_sweepTurn hg g.order g.order
    (by rw [List.length_map, Nat.add_comm, IndexSet.card_gaps_add_length hg.init])
    (List.forall_mem_map.2 fun v _ ↦ by simp)
  rw [sweep, hbegin]
  simp only [bind, Except.bind, hanswer turns h]
  rw [shortestPath]
  cases hfound : g.searchFrom g.order (g.init.toList.map (⟨·, []⟩)) g.init with
  | none =>
    rw [hfound] at hmatch
    rw [show answer = none from hmatch]
    rfl
  | some w =>
    rw [hfound] at hmatch
    obtain ⟨hlen, parent, rfl, hleads⟩ := hmatch
    simp only [hleads.iterate_backTurn [w.last] (Nat.lt_of_le_of_lt hlen h)]
    rfl

end AbstractionRefinement.Digraph
