import AbstractionRefinement.Proofs.Attained

/-!
# What a finished exploration leaves

An exploration that comes to a verdict leaves a graph with all its roots that is complete or has
enough counterexamples (`Explorer.Concludes`). Such a graph is at rest: no node waits that would be
looked at, so another exploration returns at once, with the same verdict and without a change,
whatever the precision, the time granted and the readings of the meter are
(`Explorer.Concludes.explore_eq`). Budgets do not come into it, since they are looked at only when a
node is taken. `Explorer.at_rest_of_explore` puts both together.

The statement is about one more exploration of the session as it was left, and about everything that
may differ between the two: the second may be under another precision, with other limits and another
meter. It is not about a graph that was changed in between. If a refinement has pruned, nodes wait
again and the second exploration takes them up.

Only a time limit whose deadline cannot be told is excepted, because it is found before the graph is
looked at, and at least one turn has to be granted. The proof opens the loop once: with an empty
frontier, or with enough counterexamples counted at the beginning, its first turn is its last.
-/

namespace AbstractionRefinement

open Work Session

variable {S A P : Type}

namespace Graph

variable {g : Graph S A}

/-- No target is uncovered in a safe graph, and the other way round. -/
theorem isSafe_iff : g.isSafe = true ↔
    ∀ {i n}, g.node? i = some n → n.target = true → n.isCovered = true := by
  rw [isSafe, targetNodes, List.all_eq_true]
  constructor
  · intro h i n hn htarget
    exact h n (List.mem_filter.2 ⟨mem_nodes.2 ⟨i, hn⟩, htarget⟩)
  · intro h n hn
    obtain ⟨hmem, htarget⟩ := List.mem_filter.1 hn
    obtain ⟨i, hi⟩ := mem_nodes.1 hmem
    exact h hi htarget

theorem incompleteNodes_of_isComplete (h : g.isComplete = true) : g.incompleteNodes = [] := by
  refine List.filter_eq_nil_iff.2 fun n hn hinc ↦ ?_
  have hcomplete := List.all_eq_true.1 h n hn
  rw [hinc] at hcomplete
  cases hcomplete

end Graph

namespace Explorer

variable [DecidableEq S] [DecidableEq A] [Described S] {x : Explorer S A P} {prec : P}
  {deadline : Option Nat} {turns : Nat} {v : Verdict} {s t : Session S A}

omit [DecidableEq S] [DecidableEq A] [Described S] in
theorem Concludes.eq_safe_iff {g : Graph S A} (h : Concludes x v g) :
    v = .safe ↔ ∀ {i n}, g.node? i = some n → n.target = true → n.isCovered = true := by
  rw [h.verdict_eq, verdictOf, ← Graph.isSafe_iff]
  split
  · rename_i hsafe
    exact iff_of_true rfl hsafe
  · rename_i hsafe
    exact iff_of_false (fun heq ↦ by cases heq) hsafe

/-- With nothing to take, the loop is done after its first turn. -/
theorem iterate_turn_of_isComplete (h : s.graph.isComplete = true) (hturns : 0 < turns)
    {found : Nat} : iterate (x.turn deadline prec) turns
      { frontier := x.initialFrontier s.graph, found } s = (.ok (some ()), s) := by
  obtain ⟨k, rfl⟩ := Nat.exists_eq_add_one.2 hturns
  have hpop : (x.initialFrontier s.graph).pop? = none := by
    rw [initialFrontier, Graph.incompleteNodes_of_isComplete h]
    rfl
  have hturn : x.turn deadline prec { frontier := x.initialFrontier s.graph, found } s =
      (.ok (.done ()), s) := by
    rw [turn, hpop]
    rfl
  rw [iterate, bind_of_ok (congrArg Prod.fst hturn), hturn]
  rfl

/-- The turns change nothing in a graph at rest. -/
theorem Concludes.pursue_eq (h : Concludes x v s.graph) (hturns : 0 < turns) :
    x.pursue turns deadline prec s = (.ok (some v), s) := by
  rw [h.verdict_eq, pursue, currentGraph_bind]
  dsimp only
  split
  · rfl
  · rename_i hstop
    rw [Graph.length_counterexamples] at hstop
    rw [bind_of_ok (congrArg Prod.fst (iterate_turn_of_isComplete
      (h.complete.resolve_right hstop) hturns)), iterate_turn_of_isComplete
      (h.complete.resolve_right hstop) hturns]
    rfl

/-- **A graph at rest stays as it is**: an exploration returns the same verdict at once. -/
theorem Concludes.explore_eq (h : Concludes x v s.graph)
    (hlimit : x.meter.checkLimit x.options.timeLimit = .ok ()) (hturns : 0 < turns) :
    x.explore turns deadline prec s = (.ok (some v), s) := by
  rw [Explorer.explore_eq, demand_bind (orFault_eq_ok.2 hlimit), currentGraph_bind,
    if_pos h.initialized]
  exact h.pursue_eq hturns

theorem checkLimit_of_explore {r : Option Verdict}
    (h : x.explore turns deadline prec s = (.ok r, t)) :
    x.meter.checkLimit x.options.timeLimit = .ok () := by
  cases hlimit : x.meter.checkLimit x.options.timeLimit with
  | ok _ => rfl
  | error f =>
    have hfault : (demand (orFault (x.meter.checkLimit x.options.timeLimit)) s).1 =
        .error (.fault f) := by rw [hlimit]; rfl
    rw [Explorer.explore_eq, bind_of_error hfault] at h
    cases congrArg Prod.fst h

/-- **Postcondition of an exploration, and its idempotence.** An exploration that comes to a verdict
leaves an initialized graph that is complete or has enough counterexamples; the verdict is safe just
if no target is uncovered, and then the graph is complete. The clock could tell its deadline, and
whenever it can, exploring again gives the same verdict and changes nothing, under any precision and
whatever the readings of the meter, the seconds and the turns granted. -/
theorem at_rest_of_explore (hs : s.graph.WellFormed)
    (h : x.explore turns deadline prec s = (.ok (some v), t)) :
    t.graph.initialized = true ∧
      (t.graph.isComplete = true ∨
        x.options.stop.reached t.graph.counterexamples.length = true) ∧
      (v = .safe ↔ ∀ {i n}, t.graph.node? i = some n → n.target = true → n.isCovered = true) ∧
      (v = .safe → t.graph.isComplete = true) ∧
      x.meter.checkLimit x.options.timeLimit = .ok () ∧
      ∀ meter : Meter, meter.checkLimit x.options.timeLimit = .ok () →
        ∀ (turns' : Nat) (deadline' : Option Nat) (prec' : P), 0 < turns' →
          { x with meter }.explore turns' deadline' prec' t = (.ok (some v), t) := by
  have hdoes : Does (x.Grows prec) (x.Stops prec deadline) (x.explore turns deadline prec) s
      fun r t ↦ ∀ v, r = some v → Concludes x v t.graph := does_explore hs
  have hconc := hdoes.value_of_eq h v rfl
  refine ⟨hconc.initialized, ?_, hconc.eq_safe_iff, ?_, checkLimit_of_explore h,
    fun meter hlimit turns' deadline' prec' hturns ↦ ?_⟩
  · rw [Graph.length_counterexamples]
    exact hconc.complete
  · rintro rfl
    exact hconc.safe.1
  · have hconc' : Concludes { x with meter } v t.graph :=
      ⟨hconc.verdict_eq, hconc.initialized, hconc.complete⟩
    exact hconc'.explore_eq hlimit hturns

end Explorer

/-- The ladder with rungs that do not stand for each other; one counterexample is enough. -/
def stairs : Explorer Rung Unit Unit where
  model := { ladder.model with leq := fun r q ↦ r = q }

/-- Exploring the stairs stops at the highest of four rungs, with the other three still incomplete,
and going on changes nothing. -/
theorem at_rest_stairs : ∃ t, stairs.explore 9 none () {} = (.ok (some .suspect), t) ∧
    t.graph.incompleteNodes.map Node.id = [1, 2, 3] ∧ t.graph.counterexamples = [4] ∧
    ∀ turns deadline, 0 < turns →
      stairs.explore turns deadline () t = (.ok (some .suspect), t) := by
  have hverdict : (stairs.explore 9 none () {}).1 = .ok (some .suspect) := by decide +kernel
  have hids : (stairs.explore 9 none () {}).2.graph.incompleteNodes.map Node.id = [1, 2, 3] := by
    decide +kernel
  have hcex : (stairs.explore 9 none () {}).2.graph.counterexamples = [4] := by decide +kernel
  generalize hexplore : stairs.explore 9 none () {} = r at hverdict hids hcex
  obtain ⟨_, t⟩ := r
  obtain rfl := hverdict
  obtain ⟨-, -, -, -, hlimit, hagain⟩ :=
    Explorer.at_rest_of_explore Graph.wellFormed_empty hexplore
  exact ⟨t, rfl, hids, hcex, fun turns deadline hturns ↦ hagain {} hlimit turns deadline () hturns⟩

end AbstractionRefinement
