import AbstractionRefinement.Proofs.Exploration.Turns
import Mathlib.Data.Finset.Card
import Mathlib.Order.WellFounded

/-!
# Explorations end

If every state that an exploration makes lies in a finite set on which the order is reflexive, the
exploration ends. Between two turns the frontier may grow, so what gets smaller is the work left
(`Graph.outstanding`): the older nodes that are still incomplete, and the states for which no node
of this exploration has been expanded yet. A node of this exploration is expanded only if no node
covers it, and an expanded node of the same state would (`Model.MadeSince.mem_unexplored`); so each
expansion makes the work left smaller, and all that other turns do is to take a node from the
frontier.

The measure counts what is outstanding since the exploration began: nodes from before that are still
incomplete, and states in which no new node has been expanded. A turn that expands a node lowers one
of the two. If the node is an old one, it is complete from then on. If it is new, no other new node
of its state was expanded before it, since that node could have covered it: it is not covered, it
has the same key, and the order is reflexive.

Turns that cover a node do not lower the measure, but they shorten the frontier, and the measure is
compared first. Whether budgets end the exploration earlier does not matter here.
-/

namespace AbstractionRefinement

open Work Session

variable {S A P : Type}

/-! ### The work left -/

namespace Graph

variable [DecidableEq S]

/-- The states of `U` for which no node made from position `since` on has been expanded. -/
def unexplored (g : Graph S A) (since : NodeId) (U : Finset S) : Finset S :=
  {st ∈ U | ¬∃ n ∈ g.nodes, since ≤ n.id ∧ n.expanded = true ∧ n.state = st}

/-- The incomplete nodes made before position `since`. -/
def unfinished (g : Graph S A) (since : NodeId) : Finset NodeId :=
  {i ∈ Finset.range since | (g.node? i).any Node.isIncomplete = true}

/-- The work left for an exploration that began at position `since`. -/
def outstanding (g : Graph S A) (since : NodeId) (U : Finset S) : Nat :=
  (g.unfinished since).card + (g.unexplored since U).card

variable {g g' : Graph S A} {since : NodeId} {U : Finset S} {st : S} {i : NodeId}

/-- A state is unexplored if no node made since was expanded in it. -/
theorem mem_unexplored (hg : g.Indexed) : st ∈ g.unexplored since U ↔
    st ∈ U ∧ ∀ {i n}, since ≤ i → g.node? i = some n → n.expanded = true → n.state ≠ st := by
  rw [unexplored, Finset.mem_filter, not_exists]
  refine and_congr_right fun _ ↦ ⟨fun h i n hi hn hexp hst ↦ ?_, ?_⟩
  · exact h n ⟨mem_nodes.2 ⟨i, hn⟩, (hg.id_eq hn).symm ▸ hi, hexp, hst⟩
  · rintro h n ⟨hmem, hi, hexp, hst⟩
    obtain ⟨i, hn⟩ := mem_nodes.1 hmem
    exact h (hg.id_eq hn ▸ hi) hn hexp hst

omit [DecidableEq S] in
/-- A node is unfinished if it was made before and is incomplete. -/
theorem mem_unfinished : i ∈ g.unfinished since ↔
    i < since ∧ ∃ n, g.node? i = some n ∧ n.isIncomplete = true := by
  rw [unfinished, Finset.mem_filter, Finset.mem_range, Option.any_eq_true]

/-- While a graph grows, no state becomes unexplored. -/
theorem unexplored_subset (hg : g.Indexed) (hg' : g'.Indexed) (h : g.Extends g') :
    g'.unexplored since U ⊆ g.unexplored since U := by
  intro st hst
  rw [mem_unexplored hg'] at hst
  refine (mem_unexplored hg).2 ⟨hst.1, fun hi hn hexp hstate ↦ ?_⟩
  obtain ⟨m, hm, hnm⟩ := h.node? hn
  exact hst.2 hi hm (hnm.expanded hexp) (hnm.state.trans hstate)

omit [DecidableEq S] in
/-- While a graph grows, no earlier node becomes incomplete. -/
theorem unfinished_subset (h : g.Extends g') (hsince : since ≤ g.created) :
    g'.unfinished since ⊆ g.unfinished since := by
  intro i hi
  obtain ⟨hlt, m, hm, hinc⟩ := mem_unfinished.1 hi
  obtain ⟨n, hn, hnm⟩ := h.exists_node? (Nat.lt_of_lt_of_le hlt hsince) hm
  refine mem_unfinished.2 ⟨hlt, n, hn, ?_⟩
  by_contra hne
  cases hinc.symm.trans (hnm.isIncomplete_eq_false (eq_false_of_ne_true hne))

/-- Growth leaves no more work than there was. -/
theorem outstanding_le (hg : g.Indexed) (hg' : g'.Indexed) (h : g.Extends g')
    (hsince : since ≤ g.created) : g'.outstanding since U ≤ g.outstanding since U :=
  Nat.add_le_add (Finset.card_le_card (unfinished_subset h hsince))
    (Finset.card_le_card (unexplored_subset hg hg' h))

/-- **An expansion leaves less work**, of an old node, or of a new one whose state is unexplored. -/
theorem outstanding_lt (hg : g.Indexed) (hg' : g'.Indexed) (h : g.Extends g')
    (hsince : since ≤ g.created) {n m : Node S A} (hn : g.node? i = some n)
    (hinc : n.isIncomplete = true) (hm : g'.node? i = some m) (hexp : m.expanded = true)
    (hnew : since ≤ i → n.state ∈ g.unexplored since U) :
    g'.outstanding since U < g.outstanding since U := by
  have hold := unfinished_subset h hsince
  have hstates : g'.unexplored since U ⊆ g.unexplored since U := unexplored_subset hg hg' h
  rcases Nat.lt_or_ge i since with hi | hi
  · -- the node is no longer unfinished
    refine Nat.add_lt_add_of_lt_of_le (Finset.card_lt_card ?_) (Finset.card_le_card hstates)
    have hmem := mem_unfinished.2 ⟨hi, n, hn, hinc⟩
    refine (Finset.ssubset_iff_of_subset hold).2 ⟨i, hmem, fun hmem ↦ ?_⟩
    obtain ⟨-, k, hk, hkinc⟩ := mem_unfinished.1 hmem
    obtain rfl := Option.some.inj (hm.symm.trans hk)
    cases hexp.symm.trans (Node.isIncomplete_iff.1 hkinc).1
  · -- its state is no longer unexplored
    refine Nat.add_lt_add_of_le_of_lt (Finset.card_le_card hold) (Finset.card_lt_card ?_)
    refine (Finset.ssubset_iff_of_subset hstates).2 ⟨n.state, hnew hi, fun hmem ↦ ?_⟩
    obtain ⟨k, hk, hnk⟩ := h.node? hn
    obtain rfl := Option.some.inj (hm.symm.trans hk)
    exact ((mem_unexplored hg').1 hmem).2 hi hm hexp hnk.state

end Graph

/-! ### What an exploration makes -/

/-- Every state that an exploration under the precision makes lies in `U`, where the order is
reflexive. -/
structure Model.Confined (M : Model S A P) (prec : P) (U : Finset S) : Prop where
  /-- Initial states lie in `U`. -/
  initial : ∀ {states}, M.initial prec = .ok states → ∀ st ∈ states, st ∈ U
  /-- Successors lie in `U`. -/
  successors : ∀ {st a states}, M.successors st a prec = .ok states → ∀ u ∈ states, u ∈ U
  /-- Merging does not leave `U`. -/
  merge : ∀ {st st' u}, M.merge st st' = some u → st ∈ U → st' ∈ U → u ∈ U
  /-- The order is reflexive on `U`. -/
  reflexive : ∀ st ∈ U, M.leq st st = true

/-- What holds of a node that an exploration has made in `U`. -/
structure Node.Made (M : Model S A P) (U : Finset S) (n : Node S A) : Prop where
  /-- Its state lies in `U`. -/
  mem : n.state ∈ U
  /-- The key is that of the state. -/
  key_eq : n.key = M.key n.state
  /-- It may cover. -/
  canCover : n.canCover = true
  /-- It is not covered once it is expanded. -/
  single : n.expanded = true → n.coveredBy = none

namespace Node.Made

variable {M : Model S A P} {U : Finset S} {n : Node S A} {st : S} {i : NodeId}

theorem freshNode {incoming : Option (Incoming A)} {target : Bool} {depth : Nat} (h : st ∈ U) :
    (Graph.freshNode i st (M.key st) incoming target depth).Made M U :=
  ⟨h, rfl, rfl, fun _ ↦ rfl⟩

/-- What is true of a node that was made goes on being true as the graph grows. -/
theorem of_extends {m : Node S A} (h : n.Made M U) (hnm : n.Extends m)
    (hsingle : m.expanded = true → m.coveredBy = none) : m.Made M U where
  mem := hnm.state ▸ h.mem
  key_eq := by rw [hnm.key, hnm.state, h.key_eq]
  canCover := hnm.canCover.trans h.canCover
  single := hsingle

/-- A node of the same state that has been expanded may cover. -/
theorem mayCover (h : n.Made M U) (hrefl : M.leq n.state n.state = true)
    (hexp : n.expanded = true) (hi : n.id ≠ i) : Graph.mayCover M.leq i n.state n = true := by
  simp [Graph.mayCover, Node.isCovered, h.canCover, h.single hexp, hrefl, hi]

end Node.Made

/-- Every node from position `since` on was made by an exploration in `U`. -/
def Model.MadeSince (M : Model S A P) (U : Finset S) (since : NodeId) (g : Graph S A) : Prop :=
  ∀ ⦃i n⦄, since ≤ i → g.node? i = some n → n.Made M U

namespace Model.MadeSince

variable {M : Model S A P} {U : Finset S} {since id : NodeId} {g : Graph S A}

theorem created : M.MadeSince U g.created g := by
  intro i n hi hn
  exact absurd (Graph.lt_created hn) (Nat.not_lt.2 hi)

/-- **A new node that no node covers has an unexplored state**: an expanded node of the same state
would cover it. -/
theorem mem_unexplored [DecidableEq S] (h : M.MadeSince U since g) (hg : g.WellFormed)
    (hrefl : ∀ st ∈ U, M.leq st st = true) {n : Node S A} (hn : g.node? id = some n)
    (hinc : n.isIncomplete = true) (hid : since ≤ id)
    (hfind : g.findCoverer M.leq id = .ok none) : n.state ∈ g.unexplored since U := by
  have hmade := h hid hn
  refine (Graph.mem_unexplored hg.indexed).2 ⟨hmade.mem, fun {i m} hi hm hexp hstate ↦ ?_⟩
  have hmade' := h hi hm
  have hne : m.id ≠ id := by
    rw [hg.indexed.id_eq hm]
    rintro rfl
    obtain rfl := Option.some.inj (hn.symm.trans hm)
    cases (Node.isIncomplete_iff.1 hinc).1.symm.trans hexp
  have hkey : m.key = n.key := by rw [hmade.key_eq, hmade'.key_eq, hstate]
  have hcovers := hmade'.mayCover (hrefl _ hmade'.mem) hexp hne
  rw [hstate] at hcovers
  cases (hg.not_mayCover_of_findCoverer hn hfind hm hkey).symm.trans hcovers

variable [DecidableEq S] [DecidableEq A] [Described S] {x : Explorer S A P} {prec : P}
  {s t : Session S A}

/-- One step makes nodes of states among those that can be reached. -/
theorem grows (h : x.model.MadeSince U since s.graph) (hU : x.model.Confined prec U)
    (hstep : x.Grows prec s t) : x.model.MadeSince U since t.graph := by
  intro i m hi hm
  cases hstep.leaves hm with
  | root _ hinit hst hm => exact hm ▸ .freshNode (hU.initial hinit _ hst)
  | child _ _ hsucc hkept hm =>
    exact hm ▸ .freshNode (Explorer.forall_of_kept hU.merge hsucc hkept hU.successors)
  | kept hn hnm he hc =>
    exact (h hi hn).of_extends hnm fun hexp ↦ hc.trans ((h hi hn).single (he ▸ hexp))
  | expanded hn _ _ _ hnm hc => exact (h hi hn).of_extends hnm fun _ ↦ hc
  | covered hn _ hnm he => exact (h hi hn).of_extends hnm fun hexp ↦ by cases he.symm.trans hexp

/-- **An exploration makes nodes of states among those that can be reached.** -/
theorem of_grows (h : x.model.MadeSince U since s.graph) (hU : x.model.Confined prec U)
    (hst : Relation.ReflTransGen (x.Grows prec) s t) : x.model.MadeSince U since t.graph := by
  induction hst with
  | refl => exact h
  | tail _ hstep ih => exact ih.grows hU hstep

end Model.MadeSince

/-! ### The loop -/

namespace Explorer

variable [DecidableEq S] {x : Explorer S A P} {prec : P} {deadline : Option Nat} {U : Finset S}
  {since : NodeId} {s t : Session S A} {p p' : Pursuit}

/-- **A turn leaves less work, or as much and a shorter frontier.** -/
theorem Advances.lex (hadv : Advances x p s p' t) (hs : s.graph.WellFormed)
    (ht : t.graph.WellFormed) (hst : s.graph.Extends t.graph)
    (hmade : x.model.MadeSince U since s.graph) (hrefl : ∀ st ∈ U, x.model.leq st st = true)
    (hsince : since ≤ s.graph.created) :
    Prod.Lex (· < ·) (· < ·) (t.graph.outstanding since U, p'.frontier.nodes.length)
      (s.graph.outstanding since U, p.frontier.nodes.length) := by
  have hle := Graph.outstanding_le (U := U) hs.indexed ht.indexed hst hsince
  -- taking a node shortens the frontier
  have htook : ∀ {id f}, p.frontier.pop? = some (id, f) →
      (p.took f).frontier.nodes.length < p.frontier.nodes.length := by
    intro id f hpop
    rw [Frontier.nodes_of_pop? hpop]
    exact Nat.lt_succ_self _
  cases hadv with
  | skipped hpop => exact Prod.lex_def.2 (.inr ⟨rfl, htook hpop⟩)
  | covered hpop =>
    exact Prod.lex_def.2 ((Nat.lt_or_eq_of_le hle).imp_right fun h ↦ ⟨h, htook hpop⟩)
  | expanded _ hn hinc hfind hexp hut =>
    obtain ⟨m, hm, hmexp⟩ := hexp.self
    obtain ⟨k, hk, hmk⟩ := hut.node? hm
    exact Prod.lex_def.2 (.inl (Graph.outstanding_lt hs.indexed ht.indexed hst hsince hn hinc hk
      (hmk.expanded hmexp) fun hid ↦ hmade.mem_unexplored hs hrefl hn hinc hid hfind))

variable [DecidableEq A] [Described S]

/-- **The loop ends**: every turn that does not end it leaves less work outstanding. -/
theorem ends_iterate_turn (hU : x.model.Confined prec U) (hp : Pursues p s.graph)
    (hmade : x.model.MadeSince U since s.graph) (hsince : since ≤ s.graph.created) :
    Ends (fun turns ↦ iterate (x.turn deadline prec) turns p) s := by
  refine .iterate (I := fun p s ↦ Pursues p s.graph ∧ x.model.MadeSince U since s.graph ∧
      since ≤ s.graph.created)
    (fun p s ↦ (s.graph.outstanding since U, p.frontier.nodes.length))
    (WellFounded.prod_lex Nat.lt_wfRel.wf Nat.lt_wfRel.wf) ?_ ⟨hp, hmade, hsince⟩
  rintro p s p' ⟨hp, hmade, hsince⟩ hagain
  have hturn : Does (x.Grows prec) (x.Stops prec deadline) (x.turn deadline prec p) s _ :=
    does_turn hp
  have hadv : Advances x p s p' (x.turn deadline prec p s).2 := (hturn.value _ hagain).1
  have hext := extends_of_grows hturn.change
  have hwf := wellFormed_of_grows hturn.change hp.wellFormed
  refine ⟨⟨hp.advances hadv hext hwf, hmade.of_grows hU hturn.change,
    Nat.le_trans hsince hext.created⟩, ?_⟩
  exact hadv.lex hp.wellFormed hwf hext hmade hU.reflexive hsince

/-- So does an exploration from the incomplete nodes of a graph. -/
theorem ends_pursue (hU : x.model.Confined prec U) (hs : s.graph.WellFormed)
    (hmade : x.model.MadeSince U since s.graph) (hsince : since ≤ s.graph.created) :
    Ends (fun turns ↦ x.pursue turns deadline prec) s := by
  refine .bind fun g hg ↦ ?_
  obtain rfl : s.graph = g := Except.ok.inj hg
  dsimp only
  by_cases hstop : x.options.stop.reached s.graph.counterexamples.length = true
  · simp only [if_pos hstop]
    exact ⟨0, .ok (some (verdictOf s.graph)), s, (fun h ↦ by cases h), fun _ _ ↦ rfl⟩
  · simp only [if_neg hstop]
    refine (ends_iterate_turn hU (pursues_initial hs) hmade hsince).andThen fun u t h ↦ ?_
    cases h

/-- **Explorations over a finite domain end**, whatever the graph they begin with. -/
theorem ends_explore (hU : x.model.Confined prec U) (hs : s.graph.WellFormed) :
    Ends (fun turns ↦ x.explore turns deadline prec) s := by
  simp only [explore_eq]
  refine .bind fun _ _ ↦ .bind fun g hg ↦ ?_
  obtain rfl : s.graph = g := Except.ok.inj hg
  by_cases hinit : s.graph.initialized = true
  · simp only [if_pos hinit]
    exact ends_pursue hU hs .created (Nat.le_refl _)
  · simp only [if_neg hinit]
    refine .bind fun _ _ ↦ ?_
    have hdoes : Does (x.Grows prec) (x.Stops prec deadline) (x.addRoots prec) s _ :=
      does_addRoots hs
    have hroots := hdoes.change
    have hmade := Model.MadeSince.created.of_grows hU hroots
    exact ends_pursue hU (wellFormed_of_grows hroots hs) hmade (extends_of_grows hroots).created

end Explorer

/-! ### Explorations without limits -/

/-- Nothing limits an exploration. -/
structure ExplorationOptions.Unlimited (o : ExplorationOptions) : Prop where
  /-- Any number of nodes. -/
  maxNodes : o.maxNodes = 0
  /-- Any time. -/
  timeLimit : o.timeLimit = 0
  /-- Any memory. -/
  memoryLimit : o.memoryLimit = 0

/-- The domain answers whatever an exploration asks, and keeps its contracts. -/
structure Model.Answers (M : Model S A P) : Prop where
  /-- It tells initial states. -/
  initial : ∀ prec, ∃ states, M.initial prec = .ok states
  /-- It tells enabled actions. -/
  enabled : ∀ st, ∃ actions, M.enabled st = .ok actions
  /-- It tells successors. -/
  successors : ∀ st a prec, ∃ states, M.successors st a prec = .ok states
  /-- Its order is reflexive. -/
  reflexive : ∀ st, M.leq st st = true
  /-- A merged state is above both operands. -/
  merge : ∀ {st st' u}, M.merge st st' = some u → M.leq st u = true ∧ M.leq st' u = true

namespace Explorer

variable {x : Explorer S A P} {prec : P}

/-- Without limits, no budget is used up. -/
theorem checkBudgets_of_unlimited (ho : x.options.Unlimited) (turn : Nat) :
    x.checkBudgets none turn = .ok () := by
  have htime : x.checkTime none turn = .ok () := by
    simp [checkTime, granted, ho.timeLimit]
  have hmemory : x.checkMemory turn = .ok () := by
    rw [checkMemory]
    split
    · simp [ho.memoryLimit]
    · rfl
  rw [checkBudgets]
  split
  · rw [htime]
    exact hmemory
  · rfl

/-- **Without limits, nothing stops an exploration of a domain that answers.** -/
theorem not_stops [DecidableEq S] [DecidableEq A] [Described S] (ho : x.options.Unlimited)
    (hM : x.model.Answers) {e : Abort} {s : Session S A} : ¬x.Stops prec none e s := by
  intro h
  cases h with
  | limit h =>
    rw [ho.timeLimit, Clock.checkLimit_zero] at h
    cases h
  | initial h =>
    obtain ⟨states, hok⟩ := hM.initial prec
    cases hok.symm.trans h
  | reflexive h => simp [checkReflexive, hM.reflexive] at h
  | merged hmerge h =>
    obtain ⟨hk, hst⟩ := hM.merge hmerge
    simp [checkMerged, hk, hst] at h
  | room h => simp [checkRoom, ho.maxNodes] at h
  | enabled _ h =>
    obtain ⟨actions, hok⟩ := hM.enabled _
    cases hok.symm.trans h
  | successors _ _ _ h =>
    obtain ⟨states, hok⟩ := hM.successors _ _ prec
    cases hok.symm.trans h
  | budget h => cases (checkBudgets_of_unlimited ho _).symm.trans h

/-- **An exploration of a finite domain comes to a verdict**, granted enough turns. -/
theorem exists_verdict [DecidableEq S] [DecidableEq A] [Described S] {U : Finset S}
    {s : Session S A} (ho : x.options.Unlimited) (hM : x.model.Answers)
    (hU : x.model.Confined prec U) (hs : s.graph.WellFormed) :
    ∃ N v t, ∀ turns, N ≤ turns → x.explore turns none prec s = (.ok (some v), t) := by
  have hends : Ends (fun turns ↦ x.explore turns none prec) s := ends_explore hU hs
  obtain ⟨N, r, t, hr, hN⟩ := hends
  rcases r with e | ⟨_ | v⟩
  · have hstop : x.Stops prec none e t := (does_explore hs).stop_of_eq (hN N (Nat.le_refl N))
    exact absurd hstop (not_stops ho hM)
  · exact absurd rfl hr
  · exact ⟨N, v, t, hN⟩

end Explorer

end AbstractionRefinement
