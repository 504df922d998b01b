import AbstractionRefinement.Proofs.Discipline
import AbstractionRefinement.Proofs.Exploration.Turns

/-!
# Soundness of the safe verdict

A safe verdict speaks about the graph; this module carries it over to the transition system that the
graph abstracts. A domain over-approximates the system at a precision (`Model.Simulates`) if,
through a concretization `γ`, no initial state, no step and no target is lost. Then every graph that
explorations and refinements leave behind satisfies `Model.Sound`: what is expanded has a child for
every concrete step, and what counts as initialized has a root for every concrete initial state. A
complete graph without counterexamples is then an inductive invariant of the system: every reachable
state lies in a node that is expanded and no target.

Two points need care. Nodes of different precisions stand side by side, so a domain may be sound
only on the states that fit the precision at hand; the predicate `fit` records which these are. And
an operation that stops early leaves half of its work behind, so soundness is kept by each step and
not only by whole operations.
-/

namespace AbstractionRefinement

open Work

/-! ### Transition systems -/

/-- A labelled transition system with a set of states to stay out of. -/
structure System (C A : Type) where
  /-- The initial states. -/
  initial : C → Prop
  /-- The steps. -/
  step : C → A → C → Prop
  /-- The states that must not be reached. -/
  target : C → Prop

/-- What can be reached from an initial state. -/
inductive System.Reachable {C A : Type} (T : System C A) : C → Prop
  /-- Initial states are reachable. -/
  | initial {c : C} (h : T.initial c) : Reachable T c
  /-- Steps lead from reachable states to reachable states. -/
  | step {c c' : C} {a : A} (hc : Reachable T c) (h : T.step c a c') : Reachable T c'

variable {S A P C : Type}

/-! ### Over-approximation -/

/-- The analysis over-approximates the system at one precision, on the states that fit it. -/
structure Analysis.Simulates (D : Analysis S A P) (prec : P) (T : System C A) (γ : S → C → Prop)
    (fit : S → Prop) : Prop where
  /-- No initial state is lost. -/
  initial : ∀ {states c}, D.initial prec = .ok states → T.initial c → ∃ st ∈ states, γ st c
  /-- Abstract initial states fit. -/
  fit_initial : ∀ {states st}, D.initial prec = .ok states → st ∈ states → fit st
  /-- No step is lost. -/
  successors : ∀ {st a states c c'}, fit st → D.successors st a prec = .ok states → γ st c →
    T.step c a c' → ∃ st' ∈ states, γ st' c'
  /-- Abstract successors fit. -/
  fit_successors : ∀ {st a states st'}, fit st → D.successors st a prec = .ok states →
    st' ∈ states → fit st'
  /-- Bottom stands for nothing. -/
  bottom : ∀ {st c}, D.isBottom st = true → ¬γ st c
  /-- A larger state stands for more. -/
  leq : ∀ {st st' c}, D.leq st st' = true → γ st c → γ st' c

/-- The domain over-approximates the system at one precision, on the states that fit it. -/
structure Model.Simulates (M : Model S A P) (prec : P) (T : System C A) (γ : S → C → Prop)
    (fit : S → Prop) : Prop extends M.toAnalysis.Simulates prec T γ fit where
  /-- What can happen is enabled. -/
  enabled : ∀ {st actions c a c'}, fit st → M.enabled st = .ok actions → γ st c →
    T.step c a c' → a ∈ actions
  /-- A merged state stands for what either operand stands for. -/
  merge : ∀ {st st' u c}, M.merge st st' = some u → γ st c ∨ γ st' c → γ u c
  /-- Merged states fit. -/
  fit_merge : ∀ {st st' u}, M.merge st st' = some u → fit st → fit st' → fit u
  /-- No target is lost. -/
  target : ∀ {st c}, γ st c → T.target c → M.isTarget st = true

/-- The domain over-approximates the system at every precision, on all states. -/
structure Model.Approximates (M : Model S A P) (T : System C A) (γ : S → C → Prop) : Prop where
  /-- No initial state is lost. -/
  initial : ∀ {prec states c}, M.initial prec = .ok states → T.initial c → ∃ st ∈ states, γ st c
  /-- What can happen is enabled. -/
  enabled : ∀ {st actions c a c'}, M.enabled st = .ok actions → γ st c → T.step c a c' →
    a ∈ actions
  /-- No step is lost. -/
  successors : ∀ {st a prec states c c'}, M.successors st a prec = .ok states → γ st c →
    T.step c a c' → ∃ st' ∈ states, γ st' c'
  /-- Bottom stands for nothing. -/
  bottom : ∀ {st c}, M.isBottom st = true → ¬γ st c
  /-- A larger state stands for more. -/
  leq : ∀ {st st' c}, M.leq st st' = true → γ st c → γ st' c
  /-- A merged state stands for what either operand stands for. -/
  merge : ∀ {st st' u c}, M.merge st st' = some u → γ st c ∨ γ st' c → γ u c
  /-- No target is lost. -/
  target : ∀ {st c}, γ st c → T.target c → M.isTarget st = true

theorem Model.Approximates.simulates {M : Model S A P} {T : System C A} {γ : S → C → Prop}
    (h : M.Approximates T γ) (prec : P) : M.Simulates prec T γ fun _ ↦ True where
  initial := h.initial
  fit_initial _ _ := trivial
  enabled _ := h.enabled
  successors _ := h.successors
  fit_successors _ _ _ := trivial
  bottom := h.bottom
  leq := h.leq
  merge := h.merge
  fit_merge _ _ _ := trivial
  target := h.target

/-! ### Sound graphs -/

/-- The graph loses nothing of the system where it claims to be finished. -/
structure Model.Sound (M : Model S A P) (T : System C A) (γ : S → C → Prop) (fit : S → Prop)
    (g : Graph S A) : Prop where
  /-- The discipline of covering holds. -/
  disciplined : M.Disciplined g
  /-- Every state fits. -/
  fit : ∀ {i n}, g.node? i = some n → fit n.state
  /-- What is expanded has a child for every step. -/
  expanded : ∀ {i n c a c'}, g.node? i = some n → n.expanded = true → γ n.state c →
    T.step c a c' → ∃ j ∈ n.children, ∃ m, g.node? j = some m ∧ γ m.state c'
  /-- What counts as initialized has a root for every initial state. -/
  initialized : ∀ {c}, g.initialized = true → T.initial c →
    ∃ r ∈ g.roots, ∃ m, g.node? r = some m ∧ γ m.state c

namespace Model.Sound

variable {M : Model S A P} {T : System C A} {γ : S → C → Prop} {fit fit' : S → Prop}
  {g g' : Graph S A}

theorem empty : M.Sound T γ fit (.empty : Graph S A) where
  disciplined := .empty
  fit h := by simp at h
  expanded h := by simp at h
  initialized h := by cases h

/-- A graph stays sound if less can happen in the system and more states fit. -/
theorem mono {T' : System C A} (hg : M.Sound T γ fit g) (hinit : ∀ {c}, T'.initial c → T.initial c)
    (hstep : ∀ {c a c'}, T'.step c a c' → T.step c a c') (hfit : ∀ {st}, fit st → fit' st) :
    M.Sound T' γ fit' g where
  disciplined := hg.disciplined
  fit hn := hfit (hg.fit hn)
  expanded hn hexp hγ h := hg.expanded hn hexp hγ (hstep h)
  initialized hi hc := hg.initialized hi (hinit hc)

/-- **Every reachable state lies in an expanded node that is no target**, once the graph is complete
and has no counterexample. -/
theorem reachable (hg : M.Sound T γ fit g)
    (hleq : ∀ {st st' c}, M.leq st st' = true → γ st c → γ st' c)
    (hcomplete : g.isComplete = true) (hsafe : g.isSafe = true)
    (hinit : g.initialized = true) {c : C} (hc : T.Reachable c) :
    ∃ i n, g.node? i = some n ∧ n.expanded = true ∧ n.target = false ∧ γ n.state c := by
  -- a node that holds `c` is covered by one that holds it too and is settled
  have settle : ∀ {i n c}, g.node? i = some n → γ n.state c →
      ∃ i n, g.node? i = some n ∧ n.expanded = true ∧ n.target = false ∧ γ n.state c := by
    intro i n c hn hγ
    obtain ⟨j, m, hm, hmc, hnm⟩ := (hg.disciplined.grounded hn).exists_uncovered
      (fun st st' ↦ ∀ c, γ st c → γ st' c)
      (fun hn hj hm c ↦ hleq (hg.disciplined.leq hn hj hm).1)
      (fun _ _ h ↦ h) (fun h h' c hc ↦ h' c (h c hc)) hn
    have htarget : m.target = false := by
      refine eq_false_of_ne_true fun ht ↦ ?_
      have hcov := List.all_eq_true.1 hsafe m (List.mem_filter.2 ⟨Graph.mem_nodes.2 ⟨j, hm⟩, ht⟩)
      rw [Node.isCovered, hmc] at hcov
      cases hcov
    have hexp : m.expanded = true := by
      by_contra hne
      have hinc := Node.isIncomplete_iff.2 ⟨eq_false_of_ne_true hne, hmc, htarget⟩
      cases hinc.symm.trans (Graph.isComplete_iff.1 hcomplete hm)
    exact ⟨j, m, hm, hexp, htarget, hnm c hγ⟩
  induction hc with
  | initial h =>
    obtain ⟨r, -, m, hm, hγ⟩ := hg.initialized hinit h
    exact settle hm hγ
  | step _ h ih =>
    obtain ⟨i, n, hn, hexp, -, hγ⟩ := ih
    obtain ⟨j, -, m, hm, hγ'⟩ := hg.expanded hn hexp hγ h
    exact settle hm hγ'

/-! ### What keeps a graph sound -/

/-- **What only takes away keeps a graph sound**: it reopens every node that loses a child. -/
theorem shrinks (hg : M.Sound T γ fit g) (h : g.Shrinks g') (hwf : g'.WellFormed) :
    M.Sound T γ fit g' where
  disciplined := hg.disciplined.shrinks h hwf
  fit hm := by
    obtain ⟨n, hn, hnm⟩ := h.node? hm
    exact hnm.state ▸ hg.fit hn
  expanded {i m c a c'} hm hexp hγ hstep := by
    obtain ⟨n, hn, hnm⟩ := h.node? hm
    obtain ⟨hnexp, hch⟩ := hnm.expanded hexp
    obtain ⟨j, hj, k, hk, hkγ⟩ := hg.expanded hn hnexp (hnm.state ▸ hγ) hstep
    -- a child that is still listed is still there
    obtain ⟨l, hl, -⟩ := (hwf.forest.mem_children hm).1 (hch ▸ hj)
    obtain ⟨k', hk', hkl⟩ := h.node? hl
    obtain rfl := Option.some.inj (hk.symm.trans hk')
    exact ⟨j, hch ▸ hj, l, hl, hkl.state ▸ hkγ⟩
  initialized {c} hinit hc := by
    obtain ⟨hinit', hroots⟩ := h.initialized hinit
    obtain ⟨r, hr, k, hk, hkγ⟩ := hg.initialized hinit' hc
    obtain ⟨l, hl, -⟩ := hwf.indexed.mem_roots.1 (hroots ▸ hr)
    obtain ⟨k', hk', hkl⟩ := h.node? hl
    obtain rfl := Option.some.inj (hk.symm.trans hk')
    exact ⟨r, hroots ▸ hr, l, hl, hkl.state ▸ hkγ⟩

/-- **Refinement keeps a graph sound**: what is cut off is explored again. -/
theorem of_cuts {s t : Session S A} (hs : M.Sound T γ fit s.graph)
    (h : Relation.ReflTransGen Refuter.Cuts s t) : M.Sound T γ fit t.graph := by
  have hwf := hs.disciplined.wellFormed
  exact hs.shrinks (Refuter.shrinks_of_cuts h hwf) (Refuter.wellFormed_of_cuts h hwf)

/-- Growth keeps a graph sound if new states fit, and what it newly claims to be finished is. -/
theorem of_extends (hg : M.Sound T γ fit g) (hdisc : M.Disciplined g') (hext : g.Extends g')
    (hfit : ∀ {i m}, g.created ≤ i → g'.node? i = some m → fit m.state)
    (hexp : ∀ {i m}, g'.node? i = some m → m.expanded = true →
      (∃ n, g.node? i = some n ∧ n.expanded = true) ∨ ∀ {c a c'}, γ m.state c → T.step c a c' →
        ∃ j ∈ m.children, ∃ k, g'.node? j = some k ∧ γ k.state c')
    (hinit : g'.initialized = true → g.initialized = true ∨ ∀ {c}, T.initial c →
      ∃ r ∈ g'.roots, ∃ m, g'.node? r = some m ∧ γ m.state c) :
    M.Sound T γ fit g' where
  disciplined := hdisc
  fit {i m} hm := by
    by_cases hi : i < g.created
    · obtain ⟨n, hn, hnm⟩ := hext.exists_node? hi hm
      exact hnm.state ▸ hg.fit hn
    · exact hfit (Nat.not_lt.1 hi) hm
  expanded {i m c a c'} hm he hγ hstep := by
    rcases hexp hm he with ⟨n, hn, hne⟩ | h
    · obtain ⟨m', hm', hnm⟩ := hext.node? hn
      obtain rfl := Option.some.inj (hm.symm.trans hm')
      obtain ⟨j, hj, k, hk, hkγ⟩ := hg.expanded hn hne (hnm.state ▸ hγ) hstep
      obtain ⟨l, hl, hkl⟩ := hext.node? hk
      exact ⟨j, hnm.children.subset hj, l, hl, hkl.state ▸ hkγ⟩
    · exact h hγ hstep
  initialized {c} hi hc := by
    rcases hinit hi with hi | h
    · obtain ⟨r, hr, k, hk, hkγ⟩ := hg.initialized hi hc
      obtain ⟨l, hl, hkl⟩ := hext.node? hk
      exact ⟨r, hext.roots r hr, l, hl, hkl.state ▸ hkγ⟩
    · exact h hc

end Model.Sound

/-! ### Siblings -/

section Siblings

variable {x : Explorer S A P} {prec : P} {T : System C A} {γ : S → C → Prop} {fit : S → Prop}
  [DecidableEq S] [Described S] {kept kept' states : List S} {st : S} {c : C}

/-- Whatever is put among siblings stays covered by one of them. -/
theorem Model.Simulates.absorb (h : x.model.Simulates prec T γ fit)
    (heq : x.absorb kept st = .ok kept') (hst : γ st c ∨ ∃ k ∈ kept, γ k c) :
    ∃ k ∈ kept', γ k c := by
  induction kept generalizing kept' with
  | nil =>
    obtain rfl := Except.ok.inj heq
    exact ⟨st, List.mem_singleton.2 rfl, hst.resolve_right (by simp)⟩
  | cons k kept ih =>
    rw [List.exists_mem_cons_iff] at hst
    rw [Explorer.absorb] at heq
    split at heq
    · rename_i hk
      obtain rfl := Except.ok.inj heq
      rw [List.exists_mem_cons_iff]
      rcases hst with hst | hst
      · exact .inl (hk ▸ hst)
      · exact hst
    · split at heq
      · rename_i u hu
        obtain ⟨_, -, heq⟩ := bind_eq_ok.1 heq
        obtain rfl := Except.ok.inj heq
        rw [List.exists_mem_cons_iff]
        rcases hst with hst | hst | hst
        · exact .inl (h.merge hu (.inr hst))
        · exact .inl (h.merge hu (.inl hst))
        · exact .inr hst
      · obtain ⟨rest, hrest, heq⟩ := bind_eq_ok.1 heq
        obtain rfl := Except.ok.inj heq
        rw [List.exists_mem_cons_iff]
        rcases hst with hst | hst | hst
        · exact .inr (ih hrest (.inl hst))
        · exact .inl hst
        · exact .inr (ih hrest (.inr hst))

/-- What one of several states stands for, one of those kept stands for. -/
theorem Model.Simulates.absorbAll (h : x.model.Simulates prec T γ fit)
    (heq : x.absorbAll kept states = .ok kept')
    (hst : (∃ st ∈ states, γ st c) ∨ ∃ k ∈ kept, γ k c) : ∃ k ∈ kept', γ k c := by
  induction states generalizing kept with
  | nil =>
    obtain rfl := Except.ok.inj heq
    exact hst.resolve_left (by simp)
  | cons st states ih =>
    rw [List.exists_mem_cons_iff] at hst
    rw [Explorer.absorbAll] at heq
    obtain ⟨_, -, heq⟩ := bind_eq_ok.1 heq
    split at heq
    · rename_i hbot
      refine ih heq ?_
      rcases hst with (hst | hst) | hst
      · exact absurd hst (h.bottom hbot)
      · exact .inl hst
      · exact .inr hst
    · obtain ⟨next, hnext, heq⟩ := bind_eq_ok.1 heq
      refine ih heq ?_
      rcases hst with (hst | hst) | hst
      · exact .inr (h.absorb hnext (.inl hst))
      · exact .inl hst
      · exact .inr (h.absorb hnext (.inr hst))

end Siblings

/-! ### Explorations keep a graph sound -/

namespace Model.Sound

variable {x : Explorer S A P} {prec : P} {T : System C A} {γ : S → C → Prop} {fit : S → Prop}
  [DecidableEq S] [DecidableEq A] [Described S] {s t : Session S A}

/-- A node whose siblings all have their nodes has a child for every step. -/
theorem exists_child {id : NodeId} {n : Node S A} {succ : List (A × List S)} {c c' : C} {a : A}
    (hs : x.model.Sound T γ fit s.graph) (h : x.model.Simulates prec T γ fit)
    (hn : s.graph.node? id = some n) (hsucc : x.successorsOf n.state prec = .ok succ)
    (hall : x.Covered s.graph id succ) (hγ : γ n.state c) (hstep : T.step c a c') :
    ∃ j ∈ n.children, ∃ m, s.graph.node? j = some m ∧ γ m.state c' := by
  obtain ⟨actions, hen, hforall⟩ := Explorer.successorsOf_eq_ok.1 hsucc
  have hmem := h.enabled (hs.fit hn) hen hγ hstep
  obtain ⟨⟨a', states⟩, hr, rfl, hstates⟩ : ∃ r ∈ succ, r.1 = a ∧
      x.model.successors n.state a prec = .ok r.2 := exists_of_forall₂_of_mem_left hforall hmem
  obtain ⟨kept, hkept, hhas⟩ := hall _ states hr
  obtain ⟨st, hst, hstγ⟩ := h.successors (hs.fit hn) hstates hγ hstep
  obtain ⟨k, hk, hkγ⟩ := h.absorbAll hkept (.inl ⟨st, hst, hstγ⟩)
  obtain ⟨j, hj, m, hm, -, hstate⟩ := Explorer.exists_of_hasChild hn (hhas k hk)
  exact ⟨j, hj, m, hm, hstate ▸ hkγ⟩

omit [DecidableEq A] in
/-- A sibling that is left fits. -/
theorem fit_kept {id : NodeId} {n : Node S A} {succ : List (A × List S)} {a : A} {st : S}
    (hs : x.model.Sound T γ fit s.graph) (h : x.model.Simulates prec T γ fit)
    (hn : s.graph.node? id = some n) (hsucc : x.successorsOf n.state prec = .ok succ)
    (hkept : x.Kept succ a st) : fit st :=
  Explorer.forall_of_kept h.fit_merge hsucc hkept fun hstates _ hu ↦
    h.fit_successors (hs.fit hn) hstates hu

/-- **One step of an exploration keeps a graph sound.** -/
theorem grows (hs : x.model.Sound T γ fit s.graph) (h : x.model.Simulates prec T γ fit)
    (hstep : x.Grows prec s t) : x.model.Sound T γ fit t.graph := by
  have hext := hstep.extends
  refine hs.of_extends (hs.disciplined.grows hstep) hext (fun {i m} hi hm ↦ ?_)
    (fun {i m} hm he ↦ ?_) fun hi ↦ ?_
  · -- new nodes fit
    cases hstep.leaves hm with
    | root _ hinit hst hm => exact hm ▸ h.fit_initial hinit hst
    | child _ hn hsucc hkept hm => exact hm ▸ hs.fit_kept h hn hsucc hkept
    | kept hn | expanded hn | covered hn =>
      exact absurd (Graph.lt_created hn) (Nat.not_lt.2 hi)
  · -- what is newly expanded has all its children
    cases hstep.leaves hm with
    | root _ _ _ hm | child _ _ _ _ hm =>
      rw [hm] at he
      cases he
    | kept hn _ hexp => exact .inl ⟨_, hn, hexp ▸ he⟩
    | expanded hn _ hsucc hall hnm =>
      refine .inr fun {c a c'} hγ hT ↦ ?_
      obtain ⟨j, hj, k, hk, hkγ⟩ := hs.exists_child h hn hsucc hall (hnm.state ▸ hγ) hT
      obtain ⟨l, hl, hkl⟩ := hext.node? hk
      exact ⟨j, hnm.children.subset hj, l, hl, hkl.state ▸ hkγ⟩
    | covered _ _ _ hexp => cases hexp.symm.trans he
  · -- once initialized, every initial state has a root
    rcases hstep.initialized hi with hi | ⟨states, hinit, hall⟩
    · exact .inl hi
    · refine .inr fun {c} hc ↦ ?_
      obtain ⟨st, hst, hγ⟩ := h.initial hinit hc
      have hbot : x.model.isBottom st = false := eq_false_of_ne_true fun hb ↦ h.bottom hb hγ
      obtain ⟨r, hr, n, hn, rfl | hleq⟩ := hall st hst hbot
      · exact ⟨r, hr, n, hn, hγ⟩
      · exact ⟨r, hr, n, hn, h.leq hleq hγ⟩

/-- **Explorations keep a graph sound**, however far they come. -/
theorem of_grows (hs : x.model.Sound T γ fit s.graph) (h : x.model.Simulates prec T γ fit)
    (hst : Relation.ReflTransGen (x.Grows prec) s t) : x.model.Sound T γ fit t.graph := by
  induction hst with
  | refl => exact hs
  | tail _ hstep ih => exact ih.grows h hstep

/-- A safe verdict on a sound graph excludes every target. -/
theorem safe_explore {turns : Nat} {deadline : Option Nat}
    (hs : x.model.Sound T γ fit s.graph) (h : x.model.Simulates prec T γ fit)
    (hsafe : (x.explore turns deadline prec s).1 = .ok (some .safe)) {c : C}
    (hc : T.Reachable c) : ¬T.target c := by
  intro htarget
  have hdoes : Does (x.Grows prec) (x.Stops prec deadline) (x.explore turns deadline prec) s
      fun r t ↦ ∀ v, r = some v → x.Concludes v t.graph :=
    Explorer.does_explore hs.disciplined.wellFormed
  have hconc := hdoes.value _ hsafe .safe rfl
  obtain ⟨hcomplete, hgsafe⟩ := hconc.safe
  have hsound := hs.of_grows h hdoes.change
  obtain ⟨i, n, hn, -, htn, hγ⟩ := hsound.reachable h.leq hcomplete hgsafe hconc.initialized hc
  have htrue := h.target hγ htarget
  rw [← (hsound.disciplined.sane hn).target_eq, htn] at htrue
  cases htrue

end Model.Sound

/-! ### Histories of a session -/

section History

variable [DecidableEq S] [DecidableEq A] [Described S]

/-- One operation on a session over a domain: an exploration or a refinement, with any options and
collaborators, whether it gives an answer or stops early. Different refuters remember different
traces. -/
inductive Model.Operates (M : Model S A P) : Session S A → Session S A → Prop
  /-- Explore under some precision. -/
  | explore {s : Session S A} (x : Explorer S A P) (hx : x.model = M) (turns : Nat)
      (deadline : Option Nat) (prec : P) : Operates M s (x.explore turns deadline prec s).2
  /-- Examine counterexamples and refine some precision. -/
  | refine {s : Session S A} {W R : Type} [DecidableEq P] [Precision P] (r : Refuter S A P W R)
      (scope : Scope) (pruning : Pruning) (prec : P) : Operates M s (r.run scope pruning prec s).2
  /-- Another refuter comes with its own memory. -/
  | memory {s : Session S A} (refuted : List Fingerprint) : Operates M s { s with refuted }

variable {M : Model S A P} {T : System C A} {γ : S → C → Prop} {s t : Session S A}

theorem Model.Sound.operates (hs : M.Sound T γ (fun _ ↦ True) s.graph) (h : M.Approximates T γ)
    (hop : M.Operates s t) : M.Sound T γ (fun _ ↦ True) t.graph := by
  cases hop with
  | explore x hx turns deadline prec =>
    subst hx
    exact hs.of_grows (h.simulates prec)
      (Explorer.does_explore hs.disciplined.wellFormed).change
  | refine r scope pruning prec => exact hs.of_cuts Refuter.does_run.change
  | memory => exact hs

/-- **Any sequence of explorations and refinements keeps a graph sound.** -/
theorem Model.Sound.of_operates (hs : M.Sound T γ (fun _ ↦ True) s.graph)
    (h : M.Approximates T γ) (hst : Relation.ReflTransGen M.Operates s t) :
    M.Sound T γ (fun _ ↦ True) t.graph := by
  induction hst with
  | refl => exact hs
  | tail _ hop ih => exact ih.operates h hop

/-- **Soundness of the safe verdict.** Over a domain that over-approximates a system, after any
explorations and refinements that began with an empty graph, an exploration that answers safe shows
that no target of the system can be reached. -/
theorem Explorer.not_target_of_explore_safe (x : Explorer S A P) (h : x.model.Approximates T γ)
    {s₀ : Session S A} (hempty : s₀.graph = .empty)
    (hs : Relation.ReflTransGen x.model.Operates s₀ s) {turns : Nat} {deadline : Option Nat}
    {prec : P} (hsafe : (x.explore turns deadline prec s).1 = .ok (some .safe)) {c : C}
    (hc : T.Reachable c) : ¬T.target c := by
  have hstart : x.model.Sound T γ (fun _ ↦ True) s₀.graph := hempty ▸ .empty
  exact (hstart.of_operates h hs).safe_explore (h.simulates prec) hsafe hc

end History

/-! ### An example -/

/-- The even numbers, by steps of two; odd numbers must not be reached. -/
def evens : System Nat Unit where
  initial n := n = 0
  step n _ m := m = n + 2
  target n := n % 2 = 1

/-- The parity of a number. -/
inductive Parity where
  /-- Divisible by two. -/
  | even
  /-- Not divisible by two. -/
  | odd
  deriving DecidableEq

instance : Described Parity where
  describe
    | .even => "even"
    | .odd => "odd"

/-- Explore parities with a limit on the number of nodes. -/
def parityExplorer (maxNodes : Nat) : Explorer Parity Unit Unit where
  model :=
    { initial := fun _ ↦ .ok [.even]
      successors := fun parity _ _ ↦ .ok [parity]
      leq := fun p q ↦ p = q
      isBottom := fun _ ↦ false
      enabled := fun _ ↦ .ok [()]
      isTarget := fun parity ↦ parity = .odd }
  options := { maxNodes }

theorem approximates_parity {maxNodes : Nat} : (parityExplorer maxNodes).model.Approximates evens
    fun parity n ↦ parity = .odd ↔ n % 2 = 1 where
  initial h hc := by
    obtain rfl := Except.ok.inj h
    obtain rfl : _ = 0 := hc
    exact ⟨.even, List.mem_singleton.2 rfl, by decide⟩
  enabled h _ _ := by
    obtain rfl := Except.ok.inj h
    exact List.mem_singleton.2 rfl
  successors {parity _ _ _ n n'} h hγ hstep := by
    obtain rfl := Except.ok.inj h
    obtain rfl : n' = n + 2 := hstep
    exact ⟨parity, List.mem_singleton.2 rfl, by rw [Nat.add_mod_right]; exact hγ⟩
  bottom h := by cases h
  leq h hγ := by
    obtain rfl := of_decide_eq_true h
    exact hγ
  merge h := by cases h
  target hγ ht := decide_eq_true (hγ.2 ht)

/-- The first exploration fails for want of room in the middle of an expansion, and the second one
takes over what it left. -/
theorem not_odd_of_reachable_evens :
    ((parityExplorer 1).explore 9 none () {}).1 = .error (.failure (.exhausted (.nodes 1))) ∧
      ((parityExplorer 0).explore 9 none () ((parityExplorer 1).explore 9 none () {}).2).1 =
        .ok (some .safe) ∧
      ∀ n, evens.Reachable n → ¬evens.target n := by
  have hsafe : ((parityExplorer 0).explore 9 none ()
      ((parityExplorer 1).explore 9 none () {}).2).1 = .ok (some .safe) := by decide
  have hempty : ({} : Session Parity Unit).graph = .empty := rfl
  refine ⟨by decide, hsafe, fun n hn ↦ ?_⟩
  exact (parityExplorer 0).not_target_of_explore_safe approximates_parity hempty
    (.single (.explore (parityExplorer 1) rfl 9 none ())) hsafe hn

end AbstractionRefinement
