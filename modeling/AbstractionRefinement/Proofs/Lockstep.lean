import AbstractionRefinement.Proofs.Graph.Keys
import AbstractionRefinement.Proofs.Loop

/-!
# Computations in lockstep

Two computations are in step if they give matching values, or stop early for the same reason, and
leave related states behind (`InStep`). There is one rule for each way to build a computation, and
the relation of the states is kept from one to the next, so it may say what a computation needs to
know about both states.

Two checkers whose explorations and refinements are in step come to the same end, up to the keys of
the graph that they report (`Checker.Mirrors.run`).

What matching means is a parameter for values (`Matches`) and for states (`I`), and stopping early
has to be for equal reasons. The rules for sequencing and for the four functions that work on
sessions are enough for explorations and refinements, whose proofs then follow their texts line by
line.

A pair of checkers is mirrored if restarting, exploring and refining keep the relation of the states
and give matching answers. The loop around them has no other way to look at its state than through
the graph and the counters, and graphs that differ in keys alone have the same measures
(`Mirrors.metrics_eq`), so the reports agree in everything but the keys.
-/

namespace AbstractionRefinement

open Work Session

variable {σ τ α β γ δ : Type}

/-! ### Outcomes -/

/-- Matching outcomes: related values, or the same reason to stop. -/
inductive Matches (Q : α → β → Prop) : Except Abort α → Except Abort β → Prop
  /-- Two values. -/
  | ok {a : α} {b : β} (h : Q a b) : Matches Q (.ok a) (.ok b)
  /-- Two early stops. -/
  | error {e : Abort} : Matches Q (.error e) (.error e)

/-- Outcomes with the same image have the same fault, or values with the same image. -/
theorem exists_of_map_eq_map {f : α → γ} {x y : Except Fault α} (h : x.map f = y.map f) :
    (∃ e, x = .error e ∧ y = .error e) ∨ ∃ a b, x = .ok a ∧ y = .ok b ∧ f a = f b := by
  cases x with
  | error e =>
    cases y with
    | error e' =>
      obtain rfl := Except.error.inj h
      exact .inl ⟨e, rfl, rfl⟩
    | ok b => cases h
  | ok a =>
    cases y with
    | error e' => cases h
    | ok b => exact .inr ⟨a, b, rfl, rfl, Except.ok.inj h⟩

/-- Two turns of a loop that both go on, or are both done. -/
inductive Turn.Matches (J : α → β → Prop) (R : γ → δ → Prop) : Turn α γ → Turn β δ → Prop
  /-- Both go on. -/
  | again {p : α} {p' : β} (h : J p p') : Turn.Matches J R (.again p) (.again p')
  /-- Both are done. -/
  | done {a : γ} {a' : δ} (h : R a a') : Turn.Matches J R (.done a) (.done a')

/-- Two outcomes, each with the state left behind. -/
structure InStep (I : σ → τ → Prop) (Q : α → β → Prop) (x : α × σ) (y : β × τ) : Prop where
  /-- The outcomes match. -/
  value : Q x.1 y.1
  /-- The states are related. -/
  state : I x.2 y.2

namespace InStep

variable {I : σ → τ → Prop} {Q : α → β → Prop} {R : γ → δ → Prop} {s : σ} {s' : τ}

theorem pure {a : α} {b : β} (hs : I s s') (h : Q a b) :
    InStep I (Matches Q) ((Pure.pure a : Work σ α) s) ((Pure.pure b : Work τ β) s') :=
  ⟨.ok h, hs⟩

/-- **Sequencing.** -/
theorem bind {m : Work σ α} {m' : Work τ β} {f : α → Work σ γ} {f' : β → Work τ δ}
    (h : InStep I (Matches Q) (m s) (m' s'))
    (hf : ∀ {a b t t'}, Q a b → I t t' → InStep I (Matches R) (f a t) (f' b t')) :
    InStep I (Matches R) ((m >>= f) s) ((m' >>= f') s') := by
  obtain ⟨hvalue, hstate⟩ := h
  generalize hx : (m s).1 = x at hvalue
  generalize hy : (m' s').1 = y at hvalue
  cases hvalue with
  | ok hab =>
    rw [bind_of_ok hx, bind_of_ok hy]
    exact hf hab hstate
  | error =>
    rw [bind_of_error hx, bind_of_error hy]
    exact ⟨.error, hstate⟩

/-- Sequencing after a value that both have. -/
theorem bind_eq {m : Work σ α} {m' : Work τ α} {f : α → Work σ γ} {f' : α → Work τ δ}
    (h : InStep I (Matches Eq) (m s) (m' s'))
    (hf : ∀ {t t'} a, I t t' → InStep I (Matches R) (f a t) (f' a t')) :
    InStep I (Matches R) ((m >>= f) s) ((m' >>= f') s') := by
  refine h.bind fun {a b t t'} heq ht ↦ ?_
  subst heq
  exact hf a ht

/-- The same choice on both sides. -/
theorem ite {p p' : Prop} [Decidable p] [Decidable p'] {m n : Work σ α} {m' n' : Work τ β}
    (hp : p ↔ p') (hm : p → InStep I (Matches Q) (m s) (m' s'))
    (hn : ¬p → InStep I (Matches Q) (n s) (n' s')) :
    InStep I (Matches Q) ((if p then m else n) s) ((if p' then m' else n') s') := by
  by_cases h : p
  · rw [if_pos h, if_pos (hp.1 h)]
    exact hm h
  · rw [if_neg h, if_neg (mt hp.2 h)]
    exact hn h

/-- **Bounded loops.** What every turn keeps. -/
theorem iterate {π ρ : Type} {turn : π → Work σ (Turn π γ)} {turn' : ρ → Work τ (Turn ρ δ)}
    {J : π → ρ → Prop}
    (hturn : ∀ {p p' t t'}, J p p' → I t t' →
      InStep I (Matches (Turn.Matches J R)) (turn p t) (turn' p' t'))
    {turns : Nat} {p : π} {p' : ρ} (hp : J p p') (hs : I s s') :
    InStep I (Matches (Option.Rel R)) (AbstractionRefinement.iterate turn turns p s)
      (AbstractionRefinement.iterate turn' turns p' s') := by
  induction turns generalizing p p' s s' with
  | zero => exact .pure hs .none
  | succ turns ih =>
    refine (hturn hp hs).bind fun {r r' t t'} hr ht ↦ ?_
    cases hr with
    | again hp => exact ih hp ht
    | done h => exact .pure ht (.some h)

end InStep

/-! ### The primitives of a session -/

section Primitives

variable {S A : Type} {I : Session S A → Session S A → Prop} {Q : α → β → Prop} {R : γ → δ → Prop}
  {s s' : Session S A}

/-- What comes after two demands goes in step if the demands match. -/
theorem inStep_demand_bind {x : Except Abort α} {y : Except Abort β}
    {f : α → Work (Session S A) γ} {f' : β → Work (Session S A) δ} (hs : I s s')
    (h : Matches Q x y) (hf : ∀ {a b}, Q a b → InStep I (Matches R) (f a s) (f' b s')) :
    InStep I (Matches R) ((demand x >>= f) s) ((demand y >>= f') s') := by
  cases h with
  | ok h => exact hf h
  | error => exact ⟨.error, hs⟩

/-- What comes after two equal demands goes in step. -/
theorem inStep_demand_bind_eq {x y : Except Abort α} {f : α → Work (Session S A) γ}
    {f' : α → Work (Session S A) δ} (hs : I s s') (h : x = y)
    (hf : ∀ a, InStep I (Matches R) (f a s) (f' a s')) :
    InStep I (Matches R) ((demand x >>= f) s) ((demand y >>= f') s') := by
  subst h
  cases x with
  | ok a => exact hf a
  | error e => exact ⟨.error, hs⟩

theorem inStep_currentGraph_bind {f : Graph S A → Work (Session S A) γ}
    {f' : Graph S A → Work (Session S A) δ}
    (h : InStep I (Matches R) (f s.graph s) (f' s'.graph s')) :
    InStep I (Matches R) ((currentGraph >>= f) s) ((currentGraph >>= f') s') := h

/-- Two edits go in step if they succeed on the same occasions and differ in keys alone. -/
theorem inStep_editGraph {f f' : Graph S A → Except Fault (Graph S A)}
    (hs : I s s') (hmap : (f s.graph).map Graph.unkeyed = (f' s'.graph).map Graph.unkeyed)
    (h : ∀ {g g'}, f s.graph = .ok g → f' s'.graph = .ok g' → g.unkeyed = g'.unkeyed →
      I { s with graph := g } { s' with graph := g' }) :
    InStep I (Matches Eq) (editGraph f s) (editGraph f' s') := by
  rw [editGraph, editGraph]
  obtain ⟨e, hg, hg'⟩ | ⟨g, g', hg, hg', heq⟩ := exists_of_map_eq_map hmap
  · rw [hg, hg']
    exact ⟨.error, hs⟩
  · rw [hg, hg']
    exact ⟨.ok rfl, h hg hg' heq⟩

end Primitives

/-! ### Checkers -/

variable {S A P W : Type}

/-- The report with the keys of its graph left out. -/
def Report.unkeyed (r : Report S A P W) : Report S A P W := { r with graph := r.graph.unkeyed }

/-- The ending with the keys of the graph left out. -/
def Ending.unkeyed (e : Ending S A P W) : Ending S A P W := e.map (Except.map Report.unkeyed)

namespace Checker

/-- The collaborators of two checkers are in step. -/
structure Mirrors (c : Checker σ S A P W) (c' : Checker τ S A P W) (I : σ → τ → Prop) : Prop where
  /-- The graphs differ in their keys only. -/
  graph : ∀ {s s'}, I s s' → (c.graph s).unkeyed = (c'.graph s').unkeyed
  /-- The same work is counted. -/
  counters : ∀ {s s'}, I s s' → c.counters s = c'.counters s'
  /-- Both begin with an empty graph. -/
  restart : ∀ {s s'}, I s s' → I (c.restart s) (c'.restart s')
  /-- Explorations are in step. -/
  explore : ∀ {s s'} deadline prec, I s s' →
    InStep I (Matches Eq) (c.explore deadline prec s) (c'.explore deadline prec s')
  /-- Refinements are in step. -/
  refine : ∀ {s s'} prec, I s s' → InStep I (Matches Eq) (c.refine prec s) (c'.refine prec s')

namespace Mirrors

variable {c : Checker σ S A P W} {c' : Checker τ S A P W} {I : σ → τ → Prop} {s : σ} {s' : τ}
  {r : Round P}

/-- Graphs that mirror each other have the same measures. -/
theorem metrics_eq (h : c.Mirrors c' I) (hs : I s s') :
    (c.graph s).metrics = (c'.graph s').metrics := by
  rw [← Graph.metrics_unkeyed, h.graph hs, Graph.metrics_unkeyed]

/-- Turns of the loop that differ in keys only. -/
abbrev SameTurn : Turn (Round P) (Ending S A P W) → Turn (Round P) (Ending S A P W) → Prop :=
  Turn.Matches Eq fun e e' ↦ Ending.unkeyed e = Ending.unkeyed e'

/-- A conclusion is drawn alike. -/
theorem conclude (h : c.Mirrors c' I) (hs : I s s') {conclusion : Conclusion S A P W} :
    InStep I SameTurn (c.conclude r conclusion s) (c'.conclude r conclusion s') := by
  refine ⟨.done ?_, hs⟩
  show some (Except.ok (Report.unkeyed ⟨_, c.graph s, ⟨_, _, _, _, _, _⟩, _⟩)) =
    some (Except.ok (Report.unkeyed ⟨_, c'.graph s', ⟨_, _, _, _, _, _⟩, _⟩))
  rw [Report.unkeyed, Report.unkeyed]
  simp only [h.graph hs, h.metrics_eq hs, h.counters hs]

/-- Giving up goes alike. -/
theorem giveUp (h : c.Mirrors c' I) (hs : I s s') {stop : Abort} :
    InStep I SameTurn (c.giveUp r stop s) (c'.giveUp r stop s') := by
  rcases stop with cause | f
  · cases cause <;> exact h.conclude hs
  · exact ⟨.done rfl, hs⟩

variable [Precision P] [Described P] {o : LoopOptions} {clock : Clock}

/-- Going on to the next iteration goes alike. -/
theorem advance (h : c.Mirrors c' I) (hs : I s s') {refined : P} :
    InStep I SameTurn (c.advance o clock r refined s) (c'.advance o clock r refined s') := by
  rw [Checker.advance, Checker.advance]
  split
  · exact h.giveUp hs
  · split
    · exact h.conclude hs
    · exact ⟨.again rfl, hs⟩

/-- Refining, and what follows from it, goes alike. -/
theorem refineRound (h : c.Mirrors c' I) (hs : I s s') :
    InStep I SameTurn (c.refineRound o clock r s) (c'.refineRound o clock r s') := by
  obtain ⟨hvalue, hstate⟩ := h.refine r.prec hs
  rcases hx : c.refine r.prec s with ⟨x, t⟩
  rcases hy : c'.refine r.prec s' with ⟨y, t'⟩
  rw [hx, hy] at hvalue hstate
  cases hvalue with
  | error =>
    rw [c.refineRound_of_error hx, c'.refineRound_of_error hy, ← giveUp_eq, ← giveUp_eq]
    exact h.giveUp hstate
  | @ok a b heq =>
    subst heq
    cases a with
    | genuine path witness =>
      rw [c.refineRound_of_genuine hx, c'.refineRound_of_genuine hy, ← conclude_eq, ← conclude_eq]
      exact h.conclude hstate
    | spurious refined =>
      rw [c.refineRound_of_spurious hx, c'.refineRound_of_spurious hy]
      exact h.advance hstate

variable (o clock r) in
/-- **Iterations are in step.** -/
theorem round (h : c.Mirrors c' I) (hs : I s s') :
    InStep I SameTurn (c.round o clock r s) (c'.round o clock r s') := by
  rw [Checker.round, Checker.round]
  split
  · exact h.conclude hs
  · obtain ⟨hvalue, hstate⟩ := h.explore (secondsLeft o clock r.iterations) r.prec hs
    rcases hx : c.explore (secondsLeft o clock r.iterations) r.prec s with ⟨x, t⟩
    rcases hy : c'.explore (secondsLeft o clock r.iterations) r.prec s' with ⟨y, t'⟩
    rw [hx, hy] at hvalue hstate
    simp only [ExceptT.run, bind, StateT.bind, hx, hy]
    cases hvalue with
    | error => exact h.giveUp hstate
    | @ok a b heq =>
      subst heq
      cases a with
      | none => exact ⟨.done rfl, hstate⟩
      | some verdict =>
        cases verdict with
        | safe =>
          show InStep I SameTurn
            (c.conclude (r.recorded .safe (c.graph t).metrics) (.safe r.prec) t)
            (c'.conclude (r.recorded .safe (c'.graph t').metrics) (.safe r.prec) t')
          rw [h.metrics_eq hstate]
          exact h.conclude hstate
        | suspect =>
          show InStep I SameTurn
            (c.refineRound o clock (r.recorded .suspect (c.graph t).metrics) t)
            (c'.refineRound o clock (r.recorded .suspect (c'.graph t').metrics) t')
          rw [h.metrics_eq hstate]
          exact h.refineRound hstate

variable (o clock r) in
/-- **The loop** goes alike, iteration by iteration, and ends alike up to keys. -/
theorem iterate_round (h : c.Mirrors c' I) (hs : I s s') (turns : Nat) :
    Option.map Ending.unkeyed (iterate (c.round o clock) turns r s).1 =
      Option.map Ending.unkeyed (iterate (c'.round o clock) turns r s').1 := by
  induction turns generalizing r s s' with
  | zero => rfl
  | succ turns ih =>
    obtain ⟨hvalue, hstate⟩ := h.round r o clock hs
    rcases hx : c.round o clock r s with ⟨x, t⟩
    rcases hy : c'.round o clock r s' with ⟨y, t'⟩
    rw [hx, hy] at hvalue hstate
    cases hvalue with
    | again heq =>
      subst heq
      rw [iterate_of_again hx, iterate_of_again hy]
      exact ih _ hstate
    | done hends =>
      rw [iterate_of_done hx, iterate_of_done hy]
      exact congrArg some hends

/-- **The runs come to the same end**, up to keys. -/
theorem run (h : c.Mirrors c' I) (hs : I s s') {turns : Nat} {prec : P} :
    Ending.unkeyed (c.run o clock turns prec s).1 =
      Ending.unkeyed (c'.run o clock turns prec s').1 := by
  rw [Checker.run, Checker.run]
  cases clock.checkLimit o.timeLimit with
  | error f => rfl
  | ok u =>
    have hends := h.iterate_round { prec } o clock (h.restart hs) turns
    show Ending.unkeyed (iterate (c.round o clock) turns { prec } (c.restart s)).1.join =
      Ending.unkeyed (iterate (c'.round o clock) turns { prec } (c'.restart s')).1.join
    generalize (iterate (c.round o clock) turns { prec } (c.restart s)).1 = x at hends ⊢
    generalize (iterate (c'.round o clock) turns { prec } (c'.restart s')).1 = y at hends ⊢
    cases x with
    | none =>
      cases y with
      | none => rfl
      | some e' => cases hends
    | some e =>
      cases y with
      | none => cases hends
      | some e' => exact Option.some.inj hends

end Mirrors

end Checker

end AbstractionRefinement
