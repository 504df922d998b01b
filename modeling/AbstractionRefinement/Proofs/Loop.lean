import AbstractionRefinement.Loop
import Mathlib.Tactic.Common

/-!
# Iterations of the refinement loop

What one iteration of the loop can come to (`Checker.Rounds`), and which states a run passes through
(`Checker.Reaches`). A run that ends has passed through a last state whose iteration ended it
(`Checker.exists_rounds_of_run`), so a property of runs is an induction over `Reaches` followed by
one case analysis of `Rounds`; the loop itself is not looked at again.

The cases of `Rounds` are the ways in which an iteration can go: no iterations are left, exploration
stops early or does not end, it says safe, refinement stops early, it finds a genuine
counterexample, the refined precision is not as fine, time is up, or the loop goes on. Each of them
holds the equations for the collaborators that led to it, so nothing about the code is lost in
passing to the relation.

Nothing is assumed about the collaborators here. They are a `Checker` over an arbitrary state, and
the same inversion serves the loop over sessions, its logged variant and the loop whose
collaborators are put in lockstep with others.
-/

namespace AbstractionRefinement

section Iterate

variable {σ τ ρ : Type} {turn : τ → StateM σ (Turn τ ρ)} {turns : Nat} {p p' : τ} {s t : σ} {a : ρ}

theorem iterate_of_done (h : turn p s = (.done a, t)) :
    iterate turn (turns + 1) p s = (some a, t) := by
  simp only [iterate, bind, StateT.bind, h]
  rfl

theorem iterate_of_again (h : turn p s = (.again p', t)) :
    iterate turn (turns + 1) p s = iterate turn turns p' t := by
  simp only [iterate, bind, StateT.bind, h]

/-- A loop that is done was done after some last turn. -/
theorem iterate_cases {I : τ → σ → Prop}
    (hturn : ∀ {p s p'}, I p s → (turn p s).1 = .again p' → I p' (turn p s).2) (hp : I p s)
    (h : (iterate turn turns p s).1 = some a) :
    ∃ p' s', I p' s' ∧ turn p' s' = (.done a, (iterate turn turns p s).2) := by
  induction turns generalizing p s with
  | zero => cases h
  | succ turns ih =>
    rcases hstep : turn p s with ⟨p' | b, t⟩
    · rw [iterate_of_again hstep] at h ⊢
      have hI := hturn hp (congrArg Prod.fst hstep)
      rw [hstep] at hI
      exact ih hI h
    · rw [iterate_of_done hstep] at h ⊢
      obtain rfl : b = a := Option.some.inj h
      exact ⟨p, s, hp, hstep⟩

end Iterate

/-- The round once its iteration has begun. -/
def Round.begun {P : Type} (r : Round P) : Round P :=
  { r with iterations := r.iterations + 1 }

/-- The round once the exploration of its iteration is recorded. -/
def Round.recorded {P : Type} (r : Round P) (verdict : Verdict) (metrics : Metrics) : Round P :=
  { r.begun with records := r.records ++ [⟨r.iterations + 1, r.prec, verdict, metrics⟩] }

namespace Checker

variable {σ S A P W : Type} (c : Checker σ S A P W)

/-! ### Endings -/

/-- The report of a run that ends in a state. -/
def report (r : Round P) (conclusion : Conclusion S A P W) (s : σ) : Report S A P W :=
  ⟨conclusion, c.graph s,
    { iterations := r.iterations, graph := (c.graph s).metrics, counters := c.counters s },
    r.records⟩

/-- How a run ends when an operation stops early. -/
def ending (r : Round P) (s : σ) : Abort → Ending S A P W
  | .fault f => some (.error f)
  | .failure (.exhausted reason) => some (.ok (c.report r (.undecided reason r.prec) s))
  | .failure cause => some (.ok (c.report r (.failed r.iterations r.prec cause) s))

theorem conclude_eq {r : Round P} {conclusion : Conclusion S A P W} {s : σ} :
    c.conclude r conclusion s = (.done (some (.ok (c.report r conclusion s))), s) :=
  rfl

/-- Giving up ends the loop: with a report that says why, or with the fault it came upon. -/
theorem giveUp_eq {r : Round P} {stop : Abort} {s : σ} :
    c.giveUp r stop s = (.done (c.ending r s stop), s) := by
  rcases stop with cause | f
  · cases cause <;> rfl
  · rfl

/-- An operation that stops early decides nothing. -/
theorem undecided_of_ending {r : Round P} {s : σ} {e : Abort} {report : Report S A P W}
    (h : c.ending r s e = some (.ok report)) :
    (∃ reason p, report.conclusion = .undecided reason p) ∨
      ∃ n p cause, report.conclusion = .failed n p cause := by
  rcases e with cause | f
  · cases cause with
    | exhausted reason =>
      obtain rfl := Except.ok.inj (Option.some.inj h)
      exact .inl ⟨_, _, rfl⟩
    | _ =>
      obtain rfl := Except.ok.inj (Option.some.inj h)
      exact .inr ⟨_, _, _, rfl⟩
  · cases Option.some.inj h

/-! ### One iteration -/

variable [Precision P] [Described P] (o : LoopOptions) (clock : Clock)

/-- What an iteration from a state comes to. -/
inductive Rounds (r : Round P) (s : σ) : Turn (Round P) (Ending S A P W) → σ → Prop
  /-- As many iterations have run as are allowed. -/
  | limit (h : 0 < o.maxIterations ∧ o.maxIterations ≤ r.iterations) :
    Rounds r s
      (.done (some (.ok (c.report r (.undecided (.iterations o.maxIterations) r.prec) s)))) s
  /-- The exploration stops early. -/
  | stopped {e : Abort} {t : σ}
      (hexplore : c.explore (secondsLeft o clock r.iterations) r.prec s = (.error e, t)) :
    Rounds r s (.done (c.ending r.begun t e)) t
  /-- The exploration does not end. -/
  | unfinished {t : σ}
      (hexplore : c.explore (secondsLeft o clock r.iterations) r.prec s = (.ok none, t)) :
    Rounds r s (.done none) t
  /-- The exploration says safe. -/
  | safe {t : σ}
      (hexplore : c.explore (secondsLeft o clock r.iterations) r.prec s = (.ok (some .safe), t)) :
    Rounds r s
      (.done (some (.ok (c.report (r.recorded .safe (c.graph t).metrics) (.safe r.prec) t)))) t
  /-- The refinement stops early. -/
  | failed {e : Abort} {t u : σ}
      (hexplore : c.explore (secondsLeft o clock r.iterations) r.prec s =
        (.ok (some .suspect), t)) (hrefine : c.refine r.prec t = (.error e, u)) :
    Rounds r s (.done (c.ending (r.recorded .suspect (c.graph t).metrics) u e)) u
  /-- A counterexample is genuine. -/
  | genuine {path : Path S A} {witness : W} {t u : σ}
      (hexplore : c.explore (secondsLeft o clock r.iterations) r.prec s =
        (.ok (some .suspect), t)) (hrefine : c.refine r.prec t = (.ok (.genuine path witness), u)) :
    Rounds r s (.done (some (.ok
      (c.report (r.recorded .suspect (c.graph t).metrics) (.violated path witness) u)))) u
  /-- The refined precision is not at least as fine as the one before. -/
  | notFiner {refined : P} {t u : σ}
      (hexplore : c.explore (secondsLeft o clock r.iterations) r.prec s =
        (.ok (some .suspect), t)) (hrefine : c.refine r.prec t = (.ok (.spurious refined), u))
      (hfiner : Precision.refines refined r.prec = false) :
    Rounds r s (.done (c.ending (r.recorded .suspect (c.graph t).metrics) u
      (.failure (.violation (.notFiner (describe refined) (describe r.prec)))))) u
  /-- The time is up. -/
  | timeUp {refined : P} {t u : σ}
      (hexplore : c.explore (secondsLeft o clock r.iterations) r.prec s =
        (.ok (some .suspect), t)) (hrefine : c.refine r.prec t = (.ok (.spurious refined), u))
      (hfiner : Precision.refines refined r.prec = true)
      (htime : 0 < o.timeLimit ∧ o.timeLimit ≤ clock.elapsed (r.iterations + 1)) :
    Rounds r s (.done (some (.ok
      (c.report { r.recorded .suspect (c.graph t).metrics with prec := refined }
        (.undecided (.time o.timeLimit) refined) u)))) u
  /-- The loop goes on with a precision that is at least as fine. -/
  | again {refined : P} {t u : σ}
      (hexplore : c.explore (secondsLeft o clock r.iterations) r.prec s =
        (.ok (some .suspect), t)) (hrefine : c.refine r.prec t = (.ok (.spurious refined), u))
      (hfiner : Precision.refines refined r.prec = true) :
    Rounds r s (.again { r.recorded .suspect (c.graph t).metrics with prec := refined }) u

variable {o clock} {r : Round P} {s : σ}

variable {c} in
/-- How an iteration comes to a verdict. -/
theorem Rounds.decides {report : Report S A P W} {u : σ}
    (h : c.Rounds o clock r s (.done (some (.ok report))) u) :
    (∃ reason p, report.conclusion = .undecided reason p) ∨
      (∃ n p cause, report.conclusion = .failed n p cause) ∨
      (report = c.report (r.recorded .safe (c.graph u).metrics) (.safe r.prec) u ∧
        c.explore (secondsLeft o clock r.iterations) r.prec s = (.ok (some .safe), u)) ∨
      ∃ path witness t,
        report = c.report (r.recorded .suspect (c.graph t).metrics) (.violated path witness) u ∧
        c.explore (secondsLeft o clock r.iterations) r.prec s = (.ok (some .suspect), t) ∧
        c.refine r.prec t = (.ok (.genuine path witness), u) := by
  generalize hturn : Turn.done (some (Except.ok report)) = turn at h
  cases h with
  | limit h =>
    obtain rfl := Except.ok.inj (Option.some.inj (Turn.done.inj hturn))
    exact .inl ⟨_, _, rfl⟩
  | stopped hexplore =>
    exact (c.undecided_of_ending (Turn.done.inj hturn).symm).imp_right .inl
  | unfinished hexplore => cases Turn.done.inj hturn
  | safe hexplore =>
    obtain rfl := Except.ok.inj (Option.some.inj (Turn.done.inj hturn))
    exact .inr (.inr (.inl ⟨rfl, hexplore⟩))
  | failed hexplore hrefine =>
    exact (c.undecided_of_ending (Turn.done.inj hturn).symm).imp_right .inl
  | genuine hexplore hrefine =>
    obtain rfl := Except.ok.inj (Option.some.inj (Turn.done.inj hturn))
    exact .inr (.inr (.inr ⟨_, _, _, rfl, hexplore, hrefine⟩))
  | notFiner hexplore hrefine hfiner =>
    exact (c.undecided_of_ending (Turn.done.inj hturn).symm).imp_right .inl
  | timeUp hexplore hrefine hfiner htime =>
    obtain rfl := Except.ok.inj (Option.some.inj (Turn.done.inj hturn))
    exact .inl ⟨_, _, rfl⟩
  | again hexplore hrefine hfiner => cases hturn

/-- A refinement that is aborted ends the loop. -/
theorem refineRound_of_error {e : Abort} {u : σ} (h : c.refine r.prec s = (.error e, u)) :
    c.refineRound o clock r s = (.done (c.ending r u e), u) := by
  rw [← giveUp_eq]
  simp only [refineRound, ExceptT.run, bind, StateT.bind, h]

/-- A genuine counterexample ends the loop with a violation. -/
theorem refineRound_of_genuine {path : Path S A} {witness : W} {u : σ}
    (h : c.refine r.prec s = (.ok (.genuine path witness), u)) : c.refineRound o clock r s =
      (.done (some (.ok (c.report r (.violated path witness) u))), u) := by
  rw [← conclude_eq]
  simp only [refineRound, ExceptT.run, bind, StateT.bind, h]

/-- A spurious counterexample leads on to the next iteration. -/
theorem refineRound_of_spurious {refined : P} {u : σ}
    (h : c.refine r.prec s = (.ok (.spurious refined), u)) :
    c.refineRound o clock r s = c.advance o clock r refined u := by
  simp only [refineRound, ExceptT.run, bind, StateT.bind, h]

variable {c} in
/-- An exploration that ends under suspicion is followed by a refinement. -/
theorem round_of_suspect {t : σ}
    (hallowed : ¬(0 < o.maxIterations ∧ o.maxIterations ≤ r.iterations))
    (hexplore : c.explore (secondsLeft o clock r.iterations) r.prec s =
      (.ok (some .suspect), t)) : c.round o clock r s =
      c.refineRound o clock (r.recorded .suspect (c.graph t).metrics) t := by
  rw [round, if_neg (by simpa using hallowed)]
  simp only [ExceptT.run, bind, StateT.bind, hexplore]
  rfl

/-- The second half of an iteration. -/
theorem rounds_refineRound {t : σ}
    (hexplore : c.explore (secondsLeft o clock r.iterations) r.prec s =
      (.ok (some .suspect), t)) :
    c.Rounds o clock r s
      (c.refineRound o clock (r.recorded .suspect (c.graph t).metrics) t).1
      (c.refineRound o clock (r.recorded .suspect (c.graph t).metrics) t).2 := by
  rcases hrefine : c.refine r.prec t with ⟨e | ⟨refined⟩ | ⟨path, witness⟩, u⟩
  · rw [c.refineRound_of_error (r := r.recorded _ _) hrefine]
    exact .failed hexplore hrefine
  · rw [c.refineRound_of_spurious (r := r.recorded _ _) hrefine, advance]
    split
    · rename_i hfiner
      rw [giveUp_eq]
      exact .notFiner hexplore hrefine (Bool.not_eq_eq_eq_not.1 hfiner)
    · rename_i hfiner
      have hfiner : Precision.refines refined r.prec = true := by
        rwa [Bool.not_eq_true, Bool.not_eq_false'] at hfiner
      split
      · rename_i htime
        rw [Bool.and_eq_true, decide_eq_true_eq, decide_eq_true_eq] at htime
        exact .timeUp hexplore hrefine hfiner htime
      · exact .again hexplore hrefine hfiner
  · rw [c.refineRound_of_genuine (r := r.recorded _ _) hrefine]
    exact .genuine hexplore hrefine

/-- **One iteration comes to one of these.** -/
theorem rounds_round : c.Rounds o clock r s (c.round o clock r s).1 (c.round o clock r s).2 := by
  rw [round]
  split
  · rename_i h
    rw [Bool.and_eq_true, decide_eq_true_eq, decide_eq_true_eq] at h
    exact .limit h
  · rcases hexplore : c.explore (secondsLeft o clock r.iterations) r.prec s with
      ⟨e | ⟨_ | verdict⟩, t⟩
    · simp only [ExceptT.run, bind, StateT.bind, hexplore, giveUp_eq]
      exact .stopped hexplore
    · simp only [ExceptT.run, bind, StateT.bind, hexplore]
      exact .unfinished hexplore
    · simp only [ExceptT.run, bind, StateT.bind, hexplore]
      cases verdict with
      | safe => exact .safe hexplore
      | suspect => exact c.rounds_refineRound hexplore

variable {c} in
/-- A safe report comes from an exploration that says safe. -/
theorem Rounds.explore_of_safe {report : Report S A P W} {u : σ} {p : P}
    (h : c.Rounds o clock r s (.done (some (.ok report))) u) (hsafe : report.conclusion = .safe p) :
    p = r.prec ∧ c.explore (secondsLeft o clock r.iterations) r.prec s = (.ok (some .safe), u) := by
  rcases h.decides with ⟨_, _, h⟩ | ⟨_, _, _, h⟩ | ⟨rfl, hexplore⟩ | ⟨_, _, _, rfl, -, -⟩
  · cases h.symm.trans hsafe
  · cases h.symm.trans hsafe
  · exact ⟨(Conclusion.safe.inj hsafe).symm, hexplore⟩
  · cases hsafe

variable {c} in
/-- A report of a violation comes from a refinement that finds a counterexample genuine. -/
theorem Rounds.refine_of_violated {report : Report S A P W} {u : σ} {path : Path S A} {witness : W}
    (h : c.Rounds o clock r s (.done (some (.ok report))) u)
    (hviolated : report.conclusion = .violated path witness) : ∃ t, report.graph = c.graph u ∧
      c.explore (secondsLeft o clock r.iterations) r.prec s = (.ok (some .suspect), t) ∧
      c.refine r.prec t = (.ok (.genuine path witness), u) := by
  rcases h.decides with ⟨_, _, h⟩ | ⟨_, _, _, h⟩ | ⟨rfl, -⟩ | ⟨_, _, t, rfl, hexplore, hrefine⟩
  · cases h.symm.trans hviolated
  · cases h.symm.trans hviolated
  · cases hviolated
  · obtain ⟨rfl, rfl⟩ := Conclusion.violated.inj hviolated
    exact ⟨t, rfl, hexplore, hrefine⟩

/-! ### Runs -/

variable (o clock)

/-- The states that a run passes through between its iterations. -/
inductive Reaches (prec : P) (s₀ : σ) : Round P → σ → Prop
  /-- It begins with an empty graph. -/
  | start : Reaches prec s₀ { prec } (c.restart s₀)
  /-- It goes on from iteration to iteration. -/
  | next {r r' : Round P} {s t : σ} (h : Reaches prec s₀ r s)
      (hround : c.Rounds o clock r s (.again r') t) : Reaches prec s₀ r' t

variable {o clock}

variable {c} in
/-- A run is its loop, if the clock can tell the deadline. -/
theorem run_of_iterate {turns : Nat} {prec : P} {s₀ t : σ} {ending : Ending S A P W}
    (hlimit : clock.checkLimit o.timeLimit = .ok ())
    (h : iterate (c.round o clock) turns { prec } (c.restart s₀) = (some ending, t)) :
    c.run o clock turns prec s₀ = (ending, t) := by
  rw [run, hlimit]
  show StateT.bind (iterate (c.round o clock) turns { prec }) (fun e ↦ pure e.join)
    (c.restart s₀) = _
  simp only [StateT.bind, h]
  rfl

/-- **A run that ends has passed through a last iteration that ended it**, unless the clock cannot
tell its deadline. -/
theorem exists_rounds_of_run {turns : Nat} {prec : P} {s₀ : σ}
    {e : Except Fault (Report S A P W)} (h : (c.run o clock turns prec s₀).1 = some e) :
    (∃ f, clock.checkLimit o.timeLimit = .error f ∧ e = .error f) ∨
      ∃ r s, c.Reaches o clock prec s₀ r s ∧
        c.Rounds o clock r s (.done (some e)) (c.run o clock turns prec s₀).2 := by
  rw [run] at h ⊢
  cases hlimit : clock.checkLimit o.timeLimit with
  | error f =>
    rw [hlimit] at h
    exact .inl ⟨f, rfl, (Option.some.inj h).symm⟩
  | ok u =>
    rw [hlimit] at h
    right
    set out := iterate (c.round o clock) turns { prec } (c.restart s₀) with hout
    have hjoin : out.1.join = some e := h
    obtain ⟨a, ha, rfl⟩ : ∃ a, out.1 = some a ∧ a = some e := by
      rcases hfst : out.1 with _ | a
      · rw [hfst] at hjoin
        cases hjoin
      · rw [hfst] at hjoin
        exact ⟨a, rfl, hjoin⟩
    obtain ⟨r, s, hreach, hdone⟩ := iterate_cases (I := c.Reaches o clock prec s₀)
      (fun {r s r'} hr hagain ↦ .next hr (hagain ▸ c.rounds_round)) .start ha
    refine ⟨r, s, hreach, ?_⟩
    have hround : c.Rounds o clock r s (c.round o clock r s).1 (c.round o clock r s).2 :=
      c.rounds_round
    rw [hdone] at hround
    exact hround

end Checker

end AbstractionRefinement
