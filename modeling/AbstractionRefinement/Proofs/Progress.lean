import AbstractionRefinement.Proofs.Loop

/-!
# Runs that come to a verdict

Without budgets the loop can only end with a verdict or with a failure of one of its collaborators.
If explorations give a verdict, and a refinement that finds nothing genuine makes a measure of the
precision smaller (`Checker.Progresses`), a run comes to a verdict, after at most as many iterations
as the measure says and one more. The turns granted do not matter as long as there are enough.

The measure is a function of the precision alone, and a property of sessions between iterations is
carried along (`I`), since whether a refinement makes progress depends on the graph it is given.
Each iteration that does not end the run makes the measure smaller, so the induction is on the
measure and not on the turns.

Failures are not hidden in the hypothesis that explorations answer. If it is dropped, what can still
be said is that a run without budgets that comes to no verdict has a collaborator that stopped early
(`decided_or_failed_of_run`).
-/

namespace AbstractionRefinement

namespace Checker

variable {σ S A P W : Type}

/-! ### Iterations without budgets -/

section Round

variable {c : Checker σ S A P W} [Precision P] [Described P] {clock : Clock} {r : Round P}
  {s t u : σ}

theorem round_of_safe (h : c.explore none r.prec s = (.ok (some .safe), t)) :
    c.round {} clock r s = (.done (some (.ok
      (c.report (r.recorded .safe (c.graph t).metrics) (.safe r.prec) t))), t) := by
  rw [round, if_neg (by simp)]
  show StateT.bind (c.explore none r.prec) _ s = _
  simp only [StateT.bind, h]
  rfl

theorem round_of_genuine {path : Path S A} {witness : W}
    (hexplore : c.explore none r.prec s = (.ok (some .suspect), t))
    (hrefine : c.refine r.prec t = (.ok (.genuine path witness), u)) :
    c.round {} clock r s = (.done (some (.ok
      (c.report (r.recorded .suspect (c.graph t).metrics) (.violated path witness) u))), u) := by
  rw [round_of_suspect (by simp) hexplore]
  exact c.refineRound_of_genuine hrefine

theorem advance_of_refines {refined : P} (h : Precision.refines refined r.prec = true) :
    c.advance {} clock r refined s = (.again { r with prec := refined }, s) := by
  have hfiner : ¬(!Precision.refines refined r.prec) = true := by simp [h]
  rw [advance, if_neg hfiner, if_neg (by simp)]
  rfl

theorem round_of_spurious {refined : P}
    (hexplore : c.explore none r.prec s = (.ok (some .suspect), t))
    (hrefine : c.refine r.prec t = (.ok (.spurious refined), u))
    (hfiner : Precision.refines refined r.prec = true) :
    c.round {} clock r s =
      (.again { r.recorded .suspect (c.graph t).metrics with prec := refined }, u) := by
  have hadvance : c.refineRound {} clock (r.recorded .suspect (c.graph t).metrics) t =
      c.advance {} clock (r.recorded .suspect (c.graph t).metrics) refined u :=
    c.refineRound_of_spurious hrefine
  rw [round_of_suspect (by simp) hexplore, hadvance]
  exact advance_of_refines hfiner

end Round

/-- The conclusion is a verdict. -/
def Decided (report : Report S A P W) : Prop :=
  (∃ p, report.conclusion = .safe p) ∨ ∃ path witness, report.conclusion = .violated path witness

/-- **A run without budgets that comes to no verdict** has a refinement that stops early, if no
exploration does and every refined precision is finer. -/
theorem decided_or_failed_of_run {c : Checker σ S A P W} [Precision P] [Described P] {clock : Clock}
    {turns : Nat} {prec : P} {s₀ : σ}
    (hexplores : ∀ {r s e t}, c.Reaches {} clock prec s₀ r s →
      c.explore none r.prec s ≠ (.error e, t))
    (hfiner : ∀ {r s t refined u}, c.Reaches {} clock prec s₀ r s →
      c.explore none r.prec s = (.ok (some .suspect), t) →
      c.refine r.prec t = (.ok (.spurious refined), u) → Precision.refines refined r.prec = true)
    {e : Except Fault (Report S A P W)} (h : (c.run {} clock turns prec s₀).1 = some e) :
    (∃ report, e = .ok report ∧ Decided report) ∨ ∃ r s t u stop,
      c.Reaches {} clock prec s₀ r s ∧ c.explore none r.prec s = (.ok (some .suspect), t) ∧
        c.refine r.prec t = (.error stop, u) ∧
        c.ending (r.recorded .suspect (c.graph t).metrics) u stop = some e := by
  obtain ⟨f, hlimit, -⟩ | ⟨r, s, hreach, hround⟩ := c.exists_rounds_of_run h
  · cases hlimit.symm.trans clock.checkLimit_zero
  generalize hturn : Turn.done (some e) = turn at hround
  cases hround with
  | limit h => exact absurd h.1 (Nat.lt_irrefl 0)
  | stopped hexplore => exact absurd hexplore (hexplores hreach)
  | unfinished => cases Turn.done.inj hturn
  | safe =>
    obtain rfl := Option.some.inj (Turn.done.inj hturn)
    exact .inl ⟨_, rfl, .inl ⟨_, rfl⟩⟩
  | failed hexplore hrefine =>
    exact .inr ⟨r, s, _, _, _, hreach, hexplore, hrefine, (Turn.done.inj hturn).symm⟩
  | genuine =>
    obtain rfl := Option.some.inj (Turn.done.inj hturn)
    exact .inl ⟨_, rfl, .inr ⟨_, _, rfl⟩⟩
  | notFiner hexplore hrefine hcoarser =>
    cases hcoarser.symm.trans (hfiner hreach hexplore hrefine)
  | timeUp _ _ _ htime => exact absurd htime.1 (Nat.lt_irrefl 0)
  | again => cases hturn

/-! ### Progress -/

variable [DecidableEq S] [DecidableEq A] [DecidableEq P] [Described S] [Precision P] [Described P]
  {R : Type} {x : Explorer S A P} {refuter : Refuter S A P W R} {scope : Scope} {pruning : Pruning}
  {I : P → Session S A → Prop} {μ : P → Nat}

/-- From every session where `I` holds of the precision, an iteration comes to a verdict or to a
finer precision of smaller measure, of which `I` holds again. -/
structure Progresses (x : Explorer S A P) (refuter : Refuter S A P W R) (scope : Scope)
    (pruning : Pruning) (I : P → Session S A → Prop) (μ : P → Nat) : Prop where
  /-- Explorations come to a verdict. -/
  explore : ∀ {p s}, I p s → ∃ N v t, ∀ turns, N ≤ turns →
    x.explore turns none p s = (.ok (some v), t)
  /-- Refinements find a genuine counterexample, or a finer precision. -/
  refine : ∀ {p s t turns}, I p s → x.explore turns none p s = (.ok (some .suspect), t) →
    (∃ path witness u, refuter.run scope pruning p t = (.ok (.genuine path witness), u)) ∨
      ∃ refined u, refuter.run scope pruning p t = (.ok (.spurious refined), u) ∧
        Precision.refines refined p = true ∧ μ refined < μ p ∧ I refined u

/-- The loop comes to a verdict from every session where `I` holds. -/
theorem Progresses.exists_iterate (h : Progresses x refuter scope pruning I μ) (clock : Clock)
    {r : Round P} {s : Session S A} (hr : I r.prec s) : ∃ N report t, Decided report ∧
      report.statistics.iterations ≤ r.iterations + μ r.prec + 1 ∧
      ∀ turns fuel, N ≤ turns → N ≤ fuel →
        iterate ((ofSession x refuter scope pruning turns).round {} clock) fuel r s =
          (some (some (.ok report)), t) := by
  generalize hm : μ r.prec = m
  induction m using Nat.strongRecOn generalizing r s with
  | _ m ih =>
    obtain ⟨N, v, t, hexplore⟩ := h.explore hr
    -- the report does not depend on the turns granted
    let c := ofSession x refuter scope pruning N
    cases v with
    | safe =>
      refine ⟨N + 1, c.report (r.recorded .safe t.graph.metrics) (.safe r.prec) t, t,
        .inl ⟨r.prec, rfl⟩, ?_, fun turns fuel hturns hfuel ↦ ?_⟩
      · show r.iterations + 1 ≤ r.iterations + m + 1
        omega
      · obtain ⟨k, rfl⟩ := Nat.exists_eq_add_one.2 (Nat.lt_of_lt_of_le N.succ_pos hfuel)
        exact iterate_of_done (round_of_safe (hexplore turns (by omega)))
    | suspect =>
      obtain ⟨path, witness, u, hgenuine⟩ | ⟨refined, u, hspurious, hfiner, hlt, hI⟩ :=
        h.refine hr (hexplore N (Nat.le_refl N))
      · refine ⟨N + 1, c.report (r.recorded .suspect t.graph.metrics) (.violated path witness) u, u,
          .inr ⟨path, witness, rfl⟩, ?_, fun turns fuel hturns hfuel ↦ ?_⟩
        · show r.iterations + 1 ≤ r.iterations + m + 1
          omega
        · obtain ⟨k, rfl⟩ := Nat.exists_eq_add_one.2 (Nat.lt_of_lt_of_le N.succ_pos hfuel)
          exact iterate_of_done (round_of_genuine (hexplore turns (by omega)) hgenuine)
      · let next : Round P := { r.recorded .suspect t.graph.metrics with prec := refined }
        obtain ⟨M, report, w, hdecided, hiter, hrest⟩ :=
          ih (μ refined) (hm ▸ hlt) (r := next) hI rfl
        refine ⟨max N M + 1, report, w, hdecided, ?_, fun turns fuel hturns hfuel ↦ ?_⟩
        · have hnext : report.statistics.iterations ≤ r.iterations + 1 + μ refined + 1 := hiter
          omega
        · obtain ⟨k, rfl⟩ := Nat.exists_eq_add_one.2 (Nat.lt_of_lt_of_le (Nat.succ_pos _) hfuel)
          have hround : (ofSession x refuter scope pruning turns).round {} clock r s =
              (.again next, u) := round_of_spurious (hexplore turns (by omega)) hspurious hfiner
          exact (iterate_of_again hround).trans (hrest turns k (by omega) (by omega))

/-- **A run that progresses comes to a verdict**, and how many turns it was granted does not matter
as long as there are enough. -/
theorem Progresses.exists_run (h : Progresses x refuter scope pruning I μ) (clock : Clock)
    {prec : P} {s₀ : Session S A} (hprec : I prec { s₀ with graph := .empty }) :
    ∃ N report, Decided report ∧ report.statistics.iterations ≤ μ prec + 1 ∧
      ∀ turns, N ≤ turns →
        ((ofSession x refuter scope pruning turns).run {} clock turns prec s₀).1 =
          some (.ok report) := by
  obtain ⟨N, report, t, hdecided, hiter, hN⟩ := h.exists_iterate clock (r := { prec }) hprec
  refine ⟨N, report, hdecided, ?_, fun turns hle ↦ ?_⟩
  · rwa [Nat.zero_add] at hiter
  · exact congrArg Prod.fst (run_of_iterate clock.checkLimit_zero (hN turns turns hle hle))

/-- `I` holds throughout a run. -/
theorem Progresses.reaches (h : Progresses x refuter scope pruning I μ) {clock : Clock}
    {turns : Nat} {prec : P} {s₀ s : Session S A} {r : Round P}
    (hprec : I prec { s₀ with graph := .empty })
    (hr : (ofSession x refuter scope pruning turns).Reaches {} clock prec s₀ r s) : I r.prec s := by
  induction hr with
  | start => exact hprec
  | next _ hround ih =>
    cases hround with
    | again hexplore hrefine _ =>
      obtain ⟨path, witness, u, hgenuine⟩ | ⟨refined, u, hspurious, -, -, hI⟩ :=
        h.refine ih hexplore
      · cases hgenuine.symm.trans hrefine
      · cases hspurious.symm.trans hrefine
        exact hI

/-- **A run that progresses ends with a verdict if it ends**, whatever turns it was granted. -/
theorem Progresses.decided_of_run (h : Progresses x refuter scope pruning I μ)
    (hexplores : ∀ {turns p s e t}, I p s → x.explore turns none p s ≠ (.error e, t))
    {clock : Clock} {turns : Nat} {prec : P} {s₀ : Session S A}
    (hprec : I prec { s₀ with graph := .empty }) {e : Except Fault (Report S A P W)}
    (hrun : ((ofSession x refuter scope pruning turns).run {} clock turns prec s₀).1 = some e) :
    ∃ report, e = .ok report ∧ Decided report := by
  have hfiner : ∀ {r s t refined u},
      (ofSession x refuter scope pruning turns).Reaches {} clock prec s₀ r s →
      x.explore turns none r.prec s = (.ok (some .suspect), t) →
      refuter.run scope pruning r.prec t = (.ok (.spurious refined), u) →
      Precision.refines refined r.prec = true := by
    intro r s t refined u hreach hexplore hrefine
    rcases h.refine (h.reaches hprec hreach) hexplore with ⟨_, _, _, hgenuine⟩ | ⟨_, _, hspurious,
      hfiner, -⟩
    · cases hgenuine.symm.trans hrefine
    · cases hspurious.symm.trans hrefine
      exact hfiner
  rcases decided_or_failed_of_run (fun hreach ↦ hexplores (h.reaches hprec hreach)) hfiner hrun with
    hdecided | ⟨r, s, t, u, stop, hreach, hexplore, hrefine, -⟩
  · exact hdecided
  · obtain ⟨_, _, _, hgenuine⟩ | ⟨_, _, hspurious, -⟩ :=
      h.refine (h.reaches hprec hreach) hexplore
    · cases hgenuine.symm.trans hrefine
    · cases hspurious.symm.trans hrefine

end Checker

end AbstractionRefinement
