import AbstractionRefinement.Proofs.Progress
import AbstractionRefinement.Proofs.Refinement.Repetition
import AbstractionRefinement.Proofs.Values.Failures

/-!
# No counterexample of a program is dismissed twice

Why a trace of a program has no execution depends on its moves only, and every variable that matters
is tracked from then on. So the refuter of the program analysis absorbs its refutations, and a check
that examines one counterexample at a time does not dismiss two along the same moves: the second
time nothing is left to track, and refinement diverges.

That nodes stop covering is then of no consequence, unless the fingerprints of different moves
collide: it happens in the iteration that ends the check.

The general theorem is in `Proofs.Refinement.Repetition`, for any refuter that absorbs what it has
refuted. What is proved here is that the refuter of programs is one. The core and the slice are
computed from the moves alone, so the same moves are refuted by the same variables; once these are
tracked, the precision that the refutation asks for is the precision there is.

The theorem is about dismissals and not about examinations: the trace that ends the check by
diverging is examined a second time. It speaks of the moves of a trace and not of its fingerprint,
so a collision of fingerprints is not mistaken for a repetition.
-/

namespace AbstractionRefinement

namespace Program

variable {p : Program} {o : ProgramOptions} {meter : Meter} {clock : Clock} {turns : Nat}

/-- **The program analysis absorbs refutations**: the variables that matter are tracked. -/
theorem absorbs_refuter {maxRuns : Nat} {strategy : CoreStrategy}
    {fp : List Move → Fingerprint} : (p.refuter maxRuns strategy fp).Absorbs fun prec found ↦
      ∀ x ∈ found.vars, x ∈ prec.second.vars where
  check_eq h := congrArg (p.checkMoves maxRuns strategy) h
  absorbed h x hx := by
    obtain rfl := Except.ok.inj h
    exact IndexSet.mem_union.2 (.inr hx)
  kept h hbefore x hx := by
    obtain rfl := Except.ok.inj h
    exact IndexSet.mem_union.2 (.inl (hbefore x hx))
  refine_eq {prec _ found} h := by
    have hvars : prec.second.vars.union found.vars = prec.second.vars := by
      ext x
      rw [IndexSet.mem_union]
      exact or_iff_left_of_imp (h x)
    show Except.ok (⟨prec.first, ⟨prec.second.vars.union found.vars⟩⟩ : ProgramPrecision) = .ok prec
    rw [hvars]

/-- In iteration `k` of a check the path leads to the counterexample to be examined. -/
abbrev Examines (p : Program) (o : ProgramOptions) (meter : Meter) (clock : Clock) (turns k : Nat)
    (r : Round ProgramPrecision) (t : Session ProgramState Move)
    (path : Path ProgramState Move) : Prop :=
  (p.checker o meter turns).Examines o.loop clock (initialPrecision o) {} k r t path

/-- In iteration `k` of a check the counterexample at the end of the path is found spurious. -/
abbrev Dismisses (p : Program) (o : ProgramOptions) (meter : Meter) (clock : Clock) (turns k : Nat)
    (path : Path ProgramState Move) (t u : Session ProgramState Move) : Prop :=
  (p.checker o meter turns).Dismisses o.loop clock (initialPrecision o) {} k path t u

/-- Before iteration `k` a counterexample was dismissed that goes along other moves than the path
and has the same fingerprint. -/
abbrev Collides (p : Program) (o : ProgramOptions) (meter : Meter) (clock : Clock) (turns k : Nat)
    (path : Path ProgramState Move) : Prop :=
  (p.checker o meter turns).Collides (p.refuter o.maxRuns o.strategy o.fingerprint) o.loop clock
    (initialPrecision o) {} k path

theorem checker_of_shortest (hscope : o.scope = .shortest) : p.checker o meter turns =
    .ofSession (p.checkExplorer o meter) (p.refuter o.maxRuns o.strategy o.fingerprint) .shortest
      o.pruning turns := by
  rw [checker, hscope]

/-- A check that diverges reports it. -/
theorem check_of_examines (hscope : o.scope = .shortest) {k : Nat} {r : Round ProgramPrecision}
    {t u : Session ProgramState Move} {path : Path ProgramState Move} {f : Fingerprint}
    (h : (Checker.ofSession (p.checkExplorer o meter) (p.refuter o.maxRuns o.strategy o.fingerprint)
      .shortest o.pruning turns).Examines o.loop clock (initialPrecision o) {} k r t path)
    (hrun : (p.refuter o.maxRuns o.strategy o.fingerprint).run .shortest o.pruning r.prec t =
      (.error (.failure (.divergence f)), u)) (hk : k < turns) :
    ∃ report, p.check o meter clock turns = some (.ok report) ∧
      report.conclusion = .failed (k + 1) r.prec (.divergence f) := by
  obtain ⟨s, hs, -⟩ := h.explored
  have hcheck := congrArg Prod.fst (h.run_eq hrun hk)
  rw [← checker_of_shortest hscope] at hcheck
  refine ⟨_, hcheck, ?_⟩
  show Conclusion.failed (r.iterations + 1) r.prec (.divergence f) = _
  rw [hs.iterations_eq]

/-- **No counterexample is dismissed twice.** In every check that examines one counterexample at a
time, counterexamples dismissed in different iterations go along different moves, and one that goes
along the moves of a dismissed one ends the check with a report of divergence. Every iteration but
the first begins where a dismissal has left off, and a dismissal leaves the graph pruned but no node
kept from covering, unless two different sequences of moves have one fingerprint; if there are none
such, every node may cover whenever an iteration begins. -/
theorem dismissed_once (hscope : o.scope = .shortest) :
    (∀ {j k path path' t u t' u'}, p.Dismisses o meter clock turns j path t u →
      p.Dismisses o meter clock turns k path' t' u' → j ≠ k → path.actions ≠ path'.actions) ∧
    (∀ {j k r path path' t u t'}, p.Dismisses o meter clock turns j path t u →
      p.Examines o meter clock turns k r t' path' → j < k → path.actions = path'.actions →
        k < turns → ∃ report, p.check o meter clock turns = some (.ok report) ∧
          report.conclusion =
            .failed (k + 1) r.prec (.divergence (o.fingerprint path'.actions))) ∧
    (∀ {k r u},
      (p.checker o meter turns).Passes o.loop clock (initialPrecision o) {} (k + 1) r u →
        ∃ path t, p.Dismisses o meter clock turns k path t u) ∧
    (∀ {k path t u}, p.Dismisses o meter clock turns k path t u →
      p.Collides o meter clock turns k path ∨
        ∃ (cut : Nat) (refined : ProgramPrecision), u = { t with
          refuted := t.refuted ++ [o.fingerprint path.actions]
          graph := Refuter.pruneRefuted o.pruning t.graph [⟨path, cut, refined⟩] }) ∧
    ((∀ k path t u, p.Dismisses o meter clock turns k path t u →
        ¬p.Collides o meter clock turns k path) →
      ∀ {k r s}, (p.checker o meter turns).Passes o.loop clock (initialPrecision o) {} k r s →
        s.graph.AllCover) := by
  simp only [Dismisses, Examines, Collides, checker_of_shortest hscope]
  refine ⟨fun h h' hjk ↦ ?_, fun h he hjk hactions hk ↦ ?_, fun h ↦ ?_, fun h ↦ ?_,
    fun hno {_ _ _} h ↦ ?_⟩
  · exact h.actions_ne absorbs_refuter h' hjk
  · exact check_of_examines hscope he (he.diverges absorbs_refuter h hjk hactions) hk
  · exact h.exists_dismisses
  · exact h.collides_or_eq absorbs_refuter rfl
  · exact h.allCover absorbs_refuter rfl hno

/-- The edge of `handover` stores a value and reads it again, so nothing matters at its ends. Its
trace is dismissed once, comes up again, and the check ends in its second iteration. -/
theorem handover_diverges : ∃ p path t u r path' t' report, handover.build = .ok p ∧
    p.Dismisses { strategy := .all } {} {} 9 0 path t u ∧
    p.Examines { strategy := .all } {} {} 9 1 r t' path' ∧ path.actions = path'.actions ∧
    p.check { strategy := .all } {} {} 9 = some (.ok report) ∧
    report.conclusion = .failed 2 r.prec (.divergence (.ofActions path'.actions)) := by
  have hrun : (handover.build.toOption.any fun p ↦
      let c := p.checker { strategy := .all } {} 9
      let first := c.explore none ⟨(), {}⟩ {}
      let refined := c.refine ⟨(), {}⟩ first.2
      let second := c.explore none ⟨(), {}⟩ refined.2
      let moves := fun (g : Graph ProgramState Move) ↦ g.counterexamples.head?.any fun id ↦
        (g.pathTo id).toOption.any fun path ↦ path.actions = [⟨0, 0, 1⟩]
      first.1 = .ok (some .suspect) && (moves first.2.graph &&
        (refined.1 = .ok (.spurious ⟨(), {}⟩) && (second.1 = .ok (some .suspect) &&
          moves second.2.graph)))) = true := by
    decide +kernel
  obtain ⟨p, hp, hrun⟩ := exists_of_toOption_any hrun
  simp only [Bool.and_eq_true, decide_eq_true_eq] at hrun
  obtain ⟨hfirst, hmoves, hrefined, hsecond, hmoves'⟩ := hrun
  set c := p.checker { strategy := .all } {} 9
  generalize hexplore : c.explore none ⟨(), {}⟩ {} = first at *
  obtain ⟨_, t⟩ := first
  obtain rfl := hfirst
  generalize hrefine : c.refine ⟨(), {}⟩ t = refined at *
  obtain ⟨_, u⟩ := refined
  obtain rfl := hrefined
  generalize hexplore' : c.explore none ⟨(), {}⟩ u = second at *
  obtain ⟨_, t'⟩ := second
  obtain rfl := hsecond
  obtain ⟨id, hid, hpath⟩ := (Option.any_eq_true _ _).1 hmoves
  obtain ⟨path, hpath, hactions⟩ := exists_of_toOption_any hpath
  obtain ⟨id', hid', hpath'⟩ := (Option.any_eq_true _ _).1 hmoves'
  obtain ⟨path', hpath', hactions'⟩ := exists_of_toOption_any hpath'
  have hsame : path.actions = path'.actions :=
    (of_decide_eq_true hactions).trans (of_decide_eq_true hactions').symm
  -- the first iteration
  have hstart : c.Passes {} {} ⟨(), {}⟩ {} 0 { prec := ⟨(), {}⟩ } {} := .start rfl
  have hexamines : c.Examines {} {} ⟨(), {}⟩ {} 0 { prec := ⟨(), {}⟩ } t path :=
    ⟨⟨{}, hstart, hexplore⟩, by decide, id, hid, hpath⟩
  -- it leads on to the second
  have hround : c.round {} {} { prec := ⟨(), {}⟩ } {} = (.again _, u) :=
    Checker.round_of_spurious hexplore hrefine (by decide)
  have hexamines' : c.Examines {} {} ⟨(), {}⟩ {} 1 _ t' path' :=
    ⟨⟨u, .next hstart hround, hexplore'⟩, fun h ↦ Nat.lt_irrefl 0 h.1, id', hid', hpath'⟩
  have hdismisses : p.Dismisses { strategy := .all } {} {} 9 0 path t u :=
    ⟨_, _, hexamines, hrefine⟩
  have hscope : ({ strategy := .all } : ProgramOptions).scope = .shortest := rfl
  obtain ⟨report, hcheck, hreport⟩ :=
    (dismissed_once hscope).2.1 hdismisses hexamines' Nat.zero_lt_one hsame (by decide)
  exact ⟨p, path, t, u, _, path', t', report, hp, hdismisses, hexamines', hsame, hcheck, hreport⟩

end Program

end AbstractionRefinement
