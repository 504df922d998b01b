import AbstractionRefinement.Proofs.Refinement.Repetition
import AbstractionRefinement.Tabular

/-!
# Keeping the books of a run

A run counts its iterations, records them and replaces its precision, each at another place of the
loop, and there are many ways out. That all this fits together is said against an independent
account: the collaborators are watched, and each of their calls is written down with its precision
and what it gave (`Checker.logged`). Watching changes nothing (`Checker.plain_run`).

Between two iterations the calls are those of an ascent through finer and finer precisions
(`ascent`), and counter, records and precision are what they have to be for it
(`Round.Ascends`). The last iteration adds one or two calls, or none at the limit, and whatever it
comes to, the report agrees with the calls (`Report.Agrees`).

The account is kept by the checker and not by the loop, so it cannot be influenced by what is to be
checked. A call is written down with its answer when it returns; what a call did to the state is not
part of the account, since the loop does not look at it.

The agreement is said for each conclusion separately: how many explorations there were, which of
them are recorded, which precision is reported, and which call ended the run. In particular, an
exploration that stopped early is counted as an iteration and not recorded.
-/

namespace AbstractionRefinement

variable {σ S A P W : Type}

/-! ### Watching the collaborators -/

/-- A call of a collaborator, with its precision and what it gave. -/
inductive Call (S A P W : Type) where
  /-- An exploration. -/
  | explored (prec : P) (outcome : Except Abort (Option Verdict))
  /-- A refinement. -/
  | refined (prec : P) (outcome : Except Abort (Refinement S A P W))

/-- The precision, if the call is an exploration. -/
def Call.explored? : Call S A P W → Option P
  | .explored prec _ => some prec
  | .refined _ _ => none

/-- Whether the call is an exploration that stopped early. -/
def Call.isStopped : Call S A P W → Bool
  | .explored _ (.error _) => true
  | _ => false

/-- The precisions of the explorations among the calls, in their order. -/
def explorations (calls : List (Call S A P W)) : List P := calls.filterMap Call.explored?

/-- The explorations of a log are counted piece by piece. -/
theorem explorations_append {calls calls' : List (Call S A P W)} :
    explorations (calls ++ calls') = explorations calls ++ explorations calls' :=
  List.filterMap_append

/-- Write down what a computation gives. -/
def Work.logged {α κ : Type} (call : Except Abort α → κ) (m : Work σ α) : Work (σ × List κ) α :=
  fun u ↦ ((m u.1).1, (m u.1).2, u.2 ++ [call (m u.1).1])

/-- Logged work does what the work does, and adds one call to the log. -/
theorem Work.logged_of_eq {α κ : Type} {call : Except Abort α → κ} {m : Work σ α}
    {u : σ × List κ} {x : Except Abort α} {t : σ} (h : m u.1 = (x, t)) :
    m.logged call u = (x, t, u.2 ++ [call x]) := by
  rw [Work.logged, h]

/-- What logged work does to the state is what the work does. -/
theorem Work.eq_of_logged {α κ : Type} {call : Except Abort α → κ} {m : Work σ α}
    {u v : σ × List κ} {x : Except Abort α} (h : m.logged call u = (x, v)) :
    m u.1 = (x, v.1) ∧ v.2 = u.2 ++ [call x] := by
  obtain ⟨rfl, rfl⟩ := Prod.mk.inj h
  exact ⟨rfl, rfl⟩

/-- What is left of an outcome when the calls written down are left out. -/
def plain {α κ : Type} (x : α × σ × List κ) : α × σ := (x.1, x.2.1)

/-- A loop that is the same turn by turn is the same as a whole. -/
theorem plain_iterate {τ ρ κ : Type} {turn : τ → StateM σ (Turn τ ρ)}
    {turn' : τ → StateM (σ × List κ) (Turn τ ρ)} (h : ∀ p u, plain (turn' p u) = turn p u.1)
    {turns : Nat} {p : τ} {u : σ × List κ} :
    plain (iterate turn' turns p u) = iterate turn turns p u.1 := by
  induction turns generalizing p u with
  | zero => rfl
  | succ turns ih =>
    have hturn := h p u
    rcases hx : turn' p u with ⟨p' | a, v⟩
    · rw [hx] at hturn
      rw [iterate_of_again hx, iterate_of_again hturn.symm]
      exact ih
    · rw [hx] at hturn
      rw [iterate_of_done hx, iterate_of_done hturn.symm]
      rfl

namespace Checker

variable (c : Checker σ S A P W)

/-- The checker whose calls are written down. -/
def logged : Checker (σ × List (Call S A P W)) S A P W where
  graph u := c.graph u.1
  counters u := c.counters u.1
  restart u := (c.restart u.1, u.2)
  explore deadline prec := (c.explore deadline prec).logged (.explored prec)
  refine prec := (c.refine prec).logged (.refined prec)

variable {c} {r : Round P} {u v : σ × List (Call S A P W)}

/-- The calls of an exploration and a refinement. -/
theorem calls_of_refine {w : σ × List (Call S A P W)} {deadline : Option Nat} {prec : P}
    {x : Except Abort (Option Verdict)} {y : Except Abort (Refinement S A P W)}
    (hexplore : c.logged.explore deadline prec u = (x, v))
    (hrefine : c.logged.refine prec v = (y, w)) :
    w.2 = u.2 ++ [.explored prec x, .refined prec y] := by
  rw [(Work.eq_of_logged hrefine).2, (Work.eq_of_logged hexplore).2, List.append_assoc]
  rfl

/-- Giving up is the same with a log. -/
theorem plain_giveUp {stop : Abort} : plain (c.logged.giveUp r stop u) = c.giveUp r stop u.1 := by
  rcases stop with cause | f
  · cases cause <;> rfl
  · rfl

variable [Precision P] [Described P] {o : LoopOptions} {clock : Clock}

/-- Going on to the next iteration is the same with a log. -/
theorem plain_advance {refined : P} :
    plain (c.logged.advance o clock r refined u) = c.advance o clock r refined u.1 := by
  rw [advance, advance]
  split
  · exact plain_giveUp
  · split <;> rfl

/-- Refining, and what follows from it, is the same with a log. -/
theorem plain_refineRound :
    plain (c.logged.refineRound o clock r u) = c.refineRound o clock r u.1 := by
  rcases hx : c.refine r.prec u.1 with ⟨e | refined | ⟨path, witness⟩, t⟩
  · rw [c.refineRound_of_error hx, c.logged.refineRound_of_error (Work.logged_of_eq hx),
      ← giveUp_eq, ← giveUp_eq]
    exact plain_giveUp
  · rw [c.refineRound_of_spurious hx,
      c.logged.refineRound_of_spurious (Work.logged_of_eq hx)]
    exact plain_advance
  · rw [c.refineRound_of_genuine hx,
      c.logged.refineRound_of_genuine (Work.logged_of_eq hx)]
    rfl

/-- **An iteration is the same** whether its calls are written down or not. -/
theorem plain_round : plain (c.logged.round o clock r u) = c.round o clock r u.1 := by
  rw [round, round]
  split
  · rfl
  · rcases hx : c.explore (secondsLeft o clock r.iterations) r.prec u.1 with ⟨e | _ | verdict, t⟩
    all_goals
      have hlogged : c.logged.explore (secondsLeft o clock r.iterations) r.prec u = _ :=
        Work.logged_of_eq hx
      simp only [ExceptT.run, bind, StateT.bind, hx, hlogged]
    · exact plain_giveUp
    · rfl
    · cases verdict with
      | safe => rfl
      | suspect => exact plain_refineRound

/-- A run is its loop, whether or not it ends. -/
theorem run_eq_iterate {turns : Nat} {prec : P} {s₀ : σ}
    (hlimit : clock.checkLimit o.timeLimit = .ok ()) : c.run o clock turns prec s₀ =
      ((iterate (c.round o clock) turns { prec } (c.restart s₀)).1.join,
        (iterate (c.round o clock) turns { prec } (c.restart s₀)).2) := by
  rw [run, hlimit]
  rfl

/-- **So is a run.** -/
theorem plain_run {turns : Nat} {prec : P} (hlimit : clock.checkLimit o.timeLimit = .ok ()) :
    plain (c.logged.run o clock turns prec u) = c.run o clock turns prec u.1 := by
  have hround : ∀ r u, plain (c.logged.round o clock r u) = c.round o clock r u.1 :=
    fun _ _ ↦ plain_round
  have hloop : plain (iterate (c.logged.round o clock) turns { prec } (c.logged.restart u)) =
      iterate (c.round o clock) turns { prec } (c.restart u.1) := plain_iterate hround
  rw [run_eq_iterate hlimit, run_eq_iterate hlimit, ← hloop]
  rfl

/-- The iterations passed are the same, too. -/
theorem Passes.exists_logged {prec : P} {s₀ s : σ} {k : Nat}
    (h : c.Passes o clock prec s₀ k r s) :
    ∃ calls, c.logged.Passes o clock prec (s₀, []) k r (s, calls) := by
  induction h with
  | start hlimit => exact ⟨[], .start hlimit⟩
  | @next k r r' s t _ hround ih =>
    obtain ⟨calls, h⟩ := ih
    have hplain : plain (c.logged.round o clock r (s, calls)) = (.again r', t) :=
      plain_round.trans hround
    obtain ⟨hturn, hstate⟩ := Prod.mk.inj hplain
    exact ⟨_, h.next (Prod.ext hturn (Prod.ext hstate rfl))⟩

/-- **How a run goes**: up to an iteration that ends it, or as far as turns are granted. -/
theorem exists_passes_of_run {turns : Nat} {prec : P} {s₀ t : σ} {ending : Ending S A P W}
    (hlimit : clock.checkLimit o.timeLimit = .ok ())
    (h : c.run o clock turns prec s₀ = (ending, t)) :
    (∃ k r s, k < turns ∧ c.Passes o clock prec s₀ k r s ∧
      c.round o clock r s = (.done ending, t)) ∨
    ∃ r, ending = none ∧ c.Passes o clock prec s₀ turns r t := by
  -- the iteration that ends the run is found by following it
  have hfollow : ∀ n, (∃ k r s e t, k < n ∧ c.Passes o clock prec s₀ k r s ∧
      c.round o clock r s = (.done e, t)) ∨ ∃ r s, c.Passes o clock prec s₀ n r s := by
    intro n
    induction n with
    | zero => exact .inr ⟨_, _, .start hlimit⟩
    | succ n ih =>
      rcases ih with ⟨k, r, s, e, t, hk, hs, hdone⟩ | ⟨r, s, hs⟩
      · exact .inl ⟨k, r, s, e, t, Nat.lt_succ_of_lt hk, hs, hdone⟩
      · rcases hround : c.round o clock r s with ⟨r' | e, t⟩
        · exact .inr ⟨r', t, hs.next hround⟩
        · exact .inl ⟨n, r, s, e, t, Nat.lt_succ_self n, hs, hround⟩
  rcases hfollow turns with ⟨k, r, s, e, t', hk, hs, hdone⟩ | ⟨r, s, hs⟩
  · obtain ⟨rfl, rfl⟩ := Prod.mk.inj ((hs.run_eq hdone hk).symm.trans h)
    exact .inl ⟨k, r, s, hk, hs, hdone⟩
  · have hnone : iterate (c.round o clock) turns { prec } (c.restart s₀) = (none, s) :=
      hs.iterate_eq (n := 0)
    rw [run_eq_iterate hlimit, hnone] at h
    obtain ⟨rfl, rfl⟩ := Prod.mk.inj h
    exact .inr ⟨r, rfl, hs⟩

end Checker

/-! ### Ascents -/

/-- The calls of iterations that all end in a spurious refinement: from a precision through the
refined ones. -/
def ascent : P → List P → List (Call S A P W)
  | _, [] => []
  | p, q :: refined =>
    .explored p (.ok (some .suspect)) :: .refined p (.ok (.spurious q)) :: ascent q refined

section Ascents

variable {prec p q : P} {refined refined' : List P} {calls tail : List (Call S A P W)}

/-- An ascent by one more precision has one more exploration and one more refinement. -/
theorem ascent_concat : (ascent prec (refined ++ [q]) : List (Call S A P W)) =
    ascent prec refined ++ [.explored (refined.getLastD prec) (.ok (some .suspect)),
      .refined (refined.getLastD prec) (.ok (.spurious q))] := by
  induction refined generalizing prec with
  | nil => rfl
  | cons p refined ih =>
    rw [List.cons_append, ascent, ih, ascent, List.getLastD_cons]
    rfl

/-- All precisions but the last are explored. -/
theorem explorations_ascent :
    explorations (ascent prec refined : List (Call S A P W)) ++ [refined.getLastD prec] =
      prec :: refined := by
  induction refined generalizing prec with
  | nil => rfl
  | cons p refined ih =>
    rw [List.getLastD_cons]
    exact congrArg (prec :: ·) ih

/-- No call of an ascent is stopped. -/
theorem any_isStopped_ascent :
    (ascent prec refined : List (Call S A P W)).any Call.isStopped = false := by
  induction refined generalizing prec with
  | nil => rfl
  | cons p refined ih => exact ih

/-- Ascents that begin with the same calls begin alike. -/
theorem exists_of_ascent_append (h : ascent prec refined ++ tail = ascent prec refined') :
    ∃ rest, refined' = refined ++ rest ∧ tail = ascent (refined.getLastD prec) rest := by
  induction refined generalizing prec refined' with
  | nil => exact ⟨refined', rfl, h⟩
  | cons p refined ih =>
    cases refined' with
    | nil => cases h
    | cons p' refined' =>
      obtain ⟨-, hrefined⟩ := List.cons.inj h
      obtain ⟨hcall, hrest⟩ := List.cons.inj hrefined
      obtain rfl : p = p' := by
        injection hcall with _ hok
        injection hok with hspurious
        injection hspurious
      obtain ⟨rest, rfl, htail⟩ := ih hrest
      refine ⟨rest, rfl, ?_⟩
      rwa [List.getLastD_cons]

/-- The precisions of an ascent can be read off its calls. -/
theorem ascent_injective (h : (ascent prec refined : List (Call S A P W)) = ascent prec refined') :
    refined = refined' := by
  obtain ⟨rest, rfl, hrest⟩ := exists_of_ascent_append ((List.append_nil _).trans h)
  cases rest with
  | nil => rw [List.append_nil]
  | cons => cases hrest

/-- One call is half an iteration. -/
theorem singleton_ne_ascent {call : Call S A P W} {rest : List P} : [call] ≠ ascent p rest := by
  intro heq
  cases rest with
  | nil => cases heq
  | cons q rest => cases (List.cons.inj heq).2

end Ascents

/-! ### Early stops -/

/-- A failure that is told is that of the current iteration, under the current precision. -/
def Conclusion.Fits (r : Round P) (conclusion : Conclusion S A P W) : Prop :=
  ∀ {n p cause}, conclusion = .failed n p cause → n = r.iterations ∧ p = r.prec

/-- What is told of an operation that stopped early. -/
theorem Checker.exists_fits_of_ending {c : Checker σ S A P W} {r : Round P} {s : σ} {e : Abort}
    {report : Report S A P W}
    (h : c.ending r s e = some (.ok report)) : ∃ conclusion, conclusion.Fits r ∧
      report = c.report r conclusion s ∧
      ∀ k p, conclusion = .undecided (.iterations k) p →
        e = .failure (.exhausted (.iterations k)) := by
  rcases e with cause | f
  · cases cause with
    | exhausted reason =>
      refine ⟨_, ?_, (Except.ok.inj (Option.some.inj h)).symm, ?_⟩
      · rintro n p cause ⟨⟩
      · rintro k p ⟨⟩
        rfl
    | _ =>
      refine ⟨_, ?_, (Except.ok.inj (Option.some.inj h)).symm, ?_⟩
      · rintro n p cause ⟨⟩
        exact ⟨rfl, rfl⟩
      · rintro k p ⟨⟩
  · cases Option.some.inj h

/-! ### Between iterations -/

variable [Precision P]

/-- The second precision is at least as fine as the first. -/
def Finer (p q : P) : Prop := Precision.refines q p = true

theorem isChain_concat {prec q : P} {refined : List P} (h : (prec :: refined).IsChain Finer)
    (hq : Finer (refined.getLastD prec) q) : (prec :: (refined ++ [q])).IsChain Finer := by
  induction refined generalizing prec with
  | nil => exact List.isChain_cons_cons.2 ⟨hq, .singleton q⟩
  | cons p refined ih =>
    obtain ⟨hp, hrest⟩ := List.isChain_cons_cons.1 h
    rw [List.getLastD_cons] at hq
    exact List.isChain_cons_cons.2 ⟨hp, ih hrest hq⟩

/-- The calls of an iteration with a refinement that gives no finer precision. -/
theorem refined_ne_ascent {p : P} {outcome : Except Abort (Refinement S A P W)}
    (h : ∀ q, outcome = .ok (.spurious q) → ¬Finer p q) {rest : List P}
    (hrest : (p :: rest).IsChain Finer) :
    [.explored p (.ok (some .suspect)), .refined p outcome] ≠ ascent p rest := by
  intro heq
  cases rest with
  | nil => cases heq
  | cons q rest =>
    injection heq with _ heq
    injection heq with heq _
    injection heq with _ heq
    exact h q heq (List.isChain_cons_cons.1 hrest).1

/-- After an ascent through the refined precisions, the round keeps the books of it. -/
structure Round.Ascends (o : LoopOptions) (prec : P) (refined : List P)
    (calls : List (Call S A P W)) (r : Round P) : Prop where
  /-- Each precision is at least as fine as the one before. -/
  finer : (prec :: refined).IsChain Finer
  /-- The calls are those of the ascent. -/
  calls_eq : calls = ascent prec refined
  /-- The current precision is the last one. -/
  prec_eq : r.prec = refined.getLastD prec
  /-- Iterations are counted. -/
  iterations_eq : r.iterations = refined.length
  /-- Records are numbered. -/
  numbered : r.records.map Record.iteration = List.range' 1 refined.length
  /-- Records have the precisions explored. -/
  explored : r.records.map Record.prec = explorations calls
  /-- No more iterations than allowed have run. -/
  allowed : 0 < o.maxIterations → refined.length ≤ o.maxIterations

namespace Round.Ascends

variable {o : LoopOptions} {prec q : P} {refined : List P} {calls : List (Call S A P W)}
  {r : Round P}

theorem start : ({ prec } : Round P).Ascends o prec [] ([] : List (Call S A P W)) :=
  ⟨.singleton prec, rfl, rfl, rfl, rfl, rfl, fun _ ↦ Nat.zero_le _⟩

/-- The precisions explored and the current one. -/
theorem explorations_concat (h : r.Ascends o prec refined calls) :
    explorations calls ++ [r.prec] = prec :: refined := by
  rw [h.calls_eq, h.prec_eq, explorations_ascent]

/-- There was one exploration for each refined precision. -/
theorem length_explorations (h : r.Ascends o prec refined calls) :
    (explorations calls).length = refined.length := by
  have hlength := congrArg List.length h.explorations_concat
  simpa using hlength

/-- There is one record for each refined precision. -/
theorem length_records (h : r.Ascends o prec refined calls) :
    r.records.length = refined.length := by
  rw [← h.length_explorations, ← h.explored, List.length_map]

/-- The precisions recorded and the current one. -/
theorem explored_concat (h : r.Ascends o prec refined calls) :
    r.records.map Record.prec ++ [r.prec] = prec :: refined := by
  rw [h.explored, h.explorations_concat]

/-- The precisions that are recorded get finer. -/
theorem finer_records (h : r.Ascends o prec refined calls) :
    (r.records.map Record.prec).IsChain Finer := by
  have hfiner := h.finer
  rw [← h.explored_concat] at hfiner
  exact hfiner.left_of_append

theorem any_isStopped (h : r.Ascends o prec refined calls) :
    calls.any Call.isStopped = false := by
  rw [h.calls_eq, any_isStopped_ascent]

/-- A record more keeps the numbering. -/
theorem numbered_recorded (h : r.Ascends o prec refined calls) {verdict : Verdict}
    {metrics : Metrics} : (r.recorded verdict metrics).records.map Record.iteration =
      List.range' 1 (refined.length + 1) := by
  show (r.records ++ [_]).map Record.iteration = _
  rw [List.map_append, h.numbered, List.range'_concat, Nat.one_mul, Nat.add_comm 1,
    ← h.iterations_eq]
  rfl

/-- A record more has the precision explored last. -/
theorem explored_recorded (h : r.Ascends o prec refined calls) {verdict : Verdict}
    {metrics : Metrics} :
    (r.recorded verdict metrics).records.map Record.prec = prec :: refined := by
  show (r.records ++ [_]).map Record.prec = _
  rw [List.map_append, ← h.explored_concat]
  rfl

/-- **One iteration more.** -/
theorem next (h : r.Ascends o prec refined calls)
    (hallowed : ¬(0 < o.maxIterations ∧ o.maxIterations ≤ r.iterations))
    (hq : Precision.refines q r.prec = true) {metrics : Metrics} :
    { r.recorded .suspect metrics with prec := q }.Ascends o prec (refined ++ [q])
      (calls ++ [Call.explored r.prec (.ok (some .suspect)),
        Call.refined r.prec (.ok (.spurious q))]) where
  finer := isChain_concat h.finer (h.prec_eq ▸ hq)
  calls_eq := by rw [ascent_concat, ← h.calls_eq, ← h.prec_eq]
  prec_eq := (List.getLastD_concat ..).symm
  iterations_eq := by
    show r.iterations + 1 = _
    rw [h.iterations_eq, List.length_append, List.length_singleton]
  numbered := by
    rw [List.length_append, List.length_singleton]
    exact h.numbered_recorded
  explored := by
    refine h.explored_recorded.trans ?_
    rw [explorations_append, ← h.explorations_concat]
    rfl
  allowed hmax := by
    rw [List.length_append, List.length_singleton, ← h.iterations_eq]
    omega

end Round.Ascends

/-! ### The report -/

/-- The report agrees with the calls. -/
structure Report.Agrees (calls : List (Call S A P W)) (report : Report S A P W) : Prop where
  /-- Records are numbered from one, without gap. -/
  numbered : report.records.map Record.iteration = List.range' 1 report.records.length
  /-- Records have the precisions of the explorations, in their order. -/
  explored : report.records.map Record.prec <+: explorations calls
  /-- The precision of a record is at least as fine as that of the one before. -/
  finer : (report.records.map Record.prec).IsChain Finer
  /-- As many iterations are counted as there are explorations. -/
  counted : report.statistics.iterations = (explorations calls).length
  /-- All of them are recorded, but for one whose exploration stopped early. -/
  recorded : report.records.length + (if calls.any Call.isStopped then 1 else 0) =
    report.statistics.iterations
  /-- A failure is that of the last iteration, and has the precision of its exploration. -/
  failed : ∀ {n p cause}, report.conclusion = .failed n p cause →
    n = report.statistics.iterations ∧ (explorations calls).getLast? = some p

namespace Round.Ascends

variable {c : Checker σ S A P W} {o : LoopOptions} {prec : P} {refined : List P}
  {calls : List (Call S A P W)} {r : Round P} {conclusion : Conclusion S A P W} {s : σ}

/-- At the limit. -/
theorem agrees (h : r.Ascends o prec refined calls)
    (hfails : ∀ {n p cause}, conclusion ≠ .failed n p cause) :
    (c.report r conclusion s).Agrees calls where
  numbered := h.numbered.trans (h.length_records ▸ rfl)
  explored := h.explored ▸ List.prefix_rfl
  finer := h.finer_records
  counted := h.iterations_eq.trans h.length_explorations.symm
  recorded := by
    rw [h.any_isStopped]
    exact h.length_records.trans h.iterations_eq.symm
  failed hfailed := absurd hfailed hfails

/-- After an exploration under the current precision. -/
theorem agrees_explored (h : r.Ascends o prec refined calls) {r' : Round P}
    {calls' : List (Call S A P W)} (hexplored : explorations calls' = prec :: refined)
    (hiterations : r'.iterations = r.iterations + 1) (hprec : r'.prec = r.prec)
    (hnumbered : r'.records.map Record.iteration = List.range' 1 r'.records.length)
    (hrecords : r'.records.map Record.prec <+: prec :: refined)
    (hcount : r'.records.length + (if calls'.any Call.isStopped then 1 else 0) = r'.iterations)
    (hfits : conclusion.Fits r') : (c.report r' conclusion s).Agrees calls' where
  numbered := hnumbered
  explored := hexplored ▸ hrecords
  finer := by
    obtain ⟨rest, hrest⟩ := hrecords
    have hfiner := h.finer
    rw [← hrest] at hfiner
    exact hfiner.left_of_append
  counted := by
    rw [hexplored, List.length_cons, ← h.iterations_eq]
    exact hiterations
  recorded := hcount
  failed hfailed := by
    obtain ⟨hn, rfl⟩ := hfits hfailed
    refine ⟨hn, ?_⟩
    rw [hexplored, ← h.explorations_concat, List.getLast?_concat, hprec]

/-- The exploration stopped early. -/
theorem agrees_begun (h : r.Ascends o prec refined calls) (hfits : conclusion.Fits r.begun)
    {e : Abort} :
    (c.report r.begun conclusion s).Agrees (calls ++ [.explored r.prec (.error e)]) := by
  refine h.agrees_explored (explorations_append.trans h.explorations_concat) rfl rfl
    (h.numbered.trans (h.length_records ▸ rfl)) ⟨_, h.explored_concat⟩ ?_ hfits
  rw [List.any_append, if_pos (by simp [Call.isStopped])]
  show r.records.length + 1 = r.iterations + 1
  rw [h.length_records, h.iterations_eq]

/-- The exploration came to an end. -/
theorem agrees_recorded (h : r.Ascends o prec refined calls) {verdict : Verdict}
    {metrics : Metrics} (hfits : conclusion.Fits (r.recorded verdict metrics))
    {tail : List (Call S A P W)} (htail : explorations tail = [r.prec])
    (hstopped : tail.any Call.isStopped = false) :
    (c.report (r.recorded verdict metrics) conclusion s).Agrees (calls ++ tail) := by
  have hexplored : explorations (calls ++ tail) = prec :: refined := by
    rw [explorations_append, htail, h.explorations_concat]
  have hlength : (r.recorded verdict metrics).records.length = refined.length + 1 := by
    rw [← List.length_cons, ← h.explored_recorded, List.length_map]
  refine h.agrees_explored hexplored rfl rfl (h.numbered_recorded.trans (hlength ▸ rfl))
    (h.explored_recorded ▸ List.prefix_rfl) ?_ hfits
  rw [List.any_append, h.any_isStopped, hstopped]
  exact hlength.trans (congrArg (· + 1) h.iterations_eq.symm)

end Round.Ascends

/-! ### The last iteration -/

/-- An iteration ends the run after an exploration, and not for the number of iterations. -/
structure Round.Closes (calls tail : List (Call S A P W)) (ending : Ending S A P W) (r : Round P) :
    Prop where
  /-- It has one exploration, under the current precision. -/
  explored : explorations tail = [r.prec]
  /-- Its calls do not carry an ascent on. -/
  stays : ∀ {rest}, (r.prec :: rest).IsChain Finer → tail ≠ ascent r.prec rest
  /-- The report agrees with the calls. -/
  agrees : ∀ {report}, ending = some (.ok report) → report.Agrees (calls ++ tail)
  /-- The number of iterations is not the reason. -/
  reason : ∀ {report k p}, ending = some (.ok report) →
    report.conclusion ≠ .undecided (.iterations k) p

namespace Round.Ascends

variable {c : Checker σ S A P W} {o : LoopOptions} {prec : P} {refined : List P}
  {calls : List (Call S A P W)} {r : Round P} {s : σ}

/-- The exploration stopped early. -/
theorem closes_stopped (h : r.Ascends o prec refined calls) {e : Abort}
    (he : ∀ k, e ≠ .failure (.exhausted (.iterations k))) :
    r.Closes calls [.explored r.prec (.error e)] (c.ending r.begun s e) where
  explored := rfl
  stays _ := singleton_ne_ascent
  agrees hending := by
    obtain ⟨conclusion, hfits, rfl, -⟩ := Checker.exists_fits_of_ending hending
    exact h.agrees_begun hfits
  reason hending := by
    obtain ⟨conclusion, -, rfl, hreason⟩ := Checker.exists_fits_of_ending hending
    exact fun hundecided ↦ he _ (hreason _ _ hundecided)

/-- The run comes to a verdict. -/
theorem closes_report (h : r.Ascends o prec refined calls) {verdict : Verdict} {metrics : Metrics}
    {tail : List (Call S A P W)} {conclusion : Conclusion S A P W}
    (hfailed : ∀ n p cause, conclusion ≠ .failed n p cause)
    (hundecided : ∀ reason p, conclusion ≠ .undecided reason p)
    (hexplored : explorations tail = [r.prec]) (hstopped : tail.any Call.isStopped = false)
    (hstays : ∀ {rest}, (r.prec :: rest).IsChain Finer → tail ≠ ascent r.prec rest) :
    r.Closes calls tail (some (.ok (c.report (r.recorded verdict metrics) conclusion s))) where
  explored := hexplored
  stays := hstays
  agrees hreport := by
    obtain rfl := Except.ok.inj (Option.some.inj hreport)
    exact h.agrees_recorded (fun h ↦ absurd h (hfailed _ _ _)) hexplored hstopped
  reason hreport := by
    obtain rfl := Except.ok.inj (Option.some.inj hreport)
    exact hundecided _ _

/-- The refinement stopped early, or its precision was refused. -/
theorem closes_ending (h : r.Ascends o prec refined calls) {metrics : Metrics}
    {outcome : Except Abort (Refinement S A P W)} {e : Abort}
    (he : ∀ k, e ≠ .failure (.exhausted (.iterations k)))
    (houtcome : ∀ q, outcome = .ok (.spurious q) → ¬Finer r.prec q) :
    r.Closes calls [.explored r.prec (.ok (some .suspect)), .refined r.prec outcome]
      (c.ending (r.recorded .suspect metrics) s e) := by
  refine ⟨rfl, refined_ne_ascent houtcome, fun hreport ↦ ?_, fun hreport ↦ ?_⟩
  · obtain ⟨conclusion, hfits, rfl, -⟩ := Checker.exists_fits_of_ending hreport
    exact h.agrees_recorded hfits rfl rfl
  · obtain ⟨conclusion, -, rfl, hreason⟩ := Checker.exists_fits_of_ending hreport
    exact fun hundecided ↦ he _ (hreason _ _ hundecided)

/-- The calls of a run that is closed are not those of an ascent. -/
theorem ne_ascent_of_closes (h : r.Ascends o prec refined calls) {tail : List (Call S A P W)}
    {ending : Ending S A P W} (hcloses : r.Closes calls tail ending) {refined' : List P}
    (hfiner : (prec :: refined').IsChain Finer) : calls ++ tail ≠ ascent prec refined' := by
  intro heq
  rw [h.calls_eq] at heq
  obtain ⟨rest, rfl, htail⟩ := exists_of_ascent_append heq
  rw [← h.prec_eq] at htail
  refine hcloses.stays ?_ htail
  rw [← List.cons_append, ← h.explorations_concat, List.append_assoc] at hfiner
  exact hfiner.right_of_append

end Round.Ascends

namespace Checker

variable {c : Checker σ S A P W} {o : LoopOptions} {clock : Clock} {prec : P} {refined : List P}
  {calls calls' : List (Call S A P W)} {r : Round P} {s t : σ} {ending : Ending S A P W}
  [Described P]

/-- **How a run ends**: at the limit, or with an exploration. -/
theorem limit_or_closes (htime : o.timeLimit = 0)
    (hexplore : ∀ deadline p s k,
      (c.explore deadline p s).1 ≠ .error (.failure (.exhausted (.iterations k))))
    (hrefine : ∀ p s k, (c.refine p s).1 ≠ .error (.failure (.exhausted (.iterations k))))
    (h : r.Ascends o prec refined calls)
    (hround : c.logged.round o clock r (s, calls) = (.done ending, t, calls')) :
    (0 < o.maxIterations ∧ refined.length = o.maxIterations ∧ calls' = calls ∧
      ending = some (.ok (c.report r (.undecided (.iterations o.maxIterations) r.prec) s))) ∨
    ((0 < o.maxIterations → refined.length < o.maxIterations) ∧
      ∃ tail, calls' = calls ++ tail ∧ r.Closes calls tail ending) := by
  by_cases hlimit : 0 < o.maxIterations ∧ o.maxIterations ≤ r.iterations
  · left
    rw [round, if_pos (by simpa using hlimit)] at hround
    obtain ⟨hending, hstate⟩ := Prod.mk.inj hround
    obtain ⟨-, rfl⟩ := Prod.mk.inj hstate
    refine ⟨hlimit.1, ?_, rfl, (Turn.done.inj hending).symm⟩
    exact Nat.le_antisymm (h.allowed hlimit.1) (h.iterations_eq ▸ hlimit.2)
  · right
    refine ⟨fun hmax ↦ ?_, ?_⟩
    · rw [← h.iterations_eq]
      exact Nat.lt_of_not_le fun hle ↦ hlimit ⟨hmax, hle⟩
    have hrounds : c.logged.Rounds o clock r (s, calls) (.done ending) (t, calls') := by
      have hrounds : c.logged.Rounds o clock r (s, calls) (c.logged.round o clock r (s, calls)).1
          (c.logged.round o clock r (s, calls)).2 := c.logged.rounds_round
      rwa [hround] at hrounds
    cases hrounds with
    | limit hmet => exact absurd hmet hlimit
    | stopped hexplored =>
      obtain ⟨hx, hcalls⟩ := Work.eq_of_logged hexplored
      refine ⟨_, hcalls, h.closes_stopped fun k he ↦ ?_⟩
      exact hexplore _ _ _ k (he ▸ congrArg Prod.fst hx)
    | unfinished hexplored =>
      refine ⟨_, (Work.eq_of_logged hexplored).2, rfl, fun _ ↦ singleton_ne_ascent, ?_, ?_⟩
      · rintro _ ⟨⟩
      · rintro _ _ _ ⟨⟩
    | safe hexplored =>
      refine ⟨_, (Work.eq_of_logged hexplored).2, h.closes_report ?_ ?_ rfl rfl fun _ ↦
        singleton_ne_ascent⟩
      · rintro _ _ _ ⟨⟩
      · rintro _ _ ⟨⟩
    | failed hexplored hrefined =>
      refine ⟨_, calls_of_refine hexplored hrefined, h.closes_ending (fun k he ↦ ?_) ?_⟩
      · exact hrefine _ _ k (he ▸ congrArg Prod.fst (Work.eq_of_logged hrefined).1)
      · rintro _ ⟨⟩
    | genuine hexplored hrefined =>
      refine ⟨_, calls_of_refine hexplored hrefined, h.closes_report ?_ ?_ rfl rfl
        (refined_ne_ascent ?_)⟩
      · rintro _ _ _ ⟨⟩
      · rintro _ _ ⟨⟩
      · rintro _ ⟨⟩
    | notFiner hexplored hrefined hfiner =>
      refine ⟨_, calls_of_refine hexplored hrefined, h.closes_ending ?_ ?_⟩
      · rintro _ ⟨⟩
      · rintro q ⟨⟩ hq
        exact Bool.false_ne_true (hfiner.symm.trans hq)
    | timeUp hexplored hrefined hfiner hup => exact absurd (htime ▸ hup.1) (Nat.lt_irrefl 0)

/-- What an iteration that leads on to another has done. -/
theorem exists_of_round_again {r' : Round P} (h : c.round o clock r s = (.again r', t)) :
    ¬(0 < o.maxIterations ∧ o.maxIterations ≤ r.iterations) ∧ ∃ u q,
      c.explore (secondsLeft o clock r.iterations) r.prec s = (.ok (some .suspect), u) ∧
      c.refine r.prec u = (.ok (.spurious q), t) ∧ Precision.refines q r.prec = true ∧
      r' = { r.recorded .suspect (c.graph u).metrics with prec := q } := by
  constructor
  · intro hlimit
    rw [round, if_pos (by simpa using hlimit), conclude_eq] at h
    cases congrArg Prod.fst h
  · have hrounds : c.Rounds o clock r s (.again r') t := by
      have hrounds : c.Rounds o clock r s (c.round o clock r s).1 (c.round o clock r s).2 :=
        c.rounds_round
      rwa [h] at hrounds
    cases hrounds with
    | again hexplore hrefine hfiner => exact ⟨_, _, hexplore, hrefine, hfiner, rfl⟩

/-- **Between iterations the books are kept.** -/
theorem Passes.exists_ascends {s₀ : σ} {k : Nat} {u : σ × List (Call S A P W)}
    (h : c.logged.Passes o clock prec (s₀, []) k r u) :
    ∃ refined, refined.length = k ∧ r.Ascends o prec refined u.2 := by
  induction h with
  | start => exact ⟨[], rfl, .start⟩
  | @next k r r' u v _ hround ih =>
    obtain ⟨refined, rfl, hr⟩ := ih
    obtain ⟨hallowed, w, q, hexplore, hrefine, hq, rfl⟩ := exists_of_round_again hround
    refine ⟨refined ++ [q], List.length_append, ?_⟩
    rw [calls_of_refine hexplore hrefine]
    exact hr.next hallowed hq

/-- **The books of a run.** Let the collaborators never claim that the iterations are used up, and
let there be no time limit. Write down the calls that a run makes, which changes nothing about it.

At every iteration that the run passes, the records are numbered from one without gap, each with a
precision at least as fine as the one before. Under a limit of the iterations there are at most so
many explorations. A report agrees with the calls: in its records, in the number of iterations, and
in the precision of a failure. And the run is given up for the number of iterations if and only if
there is a limit, as many iterations have run, and each of them ended in a spurious refinement to a
precision at least as fine as the one before; there must be a turn to find this out. -/
theorem books_of_run {s₀ : σ} {turns : Nat} (htime : o.timeLimit = 0)
    (hexplore : ∀ deadline p s k,
      (c.explore deadline p s).1 ≠ .error (.failure (.exhausted (.iterations k))))
    (hrefine : ∀ p s k, (c.refine p s).1 ≠ .error (.failure (.exhausted (.iterations k))))
    (hrun : c.logged.run o clock turns prec (s₀, []) = (ending, t, calls)) :
    c.run o clock turns prec s₀ = (ending, t) ∧
    (∀ {k r s}, c.Passes o clock prec s₀ k r s →
      r.records.map Record.iteration = List.range' 1 k ∧
        (r.records.map Record.prec).IsChain Finer) ∧
    (0 < o.maxIterations → (explorations calls).length ≤ o.maxIterations) ∧
    (∀ {report}, ending = some (.ok report) → report.Agrees calls) ∧
    ∀ {n p}, (∃ report, ending = some (.ok report) ∧
        report.conclusion = .undecided (.iterations n) p) ↔
      n = o.maxIterations ∧ 0 < o.maxIterations ∧ o.maxIterations < turns ∧
        ∃ refined, refined.length = o.maxIterations ∧ (prec :: refined).IsChain Finer ∧
          refined.getLastD prec = p ∧ calls = ascent prec refined := by
  have hlimit : clock.checkLimit o.timeLimit = .ok () := htime ▸ clock.checkLimit_zero
  refine ⟨?_, fun h ↦ ?_, ?_⟩
  · have hplain : plain (c.logged.run o clock turns prec (s₀, [])) = c.run o clock turns prec s₀ :=
      plain_run hlimit
    rw [hrun] at hplain
    exact hplain.symm
  · obtain ⟨calls, hlogged⟩ := h.exists_logged
    obtain ⟨refined, rfl, hr⟩ := hlogged.exists_ascends
    exact ⟨hr.numbered, hr.finer_records⟩
  rcases exists_passes_of_run hlimit hrun with ⟨k, r, ⟨s, calls₀⟩, hk, hs, hdone⟩ | ⟨r, rfl, hs⟩
  · obtain ⟨refined, rfl, hr⟩ := hs.exists_ascends
    rcases limit_or_closes htime hexplore hrefine hr hdone with
      ⟨hpos, hlength, rfl, rfl⟩ | ⟨hless, tail, rfl, hcloses⟩
    · -- at the limit
      refine ⟨fun _ ↦ ?_, fun hreport ↦ ?_, fun {n p} ↦ ⟨?_, ?_⟩⟩
      · rw [hr.length_explorations, hlength]
      · obtain rfl := Except.ok.inj (Option.some.inj hreport)
        exact hr.agrees nofun
      · rintro ⟨_, ⟨⟩, ⟨⟩⟩
        exact ⟨rfl, hpos, hlength ▸ hk, refined, hlength, hr.finer, hr.prec_eq.symm, hr.calls_eq⟩
      · rintro ⟨rfl, -, -, refined', -, -, rfl, hcalls⟩
        obtain rfl := ascent_injective (hr.calls_eq.symm.trans hcalls)
        exact ⟨_, rfl, hr.prec_eq ▸ rfl⟩
    · -- after an exploration
      refine ⟨fun hmax ↦ ?_, hcloses.agrees, fun {n p} ↦ ⟨?_, ?_⟩⟩
      · rw [explorations_append, hcloses.explored, List.length_append, hr.length_explorations]
        exact hless hmax
      · rintro ⟨report, hreport, hconclusion⟩
        exact absurd hconclusion (hcloses.reason hreport)
      · rintro ⟨-, -, -, refined', -, hfiner, -, hcalls⟩
        exact absurd hcalls (hr.ne_ascent_of_closes hcloses hfiner)
  · -- out of turns
    obtain ⟨refined, hturns, hr⟩ := hs.exists_ascends
    refine ⟨fun hmax ↦ ?_, nofun, fun {n p} ↦ ⟨nofun, ?_⟩⟩
    · rw [hr.length_explorations]
      exact hr.allowed hmax
    · rintro ⟨-, -, hless, refined', hlength, -, -, hcalls⟩
      obtain rfl := ascent_injective (hr.calls_eq.symm.trans hcalls)
      exact absurd (hturns.symm.trans hlength) (Nat.ne_of_gt hless)

/-- Below the third level explorations are suspect, and refinements lead one level up. -/
def staircase : Checker Unit Unit Unit Level Unit where
  graph _ := .empty
  counters _ := {}
  restart s := s
  explore _ p := fun s ↦ (.ok (some (if p.value < 3 then .suspect else .safe)), s)
  refine p := fun s ↦ (.ok (.spurious ⟨p.value + 1⟩), s)

theorem books_of_staircase : ∃ report calls,
    staircase.logged.run { maxIterations := 2 } {} 3 {} ((), []) = (some (.ok report), (), calls) ∧
    staircase.run { maxIterations := 2 } {} 3 {} () = (some (.ok report), ()) ∧
    report.conclusion = .undecided (.iterations 2) ⟨2⟩ ∧ report.Agrees calls ∧
    (explorations calls).length ≤ 2 ∧ ∃ refined, refined.length = 2 ∧
      ({} :: refined).IsChain Finer ∧ refined.getLastD {} = ⟨2⟩ ∧ calls = ascent {} refined := by
  have hrun : staircase.logged.run { maxIterations := 2 } {} 3 {} ((), []) = (_, (), _) := rfl
  obtain ⟨hplain, -, hbound, hagrees, hiff⟩ := books_of_run rfl nofun nofun hrun
  refine ⟨_, _, hrun, hplain, rfl, hagrees rfl, hbound (by decide), ?_⟩
  exact (hiff.1 ⟨_, rfl, rfl⟩).2.2.2

end Checker

end AbstractionRefinement
