import AbstractionRefinement.Digraph.Check
import AbstractionRefinement.Proofs.Labels

/-!
# Replaying traces

A trace replays at a precision if the domain allows it there: it begins in an initial state, and
each later state is a successor of the one before along an action that this one enables
(`Model.Replays`).

If siblings are never merged, an exploration makes nodes of such states only, so what it adds to a
graph replays at its own precision. What was there before need not, since a finer precision has
other successors. But where a refuted counterexample invalidates everything, nothing is there before
(`Checker.Reaches.bare`): every exploration begins without nodes, and the nodes left at the end of a
run were all made by the last exploration. So all of them replay at its precision
(`Checker.replays_of_run`), however the run ends. A report tells this precision, in its last record
or, if the last exploration stopped early, in its conclusion (`Report.explored?`).
-/

namespace AbstractionRefinement

variable {S A P W R : Type}

namespace Model

variable (M : Model S A P) (prec : P)

/-- The state is an initial one. -/
def Begins (st : S) : Prop := ∃ states, M.initial prec = .ok states ∧ st ∈ states

/-- The second state is a successor of the first along an action that the first enables. -/
def Moves (st : S) (a : A) (st' : S) : Prop :=
  ∃ actions states, M.enabled st = .ok actions ∧ a ∈ actions ∧
    M.successors st a prec = .ok states ∧ st' ∈ states

/-- The trace is one that the domain allows at the precision. -/
structure Replays (t : Trace S A) : Prop where
  /-- It begins in an initial state. -/
  start : M.Begins prec t.start
  /-- Each later state is a successor of the one before. -/
  steps : Along (M.Moves prec) t.start t.steps

end Model

/-! ### The precision of the last exploration -/

/-- The precision that a conclusion tells. -/
def Conclusion.prec? : Conclusion S A P W → Option P
  | .safe prec | .undecided _ prec | .failed _ prec _ => some prec
  | .violated _ _ => none

/-- The precision of the exploration that came last. If the last iteration begun has a record, it
was the exploration recorded there. Otherwise this exploration stopped early, which is the
conclusion. -/
def Report.explored? (report : Report S A P W) : Option P :=
  if report.records.length = report.statistics.iterations then
    report.records.getLast?.map Record.prec
  else report.conclusion.prec?

namespace Checker

variable {σ : Type} {c : Checker σ S A P W}

/-- The report of a run whose operation stopped early. -/
theorem exists_of_ending {r : Round P} {s : σ} {e : Abort} {report : Report S A P W}
    (h : c.ending r s e = some (.ok report)) :
    ∃ conclusion, conclusion.prec? = some r.prec ∧ report = c.report r conclusion s := by
  rcases e with cause | f
  · cases cause with
    | exhausted reason => exact ⟨_, rfl, (Except.ok.inj (Option.some.inj h)).symm⟩
    | _ => exact ⟨_, rfl, (Except.ok.inj (Option.some.inj h)).symm⟩
  · cases Option.some.inj h

theorem explored?_report_recorded {r : Round P} {verdict : Verdict} {metrics : Metrics}
    {conclusion : Conclusion S A P W} {s : σ} (hr : r.records.length = r.iterations) :
    (c.report (r.recorded verdict metrics) conclusion s).explored? = some r.prec := by
  have hlen : (r.recorded verdict metrics).records.length = r.iterations + 1 := by
    show (r.records ++ [_]).length = r.iterations + 1
    rw [List.length_append, hr, List.length_singleton]
  refine (if_pos hlen).trans ?_
  show (r.records ++ [_]).getLast?.map Record.prec = some r.prec
  rw [List.getLast?_concat]
  rfl

theorem explored?_report_begun {r : Round P} {conclusion : Conclusion S A P W} {s : σ}
    (hr : r.records.length = r.iterations) (hc : conclusion.prec? = some r.prec) :
    (c.report r.begun conclusion s).explored? = some r.prec := by
  have hlen : r.records.length ≠ r.iterations + 1 := by omega
  exact (if_neg hlen).trans hc

end Checker

/-! ### Explorations from a graph without nodes -/

namespace Graph

variable {M : Model S A P} {prec : P} {g : Graph S A}

/-- The trace to every node replays at the precision. -/
def Replays (M : Model S A P) (prec : P) (g : Graph S A) : Prop :=
  ∀ i n, g.node? i = some n → ∃ path, g.pathTo i = .ok path ∧ M.Replays prec path.trace

theorem replays_of_labelled (hwf : g.WellFormed)
    (hg : g.Labelled (M.Begins prec) (M.Moves prec)) : g.Replays M prec := by
  intro i n hn
  obtain ⟨path, hpath⟩ := hwf.forest.exists_pathTo hn
  obtain ⟨hstart, hsteps⟩ := hg.along (isPath_of_pathTo hpath).1
  exact ⟨path, hpath, hstart, hsteps⟩

/-- There is no node. -/
def Bare (g : Graph S A) : Prop := ∀ i, g.node? i = none

theorem Bare.labelled {B : S → Prop} {E : S → A → S → Prop} (h : g.Bare) : g.Labelled B E where
  root {i n} hn := by cases (h i).symm.trans hn
  edge {i n e p} hn := by cases (h i).symm.trans hn

theorem Bare.replays (h : g.Bare) : g.Replays M prec := fun i n hn ↦ by
  cases (h i).symm.trans hn

theorem bare_pruneAll : g.pruneAll.Bare := fun _ ↦ node?_pruneAll

end Graph

variable [DecidableEq S] [DecidableEq A] [Described S] {x : Explorer S A P}

omit [DecidableEq A] in
/-- If siblings are never merged, one that is left is a successor along an enabled action. -/
theorem Explorer.moves_of_kept (hmerge : ∀ st st', x.model.merge st st' = none) {prec : P} {st : S}
    {succ : List (A × List S)} {a : A} {st' : S} (hsucc : x.successorsOf st prec = .ok succ)
    (hkept : x.Kept succ a st') : x.model.Moves prec st a st' := by
  obtain ⟨states, kept, hmem, habs, hst'⟩ := hkept
  obtain ⟨actions, hactions, hforall⟩ := successorsOf_eq_ok.1 hsucc
  obtain ⟨b, hb, hba, hstates⟩ := exists_of_forall₂_of_mem_right hforall hmem
  obtain rfl : a = b := hba
  have hnever : ∀ {st st' u : S}, x.model.merge st st' = some u → st ∈ states → st' ∈ states →
      u ∈ states := fun {st st' u} hu ↦ by cases (hmerge st st').symm.trans hu
  exact ⟨actions, states, hactions, hb, hstates,
    forall_absorbAll hnever habs (fun _ h ↦ h) (List.forall_mem_nil _) st' hst'⟩

/-- **An exploration makes nodes that replay at its precision**, and keeps those that do. -/
theorem Explorer.labelled_of_explore (hmerge : ∀ st st', x.model.merge st st' = none) {prec : P}
    {turns : Nat} {deadline : Option Nat} {s t : Session S A}
    {answer : Except Abort (Option Verdict)} (hwf : s.graph.WellFormed) (hbare : s.graph.Bare)
    (h : x.explore turns deadline prec s = (answer, t)) :
    t.graph.WellFormed ∧ t.graph.Labelled (x.model.Begins prec) (x.model.Moves prec) := by
  have hgrows : Relation.ReflTransGen (x.Grows prec) s t := (does_explore hwf).change_of_eq h
  exact ⟨wellFormed_of_grows hgrows hwf, hbare.labelled.of_grows hwf
    (fun hinit st hst ↦ ⟨_, hinit, hst⟩) (moves_of_kept hmerge) hgrows⟩

/-! ### Runs -/

namespace Checker

variable [DecidableEq P] [Precision P] [Described P] {refuter : Refuter S A P W R} {scope : Scope}
  {turns : Nat} {o : LoopOptions} {clock : Clock} {prec : P} {s₀ s : Session S A} {r : Round P}

/-- **Every iteration begins without nodes** if a refuted counterexample invalidates everything; and
every iteration so far has its record. -/
theorem Reaches.bare
    (h : (ofSession x refuter scope .everything turns).Reaches o clock prec s₀ r s) :
    s.graph.WellFormed ∧ s.graph.Bare ∧ r.records.length = r.iterations := by
  induction h with
  | start => exact ⟨Graph.wellFormed_empty, fun _ ↦ Graph.node?_empty, rfl⟩
  | @next r r' s u _ hround ih =>
    obtain ⟨hwf, -, hlen⟩ := ih
    cases hround with
    | @again refined t _ hexplore hrefine _ =>
      have hgrows : Relation.ReflTransGen (x.Grows r.prec) s t :=
        (Explorer.does_explore hwf).change_of_eq hexplore
      have hcuts : Relation.ReflTransGen Refuter.Cuts t u := Refuter.does_run.change_of_eq hrefine
      obtain ⟨traces, v, -, -, -, -, -, rfl⟩ := Refuter.does_run.value_of_eq hrefine
      refine ⟨Refuter.wellFormed_of_cuts hcuts (Explorer.wellFormed_of_grows hgrows hwf),
        Graph.bare_pruneAll, ?_⟩
      show (r.records ++ [_]).length = r.iterations + 1
      rw [List.length_append, hlen, List.length_singleton]

/-- **Traces replay where a refuted counterexample invalidates everything.** If siblings are never
merged, the trace to every node of the final graph replays at the precision of the last
exploration, whatever the run comes to. -/
theorem replays_of_run (hmerge : ∀ st st', x.model.merge st st' = none) {turns' : Nat}
    {report : Report S A P W}
    (h : ((ofSession x refuter scope .everything turns).run o clock turns' prec s₀).1 =
      some (.ok report)) :
    ∃ last, report.explored? = some last ∧ report.graph.Replays x.model last := by
  obtain ⟨f, -, hf⟩ | ⟨r, s, hreach, hround⟩ := exists_rounds_of_run _ h
  · cases hf
  obtain ⟨hwf, hbare, hlen⟩ := hreach.bare
  generalize ((ofSession x refuter scope .everything turns).run o clock turns' prec s₀).2 = u
    at hround
  generalize hturn : Turn.done (some (Except.ok report)) = turn at hround
  cases hround with
  | limit hlimit =>
    obtain rfl := Except.ok.inj (Option.some.inj (Turn.done.inj hturn))
    obtain ⟨record, hrecord⟩ : ∃ record, r.records.getLast? = some record := by
      refine ⟨_, List.getLast?_eq_some_getLast (List.ne_nil_of_length_pos ?_)⟩
      omega
    exact ⟨record.prec, (if_pos hlen).trans (congrArg _ hrecord), hbare.replays⟩
  | stopped hexplore =>
    obtain ⟨conclusion, hprec, rfl⟩ := exists_of_ending (Turn.done.inj hturn).symm
    obtain ⟨hwf, hlabel⟩ := Explorer.labelled_of_explore hmerge hwf hbare hexplore
    exact ⟨r.prec, explored?_report_begun hlen hprec, Graph.replays_of_labelled hwf hlabel⟩
  | unfinished hexplore => cases Turn.done.inj hturn
  | safe hexplore =>
    obtain rfl := Except.ok.inj (Option.some.inj (Turn.done.inj hturn))
    obtain ⟨hwf, hlabel⟩ := Explorer.labelled_of_explore hmerge hwf hbare hexplore
    exact ⟨r.prec, explored?_report_recorded hlen, Graph.replays_of_labelled hwf hlabel⟩
  | failed hexplore hrefine =>
    -- a refinement that fails may have stopped nodes from covering, and changes nothing else
    obtain ⟨conclusion, -, rfl⟩ := exists_of_ending (Turn.done.inj hturn).symm
    obtain ⟨hwf, hlabel⟩ := Explorer.labelled_of_explore hmerge hwf hbare hexplore
    have hcuts := Refuter.does_run.change_of_eq hrefine
    exact ⟨r.prec, explored?_report_recorded hlen, Graph.replays_of_labelled
      (Refuter.wellFormed_of_cuts hcuts hwf) (hlabel.of_cuts hwf hcuts)⟩
  | genuine hexplore hrefine =>
    obtain rfl := Except.ok.inj (Option.some.inj (Turn.done.inj hturn))
    obtain ⟨hwf, hlabel⟩ := Explorer.labelled_of_explore hmerge hwf hbare hexplore
    obtain ⟨rfl, -⟩ := Refuter.does_run.value_of_eq hrefine
    exact ⟨r.prec, explored?_report_recorded hlen, Graph.replays_of_labelled hwf hlabel⟩
  | notFiner hexplore hrefine hfiner =>
    obtain ⟨conclusion, -, rfl⟩ := exists_of_ending (Turn.done.inj hturn).symm
    obtain ⟨traces, v, -, -, -, -, -, rfl⟩ := Refuter.does_run.value_of_eq hrefine
    exact ⟨r.prec, explored?_report_recorded hlen, Graph.bare_pruneAll.replays⟩
  | timeUp hexplore hrefine hfiner htime =>
    obtain rfl := Except.ok.inj (Option.some.inj (Turn.done.inj hturn))
    obtain ⟨traces, v, -, -, -, -, -, rfl⟩ := Refuter.does_run.value_of_eq hrefine
    exact ⟨r.prec, explored?_report_recorded hlen, Graph.bare_pruneAll.replays⟩
  | again hexplore hrefine hfiner => cases hturn

end Checker

/-! ### An example -/

/-- An edge, and a target that no edge leads to. -/
def Digraph.detached : Digraph := ofLists 3 [0] [(0, 1)] [2]

/-- The whole statement at a check of this digraph: three precisions are tried, and the child that
is left at the end belongs to the last of them. -/
theorem detached_replays : ∃ report path,
    Digraph.detached.check { pruning := .everything } {} {} 9 = some (.ok report) ∧
      report.explored? = some ⟨.ofList [0, 1]⟩ ∧ report.graph.pathTo 4 = .ok path ∧
      path.actions = [⟨0, 1⟩] ∧ Digraph.detached.model.Replays ⟨.ofList [0, 1]⟩ path.trace := by
  have hrun : (Digraph.detached.check { pruning := .everything } {} {} 9).any (fun e ↦
      e.toOption.any fun report ↦ report.explored? = some ⟨.ofList [0, 1]⟩ &&
        (report.graph.node? 4).isSome && (report.graph.pathTo 4).toOption.any
          fun path ↦ path.actions = [⟨0, 1⟩]) = true := by
    decide +kernel
  obtain ⟨e, hcheck, hrun⟩ := (Option.any_eq_true _ _).1 hrun
  obtain ⟨report, rfl, hrun⟩ := exists_of_toOption_any hrun
  obtain ⟨hrun, hpath⟩ := Bool.and_eq_true_iff.1 hrun
  obtain ⟨hexplored, hnode⟩ := Bool.and_eq_true_iff.1 hrun
  replace hexplored := of_decide_eq_true hexplored
  obtain ⟨n, hn⟩ := Option.isSome_iff_exists.1 hnode
  obtain ⟨path, hpath, hactions⟩ := exists_of_toOption_any hpath
  obtain ⟨last, hlast, hreplays⟩ := Checker.replays_of_run (fun _ _ ↦ rfl) hcheck
  obtain rfl := Option.some.inj (hexplored.symm.trans hlast)
  obtain ⟨path', hpath', hreplay⟩ := hreplays 4 n hn
  obtain rfl := Except.ok.inj (hpath.symm.trans hpath')
  exact ⟨report, path, hcheck, hexplored, hpath, of_decide_eq_true hactions, hreplay⟩

end AbstractionRefinement
