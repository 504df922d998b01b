import AbstractionRefinement.Proofs.Safety

/-!
# Counterexamples that come up again

The loop forgets the graph of an earlier iteration, at least in part, but not what it has refuted:
fingerprints are remembered, and the precision never loses what a refutation added to it. So if
refutations depend on the actions of a trace only and the precision absorbs them
(`Refuter.Absorbs`), a trace along the same actions as a dismissed one adds nothing the second time,
and the run diverges (`Checker.Examines.diverges`).

`Checker.Reaches` leaves out what the clock and the budgets say and so speaks of more states than a
run passes through. Here runs are followed exactly, with their iterations counted
(`Checker.Passes`).

The hypothesis is about the refuter alone. A refuter that looks at the states of a trace may find
another refutation along the same actions, since states differ from one graph to the next, and then
the precision changes and the run goes on. Nor is it enough that each refinement rules its trace out
at the time: what was absorbed has to stay so as the precision is refined further.

Nodes retire as coverers when a remembered fingerprint comes up again. Without a collision this
happens in the iteration that ends the run and in no other, so every node of a graph that the loop
passes through may cover (`AllCover`).
-/

namespace AbstractionRefinement

open Work Session

namespace Checker

/-! ### The iterations of a run -/

section Passes

variable {σ S A P W : Type} (c : Checker σ S A P W) [Precision P] [Described P] (o : LoopOptions)
  (clock : Clock)

/-- The states in which the iterations of a run begin, counted from zero. -/
inductive Passes (prec : P) (s₀ : σ) : Nat → Round P → σ → Prop
  /-- The clock can tell the deadline, and the first iteration begins with an empty graph. -/
  | start (hlimit : clock.checkLimit o.timeLimit = .ok ()) :
    Passes prec s₀ 0 { prec } (c.restart s₀)
  /-- An iteration leads on to another. -/
  | next {k : Nat} {r r' : Round P} {s t : σ} (h : Passes prec s₀ k r s)
      (hround : c.round o clock r s = (.again r', t)) : Passes prec s₀ (k + 1) r' t

/-- In iteration `k` of a run the exploration ends under suspicion, and the path leads to the
counterexample that comes first. -/
structure Examines (prec : P) (s₀ : σ) (k : Nat) (r : Round P) (t : σ) (path : Path S A) :
    Prop where
  /-- The exploration ends in `t`. -/
  explored : ∃ s, c.Passes o clock prec s₀ k r s ∧
    c.explore (secondsLeft o clock r.iterations) r.prec s = (.ok (some .suspect), t)
  /-- The iteration is allowed. -/
  allowed : ¬(0 < o.maxIterations ∧ o.maxIterations ≤ r.iterations)
  /-- The path is that of the first counterexample. -/
  first : ∃ id, (c.graph t).counterexamples.head? = some id ∧ (c.graph t).pathTo id = .ok path

/-- In iteration `k` of a run the counterexample at the end of the path is found spurious in `t`,
and the refinement leaves `u`. -/
def Dismisses (prec : P) (s₀ : σ) (k : Nat) (path : Path S A) (t u : σ) : Prop :=
  ∃ r refined, c.Examines o clock prec s₀ k r t path ∧
    c.refine r.prec t = (.ok (.spurious refined), u)

variable {c o clock} {prec : P} {s₀ s t u : σ} {k turns : Nat} {r r' : Round P} {path : Path S A}

/-- An iteration that is passed is reached. -/
theorem Passes.reaches (h : c.Passes o clock prec s₀ k r s) : c.Reaches o clock prec s₀ r s := by
  induction h with
  | start => exact .start
  | @next k r r' s t _ hround ih =>
    have hrounds : c.Rounds o clock r s (c.round o clock r s).1 (c.round o clock r s).2 :=
      c.rounds_round
    rw [hround] at hrounds
    exact .next ih hrounds

/-- An iteration begins in one state only. -/
theorem Passes.unique {s' : σ} (h : c.Passes o clock prec s₀ k r s)
    (h' : c.Passes o clock prec s₀ k r' s') : r = r' ∧ s = s' := by
  induction h generalizing r' s' with
  | start =>
    cases h' with
    | start => exact ⟨rfl, rfl⟩
  | next _ hround ih =>
    cases h' with
    | next h' hround' =>
      obtain ⟨rfl, rfl⟩ := ih h'
      obtain ⟨hturn, rfl⟩ := Prod.mk.inj (hround.symm.trans hround')
      exact ⟨Turn.again.inj hturn, rfl⟩

/-- An iteration examines one path. -/
theorem Examines.unique {t' : σ} {path' : Path S A} (h : c.Examines o clock prec s₀ k r t path)
    (h' : c.Examines o clock prec s₀ k r' t' path') : r = r' ∧ t = t' ∧ path = path' := by
  obtain ⟨s, hs, hexplore⟩ := h.explored
  obtain ⟨s', hs', hexplore'⟩ := h'.explored
  obtain ⟨rfl, rfl⟩ := hs.unique hs'
  obtain ⟨-, rfl⟩ := Prod.mk.inj (hexplore.symm.trans hexplore')
  obtain ⟨id, hid, hpath⟩ := h.first
  obtain ⟨id', hid', hpath'⟩ := h'.first
  obtain rfl := Option.some.inj (hid.symm.trans hid')
  exact ⟨rfl, rfl, Except.ok.inj (hpath.symm.trans hpath')⟩

theorem Passes.checkLimit (h : c.Passes o clock prec s₀ k r s) :
    clock.checkLimit o.timeLimit = .ok () := by
  induction h with
  | start hlimit => exact hlimit
  | next _ _ ih => exact ih

/-- The loop from its beginning is the loop from a state that it passes through. -/
theorem Passes.iterate_eq (h : c.Passes o clock prec s₀ k r s) {n : Nat} :
    iterate (c.round o clock) (k + n) { prec } (c.restart s₀) =
      iterate (c.round o clock) n r s := by
  induction h generalizing n with
  | start => rw [Nat.zero_add]
  | @next k _ _ _ _ _ hround ih =>
    rw [Nat.add_right_comm, Nat.add_assoc, ih, iterate_of_again hround]

/-- **An iteration that ends the run says how the run ends.** -/
theorem Passes.run_eq (h : c.Passes o clock prec s₀ k r s) {e : Ending S A P W}
    (hdone : c.round o clock r s = (.done e, t)) (hk : k < turns) :
    c.run o clock turns prec s₀ = (e, t) := by
  obtain ⟨n, rfl⟩ := Nat.exists_eq_add_of_lt hk
  exact run_of_iterate h.checkLimit ((h.iterate_eq (n := n + 1)).trans (iterate_of_done hdone))

/-- If the examination stops early, so does the run. -/
theorem Examines.run_eq (h : c.Examines o clock prec s₀ k r t path) {e : Abort}
    (hrefine : c.refine r.prec t = (.error e, u)) (hk : k < turns) :
    c.run o clock turns prec s₀ =
      (c.ending (r.recorded .suspect (c.graph t).metrics) u e, u) := by
  obtain ⟨s, hs, hexplore⟩ := h.explored
  refine hs.run_eq ((round_of_suspect h.allowed hexplore).trans ?_) hk
  exact c.refineRound_of_error (r := r.recorded _ _) hrefine

/-- What the iteration before has done. -/
theorem Passes.of_succ (h : c.Passes o clock prec s₀ (k + 1) r' u) : ∃ r s t refined,
    c.Passes o clock prec s₀ k r s ∧
      ¬(0 < o.maxIterations ∧ o.maxIterations ≤ r.iterations) ∧
      c.explore (secondsLeft o clock r.iterations) r.prec s = (.ok (some .suspect), t) ∧
      c.refine r.prec t = (.ok (.spurious refined), u) ∧ r'.prec = refined ∧
      r'.iterations = r.iterations + 1 := by
  cases h with
  | @next _ r _ s _ h hround =>
    have hallowed : ¬(0 < o.maxIterations ∧ o.maxIterations ≤ r.iterations) := by
      intro hlimit
      rw [round, if_pos (by simpa using hlimit), conclude_eq] at hround
      cases congrArg Prod.fst hround
    have hrounds : c.Rounds o clock r s (c.round o clock r s).1 (c.round o clock r s).2 :=
      c.rounds_round
    rw [hround] at hrounds
    cases hrounds with
    | again hexplore hrefine => exact ⟨r, s, _, _, h, hallowed, hexplore, hrefine, rfl, rfl⟩

theorem Passes.iterations_eq (h : c.Passes o clock prec s₀ k r s) : r.iterations = k := by
  induction k generalizing r s with
  | zero =>
    cases h with
    | start => rfl
  | succ k ih =>
    obtain ⟨r', s', _, _, hs', -, -, -, -, hiterations⟩ := h.of_succ
    rw [hiterations, ih hs']

end Passes

end Checker

/-! ### Graphs in which every node may cover -/

namespace Graph

variable {S A P : Type} {g : Graph S A}

/-- Every node may cover. -/
def AllCover (g : Graph S A) : Prop := ∀ ⦃i n⦄, g.node? i = some n → n.canCover = true

/-- An exploration takes no node the right to cover. -/
theorem AllCover.of_grows [DecidableEq S] [DecidableEq A] [Described S] {x : Explorer S A P}
    {prec : P} {s t : Session S A} (hs : s.graph.AllCover)
    (h : Relation.ReflTransGen (x.Grows prec) s t) : t.graph.AllCover := by
  induction h with
  | refl => exact hs
  | tail _ hstep ih =>
    intro i m hm
    cases hstep.leaves hm with
    | root _ _ _ hm => exact hm ▸ rfl
    | child _ _ _ _ hm => exact hm ▸ rfl
    | kept hn hnm => exact hnm.canCover.trans (ih hn)
    | expanded hn _ _ _ hnm => exact hnm.canCover.trans (ih hn)
    | covered hn _ hnm => exact hnm.canCover.trans (ih hn)

/-- Nor does pruning. -/
theorem AllCover.prune (h : g.AllCover) (hg : g.WellFormed) {a : NodeId} :
    (g.prune a).AllCover := by
  intro i n hn
  obtain ⟨m, hm, ⟨rfl, -⟩ | ⟨-, rfl, -⟩⟩ := hg.node?_prune hn
  · exact h hm
  · show m.canCover = true
    exact h hm

theorem AllCover.pruneRefuted (h : g.AllCover) (hg : g.WellFormed) {pruning : Pruning}
    {trace : Refuted S A P} : (Refuter.pruneRefuted pruning g [trace]).AllCover := by
  cases pruning with
  | subtree => exact h.prune hg
  | everything =>
    intro i n hn
    simp [Refuter.pruneRefuted] at hn

end Graph

namespace Refuter

variable {S A P W R : Type} {r : Refuter S A P W R}

/-! ### Refuters whose refutations are absorbed -/

/-- Refutations depend on the actions of a trace only, and once a precision is refined by one, it
stays so. -/
structure Absorbs (r : Refuter S A P W R) (Holds : P → R → Prop) : Prop where
  /-- Traces along the same actions are examined with the same result. -/
  check_eq : ∀ {t t' : Trace S A}, t.actions = t'.actions → r.check t = r.check t'
  /-- The refined precision absorbs the refutation. -/
  absorbed : ∀ {prec t refutation refined}, r.refine prec t refutation = .ok refined →
    Holds refined refutation
  /-- What was absorbed stays so. -/
  kept : ∀ {prec t refutation refined before}, r.refine prec t refutation = .ok refined →
    Holds prec before → Holds refined before
  /-- What is absorbed changes nothing. -/
  refine_eq : ∀ {prec t refutation}, Holds prec refutation →
    r.refine prec t refutation = .ok prec

/-! ### Refining by one counterexample -/

variable [DecidableEq P] [Precision P] {pruning : Pruning} {prec : P} {s u : Session S A}
  {id : NodeId} {trace : Refuted S A P}

omit [DecidableEq P] [Precision P] in
/-- Remembering a single trace: if it is remembered, its nodes are retired, and otherwise it is
entered. -/
theorem observeAll_singleton : r.observeAll [trace] s =
    if r.fingerprint trace.path.actions ∈ s.refuted then
      (.ok (some (r.fingerprint trace.path.actions)),
        { s with graph := trace.path.nodes.foldl Graph.retireCoverer s.graph })
    else
      (.ok none, { s with refuted := s.refuted ++ [r.fingerprint trace.path.actions] }) := by
  by_cases hseen : r.fingerprint trace.path.actions ∈ s.refuted
  · have heq : observeRefuted (r.fingerprint trace.path.actions) trace.path.nodes s =
        (.ok true, { s with graph := trace.path.nodes.foldl Graph.retireCoverer s.graph }) := by
      simp only [observeRefuted, observe, if_pos hseen]
    rw [if_pos hseen, observeAll, bind_of_ok (congrArg Prod.fst heq), heq]
    rfl
  · have heq : observeRefuted (r.fingerprint trace.path.actions) trace.path.nodes s =
        (.ok false, { s with refuted := s.refuted ++ [r.fingerprint trace.path.actions] }) := by
      simp only [observeRefuted, observe, if_neg hseen]
    rw [if_neg hseen, observeAll, bind_of_ok (congrArg Prod.fst heq), heq]
    rfl

/-- **A refuted counterexample** is remembered and the graph is pruned. If it was remembered, its
nodes stop covering, and the precision has to change. -/
theorem run_of_refutes (hid : s.graph.counterexamples.head? = some id)
    (h : r.Refutes s.graph prec id trace) : r.run .shortest pruning prec s =
      if r.fingerprint trace.path.actions ∈ s.refuted then
        if trace.refined = prec then
          (.error (.failure (.divergence (r.fingerprint trace.path.actions))),
            { s with graph := trace.path.nodes.foldl Graph.retireCoverer s.graph })
        else
          (.ok (.spurious trace.refined), { s with
            graph := pruneRefuted pruning
              (trace.path.nodes.foldl Graph.retireCoverer s.graph) [trace] })
      else
        (.ok (.spurious trace.refined), { s with
          refuted := s.refuted ++ [r.fingerprint trace.path.actions]
          graph := pruneRefuted pruning s.graph [trace] }) := by
  obtain ⟨path, cut, refined⟩ := trace
  obtain ⟨hpath, refutation, hcheck, rfl, hrefine⟩ := h
  obtain ⟨rest, hrest⟩ := List.head?_eq_some_iff.1 hid
  have hexam : r.examine s.graph prec [id] =
      .ok (.refuted [⟨path, r.cutIndex refutation, refined⟩]) := by
    simp [examine, hpath, hcheck, hrefine, orFault, bind, Except.bind, pure, Except.pure]
  have hselect : Scope.select .shortest s.graph.counterexamples = [id] := by
    rw [hrest]
    rfl
  rw [run, currentGraph_bind]
  simp only [hselect]
  rw [if_neg (by simp), demand_bind hexam]
  have hobserve : r.observeAll [⟨path, r.cutIndex refutation, refined⟩] s = _ :=
    observeAll_singleton
  by_cases hseen : r.fingerprint path.actions ∈ s.refuted
  · rw [if_pos hseen] at hobserve ⊢
    dsimp only
    rw [bind_of_ok (congrArg Prod.fst hobserve), hobserve]
    by_cases hprec : refined = prec
    · simp only [Scope.combine, List.map_cons, List.headD_cons, if_pos hprec]
      rfl
    · simp only [Scope.combine, List.map_cons, List.headD_cons, if_neg hprec]
      rfl
  · rw [if_neg hseen] at hobserve ⊢
    dsimp only
    rw [bind_of_ok (congrArg Prod.fst hobserve), hobserve]
    rfl

/-- What a refinement by one counterexample rests on. -/
theorem exists_refutes_of_run {refined : P}
    (h : r.run .shortest pruning prec s = (.ok (.spurious refined), u)) :
    ∃ id trace, s.graph.counterexamples.head? = some id ∧ r.Refutes s.graph prec id trace ∧
      trace.refined = refined := by
  have hdoes : Does Cuts (fun e _ ↦ r.Fails .shortest prec s e) (r.run .shortest pruning prec) s
    _ := does_run
  obtain ⟨traces, -, hne, -, -, htraces, rfl, -⟩ := hdoes.value_of_eq h
  cases hcex : s.graph.counterexamples with
  | nil =>
    rw [hcex] at htraces
    exact absurd (List.forall₂_nil_left_iff.1 htraces) hne
  | cons id rest =>
    rw [hcex] at htraces
    obtain ⟨trace, others, hrefutes, hothers, rfl⟩ := List.forall₂_cons_left_iff.1 htraces
    exact ⟨id, trace, rfl, hrefutes, rfl⟩

/-- What is remembered after a refinement by one counterexample. -/
theorem mem_refuted_of_run {refined : P} {f : Fingerprint}
    (hid : s.graph.counterexamples.head? = some id) (hrefutes : r.Refutes s.graph prec id trace)
    (h : r.run .shortest pruning prec s = (.ok (.spurious refined), u)) :
    f ∈ u.refuted ↔ f ∈ s.refuted ∨ f = r.fingerprint trace.path.actions := by
  rw [run_of_refutes hid hrefutes] at h
  split at h
  · rename_i hseen
    split at h
    · cases congrArg Prod.fst h
    · obtain rfl := congrArg Prod.snd h
      exact ⟨.inl, fun hf ↦ hf.elim (fun hf ↦ hf) fun hf ↦ hf ▸ hseen⟩
  · obtain rfl := congrArg Prod.snd h
    exact List.mem_append.trans (or_congr_right List.mem_singleton)

end Refuter

namespace Checker

variable {S A P W R : Type} [DecidableEq S] [DecidableEq A] [DecidableEq P] [Described S]
  [Precision P] [Described P] {x : Explorer S A P} {refuter : Refuter S A P W R}
  {pruning : Pruning} {turns : Nat} {o : LoopOptions} {clock : Clock} {Holds : P → R → Prop}
  {prec : P} {s₀ s t u t' u' : Session S A} {j k : Nat} {r : Round P} {path path' : Path S A}

/-! ### What a run remembers -/

/-- Every graph that the loop comes to is well formed. -/
theorem Reaches.wellFormed {scope : Scope}
    (h : (ofSession x refuter scope pruning turns).Reaches o clock prec s₀ r s) :
    s.graph.WellFormed :=
  h.keeps (I := fun _ g ↦ g.WellFormed) Graph.wellFormed_empty (fun hg ↦ hg)
    (fun hg hstep ↦ Explorer.wellFormed_of_grows (.single hstep) hg)
    (fun hg hstep ↦ hstep.wellFormed hg) fun _ hg ↦ hg

/-- An iteration explores a well-formed graph, which only grows. -/
theorem Passes.grows {seconds : Option Nat} {v : Option Verdict}
    (h : (ofSession x refuter .shortest pruning turns).Passes o clock prec s₀ k r s)
    (hexplore : x.explore turns seconds r.prec s = (.ok v, t)) :
    Relation.ReflTransGen (x.Grows r.prec) s t :=
  (Explorer.does_explore h.reaches.wellFormed).change_of_eq hexplore

/-- What a dismissal rests on. -/
theorem Dismisses.refutes
    (h : (ofSession x refuter .shortest pruning turns).Dismisses o clock prec s₀ k path t u) :
    ∃ r id trace,
      (ofSession x refuter .shortest pruning turns).Examines o clock prec s₀ k r t path ∧
      t.graph.counterexamples.head? = some id ∧ refuter.Refutes t.graph r.prec id trace ∧
      trace.path = path ∧
      refuter.run .shortest pruning r.prec t = (.ok (.spurious trace.refined), u) := by
  obtain ⟨r, refined, hexamines, hrefine⟩ := h
  obtain ⟨id, trace, hid, hrefutes, rfl⟩ := Refuter.exists_refutes_of_run hrefine
  obtain ⟨id', hid', hpath⟩ := hexamines.first
  obtain rfl := Option.some.inj (hid.symm.trans hid')
  exact ⟨r, id, trace, hexamines, hid, hrefutes, Except.ok.inj (hrefutes.1.symm.trans hpath),
    hrefine⟩

/-- What the iteration before has refuted. -/
theorem Passes.exists_refutes
    (h : (ofSession x refuter .shortest pruning turns).Passes o clock prec s₀ (k + 1) r u) :
    ∃ r' s t id trace,
      (ofSession x refuter .shortest pruning turns).Passes o clock prec s₀ k r' s ∧
      Relation.ReflTransGen (x.Grows r'.prec) s t ∧
      (ofSession x refuter .shortest pruning turns).Examines o clock prec s₀ k r' t trace.path ∧
      t.graph.counterexamples.head? = some id ∧ refuter.Refutes t.graph r'.prec id trace ∧
      refuter.run .shortest pruning r'.prec t = (.ok (.spurious trace.refined), u) ∧
      r.prec = trace.refined := by
  obtain ⟨r', s, t, refined, hs, hallowed, hexplore, hrefine, hprec, -⟩ := h.of_succ
  obtain ⟨id, trace, hid, hrefutes, rfl⟩ := Refuter.exists_refutes_of_run hrefine
  exact ⟨r', s, t, id, trace, hs, hs.grows hexplore,
    ⟨⟨s, hs, hexplore⟩, hallowed, id, hid, hrefutes.1⟩, hid, hrefutes, hrefine, hprec⟩

/-- **Every later iteration begins where a dismissal has left off.** -/
theorem Passes.exists_dismisses
    (h : (ofSession x refuter .shortest pruning turns).Passes o clock prec s₀ (k + 1) r u) :
    ∃ path t,
      (ofSession x refuter .shortest pruning turns).Dismisses o clock prec s₀ k path t u := by
  obtain ⟨r', -, t, -, trace, -, -, hexamines, -, -, hrefine, -⟩ := h.exists_refutes
  exact ⟨trace.path, t, r', trace.refined, hexamines, hrefine⟩

/-- **Dismissed counterexamples are remembered**, and the precision has absorbed what refuted
them. -/
theorem Passes.remembers (ha : refuter.Absorbs Holds)
    (h : (ofSession x refuter .shortest pruning turns).Passes o clock prec s₀ k r s)
    (hd : (ofSession x refuter .shortest pruning turns).Dismisses o clock prec s₀ j path t u)
    (hjk : j < k) :
    refuter.fingerprint path.actions ∈ s.refuted ∧
      ∃ refutation, refuter.check path.trace = .ok (.infeasible refutation) ∧
        Holds r.prec refutation := by
  induction k generalizing r s with
  | zero => exact absurd hjk (Nat.not_lt_zero j)
  | succ k ih =>
    obtain ⟨r', s', t', id, trace, hs', hgrows, hexamines, hid, hrefutes, hrefine, hprec⟩ :=
      h.exists_refutes
    have hmem : ∀ f, f ∈ s.refuted ↔ _ := fun f ↦ Refuter.mem_refuted_of_run hid hrefutes hrefine
    obtain ⟨-, refutation, hcheck, -, hadd⟩ := hrefutes
    rw [hprec]
    rcases Nat.lt_succ_iff_lt_or_eq.1 hjk with hlt | rfl
    · -- dismissed before
      obtain ⟨hf, before, hcheck', hholds⟩ := ih hs' hlt
      rw [← Explorer.refuted_of_grows hgrows] at hf
      exact ⟨(hmem _).2 (.inl hf), before, hcheck', ha.kept hadd hholds⟩
    · -- dismissed in this iteration
      obtain ⟨r'', _, hexamines', -⟩ := hd
      obtain ⟨rfl, rfl, rfl⟩ := hexamines'.unique hexamines
      exact ⟨(hmem _).2 (.inr rfl), refutation, hcheck, ha.absorbed hadd⟩

/-- **What is remembered was dismissed**, if nothing was remembered at first. -/
theorem Passes.recollects {f : Fingerprint} (hs₀ : s₀.refuted = [])
    (h : (ofSession x refuter .shortest pruning turns).Passes o clock prec s₀ k r s)
    (hf : f ∈ s.refuted) : ∃ j path t u, j < k ∧
      (ofSession x refuter .shortest pruning turns).Dismisses o clock prec s₀ j path t u ∧
      refuter.fingerprint path.actions = f := by
  induction k generalizing r s with
  | zero =>
    cases h with
    | start =>
      have hf : f ∈ s₀.refuted := hf
      rw [hs₀] at hf
      exact (List.not_mem_nil hf).elim
  | succ k ih =>
    obtain ⟨r', s', t', id, trace, hs', hgrows, hexamines, hid, hrefutes, hrefine, -⟩ :=
      h.exists_refutes
    rcases (Refuter.mem_refuted_of_run hid hrefutes hrefine).1 hf with hf | rfl
    · rw [Explorer.refuted_of_grows hgrows] at hf
      obtain ⟨j, path, t, u, hjk, hd⟩ := ih hs' hf
      exact ⟨j, path, t, u, Nat.lt_succ_of_lt hjk, hd⟩
    · exact ⟨k, trace.path, t', s, Nat.lt_succ_self k, ⟨r', _, hexamines, hrefine⟩, rfl⟩

/-! ### No counterexample is dismissed twice -/

/-- **A dismissed counterexample that comes up again makes the refinement diverge.** -/
theorem Examines.diverges (ha : refuter.Absorbs Holds)
    (hd : (ofSession x refuter .shortest pruning turns).Dismisses o clock prec s₀ j path t u)
    (he : (ofSession x refuter .shortest pruning turns).Examines o clock prec s₀ k r t' path')
    (hjk : j < k) (hactions : path.actions = path'.actions) :
    refuter.run .shortest pruning r.prec t' =
      (.error (.failure (.divergence (refuter.fingerprint path'.actions))),
        { t' with graph := path'.nodes.foldl Graph.retireCoverer t'.graph }) := by
  obtain ⟨s, hs, hexplore⟩ := he.explored
  obtain ⟨hf, refutation, hcheck, hholds⟩ := hs.remembers ha hd hjk
  obtain ⟨id, hid, hpath⟩ := he.first
  -- the refutation is the same, and so it adds nothing
  have hsame : path.trace.actions = path'.trace.actions := by
    rw [Path.trace, Path.trace, Trace.actions_mapStates, Trace.actions_mapStates, hactions]
  have hrefutes : refuter.Refutes t'.graph r.prec id ⟨path', refuter.cutIndex refutation, r.prec⟩ :=
    ⟨hpath, refutation, ha.check_eq hsame ▸ hcheck, rfl, ha.refine_eq hholds⟩
  rw [hactions, ← Explorer.refuted_of_grows (hs.grows hexplore)] at hf
  rw [Refuter.run_of_refutes hid hrefutes, if_pos hf, if_pos rfl]

/-- **No two iterations dismiss the same actions**: what the first learns rules them out for the
second. -/
theorem Dismisses.actions_ne_of_lt (ha : refuter.Absorbs Holds)
    (h : (ofSession x refuter .shortest pruning turns).Dismisses o clock prec s₀ j path t u)
    (h' : (ofSession x refuter .shortest pruning turns).Dismisses o clock prec s₀ k path' t' u')
    (hjk : j < k) : path.actions ≠ path'.actions := by
  intro hactions
  obtain ⟨r, refined, hexamines, hrefine⟩ := h'
  cases congrArg Prod.fst (hrefine.symm.trans (hexamines.diverges ha h hjk hactions))

/-- **Counterexamples dismissed in different iterations have different actions.** -/
theorem Dismisses.actions_ne (ha : refuter.Absorbs Holds)
    (h : (ofSession x refuter .shortest pruning turns).Dismisses o clock prec s₀ j path t u)
    (h' : (ofSession x refuter .shortest pruning turns).Dismisses o clock prec s₀ k path' t' u')
    (hjk : j ≠ k) : path.actions ≠ path'.actions := by
  rcases Nat.lt_or_gt_of_ne hjk with hlt | hgt
  · exact h.actions_ne_of_lt ha h' hlt
  · exact (h'.actions_ne_of_lt ha h hgt).symm

/-- Two dismissed counterexamples have different actions and the same fingerprint, the first of them
before iteration `k`. -/
def Collides (c : Checker (Session S A) S A P W) (refuter : Refuter S A P W R) (o : LoopOptions)
    (clock : Clock) (prec : P) (s₀ : Session S A) (k : Nat) (path : Path S A) : Prop :=
  ∃ j path' t u, j < k ∧ c.Dismisses o clock prec s₀ j path' t u ∧
    path'.actions ≠ path.actions ∧
    refuter.fingerprint path'.actions = refuter.fingerprint path.actions

/-- **A dismissal only remembers and prunes**, unless fingerprints collide: no node stops
covering. -/
theorem Dismisses.collides_or_eq (ha : refuter.Absorbs Holds) (hs₀ : s₀.refuted = [])
    (h : (ofSession x refuter .shortest pruning turns).Dismisses o clock prec s₀ k path t u) :
    Collides (ofSession x refuter .shortest pruning turns) refuter o clock prec s₀ k path ∨
      ∃ (cut : Nat) (refined : P), u = { t with
        refuted := t.refuted ++ [refuter.fingerprint path.actions]
        graph := Refuter.pruneRefuted pruning t.graph [⟨path, cut, refined⟩] } := by
  obtain ⟨r, id, trace, hexamines, hid, hrefutes, rfl, hrefine⟩ := h.refutes
  obtain ⟨s, hs, hexplore⟩ := hexamines.explored
  by_cases hseen : refuter.fingerprint trace.path.actions ∈ t.refuted
  · left
    rw [Explorer.refuted_of_grows (hs.grows hexplore)] at hseen
    obtain ⟨j, path', t', u', hjk, hd, hf⟩ := hs.recollects hs₀ hseen
    exact ⟨j, path', t', u', hjk, hd, hd.actions_ne_of_lt ha h hjk, hf⟩
  · right
    rw [Refuter.run_of_refutes hid hrefutes, if_neg hseen] at hrefine
    exact ⟨trace.cut, trace.refined, (congrArg Prod.snd hrefine).symm⟩

/-- **Without collisions, every node may cover whenever an iteration begins.** -/
theorem Passes.allCover (ha : refuter.Absorbs Holds) (hs₀ : s₀.refuted = [])
    (hno : ∀ j path t u,
      (ofSession x refuter .shortest pruning turns).Dismisses o clock prec s₀ j path t u →
        ¬Collides (ofSession x refuter .shortest pruning turns) refuter o clock prec s₀ j path)
    (h : (ofSession x refuter .shortest pruning turns).Passes o clock prec s₀ k r s) :
    s.graph.AllCover := by
  induction k generalizing r s with
  | zero =>
    cases h with
    | start =>
      intro i n hn
      cases Graph.node?_empty.symm.trans hn
  | succ k ih =>
    obtain ⟨path, t, hd⟩ := h.exists_dismisses
    obtain ⟨r', -, -, hexamines, -⟩ := hd.refutes
    obtain ⟨s', hs', hexplore⟩ := hexamines.explored
    have hgrows := hs'.grows hexplore
    have hcover := (ih hs').of_grows hgrows
    obtain ⟨cut, refined, rfl⟩ := (hd.collides_or_eq ha hs₀).resolve_left (hno k path t s hd)
    exact hcover.pruneRefuted (Explorer.wellFormed_of_grows hgrows hs'.reaches.wellFormed)

end Checker

end AbstractionRefinement
