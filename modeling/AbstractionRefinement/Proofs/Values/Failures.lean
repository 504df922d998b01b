import AbstractionRefinement.Proofs.Graph.Passes
import AbstractionRefinement.Proofs.Values.Budget
import AbstractionRefinement.Proofs.Values.Walk

/-!
# How a check can fail

A check of a well-typed program that was built, whose initial precision tracks declared variables,
never refers to something that is not there, and fails in two ways only: a simulation needs more
runs than allowed, or a counterexample is refuted again without changing the precision
(`Program.solver_or_divergence_of_check`). It may also be ended by a fault, and then by one only: a
list of which the length is known beforehand is longer than any memory can hold. The lists in
question are the initial states of a precision and the values of a variable
(`Program.Overflows`). Both are guarded by a bound, the one by `maxEnum` and the other by `maxRuns`,
but these bounds may be as large as a number of 64 bits can be, and then they let such lists pass
(`Program.span_overflows`).

Two invariants carry this. Every state of the graph is proper: its location is declared, and what it
knows is of the declared kinds (`Program.Proper`). So the analysis answers whenever it is asked, and
as its order is reflexive and its joins are upper bounds, an exploration stops early only for want
of nodes, time or memory, or of room for the initial states
(`Program.exhausted_or_crowds_of_stops`). And every precision of the run tracks declared variables,
since a refutation names no others; refining only adds to it (`Program.Sharpens`).
-/

namespace AbstractionRefinement

open Work

/-! ### The order of states -/

namespace Knowledge

theorem leq_self (k : Knowledge) : k.leq k = true := by
  cases k with
  | bottom => rfl
  | known v => exact IndexMap.isExtensionOf_iff.2 fun _ _ h ↦ h

/-- The join of two pieces of knowledge is above both. -/
theorem leq_join (k l : Knowledge) : k.leq (k.join l) = true ∧ l.leq (k.join l) = true := by
  cases k with
  | bottom => exact ⟨rfl, leq_self l⟩
  | known v =>
    cases l with
    | bottom => exact ⟨leq_self (.known v), rfl⟩
    | known w =>
      have hboth : ∀ x a, (v.filter fun x a ↦ w.find? x = some a).find? x = some a →
          v.find? x = some a ∧ w.find? x = some a := by
        intro x a hx
        obtain ⟨hv, hw⟩ := IndexMap.find?_filter_eq_some_iff.1 hx
        exact ⟨hv, of_decide_eq_true hw⟩
      exact ⟨IndexMap.isExtensionOf_iff.2 fun x a hx ↦ (hboth x a hx).1,
        IndexMap.isExtensionOf_iff.2 fun x a hx ↦ (hboth x a hx).2⟩

end Knowledge

namespace Program

variable {p : Program} {maxEnum : Nat} {merge : Bool} {s t : ProgramState} {prec : ProgramPrecision}
  {d : Draft}

theorem leq_of_leq (hfirst : s.first = t.first) (hsecond : s.second.leq t.second = true) :
    (p.model maxEnum merge).leq s t = true :=
  Bool.or_eq_true_iff.2 (.inr (Bool.and_eq_true_iff.2 ⟨decide_eq_true hfirst, hsecond⟩))

/-- A merged state is above both operands. -/
theorem leq_merge {u : ProgramState} (h : (p.model maxEnum merge).merge s t = some u) :
    (p.model maxEnum merge).leq s u = true ∧ (p.model maxEnum merge).leq t u = true := by
  obtain ⟨hfirst, rfl⟩ := merge_eq_some h
  obtain ⟨hs, ht⟩ := s.second.leq_join t.second
  exact ⟨leq_of_leq rfl hs, leq_of_leq hfirst.symm ht⟩

/-! ### Proper states -/

/-- A state that the analysis can be asked about. -/
structure Proper (p : Program) (s : ProgramState) : Prop where
  /-- Its location is declared. -/
  location : s.first.location < p.locations.length
  /-- What it knows is of the declared kinds. -/
  kinded : p.KindedKnowledge s.second

/-- What two pieces of knowledge of the right kinds have in common is of the right kinds. -/
theorem KindedKnowledge.join {k l : Knowledge} (hk : p.KindedKnowledge k)
    (hl : p.KindedKnowledge l) : p.KindedKnowledge (k.join l) := by
  cases k with
  | bottom => exact hl
  | known v =>
    cases l with
    | bottom => exact hk
    | known w =>
      rintro _ ⟨⟩
      exact (hk rfl).filter

/-- Initial states are missing only if there is no room for them. -/
theorem crowds_of_initialStates (hprec : p.Declares prec.second) {e : Abort}
    (h : (p.model maxEnum merge).initial prec = .error e) :
    p.Crowds maxEnum prec.second ∧ e = .fault .beyondMemory := by
  rcases exists_initial_or_crowds maxEnum hprec with ⟨ks, hks, -⟩ | ⟨hcrowds, herror⟩
  · have hok : (p.model maxEnum merge).initial prec = .ok _ :=
      Analysis.product_initial_eq_ok.2 ⟨_, ks, rfl, hks, rfl⟩
    cases hok.symm.trans h
  · refine ⟨hcrowds, ?_⟩
    rcases bind_eq_error.1 h with hfirst | ⟨_, -, h⟩
    · cases hfirst
    · rcases bind_eq_error.1 h with hsecond | ⟨_, -, hnone⟩
      · exact Except.error.inj (hsecond.symm.trans herror)
      · cases hnone

/-- Initial states are proper. -/
theorem proper_of_initial (hbuild : d.build = .ok p) {states : List ProgramState}
    (h : (p.model maxEnum merge).initial prec = .ok states) : ∀ st ∈ states, p.Proper st := by
  intro st hst
  refine ⟨location_of_initial h st hst ▸ d.init_lt_of_build hbuild, ?_⟩
  obtain ⟨firsts, seconds, -, hseconds, rfl⟩ := Analysis.product_initial_eq_ok.1 h
  obtain ⟨-, hsecond, -⟩ := Analysis.mem_pairs.1 hst
  exact kinded_of_initial hseconds _ hsecond

/-- The moves that are enabled in a proper state can be listed. -/
theorem exists_enabledMoves (hs : p.Proper s) :
    ∃ moves, (p.model maxEnum merge).enabled s = .ok moves :=
  ⟨_, bind_eq_ok.2 ⟨_, if_pos hs.location, rfl⟩⟩

variable (maxEnum merge prec) in
/-- **A proper state has successors along every edge**, and they are proper. -/
theorem exists_successorStates (hbuild : d.build = .ok p) (htyped : p.WellTyped)
    (hs : p.Proper s) {e : Edge} (he : e ∈ p.edges) :
    ∃ states, (p.model maxEnum merge).successors s e.move prec = .ok states ∧
      ∀ st ∈ states, p.Proper st := by
  have hedge : p.edge e.move.edge = .ok e := d.edge_of_build hbuild he
  obtain ⟨ks, hks, hkinds⟩ := exists_successors maxEnum prec.second htyped hs.kinded hedge
  obtain ⟨states, hstates, hmem⟩ : ∃ states,
      (p.model maxEnum merge).successors s e.move prec = .ok states ∧ ∀ st ∈ states, _ :=
    Analysis.exists_product_successors rfl hks
  refine ⟨states, hstates, fun st hst ↦ ⟨?_, hkinds _ (hmem st hst).2⟩⟩
  obtain ⟨-, htarget⟩ := location_of_successors hstates st hst
  exact htarget ▸ d.target_lt_of_build hbuild he

variable {x : Explorer ProgramState Move ProgramPrecision}

/-- Children of proper states are proper. -/
theorem proper_of_kept (hx : x.model = p.model maxEnum merge) (hbuild : d.build = .ok p)
    (htyped : p.WellTyped) {succ : List (Move × List ProgramState)} {m : Move}
    (hsucc : x.successorsOf s prec = .ok succ) (hkept : x.Kept succ m t) (hs : p.Proper s) :
    p.Proper t := by
  obtain ⟨e, he, rfl, -⟩ := joinedBy_of_kept hx hsucc hkept
  refine Explorer.forall_of_kept (fun {st st' u} hmerge hst hst' ↦ ?_) hsucc hkept
    fun hstates ↦ ?_
  · rw [hx] at hmerge
    obtain ⟨-, rfl⟩ := merge_eq_some hmerge
    exact ⟨hst.location, hst.kinded.join hst'.kinded⟩
  · rw [hx] at hstates
    obtain ⟨states, hok, hproper⟩ :=
      exists_successorStates maxEnum merge prec hbuild htyped hs he
    obtain rfl := Except.ok.inj (hok.symm.trans hstates)
    exact hproper

/-! ### Explorations -/

/-- Whatever is used up is a budget. -/
theorem exhausted_of_checkBudgets {deadline : Option Nat} {turn : Nat} {e : Abort}
    (h : x.checkBudgets deadline turn = .error e) :
    ∃ reason, e = .failure (.exhausted reason) := by
  rw [Explorer.checkBudgets] at h
  split at h
  · rcases bind_eq_error.1 h with h | ⟨_, -, h⟩
    · rw [Explorer.checkTime] at h
      split at h
      · split at h
        · exact ⟨_, (Except.error.inj h).symm⟩
        · cases h
      · cases h
    · rw [Explorer.checkMemory] at h
      split at h
      · split at h
        · exact ⟨_, (Except.error.inj h).symm⟩
        · cases h
      · cases h
  · cases h

/-- **An exploration over proper states stops early only when a budget is used up**, or when there
is no room for the initial states. -/
theorem exhausted_or_crowds_of_stops (hx : x.model = p.model maxEnum merge)
    (hbuild : d.build = .ok p)
    (htyped : p.WellTyped) (htime : x.options.timeLimit = 0) (hprec : p.Declares prec.second)
    {deadline : Option Nat} {e : Abort} {u : Session ProgramState Move}
    (hproper : ∀ {i n}, u.graph.node? i = some n → p.Proper n.state)
    (h : x.Stops prec deadline e u) : (∃ reason, e = .failure (.exhausted reason)) ∨
      p.Crowds maxEnum prec.second ∧ e = .fault .beyondMemory := by
  cases h with
  | limit h =>
    rw [htime, Clock.checkLimit_zero] at h
    cases h
  | initial h =>
    rw [hx] at h
    exact .inr (crowds_of_initialStates hprec h)
  | @reflexive st _ _ h =>
    have hleq : x.model.leq st st = true := hx ▸ leq_of_leq rfl st.second.leq_self
    simp [Explorer.checkReflexive, hleq] at h
  | merged hmerge h =>
    obtain ⟨hk, hst⟩ := leq_merge (hx ▸ hmerge)
    rw [← hx] at hk hst
    simp [Explorer.checkMerged, hk, hst] at h
  | room h =>
    rw [Explorer.checkRoom] at h
    split at h
    · exact .inl ⟨_, (Except.error.inj h).symm⟩
    · cases h
  | enabled hn h =>
    rw [hx] at h
    obtain ⟨moves, hok⟩ := exists_enabledMoves (hproper hn)
    cases hok.symm.trans h
  | successors hn hmoves hm h =>
    rw [hx] at hmoves h
    obtain ⟨e, he, rfl, -⟩ := exists_edge_of_enabled hmoves _ hm
    obtain ⟨states, hok, -⟩ :=
      exists_successorStates maxEnum merge prec hbuild htyped (hproper hn) he
    cases hok.symm.trans h
  | budget h => exact .inl (exhausted_of_checkBudgets h)

/-! ### Refinements -/

/-- The second precision is at least as fine as the first, and tracks declared variables only. -/
structure Sharpens (p : Program) (prec refined : ProgramPrecision) : Prop where
  /-- What was tracked still is. -/
  finer : Precision.refines refined prec = true
  /-- What is tracked is declared. -/
  declared : p.Declares refined.second

/-- A precision refines another if it tracks all the variables that the other tracks. -/
theorem refines_iff {refined : ProgramPrecision} : Precision.refines refined prec = true ↔
    ∀ y ∈ prec.second.vars, y ∈ refined.second.vars :=
  Bool.and_eq_true_iff.trans ((and_iff_right rfl).trans IndexSet.isSubset_iff)

/-- Declared variables that are tracked in addition keep a precision declared. -/
theorem Declares.add {tracked : TrackedVars} {vars : IndexSet} (h : p.Declares tracked)
    (hvars : ∀ y ∈ vars, ∃ type, p.varType y = .ok type) : p.Declares (tracked.add vars) := by
  intro y hy
  rcases IndexSet.mem_union.1 (of_decide_eq_true hy) with hy | hy
  · exact h (decide_eq_true hy)
  · exact hvars y hy

/-- Two precisions that sharpen a third do so together. -/
theorem Sharpens.join {q r : ProgramPrecision} (hq : p.Sharpens prec q) (hr : p.Sharpens prec r) :
    p.Sharpens prec (Precision.join q r) where
  finer := refines_iff.2 fun y hy ↦ IndexSet.mem_union.2 (.inl (refines_iff.1 hq.finer y hy))
  declared := hq.declared.add fun _ hy ↦ hr.declared (decide_eq_true hy)

variable {maxRuns : Nat} {strategy : CoreStrategy} {fp : List Move → Fingerprint}
  {g : Graph ProgramState Move} {scope : Scope}

/-- A refutation sharpens the precision. -/
theorem sharpens_of_refutes (htyped : p.WellTyped) (hprec : p.Declares prec.second) {id : NodeId}
    {trace : Refuted ProgramState Move ProgramPrecision}
    (h : (p.refuter maxRuns strategy fp).Refutes g prec id trace) :
    p.Sharpens prec trace.refined := by
  obtain ⟨-, found, hcheck, -, hrefine⟩ := h
  obtain ⟨statements, failedAt, core, hst, -, -, rfl⟩ := checkMoves_eq_infeasible hcheck
  obtain ⟨tracked, htracked, hrefine⟩ := bind_eq_ok.1 hrefine
  obtain rfl := Except.ok.inj htracked
  rw [← Except.ok.inj hrefine]
  refine ⟨refines_iff.2 fun y hy ↦ IndexSet.mem_union.2 (.inl hy), hprec.add fun y hy ↦ ?_⟩
  exact exists_varType_of_slice (wellTyped_of_statementsFrom htyped hst) hy

/-- **Refining sharpens the precision**, whichever counterexamples are examined. -/
theorem sharpens_combine (htyped : p.WellTyped) (hprec : p.Declares prec.second)
    {ids : List NodeId} {traces : List (Refuted ProgramState Move ProgramPrecision)}
    (h : List.Forall₂ ((p.refuter maxRuns strategy fp).Refutes g prec) ids traces) :
    p.Sharpens prec (scope.combine prec (traces.map Refuted.refined)) := by
  refine Scope.combine_induct ⟨refines_iff.2 fun y hy ↦ hy, hprec⟩ (fun q hq ↦ ?_) .join
  obtain ⟨trace, htrace, rfl⟩ := List.mem_map.1 hq
  obtain ⟨id, -, hrefutes⟩ := exists_of_forall₂_of_mem_right h htrace
  exact sharpens_of_refutes htyped hprec hrefutes

/-- The moves along a path of the graph are along edges of the program. -/
theorem edge_of_pathTo (hbuild : d.build = .ok p) {R : ProgramState → Prop}
    (hlabel : g.Labelled R p.JoinedBy) {id : NodeId} {path : Path ProgramState Move}
    (h : g.pathTo id = .ok path) : ∀ m ∈ path.trace.actions, ∃ e, p.edge m.edge = .ok e := by
  obtain ⟨hispath, -⟩ := Graph.isPath_of_pathTo h
  refine (hlabel.along hispath).2.forall_action fun hjoin ↦ ?_
  obtain ⟨e, he, rfl, -⟩ := hjoin
  exact ⟨e, d.edge_of_build hbuild he⟩

/-- Why a refinement may give no answer: it asks too much of the simulations, or it diverges. -/
theorem failure_of_fails (hbuild : d.build = .ok p) (htyped : p.WellTyped)
    {u : Session ProgramState Move} {e : Abort} (hwf : u.graph.WellFormed)
    {R : ProgramState → Prop} (hlabel : u.graph.Labelled R p.JoinedBy)
    (hne : u.graph.counterexamples ≠ [])
    (h : (p.refuter maxRuns strategy fp).Fails scope prec u e) :
    p.Strains maxRuns e ∨ ∃ f, e = .failure (.divergence f) := by
  cases h with
  | idle hnone => exact absurd hnone hne
  | unsettled h =>
    cases h with
    | path hid h =>
      obtain ⟨n, hn, -⟩ :=
        (Graph.mem_counterexamples hwf.indexed).1 (Scope.mem_of_mem_select hid)
      obtain ⟨path, hok⟩ := hwf.forest.exists_pathTo hn
      cases hok.symm.trans h
    | check hid hpath h =>
      exact .inl (strains_of_checkMoves (exists_inType hbuild) htyped
        (edge_of_pathTo hbuild hlabel hpath) h)
    | refine _ _ _ h => cases h
  | diverges => exact .inr ⟨_, rfl⟩

/-! ### Whole runs -/

variable {pruning : Pruning} {turns : Nat} {o : LoopOptions} {clock : Clock}
  {s₀ u w : Session ProgramState Move} {r : Round ProgramPrecision}

/-- **Every precision of a run tracks declared variables.** -/
theorem declares_of_reaches (htyped : p.WellTyped) (hprec : p.Declares prec.second)
    (h : (Checker.ofSession x (p.refuter maxRuns strategy fp) scope pruning turns).Reaches o clock
      prec s₀ r u) : p.Declares r.prec.second := by
  induction h with
  | start => exact hprec
  | next _ hround ih =>
    cases hround with
    | again _ hrefine _ =>
      obtain ⟨traces, v, -, -, -, htraces, rfl, -⟩ := Refuter.does_run.value_of_eq hrefine
      exact (sharpens_combine htyped ih htraces).declared

/-- What holds of the graph throughout a run. -/
structure Charts (p : Program) (g : Graph ProgramState Move) : Prop where
  /-- It is well formed. -/
  wellFormed : g.WellFormed
  /-- Roots are proper, edges of the program join its nodes, and children of proper states are
  proper. -/
  labelled : g.Labelled p.Proper fun s m t ↦ p.JoinedBy s m t ∧ (p.Proper s → p.Proper t)

theorem Charts.joined (hg : p.Charts g) : g.Labelled p.Proper p.JoinedBy :=
  hg.labelled.imp (fun hst ↦ hst) fun hE ↦ hE.1

/-- Every node of the graph has a proper state. -/
theorem Charts.proper (hg : p.Charts g) {i : NodeId} {n : Node ProgramState Move}
    (hn : g.node? i = some n) : p.Proper n.state :=
  hg.labelled.forall_state hg.wellFormed.forest (fun hst ↦ hst) (fun hE ↦ hE.2) hn

section Runs

variable (hx : x.model = p.model maxEnum merge) (hbuild : d.build = .ok p) (htyped : p.WellTyped)
include hx hbuild htyped

/-- A successor that is kept is joined by its move, and proper if what it succeeds is. -/
theorem joinedBy_and_proper_of_kept {succ : List (Move × List ProgramState)} {m : Move}
    (hsucc : x.successorsOf s prec = .ok succ) (hkept : x.Kept succ m t) :
    p.JoinedBy s m t ∧ (p.Proper s → p.Proper t) :=
  ⟨joinedBy_of_kept hx hsucc hkept, proper_of_kept hx hbuild htyped hsucc hkept⟩

omit hx hbuild htyped in
/-- Refinement keeps the graph a chart of the program. -/
theorem Charts.of_cuts (hu : p.Charts u.graph) (h : Relation.ReflTransGen Refuter.Cuts u w) :
    p.Charts w.graph :=
  ⟨Refuter.wellFormed_of_cuts h hu.wellFormed, hu.labelled.of_cuts hu.wellFormed h⟩

/-- Exploration keeps the graph a chart of the program. -/
theorem Charts.of_grows (hu : p.Charts u.graph) (h : Relation.ReflTransGen (x.Grows prec) u w) :
    p.Charts w.graph where
  wellFormed := Explorer.wellFormed_of_grows h hu.wellFormed
  labelled := hu.labelled.of_grows hu.wellFormed (fun hinit ↦ proper_of_initial hbuild (hx ▸ hinit))
    (joinedBy_and_proper_of_kept hx hbuild htyped) h

variable (hreach : (Checker.ofSession x (p.refuter maxRuns strategy fp) scope pruning turns).Reaches
  o clock prec s₀ r u)
include hreach

/-- **Every graph that the loop comes to is a chart of the program.** -/
theorem charts_of_reaches : p.Charts u.graph := by
  obtain ⟨hdisc, hlabel⟩ := hreach.labelled (fun hinit ↦ proper_of_initial hbuild (hx ▸ hinit))
    (joinedBy_and_proper_of_kept hx hbuild htyped)
  exact ⟨hdisc.wellFormed, hlabel⟩

/-- **An exploration of a run stops early only when a budget is used up**, or when there is no room
for the initial states of its precision. -/
theorem exhausted_or_crowds_of_explore (htime : x.options.timeLimit = 0)
    (hprec : p.Declares prec.second)
    {deadline : Option Nat} {e : Abort}
    (h : x.explore turns deadline r.prec u = (.error e, w)) :
    (∃ reason, e = .failure (.exhausted reason)) ∨
      p.Crowds maxEnum r.prec.second ∧ e = .fault .beyondMemory := by
  have hu := charts_of_reaches hx hbuild htyped hreach
  have hgrows := (Explorer.does_explore hu.wellFormed).change_of_eq h
  exact exhausted_or_crowds_of_stops hx hbuild htyped htime
    (declares_of_reaches htyped hprec hreach)
    (hu.of_grows hx hbuild htyped hgrows).proper
    ((Explorer.does_explore hu.wellFormed).stop_of_eq h)

/-- **A refinement of a run fails only because it asks too much of the simulations, or diverges.**
-/
theorem failure_of_refine {deadline : Option Nat} {e : Abort} {v : Session ProgramState Move}
    (h : x.explore turns deadline r.prec u = (.ok (some .suspect), w))
    (hrefine : (p.refuter maxRuns strategy fp).run scope pruning r.prec w = (.error e, v)) :
    p.Strains maxRuns e ∨ ∃ trace, e = .failure (.divergence trace) := by
  have hu := charts_of_reaches hx hbuild htyped hreach
  have hw := hu.of_grows hx hbuild htyped
    ((Explorer.does_explore hu.wellFormed).change_of_eq h)
  have hne := ((Explorer.does_explore hu.wellFormed).value_of_eq h _ rfl).suspect
  exact failure_of_fails hbuild htyped hw.wellFormed hw.joined hne
    (Refuter.does_run.stop_of_eq hrefine)

end Runs

end Program

/-- The report of a run that ends with a failure: an exhausted budget leaves the question open. -/
theorem Checker.failed_of_ending {σ S A P W : Type} {c : Checker σ S A P W} {r : Round P} {s : σ}
    {cause : Failure} {e : Except Fault (Report S A P W)}
    (h : c.ending r s (.failure cause) = some e) : ∃ report, e = .ok report ∧
      ∀ n p cause', report.conclusion = .failed n p cause' →
        cause' = cause ∧ ∀ reason, cause ≠ .exhausted reason := by
  cases cause with
  | exhausted reason =>
    obtain rfl := Option.some.inj h
    refine ⟨_, rfl, fun n p cause' hfailed ↦ ?_⟩
    cases hfailed
  | _ =>
    obtain rfl := Option.some.inj h
    refine ⟨_, rfl, fun n p cause' hfailed ↦ ?_⟩
    obtain ⟨-, -, rfl⟩ := Conclusion.failed.inj hfailed
    exact ⟨rfl, fun reason hreason ↦ by cases hreason⟩

namespace Program

variable {p : Program} {d : Draft}

/-! ### Checks -/

/-- The explorer of a check. -/
def checkExplorer (p : Program) (o : ProgramOptions) (meter : Meter) :
    Explorer ProgramState Move ProgramPrecision :=
  p.explorer { o with exploration := o.scope.exploration o.exploration } meter

/-- The collaborators of a check. -/
def checker (p : Program) (o : ProgramOptions) (meter : Meter) (turns : Nat) :
    Checker (Session ProgramState Move) ProgramState Move ProgramPrecision (List Valuation) :=
  Checker.ofSession (p.checkExplorer o meter) (p.refuter o.maxRuns o.strategy o.fingerprint) o.scope
    o.pruning turns

/-- The sessions that a check passes through, step by step: those of its explorations, and those of
the refinements after them. -/
def Visits (p : Program) (o : ProgramOptions) (meter : Meter) (clock : Clock) (turns : Nat)
    (u : Session ProgramState Move) : Prop :=
  ∃ r s t, (p.checker o meter turns).Reaches o.loop clock (initialPrecision o) {} r s ∧
    Relation.ReflTransGen ((p.checkExplorer o meter).Grows r.prec) s t ∧
    Relation.ReflTransGen Refuter.Cuts t u

/-- Nothing that the graph refers to is missing. -/
structure Intact (p : Program) (maxRuns : Nat) (g : Graph ProgramState Move) : Prop where
  /-- Nodes refer to nodes that are there. -/
  wellFormed : g.WellFormed
  /-- States are at declared locations. -/
  location : ∀ {i n}, g.node? i = some n → n.state.first.location < p.locations.length
  /-- Pruning at any node, link by link, finds every node that it looks for. -/
  prune : ∀ a turns, g.live < turns → g.pruneByLinks turns a = .ok (some (g.prune a))
  /-- The edges along every path are there, a simulation that gets stuck does so at a statement of
  one of them, and the walk back from there, whichever the core, finds every statement and every
  entry that it looks for. -/
  statements : ∀ {id path}, g.pathTo id = .ok path →
    ∃ statements, p.statementsOf path.trace.actions = .ok statements ∧
      ∀ k, p.simulate maxRuns (fun _ ↦ true) statements = .ok (.stuck k) →
        (∃ s, statements[k]? = some s ∧ s.position < path.trace.actions.length) ∧
          ∀ core, sliceByWalk statements (path.trace.actions.length + 1) k core =
            .ok (slice statements (path.trace.actions.length + 1) k core)

/-- **Nothing that is looked up in a chart of the program is missing.** -/
theorem Charts.intact (hbuild : d.build = .ok p) (htyped : p.WellTyped)
    {g : Graph ProgramState Move} (hg : p.Charts g) {maxRuns : Nat} : p.Intact maxRuns g where
  wellFormed := hg.wellFormed
  location hn := (hg.proper hn).location
  prune _ _ h := hg.wellFormed.pruneByLinks_eq h
  statements {id path} hpath := by
    obtain ⟨statements, hst⟩ := exists_statementsFrom (edge_of_pathTo hbuild hg.joined hpath)
    refine ⟨statements, hst, fun k hk ↦ ?_⟩
    have hcarries : p.Carries maxRuns (p.Strains maxRuns) p.AllKinded statements :=
      carries_of_wellTyped (exists_inType hbuild) (wellTyped_of_statementsFrom htyped hst)
    have hlt := hcarries.gives_simulate.value hk k rfl
    refine ⟨⟨statements.get ⟨k, hlt⟩, List.getElem?_eq_getElem hlt, ?_⟩,
      fun core ↦ sliceByWalk_eq hst hlt⟩
    have hpos := (position_of_statementsFrom hst _ (List.get_mem statements ⟨k, hlt⟩)).2
    rwa [Nat.zero_add] at hpos

/-- A list of which a check would know the length beforehand is longer than any memory can hold, and
yet within the bound that is meant to guard it. -/
inductive Overflows (p : Program) (o : ProgramOptions) : Prop
  /-- The initial states of a precision of declared variables. -/
  | initial {prec : TrackedVars} (hdeclared : p.Declares prec) (hcrowds : p.Crowds o.maxEnum prec)
  /-- The values of a variable. -/
  | values {x : VarId} {type : VarType} (htype : p.varType x = .ok type)
      (hspills : type.Spills Value.bytes o.maxRuns)

/-- **Only bounds that are themselves beyond memory let such lists pass.** -/
theorem Overflows.lt {o : ProgramOptions} (h : p.Overflows o) :
    Memory.maxBytes < Knowledge.bytes * o.maxEnum ∨ Memory.maxBytes < Value.bytes * o.maxRuns := by
  cases h with
  | initial _ hcrowds => exact .inl hcrowds.lt
  | values _ hspills => exact .inr hspills.lt

/-- **A check that ends does so with a report, unless memory does not suffice, and fails in two ways
only.** -/
theorem report_or_overflows_of_check (hbuild : d.build = .ok p) (htyped : p.WellTyped)
    {o : ProgramOptions} (hdeclared : p.Declares o.initial) (htime : o.exploration.timeLimit = 0)
    (hloop : o.loop.timeLimit = 0) {meter : Meter} {clock : Clock} {turns : Nat}
    {e : Except Fault (Report ProgramState Move ProgramPrecision (List Valuation))}
    (h : p.check o meter clock turns = some e) :
    (∃ report, e = .ok report ∧ ∀ n prec cause, report.conclusion = .failed n prec cause →
      .failure cause = tooManyRuns o.maxRuns ∨ ∃ trace, cause = .divergence trace) ∨
      e = .error .beyondMemory ∧ p.Overflows o := by
  obtain ⟨f, hf, -⟩ | ⟨r, s, hreach, hround⟩ := Checker.exists_rounds_of_run _ h
  · rw [hloop, Clock.checkLimit_zero] at hf
    cases hf
  have hlimit : (o.scope.exploration o.exploration).timeLimit = 0 := by
    cases o.scope <;> exact htime
  have hprec := declares_of_reaches htyped hdeclared hreach
  generalize hturn : Turn.done (some e) = turn at hround
  cases hround with
  | limit =>
    obtain rfl := Option.some.inj (Turn.done.inj hturn)
    exact .inl ⟨_, rfl, fun n prec cause hfailed ↦ by cases hfailed⟩
  | stopped hexplore =>
    obtain ⟨reason, rfl⟩ | ⟨hcrowds, rfl⟩ :=
      exhausted_or_crowds_of_explore rfl hbuild htyped hreach hlimit hdeclared hexplore
    · obtain ⟨report, rfl, hreport⟩ := Checker.failed_of_ending (Turn.done.inj hturn).symm
      exact .inl ⟨report, rfl, fun n prec cause hfailed ↦
        absurd rfl ((hreport n prec cause hfailed).2 reason)⟩
    · exact .inr ⟨Option.some.inj (Turn.done.inj hturn), .initial hprec hcrowds⟩
  | unfinished hexplore => cases Turn.done.inj hturn
  | safe hexplore =>
    obtain rfl := Option.some.inj (Turn.done.inj hturn)
    exact .inl ⟨_, rfl, fun n prec cause hfailed ↦ by cases hfailed⟩
  | failed hexplore hrefine =>
    obtain hstrains | ⟨trace, rfl⟩ := failure_of_refine rfl hbuild htyped hreach hexplore hrefine
    · cases hstrains with
      | runs =>
        obtain ⟨report, rfl, hreport⟩ := Checker.failed_of_ending (Turn.done.inj hturn).symm
        exact .inl ⟨report, rfl, fun n prec cause hfailed ↦
          .inl (congrArg _ (hreport n prec cause hfailed).1)⟩
      | room htype hspills =>
        exact .inr ⟨Option.some.inj (Turn.done.inj hturn), .values htype hspills⟩
    · obtain ⟨report, rfl, hreport⟩ := Checker.failed_of_ending (Turn.done.inj hturn).symm
      exact .inl ⟨report, rfl, fun n prec cause hfailed ↦
        .inr ⟨trace, (hreport n prec cause hfailed).1⟩⟩
  | genuine hexplore hrefine =>
    obtain rfl := Option.some.inj (Turn.done.inj hturn)
    exact .inl ⟨_, rfl, fun n prec cause hfailed ↦ by cases hfailed⟩
  | notFiner hexplore hrefine hfiner =>
    -- a refined precision tracks what was tracked before
    obtain ⟨traces, v, -, -, -, htraces, rfl, -⟩ := Refuter.does_run.value_of_eq hrefine
    cases (sharpens_combine htyped hprec htraces).finer.symm.trans hfiner
  | timeUp hexplore hrefine hfiner hover =>
    obtain rfl := Option.some.inj (Turn.done.inj hturn)
    exact .inl ⟨_, rfl, fun n prec cause hfailed ↦ by cases hfailed⟩
  | again hexplore hrefine hfiner => cases hturn

/-- **How a check can fail.** For a well-typed program that was built, an initial precision of
declared variables and no time limits: the check never refers to something that is not there, and if
it fails then a simulation has exceeded its budget or refinement has diverged. The graph is intact
at every step. Without a report it ends only if a list that its bounds let pass is beyond memory,
and no such list is let pass by bounds that are not themselves beyond memory. -/
theorem solver_or_divergence_of_check (hbuild : d.build = .ok p) (htyped : p.WellTyped)
    {o : ProgramOptions} (hdeclared : p.Declares o.initial)
    (htime : o.exploration.timeLimit = 0) (hloop : o.loop.timeLimit = 0) {meter : Meter}
    {clock : Clock} {turns : Nat} :
    (∀ e, p.check o meter clock turns = some e →
      (∃ report, e = .ok report ∧ ∀ n prec cause, report.conclusion = .failed n prec cause →
        cause = .solver s!"explicit simulation exceeded {o.maxRuns} valuations" ∨
          ∃ trace, cause = .divergence trace) ∨
        e = .error .beyondMemory ∧ p.Overflows o) ∧
      (p.Overflows o → Memory.maxBytes < Knowledge.bytes * o.maxEnum ∨
        Memory.maxBytes < Value.bytes * o.maxRuns) ∧
      ∀ u, p.Visits o meter clock turns u → p.Intact o.maxRuns u.graph := by
  refine ⟨fun e h ↦ ?_, Overflows.lt, ?_⟩
  · refine (report_or_overflows_of_check hbuild htyped hdeclared htime hloop h).imp_left ?_
    rintro ⟨report, rfl, hreport⟩
    refine ⟨report, rfl, fun n prec cause hfailed ↦ ?_⟩
    exact (hreport n prec cause hfailed).imp_left Abort.failure.inj
  · rintro u ⟨r, s, t, hreach, hgrows, hcuts⟩
    have hs := charts_of_reaches rfl hbuild htyped hreach
    exact ((hs.of_grows rfl hbuild htyped hgrows).of_cuts hcuts).intact hbuild htyped

/-- Both comparisons need several values of a variable; with one run allowed, the simulation of the
path gives up, and no list is beyond memory. -/
theorem detour_exceeds : ∃ p report prec, detour.build = .ok p ∧ p.WellTyped ∧
    p.check { maxRuns := 1 } {} {} 9 = some (.ok report) ∧
    report.conclusion = .failed 1 prec (.solver "explicit simulation exceeded 1 valuations") ∧
    (∀ n prec cause, report.conclusion = .failed n prec cause →
      cause = .solver s!"explicit simulation exceeded {1} valuations" ∨
        ∃ trace, cause = .divergence trace) ∧
    ¬p.Overflows { maxRuns := 1 } ∧
    ∀ u, p.Visits { maxRuns := 1 } {} {} 9 u → p.Intact 1 u.graph := by
  have hrun : (detour.build.toOption.any fun p ↦ (p.check { maxRuns := 1 } {} {} 9).any fun e ↦
      e.toOption.any fun report ↦ report.conclusion = .failed 1 ⟨(), {}⟩
        (.solver "explicit simulation exceeded 1 valuations")) = true := by
    decide +kernel
  obtain ⟨p, hp, hrun⟩ := exists_of_toOption_any hrun
  obtain ⟨e, he, hrun⟩ := (Option.any_eq_true _ _).1 hrun
  obtain ⟨report, rfl, hreport⟩ := exists_of_toOption_any hrun
  have htyped := wellTyped_detour hp
  obtain ⟨hends, hroom, hvisits⟩ := solver_or_divergence_of_check hp htyped
    (o := { maxRuns := 1 }) (fun y hy ↦ absurd (of_decide_eq_true hy) List.not_mem_nil) rfl rfl
  have hfits : ¬p.Overflows { maxRuns := 1 } := fun h ↦ absurd (hroom h) (by decide)
  obtain ⟨report', heq, hfails⟩ | ⟨herror, -⟩ := hends _ he
  · obtain rfl := Except.ok.inj heq
    exact ⟨p, report, _, hp, htyped, he, of_decide_eq_true hreport, hfails, hfits, hvisits⟩
  · cases herror

/-- A variable that may hold any integer, and an edge to the error location that wants it to be
small. -/
def span : Draft where
  vars := [⟨"n", .int Int64.minValue Int64.maxValue⟩]
  locations := ["A", "B"]
  edges := [⟨0, 1, [.assume (.compare .lt (.var 0) (.const (.int 5)))]⟩]
  init := some 0
  error := some 1

/-- **A bound that lets a list pass for which there is no room.** There are more integers than the
simulation may have runs, and yet the check does not say so: the number of integers is counted as
one too few, and the check ends with a fault when they are to be listed. -/
theorem span_overflows : ∃ p, span.build = .ok p ∧ p.WellTyped ∧
    p.check { maxRuns := UInt64.size - 1 } {} {} 9 = some (.error .beyondMemory) := by
  have hrun : (span.build.toOption.any fun p ↦ (p.check { maxRuns := UInt64.size - 1 } {} {} 9).any
      fun e ↦ match e with
        | .error f => f = .beyondMemory
        | .ok _ => false) = true := by
    decide +kernel
  obtain ⟨p, hp, hrun⟩ := exists_of_toOption_any hrun
  obtain ⟨e, he, hrun⟩ := (Option.any_eq_true _ _).1 hrun
  have htype : p.varType 0 = .ok (.int Int64.minValue Int64.maxValue) := by
    cases hp
    rfl
  have hedges : p.edges = Draft.numberEdges 0 span.edges := (Draft.build_eq_ok hp).1
  refine ⟨p, hp, fun edge hedge s hs ↦ ?_, ?_⟩
  · rw [hedges] at hedge
    obtain rfl := List.mem_singleton.1 hedge
    obtain rfl := List.mem_singleton.1 hs
    exact .assume (.compare (.var htype) .const)
  · cases e with
    | ok _ => cases hrun
    | error f => rw [he, of_decide_eq_true hrun]

end Program

end AbstractionRefinement
