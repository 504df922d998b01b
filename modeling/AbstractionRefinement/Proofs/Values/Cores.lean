import AbstractionRefinement.Proofs.Values.Exclusion

/-!
# Minimal cores

A core computed by leaving out assumptions is minimal: it blocks the statements up to the failure,
and no single assumption can be left out of it (`Program.core_minimal_of_check`).

Each assumption is tried once, while the assumptions after it are still there, so a later deletion
could make an earlier one possible that was refused before. It does not, since having an execution
is monotone: an execution under some assumptions is one under fewer of them
(`Program.Feasible.relax`). This is said of executions, not of the simulation, whose runs fork and
bind differently when an assumption is passed over; the two are tied together at each trial by the
exactness of the simulation.

Minimality is claimed for the strategy that computes it and for no other. It is minimality under
leaving out single assumptions, which by monotonicity is minimality under leaving out any set of
them; a different core with fewer assumptions may exist.

The result speaks of cores that were computed. A trial may exceed the number of runs that are
allowed, and then the whole computation stops and there is no core. The theorem about the whole
check follows the core from the simulation that got stuck to the refutation that was reported.
-/

namespace AbstractionRefinement

namespace Program

variable {p : Program} {maxRuns : Nat} {σ τ : Store} {s : Statement} {core core' : IndexSet}
  {edges : List Edge} {statements todo : List TraceStatement} {strategy : CoreStrategy}
  {active active' : Nat → Bool} {i failedAt : Nat} {found : Slice}

/-! ### Fewer assumptions -/

/-- A step is still possible when its assumption is passed over. -/
theorem Exec.relax {a b : Bool} (h : p.Exec (enforced a s) σ τ) (hb : b = true → a = true) :
    p.Exec (enforced b s) σ τ := by
  cases s with
  | assume condition =>
    cases b with
    | true => exact hb rfl ▸ h
    | false =>
      cases h with
      | assume _ => exact .assume rfl
  | assign x e => exact h
  | havoc x => exact h

theorem Executes.relax (h : p.Executes (enforcedFrom active i todo) σ τ)
    (hactive : ∀ j, active' j = true → active j = true) :
    p.Executes (enforcedFrom active' i todo) σ τ := by
  induction todo generalizing i σ with
  | nil => exact h
  | cons s todo ih =>
    cases h with
    | cons hok hs hrest => exact .cons hok (hs.relax (hactive i)) (ih hrest)

/-- **Having an execution is monotone**: what can be executed under some assumptions can be executed
under fewer. -/
theorem Feasible.relax (h : p.Feasible (enforcedFrom active i todo))
    (hactive : ∀ j, active' j = true → active j = true) :
    p.Feasible (enforcedFrom active' i todo) := by
  obtain ⟨σ, τ, hσ, hexec⟩ := h
  exact ⟨σ, τ, hσ, Executes.relax hexec hactive⟩

/-! ### Leaving out assumptions -/

/-- Nothing is added to a core. -/
theorem mem_of_mem_minimize {candidates : List Nat}
    (h : p.minimize maxRuns statements core candidates = .ok core') : ∀ j ∈ core', j ∈ core := by
  induction candidates generalizing core with
  | nil =>
    obtain rfl := Except.ok.inj h
    exact fun _ ↦ id
  | cons candidate rest ih =>
    obtain ⟨outcome, -, h⟩ := bind_eq_ok.1 h
    cases outcome with
    | feasible run => exact ih h
    | stuck k => exact fun j hj ↦ (IndexSet.mem_erase.1 (ih h j hj)).1

section Minimize

variable (hin : ∃ ρ, p.InType ρ)
  (hne : ∀ {x type}, p.varType x = .ok type → ∃ a, type.contains a = true)
  (hst : ∀ s ∈ statements, s.statement.WellTyped p)
include hin hne hst

/-- **What is kept is needed.** Without a candidate that is still in the core at the end, the
statements have an execution. -/
theorem feasible_erase_of_minimize {candidates : List Nat}
    (h : p.minimize maxRuns statements core candidates = .ok core') :
    ∀ j ∈ candidates, j ∈ core' →
      p.Feasible (enforcedFrom (· ∈ core'.erase j) 0 statements) := by
  induction candidates generalizing core with
  | nil => exact List.forall_mem_nil _
  | cons candidate rest ih =>
    obtain ⟨outcome, hsim, h⟩ := bind_eq_ok.1 h
    cases outcome with
    | feasible run =>
      refine List.forall_mem_cons.2 ⟨fun _ ↦ ?_, ih h⟩
      -- the core has only lost members since the trial
      have htrial : p.Feasible (enforcedFrom (· ∈ core.erase candidate) 0 statements) :=
        feasible_of_simulateFrom hin hne hsim reached_start (List.forall_mem_nil _) hst
      refine htrial.relax fun j hj ↦ decide_eq_true ?_
      obtain ⟨hmem, hj⟩ := IndexSet.mem_erase.1 (of_decide_eq_true hj)
      exact IndexSet.mem_erase.2 ⟨mem_of_mem_minimize h j hmem, hj⟩
    | stuck k =>
      refine List.forall_mem_cons.2 ⟨fun hmem ↦ ?_, ih h⟩
      exact absurd rfl (IndexSet.mem_erase.1 (mem_of_mem_minimize h candidate hmem)).2

end Minimize

/-! ### Refuted traces -/

/-- How a trace along edges is refuted: its statements, the one at which the simulation gets stuck,
and the core chosen. -/
structure RefutedBy (p : Program) (maxRuns : Nat) (strategy : CoreStrategy) (edges : List Edge)
    (statements : List TraceStatement) (failedAt : Nat) (core : IndexSet) : Prop where
  /-- The statements are listed with the positions of their edges. -/
  statements_eq : p.statementsOf (edges.map Edge.move) = .ok statements
  /-- They are those of the edges. -/
  map_eq : statements.map (·.statement) = edges.flatMap Edge.body
  /-- No run gets past the failure. -/
  stuck : p.simulate maxRuns (fun _ ↦ true) statements = .ok (.stuck failedAt)
  /-- The core explains it. -/
  core_eq : p.core maxRuns strategy statements failedAt = .ok core

theorem refutedBy_of_check {d : Draft} (hbuild : d.build = .ok p)
    (hedges : ∀ e ∈ edges, e ∈ p.edges) {t : Trace ProgramState Move}
    (hactions : t.actions = edges.map Edge.move)
    (h : (p.refuter maxRuns strategy).check t = .ok (.infeasible found)) :
    ∃ statements failedAt core, p.RefutedBy maxRuns strategy edges statements failedAt core ∧
      found = slice statements (edges.length + 1) failedAt core := by
  obtain ⟨statements, failedAt, core, hst, hsim, hcore, rfl⟩ := checkMoves_eq_infeasible h
  rw [hactions] at hst
  refine ⟨statements, failedAt, core, ⟨hst, map_statementsFrom hbuild hedges hst, hsim, hcore⟩, ?_⟩
  rw [hactions, List.length_map]

namespace RefutedBy

variable (h : p.RefutedBy maxRuns strategy edges statements failedAt core)
include h

theorem wellTyped (htyped : p.WellTyped) : ∀ s ∈ statements, s.statement.WellTyped p :=
  wellTyped_of_statementsFrom htyped h.statements_eq

/-- **The failure is an assumption**, before which there is an execution. -/
theorem exists_assumption {d : Draft} (hbuild : d.build = .ok p) (htyped : p.WellTyped) :
    ∃ s condition, statements[failedAt]? = some s ∧ s.statement = .assume condition ∧
      p.Feasible (enforcedFrom (fun _ ↦ true) 0 (statements.take failedAt)) := by
  obtain ⟨ρ, hρ⟩ := exists_inType hbuild
  obtain ⟨j, condition, hj, -, hget, hbefore, -⟩ := stuck_of_simulateFrom ⟨ρ, hρ⟩
    (d.exists_contains_of_build hbuild) h.stuck reached_start (List.forall_mem_nil _)
    (h.wellTyped htyped) ⟨ρ, ρ, hρ, .nil⟩
  obtain rfl : failedAt = j := by omega
  rw [List.getElem?_map] at hget
  obtain ⟨s, hs, hcond⟩ := Option.map_eq_some_iff.1 hget
  refine ⟨s, condition, hs, hcond, ?_⟩
  rwa [List.nil_append, enforcedFrom_true, ← List.map_take, ← enforcedFrom_true] at hbefore

/-- **Whatever blocks the statements up to the failure includes the failure**: without it there is
an execution, since there is one of the statements before. -/
theorem active_failedAt {d : Draft} (hbuild : d.build = .ok p) (htyped : p.WellTyped)
    (hblocks : ¬p.Feasible (enforcedFrom active 0 (statements.take (failedAt + 1)))) :
    active failedAt = true := by
  obtain ⟨s, condition, hs, hcond, hbefore⟩ := h.exists_assumption hbuild htyped
  have hlen : (statements.take failedAt).length = failedAt :=
    List.length_take_of_le (List.getElem?_eq_some_iff.1 hs).1.le
  have hwell := h.wellTyped htyped
  refine Bool.of_not_eq_false fun hpass ↦ hblocks ?_
  rw [List.take_add_one, hs, enforcedFrom_append, hlen, Nat.zero_add]
  refine (hbefore.relax fun _ _ ↦ rfl).snoc ?_ (d.exists_contains_of_build hbuild)
    (hwell s (List.mem_of_getElem? hs)) fun _ _ ↦ hpass
  exact wellTyped_enforcedFrom fun s hs ↦ hwell s (List.mem_of_mem_take hs)

end RefutedBy

/-- **A minimal core is minimal.** Let a trace along edges of a well-typed program be refuted with a
minimal core. The core consists of assumptions up to the failure and includes it. With these
assumptions alone, the statements up to the failure have no execution; with any one of them left
out, they have one. -/
theorem core_minimal_of_check {d : Draft} (hbuild : d.build = .ok p) (htyped : p.WellTyped)
    {t : Trace ProgramState Move} (hedges : ∀ e ∈ edges, e ∈ p.edges)
    (hactions : t.actions = edges.map Edge.move)
    (h : (p.refuter maxRuns .minimal).check t = .ok (.infeasible found)) :
    ∃ statements failedAt core, p.RefutedBy maxRuns .minimal edges statements failedAt core ∧
      found = slice statements (edges.length + 1) failedAt core ∧ failedAt ∈ core ∧
      (∀ i ∈ core, i ≤ failedAt ∧
        ∃ condition, (edges.flatMap Edge.body)[i]? = some (.assume condition)) ∧
      ¬p.Feasible (enforcedFrom (· ∈ core) 0 (statements.take (failedAt + 1))) ∧
      ∀ i ∈ core,
        p.Feasible (enforcedFrom (· ∈ core.erase i) 0 (statements.take (failedAt + 1))) := by
  have hin := exists_inType hbuild
  have hne : ∀ {x type}, p.varType x = .ok type → ∃ a, type.contains a = true :=
    d.exists_contains_of_build hbuild
  obtain ⟨statements, failedAt, core, href, hfound⟩ := refutedBy_of_check hbuild hedges hactions h
  have hst := href.wellTyped htyped
  have hblocked := not_feasible_of_core hin hne hst (by decide) href.stuck href.core_eq
  have hsub : ∀ i ∈ core, i ∈ assumptions (statements.take (failedAt + 1)) :=
    mem_of_mem_minimize href.core_eq
  refine ⟨statements, failedAt, core, href, hfound,
    of_decide_eq_true (href.active_failedAt hbuild htyped hblocked), fun i hi ↦ ?_, hblocked,
    fun i hi ↦ ?_⟩
  · obtain ⟨condition, hcond⟩ := mem_assumptions.1 (hsub i hi)
    rw [List.map_take, href.map_eq, List.getElem?_take] at hcond
    split at hcond
    · rename_i hlt
      exact ⟨Nat.le_of_lt_succ hlt, condition, hcond⟩
    · cases hcond
  · exact feasible_erase_of_minimize hin hne (fun s hs ↦ hst s (List.mem_of_mem_take hs))
      href.core_eq i (hsub i hi) hi

/-! ### An example -/

/-- The first edge of `detour`, the second one, and the first one again. -/
def detourAround : Trace ProgramState Move where
  start := ⟨⟨0⟩, .top⟩
  steps := [(⟨0, 0, 1⟩, ⟨⟨1⟩, .top⟩), (⟨1, 1, 2⟩, ⟨⟨2⟩, .top⟩), (⟨0, 0, 1⟩, ⟨⟨1⟩, .top⟩)]

/-- The edges of this trace. -/
def aroundEdges (p : Program) : List Edge := p.edges ++ p.edges.take 1

theorem mem_aroundEdges {p : Program} : ∀ e ∈ aroundEdges p, e ∈ p.edges :=
  List.forall_mem_append.2 ⟨fun _ ↦ id, fun _ ↦ List.mem_of_mem_take⟩

theorem actions_detourAround {p : Program} (hp : detour.build = .ok p) :
    detourAround.actions = (aroundEdges p).map Edge.move := by
  cases hp
  rfl

/-- The whole statement at this trace. What the first edge compares is overwritten, so its
assumption is left out; the other two are needed. -/
theorem detourAround_minimal : ∃ p found statements core, detour.build = .ok p ∧ p.WellTyped ∧
    (p.refuter 99 .minimal).check detourAround = .ok (.infeasible found) ∧
    p.RefutedBy 99 .minimal (aroundEdges p) statements 3 core ∧ core.toList = [2, 3] ∧
    ¬p.Feasible (enforcedFrom (· ∈ core) 0 (statements.take 4)) ∧
    p.Feasible (enforcedFrom (· ∈ core.erase 2) 0 (statements.take 4)) := by
  have hrun : (detour.build.toOption.any fun p ↦
      (((p.refuter 99 .minimal).check detourAround).toOption.any fun
        | .infeasible _ => true
        | .feasible _ => false) &&
      (p.statementsOf detourAround.actions).toOption.any fun statements ↦
        (p.simulate 99 (fun _ ↦ true) statements).toOption.any (· = .stuck 3) &&
        (p.core 99 .minimal statements 3).toOption.any (·.toList = [2, 3])) = true := by
    decide +kernel
  obtain ⟨p, hp, hrun⟩ := exists_of_toOption_any hrun
  obtain ⟨hanswer, hrun⟩ := Bool.and_eq_true_iff.1 hrun
  obtain ⟨answer, hcheck, hanswer⟩ := exists_of_toOption_any hanswer
  obtain ⟨statements, hst, hrun⟩ := exists_of_toOption_any hrun
  obtain ⟨hsim, hcore⟩ := Bool.and_eq_true_iff.1 hrun
  obtain ⟨outcome, hsim, houtcome⟩ := exists_of_toOption_any hsim
  obtain rfl := of_decide_eq_true houtcome
  obtain ⟨core, hcore, hlist⟩ := exists_of_toOption_any hcore
  cases answer with
  | feasible witness => cases hanswer
  | infeasible found =>
    have htyped := wellTyped_detour hp
    have hactions := actions_detourAround hp
    obtain ⟨_, _, _, href, -, -, -, hblocked, hneeded⟩ :=
      core_minimal_of_check hp htyped mem_aroundEdges hactions hcheck
    -- the statements, the failure and the core are those computed
    obtain rfl := Except.ok.inj (hst.symm.trans (hactions ▸ href.statements_eq))
    obtain rfl := Simulation.stuck.inj (Except.ok.inj (hsim.symm.trans href.stuck))
    obtain rfl := Except.ok.inj (hcore.symm.trans href.core_eq)
    have hlist : core.toList = [2, 3] := of_decide_eq_true hlist
    refine ⟨p, found, statements, core, hp, htyped, hcheck, href, hlist, hblocked, hneeded 2 ?_⟩
    show 2 ∈ core.toList
    rw [hlist]
    decide

end Program

end AbstractionRefinement
