import AbstractionRefinement.Proofs.Values.Cores

/-!
# Slices are live variables

The slice of a refuted trace lists, for each state, the variables that matter from there to the
failure. Here is what this means: two stores that agree on these variables cannot be told apart by
the rest of the way. Either both can go on to the failure and through it, or neither can, if only
the assumptions of the core are enforced (`Program.live_of_check`).

A statement is one step of this argument (`Program.exists_exec_of_agreeOn`). Stores that agree on
what matters before it lead to stores that agree on what matters after it: a value that is stored is
the same in both, or it does not matter; and a value that is chosen arbitrarily can be chosen alike.
The way from a state to the failure is as many such steps (`Program.exists_executes_of_agreeOn`).

Where the statements of an edge begin is counted on the edges (`Program.statementsBefore`), and not
read off the positions that the statements carry; the two are related once, by
`Program.RefutedBy.lt_statementsBefore_iff`.
-/

namespace AbstractionRefinement

/-! ### Stores that agree -/

/-- The stores have the same values in these variables. -/
def Store.AgreeOn (σ τ : Store) (xs : IndexSet) : Prop := ∀ ⦃x⦄, x ∈ xs → σ x = τ x

namespace Store.AgreeOn

variable {σ τ : Store} {xs : IndexSet} {x : VarId} {a b : Value}

theorem symm (h : σ.AgreeOn τ xs) : τ.AgreeOn σ xs := fun _ hx ↦ (h hx).symm

/-- A variable is written in both stores, with the same value if it matters. -/
theorem set (h : ∀ ⦃y⦄, y ∈ xs → y ≠ x → σ y = τ y) (hx : x ∈ xs → a = b) :
    (σ.set x a).AgreeOn (τ.set x b) xs := by
  intro y hy
  by_cases hyx : y = x
  · subst hyx
    rw [Store.set_self, Store.set_self]
    exact hx hy
  · rw [Store.set_of_ne hyx, Store.set_of_ne hyx]
    exact h hy hyx

end Store.AgreeOn

/-- **The value of an expression depends on its variables only.** -/
theorem Expr.value_congr {e : Expr} {σ τ : Store} (h : σ.AgreeOn τ e.vars) :
    e.value σ = e.value τ := by
  induction e with
  | const a => rfl
  | var x => exact congrArg Except.ok (h (IndexSet.mem_ofList.2 List.mem_cons_self))
  | arith op a b iha ihb | compare op a b iha ihb | equal a b iha ihb | differ a b iha ihb
  | conj a b iha ihb | disj a b iha ihb =>
    obtain ⟨ha, hb⟩ := IndexSet.forall_mem_union.1 h
    rw [value, value, iha ha, ihb hb]
  | neg a ih => rw [value, value, ih h]

namespace Program

variable {p : Program} {maxRuns : Nat} {σ σ' τ : Store} {s : Statement} {core live : IndexSet}
  {edges : List Edge} {statements todo : List TraceStatement} {strategy : CoreStrategy}
  {i k n failedAt : Nat} {found : Slice}

/-! ### Executions from stores that agree -/

/-- **One statement.** Stores that agree on what matters before it lead to stores that agree on what
matters after it. -/
theorem exists_exec_of_agreeOn (hs : s.WellTyped p) (hσ' : p.WellKinded σ')
    (hagree : σ.AgreeOn σ' (liveBefore core i s live)) (h : p.Exec (enforced (i ∈ core) s) σ τ) :
    ∃ τ', p.Exec (enforced (i ∈ core) s) σ' τ' ∧ τ.AgreeOn τ' live := by
  have hother : ∀ ⦃y⦄, y ∈ live → s.writes ≠ some y → σ y = σ' y :=
    fun y hy hw ↦ hagree (mem_liveBefore hy hw)
  cases hs with
  | @assume condition hcond =>
    have hlive : σ.AgreeOn σ' live := fun y hy ↦ hother hy (by simp [Statement.writes])
    by_cases hcore : i ∈ core
    · rw [decide_eq_true hcore, enforced_true] at h ⊢
      cases h with
      | assume hvalue =>
        have hvars : σ.AgreeOn σ' condition.vars := fun y hy ↦ hagree (by
          rw [liveBefore, if_pos hcore]
          exact IndexSet.mem_union.2 (.inr hy))
        exact ⟨σ', .assume (Expr.value_congr hvars ▸ hvalue), hlive⟩
    · rw [decide_eq_false hcore] at h ⊢
      cases h with
      | assume _ => exact ⟨σ', .assume rfl, hlive⟩
  | @assign x type e htype he =>
    have hkept : ∀ ⦃y⦄, y ∈ live → y ≠ x → σ y = σ' y :=
      fun y hy hyx ↦ hother hy fun hw ↦ hyx (Option.some.inj hw).symm
    cases h with
    | @assign _ _ a _ ha =>
      by_cases hx : x ∈ live
      · have hvars : σ.AgreeOn σ' e.vars := fun y hy ↦ hagree (by
          rw [liveBefore, if_pos hx]
          exact IndexSet.mem_union.2 (.inr hy))
        exact ⟨σ'.set x a, .assign (Expr.value_congr hvars ▸ ha), .set hkept fun _ ↦ rfl⟩
      · -- the values stored may differ, and do not matter
        obtain ⟨b, hb, -⟩ := he.exists_value hσ'
        exact ⟨σ'.set x b, .assign hb, .set hkept fun hmem ↦ absurd hmem hx⟩
  | @havoc x type htype =>
    cases h with
    | @havoc _ _ a _ htype' ha =>
      refine ⟨σ'.set x a, .havoc htype' ha, .set (fun y hy hyx ↦ ?_) fun _ ↦ rfl⟩
      exact hother hy fun hw ↦ hyx (Option.some.inj hw).symm

/-- **Several statements.** Where one store gets through, so does every store that agrees with it on
what matters at the beginning. -/
theorem exists_executes_of_agreeOn (htodo : ∀ s ∈ todo, s.statement.WellTyped p)
    (hσ' : p.WellKinded σ') (hagree : σ.AgreeOn σ' (liveFrom core i todo))
    (h : ∃ τ, p.Executes (enforcedFrom (· ∈ core) i todo) σ τ) :
    ∃ τ', p.Executes (enforcedFrom (· ∈ core) i todo) σ' τ' := by
  obtain ⟨τ, h⟩ := h
  induction todo generalizing i σ σ' with
  | nil => exact ⟨σ', .nil⟩
  | cons s todo ih =>
    obtain ⟨hs, htodo⟩ := List.forall_mem_cons.1 htodo
    cases h with
    | cons _ hexec hrest =>
      obtain ⟨μ', hexec', hagree'⟩ := exists_exec_of_agreeOn hs hσ' hagree hexec
      have hμ' := hexec'.wellKinded (wellTyped_enforced hs) hσ'
      obtain ⟨τ', hτ'⟩ := ih htodo hμ' hagree' hrest
      exact ⟨τ', .cons trivial hexec' hτ'⟩

/-! ### Where edges begin among the statements -/

/-- The number of statements of the edges before the one at a position. -/
def statementsBefore (edges : List Edge) (k : Nat) : Nat :=
  ((edges.take k).flatMap Edge.body).length

theorem statementsFrom_append {first others : List Move}
    (h : p.statementsFrom i (first ++ others) = .ok statements) :
    ∃ before after, p.statementsFrom i first = .ok before ∧
      p.statementsFrom (i + first.length) others = .ok after ∧ statements = before ++ after := by
  induction first generalizing i statements with
  | nil => exact ⟨[], statements, rfl, h, rfl⟩
  | cons m first ih =>
    obtain ⟨e, he, h⟩ := bind_eq_ok.1 h
    obtain ⟨rest, hrest, h⟩ := bind_eq_ok.1 h
    obtain rfl := Except.ok.inj h
    obtain ⟨before, after, hbefore, hafter, rfl⟩ := ih hrest
    refine ⟨_, after, bind_eq_ok.2 ⟨e, he, bind_eq_ok.2 ⟨before, hbefore, rfl⟩⟩, ?_, ?_⟩
    · rwa [List.length_cons, Nat.add_comm first.length, ← Nat.add_assoc]
    · rw [List.append_assoc]

namespace RefutedBy

variable (h : p.RefutedBy maxRuns strategy edges statements failedAt core) {d : Draft}
  (hbuild : d.build = .ok p) (hedges : ∀ e ∈ edges, e ∈ p.edges)
include h hbuild hedges

variable (k) in
/-- The statements of the first edges come first. -/
theorem exists_split : ∃ before after, statements = before ++ after ∧
    before.length = statementsBefore edges k ∧ (∀ s ∈ before, s.position < k) ∧
      ∀ s ∈ after, k ≤ s.position := by
  have hst := h.statements_eq
  rw [statementsOf, ← List.take_append_drop k edges, List.map_append] at hst
  obtain ⟨before, after, hbefore, hafter, heq⟩ := statementsFrom_append hst
  have hmap := map_statementsFrom hbuild (fun e he ↦ hedges e (List.mem_of_mem_take he)) hbefore
  refine ⟨before, after, heq, ?_, fun s hs ↦ ?_, fun s hs ↦ ?_⟩
  · rw [statementsBefore, ← hmap, List.length_map]
  · have hpos := position_of_statementsFrom hbefore s hs
    rw [List.length_map, List.length_take] at hpos
    omega
  · have hpos := position_of_statementsFrom hafter s hs
    rw [List.length_map, List.length_map, List.length_take, List.length_drop] at hpos
    omega

/-- **A statement is before an edge if it carries a smaller position.** -/
theorem lt_statementsBefore_iff {s : TraceStatement} (hs : statements[n]? = some s) :
    n < statementsBefore edges k ↔ s.position < k := by
  obtain ⟨before, after, rfl, hlen, hbefore, hafter⟩ := h.exists_split k hbuild hedges
  rw [← hlen]
  by_cases hn : n < before.length
  · rw [List.getElem?_append_left hn] at hs
    exact iff_of_true hn (hbefore s (List.mem_of_getElem? hs))
  · rw [List.getElem?_append_right (Nat.not_lt.1 hn)] at hs
    exact iff_of_false hn (Nat.not_lt.2 (hafter s (List.mem_of_getElem? hs)))

/-- **What matters at a state**, and what is done from there to the failure, begin at the same
statement. -/
theorem exists_liveAt_eq (hk : statementsBefore edges k ≤ failedAt) :
    ∃ todo, (∀ s ∈ todo, s ∈ statements) ∧
      liveAt core (statements.take (failedAt + 1)) k =
        liveFrom core (statementsBefore edges k) todo ∧
      (enforcedFrom (· ∈ core) 0 (statements.take (failedAt + 1))).drop (statementsBefore edges k) =
        enforcedFrom (· ∈ core) (statementsBefore edges k) todo := by
  obtain ⟨before, after, rfl, hlen, hbefore, hafter⟩ := h.exists_split k hbuild hedges
  have hle : before.length ≤ failedAt + 1 := by omega
  refine ⟨after.take (failedAt + 1 - before.length), fun s hs ↦ ?_, ?_, ?_⟩
  · exact List.mem_append_right before (List.mem_of_mem_take hs)
  · rw [List.take_append, List.take_of_length_le hle, ← hlen]
    exact liveAt_append hbefore fun s hs ↦ hafter s (List.mem_of_mem_take hs)
  · rw [List.take_append, List.take_of_length_le hle, enforcedFrom_append, ← hlen, Nat.zero_add]
    exact List.drop_left' length_enforcedFrom

end RefutedBy

/-! ### Slices -/

/-- What is done from the state at a position to the failure, and through it: the statements of the
edges from there on, of which only the assumptions of the core are enforced. -/
def wayFrom (edges : List Edge) (statements : List TraceStatement) (failedAt : Nat)
    (core : IndexSet) (k : Nat) : List Statement :=
  (enforcedFrom (· ∈ core) 0 (statements.take (failedAt + 1))).drop (statementsBefore edges k)

/-- The slice tells what matters: for a trace along edges that fails at a statement of the edge at
position `failEdge`. -/
structure LiveSlice (p : Program) (edges : List Edge) (statements : List TraceStatement)
    (failedAt failEdge : Nat) (core : IndexSet) (found : Slice) : Prop where
  /-- There is an entry for every state, one more than there are edges. -/
  length_eq : found.perState.length = edges.length + 1
  /-- Nothing matters after the failure. -/
  empty_after : ∀ k vars, failEdge < k → found.perState[k]? = some vars → vars = .empty
  /-- The cut is at a state. -/
  cut_lt : found.cut < edges.length + 1
  /-- If something matters anywhere, the cut is where this is so first. -/
  cut_first : ∀ k vars, found.perState[k]? = some vars → vars ≠ .empty → found.cut ≤ k ∧
    ∃ vars', found.perState[found.cut]? = some vars' ∧ vars' ≠ .empty
  /-- Up to the failure, stores that agree on what matters either both get through or neither
  does. -/
  decides : ∀ k ≤ failEdge, ∀ vars, found.perState[k]? = some vars → ∀ σ σ', p.WellKinded σ →
    p.WellKinded σ' → σ.AgreeOn σ' vars →
      ((∃ τ, p.Executes (wayFrom edges statements failedAt core k) σ τ) ↔
        ∃ τ, p.Executes (wayFrom edges statements failedAt core k) σ' τ)

theorem not_isEmpty_iff {vars : IndexSet} : (!vars.isEmpty) = true ↔ vars ≠ .empty := by
  rw [Bool.not_eq_true', ← Bool.not_eq_true, IndexSet.isEmpty_iff]

variable {states : Nat}

/-- The entries of a slice, given the statement that fails. -/
theorem eq_of_mem_perState {s : TraceStatement} (hs : statements[failedAt]? = some s)
    {vars : IndexSet} (hvars : (slice statements states failedAt core).perState[k]? = some vars) :
    vars = if k ≤ s.position then liveAt core (statements.take (failedAt + 1)) k else .empty := by
  have hlast : (statements.take (failedAt + 1)).getLast? = some s := by
    rw [List.getLast?_take, if_neg (Nat.succ_ne_zero failedAt), Nat.add_sub_cancel, hs]
    rfl
  rw [slice, hlast, List.getElem?_map] at hvars
  obtain ⟨j, hj, rfl⟩ := Option.map_eq_some_iff.1 hvars
  obtain ⟨hlt, rfl⟩ := List.getElem?_eq_some_iff.1 hj
  rw [List.getElem_range]
  rfl

/-- The cut of a slice is a state. -/
theorem cut_lt_of_slice (hstates : 0 < states) :
    (slice statements states failedAt core).cut < states := by
  have hlen : (slice statements states failedAt core).perState.length = states := by simp [slice]
  rw [slice]
  dsimp only
  cases hfind : List.findIdx? _ _ with
  | none =>
    rw [Option.getD_none]
    omega
  | some j =>
    obtain ⟨hj, -⟩ := List.findIdx?_eq_some_iff_getElem.1 hfind
    rw [Option.getD_some]
    exact hlen ▸ hj

/-- If something matters anywhere, the cut is where this is so first. -/
theorem cut_le_of_slice {vars : IndexSet}
    (hvars : (slice statements states failedAt core).perState[k]? = some vars)
    (hne : vars ≠ .empty) : (slice statements states failedAt core).cut ≤ k ∧
      ∃ vars', (slice statements states failedAt core).perState[
        (slice statements states failedAt core).cut]? = some vars' ∧ vars' ≠ .empty := by
  obtain ⟨j, hj⟩ : ∃ j, (slice statements states failedAt core).perState.findIdx?
      (fun vars ↦ !vars.isEmpty) = some j := by
    refine Option.isSome_iff_exists.1 (List.findIdx?_isSome.trans (List.any_eq_true.2 ?_))
    exact ⟨vars, List.mem_of_getElem? hvars, not_isEmpty_iff.2 hne⟩
  have hcut : (slice statements states failedAt core).cut = j := by
    rw [slice] at hj ⊢
    dsimp only at hj ⊢
    rw [hj, Option.getD_some]
  obtain ⟨hlt, hsome, hfirst⟩ := List.findIdx?_eq_some_iff_getElem.1 hj
  rw [hcut]
  refine ⟨Nat.not_lt.1 fun hkj ↦ hfirst k hkj ?_, _, List.getElem?_eq_getElem hlt,
    not_isEmpty_iff.1 hsome⟩
  rw [(List.getElem?_eq_some_iff.1 hvars).2]
  exact not_isEmpty_iff.2 hne

/-- **A slice is a liveness analysis.** Let a trace along edges of a well-typed program be refuted,
with any strategy. Its slice has an entry for every state. Up to the edge that fails, two stores of
the declared kinds that agree on the entry either both get through the statements from there to the
failure, with the assumptions of the core enforced, or neither does; after this edge the entries are
empty. The cut is a state, and the first one with an entry that is not empty, if there is one. -/
theorem live_of_check {d : Draft} (hbuild : d.build = .ok p) (htyped : p.WellTyped)
    {t : Trace ProgramState Move} (hedges : ∀ e ∈ edges, e ∈ p.edges)
    (hactions : t.actions = edges.map Edge.move)
    (h : (p.refuter maxRuns strategy).check t = .ok (.infeasible found)) :
    ∃ statements failedAt failEdge core,
      p.RefutedBy maxRuns strategy edges statements failedAt core ∧
      statementsBefore edges failEdge ≤ failedAt ∧
      failedAt < statementsBefore edges (failEdge + 1) ∧
      p.LiveSlice edges statements failedAt failEdge core found := by
  obtain ⟨statements, failedAt, core, href, rfl⟩ := refutedBy_of_check hbuild hedges hactions h
  obtain ⟨s, -, hs, -⟩ := href.exists_assumption hbuild htyped
  have hbefore : ∀ {k}, k ≤ s.position → statementsBefore edges k ≤ failedAt := fun hk ↦
    Nat.not_lt.1 fun hlt ↦ Nat.not_lt.2 hk ((href.lt_statementsBefore_iff hbuild hedges hs).1 hlt)
  refine ⟨statements, failedAt, s.position, core, href, hbefore le_rfl,
    (href.lt_statementsBefore_iff hbuild hedges hs).2 (Nat.lt_succ_self _), ?_⟩
  refine ⟨by simp [slice], fun k vars hk hvars ↦ ?_, cut_lt_of_slice (Nat.succ_pos _),
    fun k vars ↦ cut_le_of_slice, fun k hk vars hvars σ σ' hσ hσ' hagree ↦ ?_⟩
  · rw [eq_of_mem_perState hs hvars, if_neg (Nat.not_le.2 hk)]
  · rw [eq_of_mem_perState hs hvars, if_pos hk] at hagree
    obtain ⟨todo, hsub, hlive, hway⟩ := href.exists_liveAt_eq hbuild hedges (hbefore hk)
    have htodo : ∀ s ∈ todo, s.statement.WellTyped p :=
      fun s hs ↦ href.wellTyped htyped s (hsub s hs)
    rw [hlive] at hagree
    rw [wayFrom, hway]
    exact ⟨exists_executes_of_agreeOn htodo hσ' hagree,
      exists_executes_of_agreeOn htodo hσ hagree.symm⟩

/-- The whole statement at the first edge of `detour`, the second one, and the first one again.
Only the last assumption counts here. The second edge overwrites one of the variables that it
compares, so until then only the other one matters. -/
theorem detourAround_live : ∃ p found statements failedAt core, detour.build = .ok p ∧
    p.WellTyped ∧ (p.refuter 99 .last).check detourAround = .ok (.infeasible found) ∧
    found.perState.map IndexSet.toList = [[1], [1], [0, 1], []] ∧
    p.RefutedBy 99 .last (aroundEdges p) statements failedAt core ∧
    ∀ σ σ', p.WellKinded σ → p.WellKinded σ' → σ 1 = σ' 1 →
      ((∃ τ, p.Executes (wayFrom (aroundEdges p) statements failedAt core 0) σ τ) ↔
        ∃ τ, p.Executes (wayFrom (aroundEdges p) statements failedAt core 0) σ' τ) := by
  have hrun : (detour.build.toOption.any fun p ↦
      ((p.refuter 99 .last).check detourAround).toOption.any fun
        | .infeasible found => found.perState.map IndexSet.toList = [[1], [1], [0, 1], []]
        | .feasible _ => false) = true := by
    decide +kernel
  obtain ⟨p, hp, hrun⟩ := exists_of_toOption_any hrun
  obtain ⟨answer, hcheck, hrun⟩ := exists_of_toOption_any hrun
  cases answer with
  | feasible witness => cases hrun
  | infeasible found =>
    have htyped := wellTyped_detour hp
    have hlists := of_decide_eq_true hrun
    obtain ⟨statements, failedAt, failEdge, core, href, -, -, hlive⟩ :=
      live_of_check hp htyped mem_aroundEdges (actions_detourAround hp) hcheck
    obtain ⟨vars, hvars, hlist⟩ : ∃ vars, found.perState[0]? = some vars ∧ vars.toList = [1] := by
      have hget := congrArg (·[0]?) hlists
      rw [List.getElem?_map] at hget
      exact Option.map_eq_some_iff.1 hget
    refine ⟨p, found, statements, failedAt, core, hp, htyped, hcheck, hlists, href,
      fun σ σ' hσ hσ' heq ↦ hlive.decides 0 (Nat.zero_le _) vars hvars σ σ' hσ hσ' fun x hx ↦ ?_⟩
    have hx : x ∈ vars.toList := hx
    rw [hlist] at hx
    rw [List.mem_singleton.1 hx]
    exact heq

end Program

end AbstractionRefinement
