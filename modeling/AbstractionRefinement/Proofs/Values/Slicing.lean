import AbstractionRefinement.Proofs.Values.Exactness
import AbstractionRefinement.Proofs.Values.Kinds

/-!
# Cores and slices

A core is enough to block a trace: with its assumptions alone, the statements up to the failure
still have no execution (`Program.not_feasible_of_core`). The slice walks backwards from the failure
and keeps the variables that decide whether the assumptions of the core hold.

The two meet in the abstract execution. Let the variables that matter before a statement be known,
and let a store have these values. If the variables that matter after the statement are tracked,
then whatever the abstract execution leaves is matched by a step of the store, in which only the
assumptions of the core are enforced (`Program.exists_exec_of_executeOn`). So a valuation that gets
through all statements gives an execution that the core blocks, and none does
(`Program.not_passes_of_core`).

The store of the argument need not be one of the program: it is only required to have the values
that the valuation knows, and to be of the declared kinds. Assumptions outside the core are not
enforced on it, so it may take branches that the trace does not; what matters is that it agrees on
the variables that decide the core.

The enumeration of initial values enters through a bound for each variable (`Program.EachFew`): an
arbitrary assignment to a tracked variable is told apart by its values, and is not forgotten.
-/

namespace AbstractionRefinement

/-! ### Known operands -/

/-- The valuation knows these variables, and they have the same values in the store. -/
def Store.Knows (σ : Store) (v : Valuation) (xs : IndexSet) : Prop :=
  ∀ ⦃x⦄, x ∈ xs → v.find? x = some (σ x)

namespace Store.Knows

variable {σ : Store} {v : Valuation} {xs ys : IndexSet} {x : VarId} {a : Value}

theorem mono (h : σ.Knows v ys) (hsub : ∀ x ∈ xs, x ∈ ys) : σ.Knows v xs :=
  fun x hx ↦ h (hsub x hx)

/-- The written variable is set in the store; the others are known as before. -/
theorem set (h : ∀ ⦃y⦄, y ∈ xs → y ≠ x → v.find? y = some (σ y))
    (hx : x ∈ xs → v.find? x = some a) : (σ.set x a).Knows v xs := by
  intro y hy
  by_cases hyx : y = x
  · subst hyx
    rw [Store.set_self]
    exact hx hy
  · rw [Store.set_of_ne hyx]
    exact h hy hyx

end Store.Knows

namespace Expr

/-- An operation on two known operands does what it does on their values. -/
theorem onBoth_map_some {f : Value → Value → Except TypeMismatch Value}
    {x y : Except TypeMismatch Value} :
    (x.map some >>= fun m ↦ y.map some >>= fun n ↦ onBoth f m n) =
      (x >>= fun m ↦ y >>= fun n ↦ f m n).map some := by
  cases x with
  | error _ => rfl
  | ok m =>
    cases y with
    | error _ => rfl
    | ok n =>
      show onBoth f (some m) (some n) = (f m n).map some
      rw [onBoth]
      cases f m n <;> rfl

/-- So does a logical operation. -/
theorem logical_map_some {op : Option Bool → Option Bool → Option Bool} {g : Bool → Bool → Bool}
    {x y : Except TypeMismatch Value} (hop : ∀ t u, op (some t) (some u) = some (g t u)) :
    (x.map some >>= fun m ↦ truthOf m >>= fun t ↦ y.map some >>= fun n ↦ truthOf n >>= fun u ↦
      pure ((op t u).map Value.bool)) =
      (x >>= fun m ↦ m.asBool >>= fun t ↦ y >>= fun n ↦ n.asBool >>= fun u ↦
        pure (Value.bool (g t u))).map some := by
  rcases x with _ | (i | t)
  · rfl
  · rfl
  · rcases y with _ | (j | u)
    · rfl
    · rfl
    · show Except.ok ((op (some t) (some u)).map Value.bool) = .ok (some (.bool (g t u)))
      rw [hop]
      rfl

/-- **An expression whose variables are all known** evaluates to its value in the store. -/
theorem eval_eq_of_knows {e : Expr} {σ : Store} {v : Valuation} (h : σ.Knows v e.vars) :
    e.eval v = (e.value σ).map some := by
  induction e with
  | const a => rfl
  | var x =>
    show Except.ok (v.find? x) = .ok (some (σ x))
    rw [h (IndexSet.mem_ofList.2 List.mem_cons_self)]
  | arith op a b iha ihb | compare op a b iha ihb | equal a b iha ihb | differ a b iha ihb =>
    obtain ⟨ha, hb⟩ := IndexSet.forall_mem_union.1 h
    rw [eval, iha ha, ihb hb]
    exact onBoth_map_some
  | neg a ih =>
    rw [eval, ih h, value]
    rcases a.value σ with _ | (i | t) <;> rfl
  | conj a b iha ihb =>
    obtain ⟨ha, hb⟩ := IndexSet.forall_mem_union.1 h
    rw [eval, iha ha, ihb hb]
    exact logical_map_some (by decide)
  | disj a b iha ihb =>
    obtain ⟨ha, hb⟩ := IndexSet.forall_mem_union.1 h
    rw [eval, iha ha, ihb hb]
    exact logical_map_some (by decide)

end Expr

namespace Program

variable {p : Program} {maxEnum maxRuns : Nat} {prec : TrackedVars} {σ τ : Store}
  {u v w : Valuation} {vs ws : List Valuation} {s : Statement} {body rest : List Statement}
  {core live : IndexSet} {i : Nat} {x : VarId} {a : Value}

/-! ### One statement -/

/-- A statement keeps what is known of a variable that it does not write. -/
theorem find?_of_executeOn (h : p.executeOn maxEnum prec s v = .ok vs) (hw : w ∈ vs)
    (hx : s.writes ≠ some x) (ha : v.find? x = some a) : w.find? x = some a := by
  have hinsert : ∀ {y b}, (v.find? y = none ∨ s.writes = some y) →
      (v.insert y b).find? x = some a := by
    intro y b hy
    rw [IndexMap.find?_insert, if_neg, ha]
    rintro rfl
    rcases hy with hy | hy
    · cases hy.symm.trans ha
    · exact hx hy
  have herase : ∀ {y}, s.writes = some y → (v.erase y).find? x = some a := by
    intro y hy
    rw [IndexMap.find?_erase, if_neg, ha]
    rintro rfl
    exact hx hy
  cases s with
  | assume condition =>
    rcases assumeOn_eq_ok h with ⟨t, -, rfl⟩ | ⟨-, ⟨-, rfl⟩ | ⟨y, b, type, hf, -, -, rfl⟩⟩
    · split at hw
      · exact List.mem_singleton.1 hw ▸ ha
      · cases hw
    · exact List.mem_singleton.1 hw ▸ ha
    · split at hw
      · exact List.mem_singleton.1 hw ▸ hinsert (.inl (Expr.forcedBinding_eq_some hf).1)
      · cases hw
  | assign y e =>
    rw [executeOn, assignOn] at h
    split at h
    · obtain rfl := Except.ok.inj h
      exact List.mem_singleton.1 hw ▸ ha
    · obtain ⟨r, -, h⟩ := bind_eq_ok.1 h
      cases r with
      | some b =>
        obtain rfl := Except.ok.inj h
        exact List.mem_singleton.1 hw ▸ hinsert (.inr rfl)
      | none =>
        obtain rfl := Except.ok.inj h
        exact List.mem_singleton.1 hw ▸ herase rfl
  | havoc y =>
    rw [executeOn, havocOn] at h
    split at h
    · obtain rfl := Except.ok.inj h
      exact List.mem_singleton.1 hw ▸ herase rfl
    · obtain ⟨type, -, h⟩ := bind_eq_ok.1 h
      obtain rfl := Except.ok.inj h
      split at hw
      · obtain ⟨b, -, rfl⟩ := List.mem_map.1 hw
        exact hinsert (.inr rfl)
      · exact List.mem_singleton.1 hw ▸ herase rfl

/-- Each tracked variable has few enough values to be told apart. -/
def EachFew (p : Program) (maxEnum : Nat) (prec : TrackedVars) : Prop :=
  ∀ ⦃x type⦄, prec.tracks x = true → p.varType x = .ok type → type.size ≤ maxEnum

/-- **The abstract execution is followed by a store.** Where the variables that matter before a
statement are known, and those that matter after it are tracked, what is left of the valuation still
knows these as they are in some store that the statement leads to. An assumption outside the core is
not enforced. -/
theorem exists_exec_of_executeOn (hs : s.WellTyped p) (hσ : p.WellKinded σ)
    (hne : ∀ {x type}, p.varType x = .ok type → ∃ a, type.contains a = true)
    (hfew : p.EachFew maxEnum prec) (htracked : ∀ x ∈ live, prec.tracks x = true)
    (hknows : σ.Knows v (liveBefore core i s live)) (h : p.executeOn maxEnum prec s v = .ok vs)
    (hw : w ∈ vs) : ∃ τ, p.Exec (enforced (i ∈ core) s) σ τ ∧ τ.Knows w live := by
  have hkeep : ∀ {y}, s.writes ≠ some y → v.find? y = some (σ y) → w.find? y = some (σ y) :=
    fun hy ha ↦ find?_of_executeOn h hw hy ha
  cases hs with
  | @assume condition hcond =>
    rw [liveBefore] at hknows
    split at hknows
    · rename_i hcore
      -- the condition is known, so it is true in the store
      have heval := Expr.eval_eq_of_knows
        (hknows.mono fun x (hx : x ∈ condition.vars) ↦ IndexSet.mem_union.2 (.inr hx))
      obtain ⟨b, hb, -⟩ := hcond.exists_value hσ
      rw [hb] at heval
      refine ⟨σ, ?_, fun y hy ↦ hkeep (by simp [Statement.writes])
        (hknows (IndexSet.mem_union.2 (.inl hy)))⟩
      rw [decide_eq_true hcore, enforced_true]
      rcases assumeOn_eq_ok h with ⟨t, ht, rfl⟩ | ⟨hnone, -⟩
      · obtain rfl := Option.some.inj (Except.ok.inj (heval.symm.trans ht))
        split at hw
        · rename_i htrue
          subst htrue
          exact .assume hb
        · cases hw
      · cases heval.symm.trans hnone
    · rename_i hcore
      refine ⟨σ, ?_, fun y hy ↦ hkeep (by simp [Statement.writes]) (hknows hy)⟩
      rw [decide_eq_false hcore]
      exact .assume rfl
  | @assign y type e htype he =>
    obtain ⟨b, hb, -⟩ := he.exists_value hσ
    refine ⟨σ.set y b, .assign hb, ?_⟩
    rw [liveBefore] at hknows
    split at hknows
    · rename_i hy
      have heval := Expr.eval_eq_of_knows
        (hknows.mono fun x (hx : x ∈ e.vars) ↦ IndexSet.mem_union.2 (.inr hx))
      rw [hb] at heval
      refine Store.Knows.set (fun z hz hzy ↦ hkeep (fun h ↦ hzy (Option.some.inj h).symm) ?_)
        fun _ ↦ ?_
      · exact hknows (IndexSet.mem_union.2 (.inl (IndexSet.mem_erase.2 ⟨hz, hzy⟩)))
      · rw [executeOn, assignOn, if_neg (by simp [htracked y hy]), heval] at h
        obtain rfl := Except.ok.inj h
        obtain rfl := List.mem_singleton.1 hw
        rw [IndexMap.find?_insert, if_pos rfl]
    · rename_i hy
      exact Store.Knows.set (fun z hz hzy ↦ hkeep (fun h ↦ hzy (Option.some.inj h).symm)
        (hknows hz)) fun hmem ↦ absurd hmem hy
  | @havoc y type htype =>
    have hother : ∀ ⦃z⦄, z ∈ live → z ≠ y → w.find? z = some (σ z) := fun z hz hzy ↦
      hkeep (fun h ↦ hzy (Option.some.inj h).symm) (hknows (IndexSet.mem_erase.2 ⟨hz, hzy⟩))
    by_cases hy : y ∈ live
    · have htrack := htracked y hy
      rw [executeOn, havocOn, if_neg (by simp [htrack]), htype] at h
      obtain rfl := Except.ok.inj h
      rw [if_pos (hfew htrack htype)] at hw
      obtain ⟨a, ha, rfl⟩ := List.mem_map.1 hw
      refine ⟨σ.set y a, .havoc htype (VarType.mem_values.1 ha), Store.Knows.set hother fun _ ↦ ?_⟩
      rw [IndexMap.find?_insert, if_pos rfl]
    · obtain ⟨a, ha⟩ := hne htype
      exact ⟨σ.set y a, .havoc htype ha, Store.Knows.set hother fun hmem ↦ absurd hmem hy⟩

/-! ### Several statements -/

variable (p maxEnum prec) in
/-- The second valuation is among what the abstract execution of the statements leaves of the
first. -/
inductive Passes : List Statement → Valuation → Valuation → Prop
  /-- Nothing to execute. -/
  | nil {v : Valuation} : Passes [] v v
  /-- The first statement, then the others. -/
  | cons {s : Statement} {rest : List Statement} {u v w : Valuation} {vs : List Valuation}
      (h : p.executeOn maxEnum prec s v = .ok vs) (hu : u ∈ vs) (hrest : Passes rest u w) :
    Passes (s :: rest) v w

theorem Passes.append (h : p.Passes maxEnum prec body v u)
    (hrest : p.Passes maxEnum prec rest u w) : p.Passes maxEnum prec (body ++ rest) v w := by
  induction h with
  | nil => exact hrest
  | cons h hu _ ih => exact .cons h hu (ih hrest)

theorem Passes.of_append (h : p.Passes maxEnum prec (body ++ rest) v w) :
    ∃ u, p.Passes maxEnum prec body v u := by
  induction body generalizing v with
  | nil => exact ⟨v, .nil⟩
  | cons s body ih =>
    cases h with
    | cons h hu hrest =>
      obtain ⟨u', hu'⟩ := ih hrest
      exact ⟨u', .cons h hu hu'⟩

/-- What is left after several statements has passed through them. -/
theorem exists_passes_of_executeAll (h : p.executeAll maxEnum prec vs body = .ok ws) (hw : w ∈ ws) :
    ∃ v ∈ vs, p.Passes maxEnum prec body v w := by
  induction body generalizing vs with
  | nil =>
    obtain rfl := Except.ok.inj h
    exact ⟨w, hw, .nil⟩
  | cons s body ih =>
    obtain ⟨us, hus, h⟩ := bind_eq_ok.1 h
    obtain ⟨u, hu, hpass⟩ := ih h
    obtain ⟨parts, hparts, rfl⟩ := flatMapM_eq_ok hus
    obtain ⟨part, hpart, hu⟩ := List.mem_flatten.1 hu
    obtain ⟨v, hv, hvpart⟩ := exists_of_forall₂_of_mem_right hparts hpart
    exact ⟨v, hv, .cons hvpart hu hpass⟩

/-- **What gets through is executed**, as far as the core goes. -/
theorem exists_execution_of_passes {todo : List TraceStatement}
    (htodo : ∀ s ∈ todo, s.statement.WellTyped p) (hσ : p.WellKinded σ)
    (hne : ∀ {x type}, p.varType x = .ok type → ∃ a, type.contains a = true)
    (hfew : p.EachFew maxEnum prec)
    (htracked : ∀ k, ∀ x ∈ liveFrom core (i + k) (todo.drop k), prec.tracks x = true)
    (hknows : σ.Knows v (liveFrom core i todo))
    (h : p.Passes maxEnum prec (todo.map (·.statement)) v w) :
    ∃ τ, p.Executes (enforcedFrom (· ∈ core) i todo) σ τ := by
  induction todo generalizing i v σ with
  | nil => exact ⟨σ, .nil⟩
  | cons s todo ih =>
    obtain ⟨hs, htodo⟩ := List.forall_mem_cons.1 htodo
    cases h with
    | cons h hu hrest =>
      have htracked' : ∀ k, ∀ x ∈ liveFrom core (i + 1 + k) (todo.drop k),
          prec.tracks x = true := by
        intro k x hx
        rw [Nat.add_assoc, Nat.add_comm 1 k] at hx
        exact htracked (k + 1) x hx
      obtain ⟨μ, hexec, hknows⟩ := exists_exec_of_executeOn hs hσ hne hfew (htracked' 0) hknows h hu
      have hμ := hexec.wellKinded (wellTyped_enforced hs) hσ
      obtain ⟨τ, hτ⟩ := ih htodo hμ htracked' hknows hrest
      exact ⟨τ, .cons trivial hexec hτ⟩

/-! ### Cores block -/

theorem mem_assumptions {statements : List TraceStatement} : i ∈ assumptions statements ↔
    ∃ condition, (statements.map (·.statement))[i]? = some (.assume condition) := by
  rw [assumptions, IndexSet.mem_ofList, List.mem_filter, List.mem_range, List.getElem?_map]
  constructor
  · rintro ⟨-, h⟩
    obtain ⟨s, hs, h⟩ := (Option.any_eq_true _ _).1 h
    rw [hs, Option.map_some]
    rw [isAssumption] at h
    split at h
    · rename_i condition hcond
      exact ⟨condition, congrArg some hcond⟩
    · cases h
  · rintro ⟨condition, h⟩
    obtain ⟨s, hs, hcond⟩ := Option.map_eq_some_iff.1 h
    refine ⟨(List.getElem?_eq_some_iff.1 hs).1, ?_⟩
    rw [hs, Option.any_some, isAssumption, hcond]

section Blocking

variable (hin : ∃ ρ, p.InType ρ)
  (hne : ∀ {x type}, p.varType x = .ok type → ∃ a, type.contains a = true)
  {statements : List TraceStatement} (hst : ∀ s ∈ statements, s.statement.WellTyped p)
include hin hne hst

/-- Statements at which the simulation gets stuck have no execution. -/
theorem not_feasible_of_simulate {active : Nat → Bool} {k : Nat}
    (h : p.simulate maxRuns active statements = .ok (.stuck k)) :
    ¬p.Feasible ((enforcedFrom active 0 statements).take (k + 1)) := by
  obtain ⟨ρ, hρ⟩ := hin
  obtain ⟨j, -, hj, -, -, -, hblocked⟩ := stuck_of_simulateFrom ⟨ρ, hρ⟩ hne h reached_start
    (List.forall_mem_nil _) hst ⟨ρ, ρ, hρ, .nil⟩
  obtain rfl : k = j := by omega
  exact hblocked

/-- Leaving out assumptions that are not needed leaves enough. -/
theorem not_feasible_of_minimize {core' : IndexSet} {candidates : List Nat}
    (h : p.minimize maxRuns statements core candidates = .ok core')
    (hcore : ¬p.Feasible (enforcedFrom (· ∈ core) 0 statements)) :
    ¬p.Feasible (enforcedFrom (· ∈ core') 0 statements) := by
  induction candidates generalizing core with
  | nil =>
    obtain rfl := Except.ok.inj h
    exact hcore
  | cons candidate rest ih =>
    obtain ⟨outcome, hsim, h⟩ := bind_eq_ok.1 h
    cases outcome with
    | feasible run => exact ih h hcore
    | stuck k =>
      refine ih h fun hall ↦ not_feasible_of_simulate hin hne hst hsim ?_
      rw [← List.take_append_drop (k + 1) (enforcedFrom _ 0 statements)] at hall
      exact hall.of_append

omit hin hne hst in
/-- With all its assumptions, a trace is enforced as it is. -/
theorem enforcedFrom_assumptions : enforcedFrom (· ∈ assumptions statements) 0 statements =
    statements.map (·.statement) := by
  have hall : ∀ {j todo}, (∀ k s, todo[k]? = some s → statements[j + k]? = some s) →
      enforcedFrom (· ∈ assumptions statements) j todo = todo.map (·.statement) := by
    intro j todo hget
    induction todo generalizing j with
    | nil => rfl
    | cons s todo ih =>
      have hrest : ∀ k s', todo[k]? = some s' → statements[j + 1 + k]? = some s' := by
        intro k s' hk
        rw [Nat.add_assoc, Nat.add_comm 1 k]
        exact hget (k + 1) s' hk
      rw [enforcedFrom, ih hrest, List.map_cons]
      have hs : statements[j]? = some s := hget 0 s rfl
      congr 1
      cases hstatement : s.statement with
      | assume condition =>
        have hmem : j ∈ assumptions statements :=
          mem_assumptions.2 ⟨condition, by rw [List.getElem?_map, hs, Option.map_some, hstatement]⟩
        rw [decide_eq_true hmem, enforced_true]
      | assign y e => rfl
      | havoc y => rfl
  refine hall fun k s hk ↦ ?_
  rw [Nat.zero_add]
  exact hk

/-- **A core blocks.** With its assumptions alone, the statements up to the failure have no
execution, unless the core is just the assumption that failed. -/
theorem not_feasible_of_core {strategy : CoreStrategy} (hstrategy : strategy ≠ .last)
    {failedAt : Nat} (hsim : p.simulate maxRuns (fun _ ↦ true) statements = .ok (.stuck failedAt))
    (hcore : p.core maxRuns strategy statements failedAt = .ok core) :
    ¬p.Feasible (enforcedFrom (· ∈ core) 0 (statements.take (failedAt + 1))) := by
  have hall : ¬p.Feasible (enforcedFrom (· ∈ assumptions (statements.take (failedAt + 1))) 0
      (statements.take (failedAt + 1))) := by
    have hblocked := not_feasible_of_simulate hin hne hst hsim
    rw [enforcedFrom_true, ← List.map_take] at hblocked
    rw [enforcedFrom_assumptions]
    exact hblocked
  cases strategy with
  | last => exact absurd rfl hstrategy
  | all =>
    obtain rfl := Except.ok.inj hcore
    exact hall
  | minimal =>
    exact not_feasible_of_minimize hin hne (fun s hs ↦ hst s (List.mem_of_mem_take hs)) hcore hall

/-- **Nothing gets through a trace whose variables that matter are tracked.** -/
theorem not_passes_of_core {strategy : CoreStrategy} (hstrategy : strategy ≠ .last)
    {failedAt : Nat} (hsim : p.simulate maxRuns (fun _ ↦ true) statements = .ok (.stuck failedAt))
    (hcore : p.core maxRuns strategy statements failedAt = .ok core)
    (hfew : p.EachFew maxEnum prec) (hσ : p.InType σ)
    (hknows : ∀ ⦃x⦄, prec.tracks x = true → v.find? x = some (σ x))
    (htracked : ∀ k, ∀ x ∈ liveFrom core k ((statements.take (failedAt + 1)).drop k),
      prec.tracks x = true) : ¬p.Passes maxEnum prec (statements.map (·.statement)) v w := by
  intro hpass
  rw [← List.take_append_drop (failedAt + 1) statements, List.map_append] at hpass
  obtain ⟨u, hpass⟩ := hpass.of_append
  obtain ⟨τ, hexec⟩ := exists_execution_of_passes (i := 0)
    (fun s hs ↦ hst s (List.mem_of_mem_take hs)) hσ.wellKinded hne hfew
    (fun k x hx ↦ htracked k x (by rwa [Nat.zero_add] at hx))
    (fun x hx ↦ hknows (htracked 0 x hx)) hpass
  exact not_feasible_of_core hin hne hst hstrategy hsim hcore ⟨σ, τ, hσ, hexec⟩

end Blocking

end Program

end AbstractionRefinement
