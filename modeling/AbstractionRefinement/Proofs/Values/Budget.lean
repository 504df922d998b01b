import AbstractionRefinement.Proofs.Values.Exclusion

/-!
# What stops a simulation

The simulation of statements can stop early in several ways: an operand of the wrong type, a
variable that was never declared, an expression that has no value although all its variables do, no
run left where there should be one, more runs than allowed, or no room for the values of a type. For
the statements of a well-typed program only the last two of these happen (`Program.Strains`,
`Program.gives_stepEach`), and the last one only if the number of runs allowed is itself beyond what
a list can hold. What carries the argument is that the values of every run are of the declared
kinds.

What holds of each statement holds of all that is computed from simulations (`Program.Carries`): the
choice of a core and the examination of a trace (`Program.strains_of_checkMoves`). A refutation
names declared variables only (`Program.exists_varType_of_slice`).

`Gives E Q x` is the judgement of this module: `x` is a value in `Q`, or it stops for a reason in
`E`. It has one rule for each way to build a computation.
-/

namespace AbstractionRefinement

/-! ### Outcomes -/

section Outcome

variable {ε α β : Type} {E : ε → Prop} {Q : α → Prop} {R : β → Prop} {x : Except ε α}

/-- The outcome is a value in `Q`, or an early stop for a reason in `E`. -/
def Gives (E : ε → Prop) (Q : α → Prop) : Except ε α → Prop
  | .ok a => Q a
  | .error e => E e

namespace Gives

/-- Where a computation fails, it is for an expected reason. -/
theorem error {e : ε} (h : Gives E Q x) (hx : x = .error e) : E e := by
  rw [hx] at h
  exact h

/-- Where a computation gives a value, it is as promised. -/
theorem value {a : α} (h : Gives E Q x) (hx : x = .ok a) : Q a := by
  rw [hx] at h
  exact h

/-- Two steps give what the second promises if the first gives what the second needs. -/
theorem bind {f : α → Except ε β} (h : Gives E Q x) (hf : ∀ a, Q a → Gives E R (f a)) :
    Gives E R (x >>= f) := by
  cases x with
  | ok a => exact hf a h
  | error e => exact h

/-- A part that succeeds. -/
theorem bind_of_ok {f : α → Except ε β} {a : α} (h : x = .ok a) (hf : Gives E R (f a)) :
    Gives E R (x >>= f) := by
  rw [h]
  exact hf

/-- A fold gives what each of its steps restores. -/
theorem foldlM {f : β → α → Except ε β} {l : List α} {b : β} (hb : R b)
    (hstep : ∀ {b a}, a ∈ l → R b → Gives E R (f b a)) : Gives E R (l.foldlM f b) := by
  induction l generalizing b with
  | nil => exact hb
  | cons a l ih =>
    rw [List.foldlM_cons]
    exact (hstep List.mem_cons_self hb).bind fun c hc ↦
      ih hc fun ha hR ↦ hstep (List.mem_cons_of_mem a ha) hR

end Gives

end Outcome

/-! ### Values of expressions -/

namespace Program

variable {p : Program} {maxRuns : Nat} {v : Valuation}

/-- A store of the declared types, overridden by a valuation of the right kinds, has the right
kinds. -/
theorem Kinded.wellKinded_override {ρ : Store} (hv : p.Kinded v) (hρ : p.InType ρ) :
    p.WellKinded (ρ.override v) := by
  intro x type htype
  rw [Store.override]
  cases hx : v.find? x with
  | none => exact hρ.wellKinded htype
  | some a => exact hv hx htype

end Program

namespace Expr.HasKind

variable {p : Program} {e : Expr} {k : Kind} {v : Valuation}

/-- The variables of a well-typed expression are declared. -/
theorem exists_varType (h : e.HasKind p k) : ∀ x ∈ e.vars, ∃ type, p.varType x = .ok type := by
  induction h with
  | const => exact fun x hx ↦ by cases hx
  | var htype =>
    intro x hx
    obtain rfl := List.mem_singleton.1 (IndexSet.mem_ofList.1 hx)
    exact ⟨_, htype⟩
  | neg _ ih => exact ih
  | arith _ _ ihe ihf | compare _ _ ihe ihf | equal _ _ ihe ihf | differ _ _ ihe ihf
  | conj _ _ ihe ihf | disj _ _ ihe ihf =>
    exact fun x hx ↦ (IndexSet.mem_union.1 hx).elim (ihe x) (ihf x)

/-- **A well-typed expression whose variables are all known has a value.** -/
theorem exists_eval_of_known (h : e.HasKind p k) (hin : ∃ ρ, p.InType ρ) (hv : p.Kinded v)
    (hknown : ∀ x ∈ e.vars, v.find? x ≠ none) : ∃ a, e.eval v = .ok (some a) := by
  obtain ⟨ρ, hρ⟩ := hin
  have hknows : (ρ.override v).Knows v e.vars := by
    intro x hx
    obtain ⟨a, ha⟩ := Option.ne_none_iff_exists'.1 (hknown x hx)
    rw [ha, Store.override, ha, Option.getD_some]
  obtain ⟨a, ha, -⟩ := h.exists_value (hv.wellKinded_override hρ)
  exact ⟨a, by rw [eval_eq_of_knows hknows, ha]; rfl⟩

end Expr.HasKind

namespace Program

variable {p : Program} {maxRuns : Nat} {r : Simulated} {e : Expr} {k : Kind} {s : Statement}
  {runs : Array Simulated} {active : Bool}

/-! ### Forking -/

/-- Entering values of the declared types keeps a run of the right kinds. -/
theorem kinded_of_binds {r' : Simulated} (h : Relation.ReflTransGen (Simulated.Binds p) r r')
    (hr : p.Kinded r.values) : p.Kinded r'.values := by
  induction h with
  | refl => exact hr
  | tail _ hb ih =>
    obtain ⟨x, a, type, -, htype, ha, rfl⟩ := hb
    exact ih.insert htype (VarType.kind_of_contains ha)

/-- Why the simulation of well-typed statements may stop early. -/
inductive Strains (p : Program) (maxRuns : Nat) : Abort → Prop
  /-- There are more runs than allowed. -/
  | runs : Strains p maxRuns (tooManyRuns maxRuns)
  /-- The values of a variable are to be listed, and there is no room for the list. -/
  | room {x : VarId} {type : VarType} (htype : p.varType x = .ok type)
      (hspills : type.Spills Value.bytes maxRuns) : Strains p maxRuns (.fault .beyondMemory)

/-- A simulation lists the values of a type if they are few enough, and if there is room. -/
theorem gives_reserve {x : VarId} {type : VarType} (htype : p.varType x = .ok type)
    (hsize : type.size ≤ maxRuns) :
    Gives (p.Strains maxRuns) (fun _ ↦ True) (orFault (Memory.reserve Value.bytes type.count)) := by
  by_cases hroom : Value.bytes * type.count ≤ Memory.maxBytes
  · rw [Memory.reserve_of_le hroom]
    exact trivial
  · have hspills : type.Spills Value.bytes maxRuns := ⟨hsize, Nat.lt_of_not_le hroom⟩
    rw [Memory.reserve_of_lt hspills.2]
    exact .room htype hspills

/-- Forking stops only under strain: once every variable has a value, so has the expression. -/
theorem gives_resolveFrom (he : e.HasKind p k) (hin : ∃ ρ, p.InType ρ) {unknown : List VarId}
    {pending : Nat} {out : Array (Simulated × Value)} (hr : p.Kinded r.values)
    (hunknown : ∀ x ∈ e.vars, r.values.find? x = none → x ∈ unknown)
    (hdeclared : ∀ x ∈ unknown, ∃ type, p.varType x = .ok type) :
    Gives (p.Strains maxRuns) (fun _ ↦ True)
      (p.resolveFrom maxRuns e unknown pending out r) := by
  induction unknown generalizing pending out r with
  | nil =>
    have hknown : ∀ x ∈ e.vars, r.values.find? x ≠ none := fun x hx hnone ↦
      absurd (hunknown x hx hnone) List.not_mem_nil
    obtain ⟨a, ha⟩ := he.exists_eval_of_known hin hr hknown
    rw [resolveFrom.eq_def]
    exact .bind_of_ok (orMismatch_eq_ok.2 ha) trivial
  | cons x unknown ih =>
    obtain ⟨⟨type, htype⟩, hdeclared⟩ := List.forall_mem_cons.1 hdeclared
    obtain ⟨value, hvalue, -⟩ := he.exists_eval hr
    rw [resolveFrom.eq_def]
    refine .bind_of_ok (orMismatch_eq_ok.2 hvalue) ?_
    cases value with
    | some a => exact trivial
    | none =>
      refine .bind_of_ok (orFault_eq_ok.2 htype) ?_
      dsimp only
      split
      · exact .runs
      rename_i hsize
      refine (gives_reserve htype (Nat.le_of_not_lt hsize)).bind fun _ _ ↦ ?_
      split
      · exact .runs
      refine Gives.bind (Q := fun _ ↦ True) (.foldlM trivial fun {acc a} ha _ ↦ ?_)
        fun _ _ ↦ trivial
      -- the variable chosen is known from now on
      have hchosen : p.Kinded (r.bind x a).values :=
        hr.insert htype (VarType.kind_of_contains (VarType.mem_values.1 ha))
      refine (ih hchosen (fun y hy hnone ↦ ?_) hdeclared).bind fun _ _ ↦ trivial
      rw [Simulated.bind, IndexMap.find?_insert] at hnone
      split at hnone
      · cases hnone
      · rename_i hyx
        exact (List.mem_cons.1 (hunknown y hy hnone)).resolve_left hyx

/-- The ways in which an expression can evaluate. -/
theorem gives_resolve (he : e.HasKind p k) (hin : ∃ ρ, p.InType ρ) (hr : p.Kinded r.values) :
    Gives (p.Strains maxRuns)
      (fun out ↦ ∀ rv ∈ out, p.Kinded rv.1.values ∧ rv.2.kind = k) (p.resolve maxRuns e r) := by
  have hgives : Gives (p.Strains maxRuns) (fun _ ↦ True) (p.resolve maxRuns e r) := by
    refine gives_resolveFrom he hin hr (fun x hx hnone ↦ List.mem_filter.2 ⟨hx, ?_⟩) fun x hx ↦ ?_
    · rw [IndexMap.contains, hnone]
      rfl
    · exact he.exists_varType x (List.mem_filter.1 hx).1
  cases hout : p.resolve maxRuns e r with
  | error err => exact hgives.error hout
  | ok out =>
    intro rv hrv
    have hresolves := resolves_resolve hout rv hrv
    have hkinded := kinded_of_binds hresolves.1 hr
    obtain ⟨value, hvalue, hkind⟩ := he.exists_eval hkinded
    obtain rfl := Except.ok.inj (hresolves.2.symm.trans hvalue)
    exact ⟨hkinded, hkind rv.2 rfl⟩

/-! ### Statements -/

/-- Every run knows values of the declared kinds. -/
def AllKinded (p : Program) (runs : Array Simulated) : Prop := ∀ r ∈ runs, p.Kinded r.values

/-- Keeping the runs on which a condition holds strains nothing and keeps the kinds. -/
theorem gives_keepTrue {forked : Array (Simulated × Value)}
    (h : ∀ rv ∈ forked, p.Kinded rv.1.values ∧ rv.2.kind = .bool) :
    Gives (p.Strains maxRuns) p.AllKinded (keepTrue forked) := by
  refine Gives.bind (Q := fun kept ↦ ∀ rv ∈ kept, p.Kinded rv.1.values) ?_ fun kept hkept ↦ ?_
  · rw [Array.filterM, ← Array.foldlM_toList]
    refine .foldlM (fun rv hrv ↦ absurd hrv (Array.not_mem_empty rv)) fun {kept rv} hrv hkept ↦ ?_
    obtain ⟨hkinded, hkind⟩ := h rv (Array.mem_toList_iff.1 hrv)
    obtain ⟨t, ht⟩ := Value.kind_eq_bool.1 hkind
    refine .bind_of_ok (orMismatch_eq_ok.2 (asBool_eq_ok.2 ht)) ?_
    cases t with
    | false => exact hkept
    | true =>
      intro rv' hrv'
      rcases Array.mem_push.1 hrv' with hold | rfl
      · exact hkept rv' hold
      · exact hkinded
  · intro r hr
    obtain ⟨rv, hrv, rfl⟩ := Array.mem_map.1 hr
    exact hkept rv hrv

/-- **A well-typed statement stops a run only under strain**, and keeps the kinds. -/
theorem gives_step (hs : s.WellTyped p) (hin : ∃ ρ, p.InType ρ) (hr : p.Kinded r.values) :
    Gives (p.Strains maxRuns) p.AllKinded (p.step maxRuns active r s) := by
  have hsingle : ∀ {u : Simulated}, p.Kinded u.values → p.AllKinded #[u] := fun hu u' hu' ↦
    Array.mem_singleton.1 hu' ▸ hu
  cases hs with
  | @assume condition hcond =>
    rw [step]
    split
    · exact hsingle hr
    split
    · rename_i x a hforced
      obtain ⟨type, htype, ha⟩ := hcond.kind_of_forcedBinding hr hforced
      refine .bind_of_ok (orFault_eq_ok.2 htype) ?_
      show p.AllKinded (if type.contains a then #[r.bind x a] else #[])
      split
      · exact hsingle (hr.insert htype ha)
      · exact fun u hu ↦ absurd hu (Array.not_mem_empty u)
    · exact (gives_resolve hcond hin hr).bind fun forked hforked ↦ gives_keepTrue hforked
  | @assign x type e htype he =>
    refine (gives_resolve he hin hr).bind fun forked hforked ↦ ?_
    intro u hu
    obtain ⟨rv, hrv, rfl⟩ := Array.mem_map.1 hu
    obtain ⟨hkinded, hkind⟩ := hforked rv hrv
    exact hkinded.insert htype hkind
  | havoc htype => exact hsingle hr.erase

/-- **One statement on each run** strains the allowance or keeps the kinds. -/
theorem gives_stepEach (hs : s.WellTyped p) (hin : ∃ ρ, p.InType ρ) (hruns : p.AllKinded runs) :
    Gives (p.Strains maxRuns) p.AllKinded (p.stepEach maxRuns active s runs) := by
  rw [stepEach, ← Array.foldlM_toList]
  refine .foldlM (fun u hu ↦ absurd hu (Array.not_mem_empty u)) fun {out r} hr hout ↦ ?_
  refine (gives_step hs hin (hruns r (Array.mem_toList_iff.1 hr))).bind fun more hmore ↦ ?_
  dsimp only
  split
  · exact .runs
  · intro u hu
    rcases Array.mem_append.1 hu with hold | hnew
    · exact hout u hold
    · exact hmore u hnew

/-! ### Whole traces -/

variable {statements : List TraceStatement} {moves : List Move} {i : Nat}

/-- `Q` is known of the runs at the start, each of the statements keeps it, and one that stops does
so for a reason in `E`. -/
structure Carries (p : Program) (maxRuns : Nat) (E : Abort → Prop) (Q : Array Simulated → Prop)
    (statements : List TraceStatement) : Prop where
  start : Q #[{}]
  reach : ∀ {runs} (position : Nat), Q runs → Q (runs.map (·.reach position))
  stepEach : ∀ {s}, s ∈ statements → ∀ {active runs}, Q runs →
    Gives E Q (p.stepEach maxRuns active s.statement runs)

namespace Carries

variable {E : Abort → Prop} {Q : Array Simulated → Prop} {active : Nat → Bool}

/-- What carries all statements carries some of them. -/
theorem mono {l : List TraceStatement} (h : p.Carries maxRuns E Q statements)
    (hl : ∀ s ∈ l, s ∈ statements) : p.Carries maxRuns E Q l where
  start := h.start
  reach := h.reach
  stepEach hs := h.stepEach (hl _ hs)

/-- A simulation never goes on without runs, and gets stuck at one of the statements. -/
theorem gives_simulateFrom (h : p.Carries maxRuns E Q statements) (hruns : Q runs)
    (hne : runs.isEmpty = false) :
    Gives E (fun outcome ↦ ∀ k, outcome = .stuck k → k < i + statements.length)
      (p.simulateFrom maxRuns active i runs statements) := by
  induction statements generalizing i runs with
  | nil =>
    rw [simulateFrom]
    split
    · exact fun k hk ↦ by cases hk
    · rename_i hnone
      have hsize : runs.size ≤ 0 := Array.getElem?_eq_none_iff.1 hnone
      rw [Array.isEmpty_iff_size_eq_zero.2 (Nat.le_zero.1 hsize)] at hne
      cases hne
  | cons s rest ih =>
    have hrest : p.Carries maxRuns E Q rest := h.mono fun _ ↦ List.mem_cons_of_mem s
    refine (h.stepEach List.mem_cons_self (h.reach s.position hruns)).bind fun out hout ↦ ?_
    rw [List.length_cons, ← Nat.add_assoc, Nat.add_right_comm]
    split
    · rintro k ⟨⟩
      show i < i + 1 + rest.length
      omega
    · rename_i hsome
      exact ih hrest hout (eq_false_of_ne_true hsome)

/-- **A simulation** strains the allowance or is stuck, if at all, at one of its statements. -/
theorem gives_simulate (h : p.Carries maxRuns E Q statements) :
    Gives E (fun outcome ↦ ∀ k, outcome = .stuck k → k < statements.length)
      (p.simulate maxRuns active statements) := by
  rw [← Nat.zero_add statements.length]
  exact h.gives_simulateFrom h.start rfl

/-- Minimising a core strains the allowance or succeeds. -/
theorem gives_minimize (h : p.Carries maxRuns E Q statements) {core : IndexSet}
    {candidates : List Nat} :
    Gives E (fun _ ↦ True) (p.minimize maxRuns statements core candidates) := by
  induction candidates generalizing core with
  | nil => exact trivial
  | cons candidate rest ih =>
    refine h.gives_simulate.bind fun outcome _ ↦ ?_
    cases outcome with
    | feasible run => exact ih
    | stuck k => exact ih

/-- Computing a core strains the allowance or succeeds. -/
theorem gives_core (h : p.Carries maxRuns E Q statements) {strategy : CoreStrategy}
    {failedAt : Nat} :
    Gives E (fun _ ↦ True) (p.core maxRuns strategy statements failedAt) := by
  cases strategy with
  | last => exact trivial
  | all => exact trivial
  | minimal => exact (h.mono fun _ ↦ List.mem_of_mem_take).gives_minimize

/-- **The examination of a trace stops for no reason that its statements do not have.** -/
theorem gives_checkMoves (h : p.Carries maxRuns E Q statements)
    (hmoves : p.statementsOf moves = .ok statements) {strategy : CoreStrategy} :
    Gives E (fun _ ↦ True) (p.checkMoves maxRuns strategy moves) := by
  refine .bind_of_ok (orFault_eq_ok.2 hmoves) (h.gives_simulate.bind fun outcome _ ↦ ?_)
  cases outcome with
  | feasible run => exact trivial
  | stuck failedAt => exact h.gives_core.bind fun core _ ↦ trivial

end Carries

/-- Well-typed statements keep the kinds, and stop only under strain. -/
theorem carries_of_wellTyped (hin : ∃ ρ, p.InType ρ)
    (hst : ∀ s ∈ statements, s.statement.WellTyped p) :
    p.Carries maxRuns (p.Strains maxRuns) p.AllKinded statements where
  start := fun _ hr ↦ Array.mem_singleton.1 hr ▸ kinded_empty
  reach position hruns := by
    intro u hu
    obtain ⟨r, hr, rfl⟩ := Array.mem_map.1 hu
    exact hruns r hr
  stepEach hs _ _ hruns := gives_stepEach (hst _ hs) hin hruns

/-- A trace whose edges exist has statements. -/
theorem exists_statementsFrom (hmoves : ∀ m ∈ moves, ∃ e, p.edge m.edge = .ok e) :
    ∃ statements, p.statementsFrom i moves = .ok statements := by
  induction moves generalizing i with
  | nil => exact ⟨[], rfl⟩
  | cons m moves ih =>
    obtain ⟨⟨e, he⟩, hmoves⟩ := List.forall_mem_cons.1 hmoves
    obtain ⟨others, hothers⟩ := ih hmoves
    exact ⟨_, bind_eq_ok.2 ⟨e, he, bind_eq_ok.2 ⟨others, hothers, rfl⟩⟩⟩

/-- **The examination of a trace stops only under strain.** -/
theorem strains_of_checkMoves (hin : ∃ ρ, p.InType ρ) (htyped : p.WellTyped)
    (hmoves : ∀ m ∈ moves, ∃ e, p.edge m.edge = .ok e) {strategy : CoreStrategy} {err : Abort}
    (h : p.checkMoves maxRuns strategy moves = .error err) : p.Strains maxRuns err := by
  obtain ⟨statements, hstatements⟩ := exists_statementsFrom hmoves
  have hst := wellTyped_of_statementsFrom htyped hstatements
  exact ((carries_of_wellTyped hin hst).gives_checkMoves hstatements).error h

/-! ### Refutations -/

/-- What is read first is read. -/
theorem exists_reads_of_readsFirst {x : VarId} {body : List Statement} (h : ReadsFirst x body) :
    ∃ s ∈ body, x ∈ s.reads := by
  induction body with
  | nil => exact h.elim
  | cons s body ih =>
    rcases h with hread | ⟨-, hrest⟩
    · exact ⟨s, List.mem_cons_self, hread⟩
    · obtain ⟨t, ht, hread⟩ := ih hrest
      exact ⟨t, List.mem_cons_of_mem s ht, hread⟩

/-- What a well-typed statement reads is declared. -/
theorem exists_varType_of_reads (hs : s.WellTyped p) {x : VarId} (hx : x ∈ s.reads) :
    ∃ type, p.varType x = .ok type := by
  cases hs with
  | assume hcond => exact hcond.exists_varType x hx
  | assign _ he => exact he.exists_varType x hx
  | havoc _ => cases hx

/-- **A refutation names declared variables.** -/
theorem exists_varType_of_slice (hst : ∀ s ∈ statements, s.statement.WellTyped p)
    {states failedAt : Nat} {core : IndexSet} {x : VarId}
    (hx : x ∈ (slice statements states failedAt core).vars) : ∃ type, p.varType x = .ok type := by
  obtain hx | ⟨live, hlive, hx⟩ := IndexSet.mem_foldl_union.1 hx
  · cases hx
  obtain ⟨k, -, rfl⟩ := List.mem_map.1 hlive
  split at hx
  · -- what matters is read by some statement
    rw [liveAt] at hx
    rw [← List.append_nil ((statements.take _).drop _)] at hx
    rcases readsFirst_or_of_mem_liveFrom hx with hread | hnone
    · obtain ⟨s, hs, hread⟩ := exists_reads_of_readsFirst hread
      obtain ⟨t, ht, rfl⟩ := List.mem_map.1 hs
      exact exists_varType_of_reads (hst t (List.mem_of_mem_take (List.mem_of_mem_drop ht))) hread
    · cases hnone
  · cases hx

end Program

end AbstractionRefinement
