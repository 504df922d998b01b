import AbstractionRefinement.Proofs.Values.Violation

/-!
# Exactness of the simulation

The simulation of a trace neither loses nor invents an execution. A run stands for a set of stores:
those that have the values known now, and a value of its type in every variable that is not known
(`Simulated.Describes`). Variables are unknown from the beginning, or since some value of their type
was stored in them; so what is not known is in its type, although what was assigned need not be.

Every step of the simulation is exact for these sets. Forking splits the set of a run
(`describes_resolve`), a statement leads from the stores of a run to the stores of the runs that it
leaves (`describes_step`), and so the runs held together stand for exactly the stores that the
statements done so far lead to (`Program.Reached`). From there on nothing is said about runs: if
none is left, no execution gets past the statement, and this can only happen at an assumption.
-/

namespace AbstractionRefinement

/-! ### The stores of a run -/

namespace Simulated

variable {p : Program} {r r' : Simulated} {σ ρ : Store} {x : VarId} {a : Value} {type : VarType}

/-- The store has the known values, and values of their types in the other variables. -/
structure Describes (p : Program) (r : Simulated) (σ : Store) : Prop where
  /-- What is known is so. -/
  known : σ.Extends r.values
  /-- What is not known is in its type. -/
  unknown : ∀ ⦃x type⦄, p.varType x = .ok type → r.values.find? x = none →
    type.contains (σ x) = true

/-- The run that knows nothing describes all stores of the declared types. -/
theorem describes_start : ({} : Simulated).Describes p σ ↔ p.InType σ :=
  ⟨fun h _ _ htype ↦ h.unknown htype rfl, fun h ↦ ⟨Store.extends_empty, fun _ _ htype _ ↦ h htype⟩⟩

/-- Every run stands for some store. -/
theorem describes_override (hρ : p.InType ρ) : r.Describes p (ρ.override r.values) := by
  refine ⟨Store.extends_override, fun x type htype hx ↦ ?_⟩
  rw [Store.override, hx, Option.getD_none]
  exact hρ htype

/-- **Choosing a value** selects the stores that have it. -/
theorem describes_bind (hx : r.values.find? x = none) (htype : p.varType x = .ok type)
    (ha : type.contains a = true) : (r.bind x a).Describes p σ ↔ r.Describes p σ ∧ σ x = a := by
  have hfind : ∀ y, (r.bind x a).values.find? y = if y = x then some a else r.values.find? y :=
    fun y ↦ IndexMap.find?_insert
  constructor
  · intro h
    have hxa : σ x = a := h.known (by rw [hfind, if_pos rfl])
    refine ⟨⟨fun y b hy ↦ h.known ?_, fun y type' htype' hy ↦ ?_⟩, hxa⟩
    · rw [hfind, if_neg fun hyx ↦ by cases (hyx ▸ hy).symm.trans hx]
      exact hy
    · by_cases hyx : y = x
      · subst hyx
        obtain rfl := Except.ok.inj (htype.symm.trans htype')
        exact hxa.symm ▸ ha
      · exact h.unknown htype' (by rw [hfind, if_neg hyx]; exact hy)
  · rintro ⟨h, rfl⟩
    refine ⟨h.known.insert, fun y type' htype' hy ↦ ?_⟩
    rw [hfind] at hy
    split at hy
    · cases hy
    · exact h.unknown htype' hy

/-- A store that is described once more is known was described before. -/
theorem Describes.of_binds (h : r'.Describes p σ)
    (hr : Relation.ReflTransGen (Simulated.Binds p) r r') : r.Describes p σ := by
  induction hr with
  | refl => exact h
  | tail _ hb ih =>
    obtain ⟨x, a, type, hx, htype, ha, rfl⟩ := hb
    exact ih ((describes_bind hx htype ha).1 h).1

/-- A store that agrees with a run but for one variable can be mended there. -/
theorem exists_describes_set (htype : p.varType x = .ok type) (hne : ∃ a, type.contains a = true)
    (hknown : ∀ {y a}, y ≠ x → r.values.find? y = some a → σ y = a)
    (hunknown : ∀ {y type}, y ≠ x → p.varType y = .ok type → r.values.find? y = none →
      type.contains (σ y) = true) : ∃ b, r.Describes p (σ.set x b) := by
  obtain ⟨b, hb, hin⟩ : ∃ b, (∀ a, r.values.find? x = some a → b = a) ∧
      (r.values.find? x = none → type.contains b = true) := by
    cases r.values.find? x with
    | none =>
      obtain ⟨a, ha⟩ := hne
      exact ⟨a, by simp, fun _ ↦ ha⟩
    | some a => exact ⟨a, by simp, by simp⟩
  refine ⟨b, fun y a hy ↦ ?_, fun y type' htype' hy ↦ ?_⟩
  · by_cases hyx : y = x
    · subst hyx
      rw [Store.set_self]
      exact hb a hy
    · rw [Store.set_of_ne hyx]
      exact hknown hyx hy
  · by_cases hyx : y = x
    · subst hyx
      obtain rfl := Except.ok.inj (htype.symm.trans htype')
      rw [Store.set_self]
      exact hin hy
    · rw [Store.set_of_ne hyx]
      exact hunknown hyx htype' hy

end Simulated

theorem Store.set_set_self {σ : Store} {x : VarId} {a : Value} : (σ.set x a).set x (σ x) = σ := by
  funext y
  by_cases hyx : y = x
  · rw [hyx, Store.set_self]
  · rw [Store.set_of_ne hyx, Store.set_of_ne hyx]

namespace Program

variable {p : Program} {maxRuns : Nat} {r : Simulated} {e : Expr} {σ τ : Store}

/-! ### Forking -/

/-- **No store is lost by forking**, nor any result found before. -/
theorem describes_resolveFrom {unknown : List VarId} {pending : Nat}
    {out res : Array (Simulated × Value)}
    (h : p.resolveFrom maxRuns e unknown pending out r = .ok res)
    (hnodup : unknown.Nodup) (hunknown : ∀ x ∈ unknown, r.values.find? x = none) :
    (∀ rv ∈ out, rv ∈ res) ∧ ∀ {σ}, r.Describes p σ → ∃ rv ∈ res, rv.1.Describes p σ := by
  have hpush : ∀ {out : Array (Simulated × Value)} {r : Simulated} {a : Value},
      (∀ rv ∈ out, rv ∈ out.push (r, a)) ∧
        ∀ {σ}, r.Describes p σ → ∃ rv ∈ out.push (r, a), rv.1.Describes p σ := fun {out r a} ↦
    ⟨fun rv hrv ↦ Array.mem_push.2 (.inl hrv),
      fun hσ ↦ ⟨(r, a), Array.mem_push.2 (.inr rfl), hσ⟩⟩
  induction unknown generalizing pending out r res with
  | nil =>
    obtain ⟨a, -, rfl⟩ | ⟨x, rest, -, -, hnil, -⟩ := resolveFrom_eq_ok h
    · exact hpush
    · cases hnil
  | cons x unknown ih =>
    obtain ⟨a, -, rfl⟩ | ⟨_, _, type, acc, hcons, htype, hacc, rfl⟩ := resolveFrom_eq_ok h
    · exact hpush
    obtain ⟨rfl, rfl⟩ := List.cons.inj hcons
    have hfork : ∀ {acc acc' : Nat × Array (Simulated × Value)} {a : Value},
        (p.resolveFrom maxRuns e unknown (pending + (acc.1 - 1)) acc.2 (r.bind x a) >>=
          fun out ↦ pure (acc.1 - 1, out)) = .ok acc' →
        (∀ rv ∈ acc.2, rv ∈ acc'.2) ∧
          ∀ {σ}, (r.bind x a).Describes p σ → ∃ rv ∈ acc'.2, rv.1.Describes p σ := by
      intro acc acc' a hfork
      obtain ⟨out', hout', hfork⟩ := bind_eq_ok.1 hfork
      obtain rfl := Except.ok.inj hfork
      exact ih hout' hnodup.tail (unknown_bind hnodup hunknown)
    refine ⟨?_, fun {σ} hσ ↦ ?_⟩
    · exact foldlM_induct (I := fun acc ↦ ∀ rv ∈ out, rv ∈ acc.2) hacc (fun rv hrv ↦ hrv)
        fun _ hI hstep rv hrv ↦ (hfork hstep).1 rv (hI rv hrv)
    · -- the fork that chooses the value of the store keeps it
      have hx := hunknown x List.mem_cons_self
      have hmem : σ x ∈ type.values := VarType.mem_values.2 (hσ.unknown htype hx)
      have hchosen : (r.bind x (σ x)).Describes p σ :=
        (Simulated.describes_bind hx htype (VarType.mem_values.1 hmem)).2 ⟨hσ, rfl⟩
      refine foldlM_of_mem (I := fun acc ↦ ∃ rv ∈ acc.2, rv.1.Describes p σ) hacc hmem
        (fun hstep ↦ (hfork hstep).2 hchosen) fun {acc a acc'} hI hstep ↦ ?_
      obtain ⟨rv, hrv, hrvσ⟩ := hI
      exact ⟨rv, (hfork hstep).1 rv hrv, hrvσ⟩

/-- **Forking splits the stores of a run.** -/
theorem describes_resolve {res : Array (Simulated × Value)} (h : p.resolve maxRuns e r = .ok res) :
    r.Describes p σ ↔ ∃ rv ∈ res, rv.1.Describes p σ := by
  constructor
  · exact (describes_resolveFrom h nodup_unknown fun x hx ↦ unknown_of_mem hx).2
  · rintro ⟨rv, hrv, hσ⟩
    exact hσ.of_binds (resolves_resolve h rv hrv).1

/-- The runs in which a condition holds are kept, and no others. -/
theorem mem_keepTrue_iff {forked : Array (Simulated × Value)} {kept : Array Simulated}
    (h : keepTrue forked = .ok kept) : r ∈ kept ↔ (r, .bool true) ∈ forked := by
  refine ⟨mem_keepTrue h r, fun hmem ↦ ?_⟩
  obtain ⟨pairs, hpairs, h⟩ := bind_eq_ok.1 h
  obtain rfl := Except.ok.inj h
  rw [Array.filterM, ← Array.foldlM_toList] at hpairs
  have hkept : (r, .bool true) ∈ pairs := by
    refine foldlM_of_mem (I := fun acc ↦ (r, .bool true) ∈ acc) hpairs (Array.mem_toList_iff.2 hmem)
      (fun hstep ↦ ?_) fun {acc rv acc'} hI hstep ↦ ?_
    · obtain rfl := Except.ok.inj hstep
      exact Array.mem_push.2 (.inr rfl)
    · obtain ⟨t, -, hstep⟩ := bind_eq_ok.1 hstep
      cases t with
      | false => exact Except.ok.inj hstep ▸ hI
      | true => exact Except.ok.inj hstep ▸ Array.mem_push.2 (.inl hI)
  exact Array.mem_map.2 ⟨_, hkept, rfl⟩

/-! ### Statements -/

variable {s : Statement} {runs : Array Simulated}

/-- What is done in place of a statement: an assumption that is not active holds everywhere. -/
def enforced (active : Bool) : Statement → Statement
  | .assume condition => .assume (if active then condition else .const (.bool true))
  | s => s

/-- An active statement is executed as it is. -/
theorem enforced_true : enforced true s = s := by
  cases s <;> rfl

/-- An assumption lets the stores pass in which its condition holds. -/
theorem describes_assume {condition : Expr} (hcond : condition.HasKind p .bool)
    (h : p.step maxRuns true r (.assume condition) = .ok runs)
    (hkinds : ∀ {σ}, r.Describes p σ → p.WellKinded σ) :
    (∃ r' ∈ runs, r'.Describes p σ) ↔
      r.Describes p σ ∧ condition.value σ = .ok (.bool true) := by
  rw [step, if_neg (by decide)] at h
  split at h
  · -- the condition binds a variable
    rename_i x a hforced
    obtain ⟨type, htype, h⟩ := bind_eq_ok.1 h
    obtain rfl := Except.ok.inj h
    have htype := orFault_eq_ok.1 htype
    have hx := (Expr.forcedBinding_eq_some hforced).1
    have hiff : r.Describes p σ → (σ x = a ↔ condition.value σ = .ok (.bool true)) := by
      refine fun hσ ↦ ⟨?_, Expr.eq_of_forcedBinding hforced hσ.known⟩
      rintro rfl
      exact hcond.value_of_forcedBinding (hkinds hσ) hσ.known hforced
    split
    · rename_i ha
      simp only [Array.mem_singleton, exists_eq_left]
      rw [Simulated.describes_bind hx htype ha]
      exact and_congr_right hiff
    · rename_i ha
      constructor
      · rintro ⟨r', hr', -⟩
        exact absurd hr' (Array.not_mem_empty r')
      · rintro ⟨hσ, hvalue⟩
        refine absurd ?_ ha
        rw [← (hiff hσ).2 hvalue]
        exact hσ.unknown htype hx
  · -- the runs are those forks in which it is true
    obtain ⟨forked, hforked, h⟩ := bind_eq_ok.1 h
    have heval : ∀ {rv}, rv ∈ forked → rv.1.Describes p σ → condition.value σ = .ok rv.2 := by
      intro rv hrv hσ
      obtain ⟨hrun, heval⟩ := resolves_resolve hforked rv hrv
      exact hcond.value_of_eval (hkinds (hσ.of_binds hrun)) hσ.known heval
    rw [describes_resolve hforked]
    constructor
    · rintro ⟨r', hr', hσ⟩
      have hmem := (mem_keepTrue_iff h).1 hr'
      exact ⟨⟨_, hmem, hσ⟩, heval hmem hσ⟩
    · rintro ⟨⟨⟨r', a⟩, hmem, hσ⟩, hvalue⟩
      obtain rfl : a = .bool true := Except.ok.inj ((heval hmem hσ).symm.trans hvalue)
      exact ⟨r', (mem_keepTrue_iff h).2 hmem, hσ⟩

/-- An assignment stores the value of its expression. -/
theorem describes_assign {x : VarId} {type : VarType} (htype : p.varType x = .ok type)
    (hne : ∃ a, type.contains a = true) (he : e.HasKind p type.kind)
    (h : p.step maxRuns true r (.assign x e) = .ok runs)
    (hkinds : ∀ {σ}, r.Describes p σ → p.WellKinded σ) :
    (∃ r' ∈ runs, r'.Describes p τ) ↔
      ∃ σ a, r.Describes p σ ∧ e.value σ = .ok a ∧ τ = σ.set x a := by
  obtain ⟨forked, hforked, h⟩ := bind_eq_ok.1 h
  obtain rfl := Except.ok.inj h
  have heval : ∀ {rv σ}, rv ∈ forked → rv.1.Describes p σ → e.value σ = .ok rv.2 := by
    intro rv σ hrv hσ
    obtain ⟨hrun, heval⟩ := resolves_resolve hforked rv hrv
    exact he.value_of_eval (hkinds (hσ.of_binds hrun)) hσ.known heval
  constructor
  · rintro ⟨r', hr', hτ⟩
    obtain ⟨⟨u, a⟩, hmem, rfl⟩ := Array.mem_map.1 hr'
    have hfind : ∀ y, (u.values.insert x a).find? y = if y = x then some a else u.values.find? y :=
      fun y ↦ IndexMap.find?_insert
    -- what the variable held before is known, or was any value of its type
    obtain ⟨b, hb⟩ := Simulated.exists_describes_set (r := u) (σ := τ) htype hne
      (fun hyx hy ↦ hτ.known (by rw [hfind, if_neg hyx]; exact hy))
      fun hyx htype' hy ↦ hτ.unknown htype' (by rw [hfind, if_neg hyx]; exact hy)
    have hxa : τ x = a := hτ.known (by rw [hfind, if_pos rfl])
    refine ⟨τ.set x b, a, (describes_resolve hforked).2 ⟨_, hmem, hb⟩, heval hmem hb, ?_⟩
    rw [← hxa, Store.set_set_self]
  · rintro ⟨σ, a, hσ, hvalue, rfl⟩
    obtain ⟨⟨u, b⟩, hmem, hu⟩ := (describes_resolve hforked).1 hσ
    obtain rfl := Except.ok.inj ((heval hmem hu).symm.trans hvalue)
    refine ⟨_, Array.mem_map.2 ⟨_, hmem, rfl⟩, hu.known.set_insert, fun y type' htype' hy ↦ ?_⟩
    dsimp only at hy
    rw [IndexMap.find?_insert] at hy
    split at hy
    · cases hy
    · rename_i hyx
      rw [Store.set_of_ne hyx]
      exact hu.unknown htype' hy

/-- An arbitrary assignment stores any value of the type. -/
theorem describes_havoc {x : VarId} {type : VarType} (htype : p.varType x = .ok type)
    (hne : ∃ a, type.contains a = true) :
    ({ r with values := r.values.erase x } : Simulated).Describes p τ ↔
      ∃ σ a, r.Describes p σ ∧ type.contains a = true ∧ τ = σ.set x a := by
  have hfind : ∀ y, (r.values.erase x).find? y = if y = x then none else r.values.find? y :=
    fun y ↦ IndexMap.find?_erase
  constructor
  · intro hτ
    obtain ⟨b, hb⟩ := Simulated.exists_describes_set (r := r) (σ := τ) htype hne
      (fun hyx hy ↦ hτ.known (by rw [hfind, if_neg hyx]; exact hy))
      fun hyx htype' hy ↦ hτ.unknown htype' (by rw [hfind, if_neg hyx]; exact hy)
    refine ⟨τ.set x b, τ x, hb, hτ.unknown htype (by rw [hfind, if_pos rfl]), ?_⟩
    rw [Store.set_set_self]
  · rintro ⟨σ, a, hσ, ha, rfl⟩
    refine ⟨hσ.known.set_erase, fun y type' htype' hy ↦ ?_⟩
    by_cases hyx : y = x
    · subst hyx
      obtain rfl := Except.ok.inj (htype.symm.trans htype')
      rw [Store.set_self]
      exact ha
    · rw [hfind, if_neg hyx] at hy
      rw [Store.set_of_ne hyx]
      exact hσ.unknown htype' hy

/-- **A statement is exact.** The runs that it leaves stand for the stores that it leads to. -/
theorem describes_step {active : Bool} (hne : ∀ {x type}, p.varType x = .ok type →
    ∃ a, type.contains a = true) (h : p.step maxRuns active r s = .ok runs) (hs : s.WellTyped p)
    (hkinds : ∀ {σ}, r.Describes p σ → p.WellKinded σ) :
    (∃ r' ∈ runs, r'.Describes p τ) ↔ ∃ σ, r.Describes p σ ∧ p.Exec (enforced active s) σ τ := by
  cases hs with
  | @assume condition hcond =>
    cases active with
    | true =>
      rw [describes_assume hcond h hkinds, enforced_true]
      refine ⟨fun ⟨hτ, hvalue⟩ ↦ ⟨τ, hτ, .assume hvalue⟩, fun ⟨σ, hσ, hexec⟩ ↦ ?_⟩
      cases hexec with
      | assume hvalue => exact ⟨hσ, hvalue⟩
    | false =>
      obtain rfl := Except.ok.inj h
      simp only [Array.mem_singleton, exists_eq_left]
      refine ⟨fun hτ ↦ ⟨τ, hτ, .assume rfl⟩, fun ⟨σ, hσ, hexec⟩ ↦ ?_⟩
      cases hexec with
      | assume => exact hσ
  | @assign x type e htype he =>
    rw [describes_assign htype (hne htype) he h hkinds]
    constructor
    · rintro ⟨σ, a, hσ, hvalue, rfl⟩
      exact ⟨σ, hσ, .assign hvalue⟩
    · rintro ⟨σ, hσ, hexec⟩
      cases hexec with
      | assign hvalue => exact ⟨σ, _, hσ, hvalue, rfl⟩
  | @havoc x type htype =>
    obtain rfl := Except.ok.inj h
    simp only [Array.mem_singleton, exists_eq_left]
    rw [describes_havoc htype (hne htype)]
    constructor
    · rintro ⟨σ, a, hσ, ha, rfl⟩
      exact ⟨σ, hσ, .havoc htype ha⟩
    · rintro ⟨σ, hσ, hexec⟩
      cases hexec with
      | havoc htype' ha =>
        obtain rfl := Except.ok.inj (htype.symm.trans htype')
        exact ⟨σ, _, hσ, ha, rfl⟩

/-- Every run is taken through the statement. -/
theorem exists_step_of_stepEach {active : Bool} {out : Array Simulated}
    (h : p.stepEach maxRuns active s runs = .ok out) (hr : r ∈ runs) :
    ∃ more, p.step maxRuns active r s = .ok more ∧ ∀ r' ∈ more, r' ∈ out := by
  rw [stepEach, ← Array.foldlM_toList] at h
  refine foldlM_of_mem (I := fun out ↦ ∃ more, p.step maxRuns active r s = .ok more ∧
    ∀ r' ∈ more, r' ∈ out) h (Array.mem_toList_iff.2 hr) (fun {out out'} hstep ↦ ?_)
    fun {out u out'} hI hstep ↦ ?_
  · obtain ⟨more, hmore, hstep⟩ := bind_eq_ok.1 hstep
    dsimp only at hstep
    split at hstep
    · cases hstep
    · obtain rfl := Except.ok.inj hstep
      exact ⟨more, hmore, fun r' hr' ↦ Array.mem_append.2 (.inr hr')⟩
  · obtain ⟨more, hmore, hI⟩ := hI
    obtain ⟨added, -, hstep⟩ := bind_eq_ok.1 hstep
    dsimp only at hstep
    split at hstep
    · cases hstep
    · obtain rfl := Except.ok.inj hstep
      exact ⟨more, hmore, fun r' hr' ↦ Array.mem_append.2 (.inl (hI r' hr'))⟩

/-! ### Executions of statements -/

variable {body rest : List Statement}

/-- Statements in two parts are executed one part after the other. -/
theorem executes_append_iff : p.Executes (body ++ rest) σ τ ↔
    ∃ μ, p.Executes body σ μ ∧ p.Executes rest μ τ := by
  refine ⟨fun h ↦ ?_, fun ⟨μ, hbody, hrest⟩ ↦ hbody.append hrest⟩
  induction body generalizing σ with
  | nil => exact ⟨σ, .nil, h⟩
  | cons s body ih =>
    cases h with
    | cons hok hs hall =>
      obtain ⟨μ, hbody, hrest⟩ := ih hall
      exact ⟨μ, .cons hok hs hbody, hrest⟩

/-- Statements are executed one after the other. -/
theorem executes_cons_iff :
    p.Executes (s :: rest) σ τ ↔ ∃ ρ, p.Exec s σ ρ ∧ p.Executes rest ρ τ := by
  constructor
  · rintro (_ | ⟨-, hs, hrest⟩)
    exact ⟨_, hs, hrest⟩
  · rintro ⟨ρ, hs, hrest⟩
    exact .cons trivial hs hrest

theorem executes_singleton_iff : p.Executes [s] σ τ ↔ p.Exec s σ τ := by
  refine ⟨fun h ↦ ?_, fun h ↦ .cons trivial h .nil⟩
  cases h with
  | cons _ hs hnil =>
    cases hnil with
    | nil => exact hs

/-- The statements have an execution that begins with values of the declared types. -/
def Feasible (p : Program) (body : List Statement) : Prop :=
  ∃ σ τ, p.InType σ ∧ p.Executes body σ τ

/-- The beginning of a feasible list of statements is feasible. -/
theorem Feasible.of_append (h : p.Feasible (body ++ rest)) : p.Feasible body := by
  obtain ⟨σ, τ, hσ, hexec⟩ := h
  obtain ⟨μ, hbody, -⟩ := executes_append_iff.1 hexec
  exact ⟨σ, μ, hσ, hbody⟩

/-- What is done in place of a well-typed statement is well typed. -/
theorem wellTyped_enforced {active : Bool} (hs : s.WellTyped p) :
    (enforced active s).WellTyped p := by
  cases hs with
  | assume hcond =>
    cases active with
    | true => exact .assume hcond
    | false => exact .assume (.const (a := .bool true))
  | assign htype he => exact .assign htype he
  | havoc htype => exact .havoc htype

/-- **Only an active assumption blocks.** -/
theorem Feasible.snoc {active : Bool} (h : p.Feasible body) (hbody : ∀ s ∈ body, s.WellTyped p)
    (hne : ∀ {x type}, p.varType x = .ok type → ∃ a, type.contains a = true)
    (hs : s.WellTyped p) (hpass : ∀ condition, s = .assume condition → active = false) :
    p.Feasible (body ++ [enforced active s]) := by
  obtain ⟨σ, μ, hσ, hexec⟩ := h
  have hkinds := hexec.wellKinded hbody hσ.wellKinded
  have hstep : ∃ τ, p.Exec (enforced active s) μ τ := by
    cases hs with
    | @assume condition _ => exact ⟨μ, hpass condition rfl ▸ .assume rfl⟩
    | assign htype he =>
      obtain ⟨a, ha, -⟩ := he.exists_value hkinds
      exact ⟨_, .assign ha⟩
    | havoc htype =>
      obtain ⟨a, ha⟩ := hne htype
      exact ⟨_, .havoc htype ha⟩
  obtain ⟨τ, hstep⟩ := hstep
  exact ⟨σ, τ, hσ, hexec.append (.cons trivial hstep .nil)⟩

/-! ### Whole traces -/

/-- The runs together stand for the stores that the statements lead to. -/
def Reached (p : Program) (runs : Array Simulated) (done : List Statement) : Prop :=
  ∀ τ, (∃ r ∈ runs, r.Describes p τ) ↔ ∃ σ, p.InType σ ∧ p.Executes done σ τ

variable {done : List Statement} {todo : List TraceStatement} {active : Nat → Bool} {i : Nat}

/-- Before any statement, the stores of the declared types are described by the run that knows
nothing. -/
theorem reached_start : p.Reached #[{}] [] := by
  intro τ
  simp only [Array.mem_singleton, exists_eq_left]
  rw [Simulated.describes_start]
  refine ⟨fun h ↦ ⟨τ, h, .nil⟩, fun ⟨σ, hσ, hnil⟩ ↦ ?_⟩
  cases hnil with
  | nil => exact hσ

/-- As long as there are runs, there are executions. -/
theorem Reached.feasible (h : p.Reached runs done) (hin : ∃ ρ, p.InType ρ) (hr : r ∈ runs) :
    p.Feasible done := by
  obtain ⟨ρ, hρ⟩ := hin
  obtain ⟨σ, hσ, hexec⟩ := (h _).1 ⟨r, hr, Simulated.describes_override hρ⟩
  exact ⟨σ, _, hσ, hexec⟩

/-- And the other way round. -/
theorem Reached.exists_run (h : p.Reached runs done) (hdone : p.Feasible done) : ∃ r, r ∈ runs := by
  obtain ⟨σ, τ, hσ, hexec⟩ := hdone
  obtain ⟨r, hr, -⟩ := (h τ).2 ⟨σ, hσ, hexec⟩
  exact ⟨r, hr⟩

/-- **One more statement.** -/
theorem Reached.stepEach {active : Bool} {position : Nat} {out : Array Simulated}
    (h : p.Reached runs done) (hdone : ∀ s ∈ done, s.WellTyped p) (hs : s.WellTyped p)
    (hne : ∀ {x type}, p.varType x = .ok type → ∃ a, type.contains a = true)
    (hout : p.stepEach maxRuns active s (runs.map (·.reach position)) = .ok out) :
    p.Reached out (done ++ [enforced active s]) := by
  have hreach : ∀ {r : Simulated} {σ}, (r.reach position).Describes p σ ↔ r.Describes p σ :=
    fun {r σ} ↦ ⟨fun h ↦ ⟨h.known, h.unknown⟩, fun h ↦ ⟨h.known, h.unknown⟩⟩
  have hkinds : ∀ {r σ}, r ∈ runs → (r.reach position).Describes p σ → p.WellKinded σ := by
    intro r σ hr hσ
    obtain ⟨σ₀, hσ₀, hexec⟩ := (h σ).1 ⟨r, hr, hreach.1 hσ⟩
    exact hexec.wellKinded hdone hσ₀.wellKinded
  intro τ
  constructor
  · rintro ⟨r', hr', hτ⟩
    obtain ⟨u, hu, more, hmore, hr'⟩ := mem_stepEach hout r' hr'
    obtain ⟨r, hr, rfl⟩ := Array.mem_map.1 hu
    obtain ⟨μ, hμ, hexec⟩ := (describes_step hne hmore hs (hkinds hr)).1 ⟨r', hr', hτ⟩
    obtain ⟨σ, hσ, hbefore⟩ := (h μ).1 ⟨r, hr, hreach.1 hμ⟩
    exact ⟨σ, hσ, hbefore.append (.cons trivial hexec .nil)⟩
  · rintro ⟨σ, hσ, hexec⟩
    obtain ⟨μ, hbefore, hexec⟩ := executes_append_iff.1 hexec
    obtain ⟨r, hr, hμ⟩ := (h μ).2 ⟨σ, hσ, hbefore⟩
    obtain ⟨more, hmore, hsub⟩ := exists_step_of_stepEach hout (Array.mem_map.2 ⟨r, hr, rfl⟩)
    obtain ⟨r', hr', hτ⟩ := (describes_step hne hmore hs (hkinds hr)).2
      ⟨μ, hreach.2 hμ, executes_singleton_iff.1 hexec⟩
    exact ⟨r', hsub r' hr', hτ⟩

/-- What is done in place of the statements of a trace, of which `i` come before. -/
def enforcedFrom (active : Nat → Bool) : Nat → List TraceStatement → List Statement
  | _, [] => []
  | i, s :: rest => enforced (active i) s.statement :: enforcedFrom active (i + 1) rest

/-- If all statements are active, they are executed as they are. -/
theorem enforcedFrom_true : enforcedFrom (fun _ ↦ true) i todo = todo.map (·.statement) := by
  induction todo generalizing i with
  | nil => rfl
  | cons s rest ih => rw [enforcedFrom, enforced_true, ih, List.map_cons]

theorem length_enforcedFrom : (enforcedFrom active i todo).length = todo.length := by
  induction todo generalizing i with
  | nil => rfl
  | cons s rest ih => rw [enforcedFrom, List.length_cons, ih, List.length_cons]

/-- What is done in place of statements in two parts is done part by part. -/
theorem enforcedFrom_append {more : List TraceStatement} : enforcedFrom active i (todo ++ more) =
    enforcedFrom active i todo ++ enforcedFrom active (i + todo.length) more := by
  induction todo generalizing i with
  | nil => rfl
  | cons s rest ih =>
    rw [List.cons_append, enforcedFrom, ih, enforcedFrom, List.cons_append, List.length_cons,
      Nat.add_assoc, Nat.add_comm 1]

/-- What is done in place of well-typed statements is well typed. -/
theorem wellTyped_enforcedFrom (htodo : ∀ s ∈ todo, s.statement.WellTyped p) :
    ∀ s ∈ enforcedFrom active i todo, s.WellTyped p := by
  induction todo generalizing i with
  | nil => exact List.forall_mem_nil _
  | cons s rest ih =>
    obtain ⟨hs, hrest⟩ := List.forall_mem_cons.1 htodo
    exact List.forall_mem_cons.2 ⟨wellTyped_enforced hs, ih hrest⟩

section Simulate

variable (hin : ∃ ρ, p.InType ρ)
  (hne : ∀ {x type}, p.varType x = .ok type → ∃ a, type.contains a = true)
include hin hne

/-- **What is found feasible has an execution.** -/
theorem feasible_of_simulateFrom
    (h : p.simulateFrom maxRuns active i runs todo = .ok (.feasible r))
    (hruns : p.Reached runs done) (hdone : ∀ s ∈ done, s.WellTyped p)
    (htodo : ∀ s ∈ todo, s.statement.WellTyped p) :
    p.Feasible (done ++ enforcedFrom active i todo) := by
  induction todo generalizing i runs done with
  | nil =>
    rw [simulateFrom] at h
    split at h
    · rename_i u hu
      rw [enforcedFrom, List.append_nil]
      exact hruns.feasible hin (Array.mem_of_getElem? hu)
    · cases h
  | cons s rest ih =>
    obtain ⟨hs, hrest⟩ := List.forall_mem_cons.1 htodo
    obtain ⟨out, hout, h⟩ := bind_eq_ok.1 h
    split at h
    · cases Except.ok.inj h
    have hdone' : ∀ s' ∈ done ++ [enforced (active i) s.statement], s'.WellTyped p :=
      List.forall_mem_append.2 ⟨hdone, List.forall_mem_singleton.2 (wellTyped_enforced hs)⟩
    have hfeasible := ih h (hruns.stepEach hdone hs hne hout) hdone' hrest
    rwa [List.append_assoc] at hfeasible

/-- **Where the simulation gets stuck** there is an active assumption. The statements before it have
an execution, and with it they have none. -/
theorem stuck_of_simulateFrom {k : Nat}
    (h : p.simulateFrom maxRuns active i runs todo = .ok (.stuck k))
    (hruns : p.Reached runs done) (hdone : ∀ s ∈ done, s.WellTyped p)
    (htodo : ∀ s ∈ todo, s.statement.WellTyped p) (hbefore : p.Feasible done) :
    ∃ j condition, k = i + j ∧ active k = true ∧
      (todo.map (·.statement))[j]? = some (.assume condition) ∧
      p.Feasible (done ++ (enforcedFrom active i todo).take j) ∧
      ¬p.Feasible (done ++ (enforcedFrom active i todo).take (j + 1)) := by
  induction todo generalizing i runs done with
  | nil =>
    rw [simulateFrom] at h
    split at h <;> cases h
  | cons s rest ih =>
    obtain ⟨hs, hrest⟩ := List.forall_mem_cons.1 htodo
    obtain ⟨out, hout, h⟩ := bind_eq_ok.1 h
    have hout' := hruns.stepEach hdone hs hne hout
    have hdone' : ∀ s' ∈ done ++ [enforced (active i) s.statement], s'.WellTyped p :=
      List.forall_mem_append.2 ⟨hdone, List.forall_mem_singleton.2 (wellTyped_enforced hs)⟩
    split at h
    · rename_i hempty
      obtain rfl := Simulation.stuck.inj (Except.ok.inj h)
      have hblocked : ¬p.Feasible (done ++ [enforced (active i) s.statement]) := fun hf ↦ by
        obtain ⟨r, hr⟩ := hout'.exists_run hf
        rw [Array.isEmpty_iff.1 hempty] at hr
        exact Array.not_mem_empty r hr
      obtain ⟨condition, hcond, hactive⟩ :
          ∃ condition, s.statement = .assume condition ∧ active i = true := by
        by_contra hpass
        push Not at hpass
        exact hblocked (hbefore.snoc hdone hne hs fun c hc ↦ by simpa using hpass c hc)
      exact ⟨0, condition, rfl, hactive, by simp [hcond], by simpa using hbefore, hblocked⟩
    · rename_i hsome
      obtain ⟨r, hr⟩ : ∃ r, r ∈ out := by
        by_contra hnone
        push Not at hnone
        exact hsome (Array.isEmpty_iff.2 (Array.eq_empty_iff_forall_not_mem.2 hnone))
      obtain ⟨j, condition, rfl, hactive, hget, hfeasible, hblocked⟩ :=
        ih h hout' hdone' hrest (hout'.feasible hin hr)
      rw [List.append_assoc] at hfeasible hblocked
      refine ⟨j + 1, condition, by omega, hactive, ?_, hfeasible, hblocked⟩
      rw [List.map_cons, List.getElem?_cons_succ]
      exact hget

end Simulate

/-! ### The examination of a trace -/

/-- The statements of a trace are the bodies of its edges, one after the other. -/
theorem map_statementsFrom {d : Draft} (hbuild : d.build = .ok p) {edges : List Edge}
    (hedges : ∀ e ∈ edges, e ∈ p.edges)
    (h : p.statementsFrom i (edges.map Edge.move) = .ok todo) :
    todo.map (·.statement) = edges.flatMap Edge.body := by
  induction edges generalizing i todo with
  | nil =>
    obtain rfl := Except.ok.inj h
    rfl
  | cons e edges ih =>
    obtain ⟨he, hedges⟩ := List.forall_mem_cons.1 hedges
    obtain ⟨e', he', h⟩ := bind_eq_ok.1 h
    obtain ⟨others, hothers, h⟩ := bind_eq_ok.1 h
    obtain rfl := Except.ok.inj h
    obtain rfl : e = e' := Except.ok.inj ((d.edge_of_build hbuild he).symm.trans he')
    rw [List.map_append, List.map_map, ih hedges hothers, List.flatMap_cons]
    exact congrArg (· ++ _) (List.map_id _)

/-- **The refuter decides whether a trace can be executed.** For a trace along edges of a well-typed
program, it answers feasible if and only if the statements of these edges, one after the other, have
an execution that begins with values of the declared types, and infeasible if and only if they have
none. In the second case the refutation is computed from the place at which the simulation got
stuck: an assumption, before which the statements have an execution and with which they have
none. -/
theorem feasible_iff_of_check {d : Draft} (hbuild : d.build = .ok p) (htyped : p.WellTyped)
    {strategy : CoreStrategy} {t : Trace ProgramState Move} {edges : List Edge}
    (hedges : ∀ e ∈ edges, e ∈ p.edges) (hactions : t.actions = edges.map Edge.move)
    {answer : Feasibility (List Valuation) Slice}
    (h : (p.refuter maxRuns strategy).check t = .ok answer) :
    ((∃ witness, answer = .feasible witness) ↔ p.Feasible (edges.flatMap Edge.body)) ∧
      ((∃ found, answer = .infeasible found) ↔ ¬p.Feasible (edges.flatMap Edge.body)) ∧
      ∀ found, answer = .infeasible found → ∃ statements failedAt core condition,
        p.statementsOf t.actions = .ok statements ∧
        statements.map (·.statement) = edges.flatMap Edge.body ∧
        p.simulate maxRuns (fun _ ↦ true) statements = .ok (.stuck failedAt) ∧
        p.core maxRuns strategy statements failedAt = .ok core ∧
        found = slice statements (t.actions.length + 1) failedAt core ∧
        (edges.flatMap Edge.body)[failedAt]? = some (.assume condition) ∧
        p.Feasible ((edges.flatMap Edge.body).take failedAt) ∧
        ¬p.Feasible ((edges.flatMap Edge.body).take (failedAt + 1)) := by
  have hin := exists_inType hbuild
  have hne : ∀ {x type}, p.varType x = .ok type → ∃ a, type.contains a = true :=
    d.exists_contains_of_build hbuild
  obtain ⟨statements, hst, h⟩ := bind_eq_ok.1 h
  have hst := orFault_eq_ok.1 hst
  have hmap : statements.map (·.statement) = edges.flatMap Edge.body :=
    map_statementsFrom hbuild hedges (hactions ▸ hst)
  have hstatements : ∀ s ∈ statements, s.statement.WellTyped p := by
    intro s hs
    have hmem : s.statement ∈ edges.flatMap Edge.body := hmap ▸ List.mem_map_of_mem hs
    obtain ⟨e, he, hse⟩ := List.mem_flatMap.1 hmem
    exact htyped e (hedges e he) _ hse
  obtain ⟨outcome, hsim, h⟩ := bind_eq_ok.1 h
  cases outcome with
  | feasible run =>
    obtain rfl := Except.ok.inj h
    have hfeasible := feasible_of_simulateFrom hin hne hsim reached_start (List.forall_mem_nil _)
      hstatements
    rw [enforcedFrom_true, hmap, List.nil_append] at hfeasible
    refine ⟨iff_of_true ⟨_, rfl⟩ hfeasible, iff_of_false ?_ (not_not_intro hfeasible), ?_⟩
    · rintro ⟨found, hfound⟩
      cases hfound
    · intro found hfound
      cases hfound
  | stuck failedAt =>
    obtain ⟨core, hcore, h⟩ := bind_eq_ok.1 h
    obtain rfl := Except.ok.inj h
    obtain ⟨ρ, hρ⟩ := hin
    obtain ⟨j, condition, hj, -, hget, hbefore, hblocked⟩ := stuck_of_simulateFrom ⟨ρ, hρ⟩ hne hsim
      reached_start (List.forall_mem_nil _) hstatements ⟨ρ, ρ, hρ, .nil⟩
    obtain rfl : failedAt = j := by omega
    rw [enforcedFrom_true, hmap, List.nil_append] at hbefore hblocked
    rw [hmap] at hget
    have hnone : ¬p.Feasible (edges.flatMap Edge.body) := fun hall ↦ by
      rw [← List.take_append_drop (failedAt + 1) (edges.flatMap Edge.body)] at hall
      exact hblocked hall.of_append
    refine ⟨iff_of_false ?_ hnone, iff_of_true ⟨_, rfl⟩ hnone, ?_⟩
    · rintro ⟨witness, hwitness⟩
      cases hwitness
    · intro found hfound
      obtain rfl := Feasibility.infeasible.inj hfound
      exact ⟨statements, failedAt, core, condition, hst, hmap, hsim, hcore, rfl, hget, hbefore,
        hblocked⟩

/-! ### An example -/

/-- The edges of `detour` in the wrong order. -/
def detourBack : Trace ProgramState Move where
  start := ⟨⟨1⟩, .top⟩
  steps := [(⟨1, 1, 2⟩, ⟨⟨2⟩, .top⟩), (⟨0, 0, 1⟩, ⟨⟨1⟩, .top⟩)]

/-- The whole statement at this trace: two more than a value is not less than it. -/
theorem not_feasible_detourBack : ∃ p found, detour.build = .ok p ∧ p.WellTyped ∧
    (p.refuter 99 .minimal).check detourBack = .ok (.infeasible found) ∧
    ¬p.Feasible (p.edges.reverse.flatMap Edge.body) ∧
    ∃ failedAt, p.Feasible ((p.edges.reverse.flatMap Edge.body).take failedAt) ∧
      ¬p.Feasible ((p.edges.reverse.flatMap Edge.body).take (failedAt + 1)) := by
  have hrun : (detour.build.toOption.any fun p ↦
      detourBack.actions = p.edges.reverse.map Edge.move &&
        ((p.refuter 99 .minimal).check detourBack).toOption.any fun
          | .infeasible _ => true
          | .feasible _ => false) = true := by
    decide +kernel
  obtain ⟨p, hp, hrun⟩ := exists_of_toOption_any hrun
  obtain ⟨hactions, hrun⟩ := Bool.and_eq_true_iff.1 hrun
  obtain ⟨answer, hanswer, hrun⟩ := exists_of_toOption_any hrun
  cases answer with
  | feasible witness => cases hrun
  | infeasible found =>
    have htyped := wellTyped_detour hp
    obtain ⟨-, hiff, hstuck⟩ := feasible_iff_of_check hp htyped
      (fun e he ↦ List.mem_reverse.1 he) (of_decide_eq_true hactions) hanswer
    obtain ⟨-, failedAt, -, -, -, -, -, -, -, -, hbefore, hblocked⟩ := hstuck found rfl
    exact ⟨p, found, hp, htyped, hanswer, hiff.1 ⟨found, rfl⟩, failedAt, hbefore, hblocked⟩

end Program

end AbstractionRefinement
