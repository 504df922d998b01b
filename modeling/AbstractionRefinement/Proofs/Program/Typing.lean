import AbstractionRefinement.Proofs.Program.Semantics

/-!
# Well-typed programs

Building a program checks that its variables are declared, not that its expressions fit their types.
`Expr.HasKind` gives the rules that a front end is expected to enforce. In a store whose values are
of the declared kinds, a well-typed expression has a value of its kind
(`Expr.HasKind.exists_value`), and a well-typed statement keeps the store so
(`Program.ExecAll.wellKinded`). Kinds say nothing about ranges: a value that was assigned may lie
outside the range of its variable.

The rules are those one expects: arithmetic and comparison take integers, equality takes two
operands of one kind, and the connectives take truth values. They are syntax-directed, so the kind
of an expression is determined by it and by the declarations.

In a well-typed program the partial evaluation that the analysis works with agrees with evaluation
in a store (`Expr.HasKind.value_of_eval`): where the former knows a value, it is the value in every
store that agrees with the valuation. The same holds of the bindings that an equation forces.
Without types this fails for a reason that has nothing to do with values, namely that an operand in
error has none.
-/

namespace AbstractionRefinement

/-! ### Kinds -/

/-- The kind of the values of a type. -/
def VarType.kind : VarType → Kind
  | .int _ _ => .int
  | .bool => .bool

theorem VarType.kind_of_contains {t : VarType} {a : Value} (h : t.contains a = true) :
    a.kind = t.kind := by
  cases t <;> cases a <;> first | rfl | cases h

theorem Value.kind_eq_int {a : Value} : a.kind = .int ↔ ∃ n, a = .int n := by
  cases a with
  | int n => exact iff_of_true rfl ⟨n, rfl⟩
  | bool b => exact iff_of_false (fun h ↦ by cases h) (by simp)

theorem Value.kind_eq_bool {a : Value} : a.kind = .bool ↔ ∃ t, a = .bool t := by
  cases a with
  | int n => exact iff_of_false (fun h ↦ by cases h) (by simp)
  | bool b => exact iff_of_true rfl ⟨b, rfl⟩

/-! ### Typing rules -/

/-- The expression has values of the kind. -/
inductive Expr.HasKind (p : Program) : Expr → Kind → Prop
  /-- A constant is of its own kind. -/
  | const {a : Value} : HasKind p (.const a) a.kind
  /-- A variable is of the kind of its type. -/
  | var {x : VarId} {type : VarType} (h : p.varType x = .ok type) : HasKind p (.var x) type.kind
  /-- Arithmetic is on integers. -/
  | arith {op : ArithOp} {e f : Expr} (he : HasKind p e .int) (hf : HasKind p f .int) :
    HasKind p (.arith op e f) .int
  /-- Integers are compared. -/
  | compare {op : CompareOp} {e f : Expr} (he : HasKind p e .int) (hf : HasKind p f .int) :
    HasKind p (.compare op e f) .bool
  /-- Equality is between values of one kind. -/
  | equal {e f : Expr} {k : Kind} (he : HasKind p e k) (hf : HasKind p f k) :
    HasKind p (.equal e f) .bool
  /-- Difference is between values of one kind. -/
  | differ {e f : Expr} {k : Kind} (he : HasKind p e k) (hf : HasKind p f k) :
    HasKind p (.differ e f) .bool
  /-- Truth values are negated. -/
  | neg {e : Expr} (he : HasKind p e .bool) : HasKind p (.neg e) .bool
  /-- Truth values are conjoined. -/
  | conj {e f : Expr} (he : HasKind p e .bool) (hf : HasKind p f .bool) :
    HasKind p (.conj e f) .bool
  /-- Truth values are disjoined. -/
  | disj {e f : Expr} (he : HasKind p e .bool) (hf : HasKind p f .bool) :
    HasKind p (.disj e f) .bool

/-- The statement fits the declarations. -/
inductive Statement.WellTyped (p : Program) : Statement → Prop
  /-- A condition is a truth value. -/
  | assume {condition : Expr} (h : condition.HasKind p .bool) : WellTyped p (.assume condition)
  /-- A value of the variable's kind is stored. -/
  | assign {x : VarId} {type : VarType} {e : Expr} (htype : p.varType x = .ok type)
      (h : e.HasKind p type.kind) : WellTyped p (.assign x e)
  /-- The variable is declared. -/
  | havoc {x : VarId} {type : VarType} (htype : p.varType x = .ok type) : WellTyped p (.havoc x)

/-- Every statement fits the declarations. -/
def Program.WellTyped (p : Program) : Prop := ∀ e ∈ p.edges, ∀ s ∈ e.body, s.WellTyped p

/-! ### Values of well-typed expressions -/

/-- Every declared variable has a value of the kind of its type. -/
def Program.WellKinded (p : Program) (σ : Store) : Prop :=
  ∀ ⦃x type⦄, p.varType x = .ok type → (σ x).kind = type.kind

variable {p : Program} {σ τ : Store}

theorem Program.InType.wellKinded (h : p.InType σ) : p.WellKinded σ :=
  fun _ _ htype ↦ VarType.kind_of_contains (h htype)

namespace Expr.HasKind

variable {e : Expr} {k : Kind} {v : Valuation} {a : Value}

/-- **A well-typed expression has a value of its kind.** -/
theorem exists_value (h : e.HasKind p k) (hσ : p.WellKinded σ) :
    ∃ a, e.value σ = .ok a ∧ a.kind = k := by
  induction h with
  | @const a => exact ⟨a, rfl, rfl⟩
  | @var x type h => exact ⟨σ x, rfl, hσ h⟩
  | @arith op e f _ _ ihe ihf =>
    obtain ⟨a, ha, hka⟩ := ihe
    obtain ⟨b, hb, hkb⟩ := ihf
    obtain ⟨m, rfl⟩ := Value.kind_eq_int.1 hka
    obtain ⟨n, rfl⟩ := Value.kind_eq_int.1 hkb
    exact ⟨.int (op.apply m n), by rw [value, ha, hb]; rfl, rfl⟩
  | @compare op e f _ _ ihe ihf =>
    obtain ⟨a, ha, hka⟩ := ihe
    obtain ⟨b, hb, hkb⟩ := ihf
    obtain ⟨m, rfl⟩ := Value.kind_eq_int.1 hka
    obtain ⟨n, rfl⟩ := Value.kind_eq_int.1 hkb
    exact ⟨.bool (op.apply m n), by rw [value, ha, hb]; rfl, rfl⟩
  | equal _ _ ihe ihf =>
    obtain ⟨a, ha, hka⟩ := ihe
    obtain ⟨b, hb, hkb⟩ := ihf
    have heq : equalValues a b = .ok (a = b) := if_pos (hka.trans hkb.symm)
    refine ⟨.bool (a = b), ?_, rfl⟩
    rw [value, ha, hb]
    simp only [bind, Except.bind, heq]
    rfl
  | differ _ _ ihe ihf =>
    obtain ⟨a, ha, hka⟩ := ihe
    obtain ⟨b, hb, hkb⟩ := ihf
    have heq : equalValues a b = .ok (a = b) := if_pos (hka.trans hkb.symm)
    refine ⟨.bool (!(a = b)), ?_, rfl⟩
    rw [value, ha, hb]
    simp only [bind, Except.bind, heq]
    rfl
  | neg _ ih =>
    obtain ⟨a, ha, hka⟩ := ih
    obtain ⟨t, rfl⟩ := Value.kind_eq_bool.1 hka
    exact ⟨.bool (!t), by rw [value, ha]; rfl, rfl⟩
  | conj _ _ ihe ihf =>
    obtain ⟨a, ha, hka⟩ := ihe
    obtain ⟨b, hb, hkb⟩ := ihf
    obtain ⟨t, rfl⟩ := Value.kind_eq_bool.1 hka
    obtain ⟨u, rfl⟩ := Value.kind_eq_bool.1 hkb
    exact ⟨.bool (t && u), by rw [value, ha, hb]; rfl, rfl⟩
  | disj _ _ ihe ihf =>
    obtain ⟨a, ha, hka⟩ := ihe
    obtain ⟨b, hb, hkb⟩ := ihf
    obtain ⟨t, rfl⟩ := Value.kind_eq_bool.1 hka
    obtain ⟨u, rfl⟩ := Value.kind_eq_bool.1 hkb
    exact ⟨.bool (t || u), by rw [value, ha, hb]; rfl, rfl⟩

/-- What is known about a well-typed expression is its value. -/
theorem value_of_eval (h : e.HasKind p k) (hσ : p.WellKinded σ) (hext : σ.Extends v)
    (ha : e.eval v = .ok (some a)) : e.value σ = .ok a := by
  obtain ⟨b, hb, -⟩ := h.exists_value hσ
  rw [hb, known_of_extends hext ha hb]

/-- A condition holds wherever the binding that it forces does. -/
theorem value_of_forcedBinding {x : VarId} (h : e.HasKind p k) (hσ : p.WellKinded σ)
    (hext : σ.Extends v) (hf : e.forcedBinding v = some (x, σ x)) :
    e.value σ = .ok (.bool true) := by
  have heq : equalValues (σ x) (σ x) = .ok true := by
    rw [equalValues, if_pos rfl, decide_eq_true rfl]
  obtain ⟨-, other, ho, rfl | rfl⟩ := forcedBinding_eq_some hf
  · cases h with
    | equal _ hother =>
      rw [value, value, hother.value_of_eval hσ hext ho]
      simp only [bind, Except.bind, heq]
      rfl
  · cases h with
    | equal hother _ =>
      rw [value, value, hother.value_of_eval hσ hext ho]
      simp only [bind, Except.bind, heq]
      rfl

end Expr.HasKind

/-! ### Well-typed statements -/

namespace Program

theorem Exec.wellKinded {s : Statement} (h : p.Exec s σ τ) (hs : s.WellTyped p)
    (hσ : p.WellKinded σ) : p.WellKinded τ := by
  have hset : ∀ {x type a}, p.varType x = .ok type → a.kind = type.kind →
      p.WellKinded (σ.set x a) := by
    intro x type a htype ha y type' htype'
    by_cases hy : y = x
    · subst hy
      obtain rfl := Except.ok.inj (htype.symm.trans htype')
      rw [Store.set_self]
      exact ha
    · rw [Store.set_of_ne hy]
      exact hσ htype'
  cases h with
  | assume _ => exact hσ
  | assign ha =>
    cases hs with
    | assign htype he =>
      obtain ⟨b, hb, hk⟩ := he.exists_value hσ
      obtain rfl := Except.ok.inj (ha.symm.trans hb)
      exact hset htype hk
  | havoc htype ha => exact hset htype (VarType.kind_of_contains ha)

theorem ExecAll.wellKinded {ok : Statement → Store → Prop} {body : List Statement}
    (h : p.ExecAll ok body σ τ) (hbody : ∀ s ∈ body, s.WellTyped p) (hσ : p.WellKinded σ) :
    p.WellKinded τ := by
  induction h with
  | nil => exact hσ
  | cons _ hs _ ih =>
    obtain ⟨hhead, hrest⟩ := List.forall_mem_cons.1 hbody
    exact ih hrest (hs.wellKinded hhead hσ)

end Program

end AbstractionRefinement
