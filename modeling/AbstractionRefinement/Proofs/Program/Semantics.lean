import AbstractionRefinement.Proofs.Soundness
import AbstractionRefinement.Values.State

/-!
# Concrete executions of programs

What a program does, independently of any analysis. A store gives every variable a value. Statements
relate stores: an assumption blocks unless its condition is true, an assignment stores the value of
its expression whether or not it lies in the declared range, and an arbitrary assignment stores some
value of the declared type. An expression whose operands have the wrong types has no value, so an
execution that would evaluate one does not exist.

`Program.system` is the transition system of a program. It is given a condition that every statement
must meet in the store it is executed in; the executions of the program are those under the
condition that always holds (`Program.concrete`).

The second half relates evaluation under partial valuations to evaluation in a store: a value that
is known is the value in every store that the valuation describes (`Expr.known_of_extends`).
-/

namespace AbstractionRefinement

/-! ### Stores -/

/-- A value for every variable. -/
abbrev Store := VarId → Value

/-- The store after a variable was written. -/
def Store.set (σ : Store) (x : VarId) (a : Value) : Store := fun y ↦ if y = x then a else σ y

@[simp] theorem Store.set_self {σ : Store} {x : VarId} {a : Value} : σ.set x a x = a :=
  if_pos rfl

theorem Store.set_of_ne {σ : Store} {x y : VarId} {a : Value} (h : y ≠ x) : σ.set x a y = σ y :=
  if_neg h

/-- The value of an expression in a store. -/
def Expr.value (σ : Store) : Expr → Except TypeMismatch Value
  | const a => .ok a
  | var x => .ok (σ x)
  | arith op a b => do arithValues op (← a.value σ) (← b.value σ)
  | compare op a b => do compareValues op (← a.value σ) (← b.value σ)
  | equal a b => do return .bool (← equalValues (← a.value σ) (← b.value σ))
  | differ a b => do return .bool (!(← equalValues (← a.value σ) (← b.value σ)))
  | neg a => do return .bool (!(← (← a.value σ).asBool))
  | conj a b => do return .bool ((← (← a.value σ).asBool) && (← (← b.value σ).asBool))
  | disj a b => do return .bool ((← (← a.value σ).asBool) || (← (← b.value σ).asBool))

/-! ### Executions -/

/-- A control point with a store. -/
structure Config where
  /-- The location. -/
  location : Location
  /-- The store. -/
  store : Store

namespace Program

variable (p : Program)

/-- One statement from a store to a store. -/
inductive Exec : Statement → Store → Store → Prop
  /-- The condition holds. -/
  | assume {condition : Expr} {σ : Store} (h : condition.value σ = .ok (.bool true)) :
    Exec (.assume condition) σ σ
  /-- The value of the expression is stored. -/
  | assign {x : VarId} {e : Expr} {a : Value} {σ : Store} (h : e.value σ = .ok a) :
    Exec (.assign x e) σ (σ.set x a)
  /-- Some value of the type is stored. -/
  | havoc {x : VarId} {type : VarType} {a : Value} {σ : Store} (htype : p.varType x = .ok type)
      (h : type.contains a = true) : Exec (.havoc x) σ (σ.set x a)

/-- Statements in order, each meeting a condition on the store it is executed in. -/
inductive ExecAll (ok : Statement → Store → Prop) : List Statement → Store → Store → Prop
  /-- Nothing to execute. -/
  | nil {σ : Store} : ExecAll ok [] σ σ
  /-- The first statement, then the others. -/
  | cons {s : Statement} {rest : List Statement} {σ τ ρ : Store} (hok : ok s σ)
      (hs : p.Exec s σ τ) (hrest : ExecAll ok rest τ ρ) : ExecAll ok (s :: rest) σ ρ

/-- Every declared variable has a value of its type. -/
def InType (σ : Store) : Prop := ∀ ⦃x type⦄, p.varType x = .ok type → type.contains (σ x) = true

/-- The transition system of a program whose statements meet a condition: it begins at the initial
location with a value of its type in every variable, and must not reach the error location. -/
def system (ok : Statement → Store → Prop) : System Config Move where
  initial c := c.location = p.init ∧ p.InType c.store
  step c m c' := ∃ e ∈ p.edges, e.move = m ∧ e.source = c.location ∧ e.target = c'.location ∧
    p.ExecAll ok e.body c.store c'.store
  target c := c.location = p.error

/-- The transition system of a program. -/
def concrete : System Config Move := p.system fun _ _ ↦ True

end Program

/-! ### Partial valuations -/

/-- The store has every value that the valuation knows. -/
def Store.Extends (σ : Store) (v : Valuation) : Prop := ∀ ⦃x a⦄, v.find? x = some a → σ x = a

namespace Store

variable {σ : Store} {v : Valuation} {x : VarId} {a : Value}

theorem extends_empty : σ.Extends .empty := by
  intro x a h
  cases h

/-- A store that agrees with a valuation agrees with it once one of its own values is entered. -/
theorem Extends.insert (h : σ.Extends v) : σ.Extends (v.insert x (σ x)) := by
  intro y b hy
  rw [IndexMap.find?_insert] at hy
  split at hy
  · rename_i hyx
    rw [hyx]
    exact Option.some.inj hy
  · exact h hy

/-- A store that agrees with a valuation agrees with it once a variable is forgotten. -/
theorem Extends.erase (h : σ.Extends v) : σ.Extends (v.erase x) := by
  intro y b hy
  rw [IndexMap.find?_erase] at hy
  split at hy
  · cases hy
  · exact h hy

/-- A variable that the valuation does not know may be written. -/
theorem Extends.set (h : σ.Extends v) (hx : v.find? x = none) : (σ.set x a).Extends v := by
  intro y b hy
  rw [Store.set_of_ne fun hyx ↦ by cases (hyx ▸ hy).symm.trans hx]
  exact h hy

/-- Writing a variable keeps the agreement if the variable is forgotten. -/
theorem Extends.set_erase (h : σ.Extends v) : (σ.set x a).Extends (v.erase x) :=
  h.erase.set (by rw [IndexMap.find?_erase, if_pos rfl])

/-- Writing a variable keeps the agreement if the value is entered. -/
theorem Extends.set_insert (h : σ.Extends v) : (σ.set x a).Extends (v.insert x a) := by
  intro y b hy
  rw [IndexMap.find?_insert] at hy
  split at hy
  · rename_i hyx
    rw [hyx, Store.set_self]
    exact Option.some.inj hy
  · rename_i hyx
    rw [Store.set_of_ne hyx]
    exact h hy

end Store

namespace Expr

/-- An operation on two operands has a known result only if both are known. -/
theorem onBoth_eq_ok {f : Value → Value → Except TypeMismatch Value} {x y : Option Value}
    {c : Value} (h : onBoth f x y = .ok (some c)) :
    ∃ a b, x = some a ∧ y = some b ∧ f a b = .ok c := by
  rcases x with _ | a
  · cases h
  · rcases y with _ | b
    · cases h
    · obtain ⟨d, hd, heq⟩ := bind_eq_ok.1 h
      obtain rfl : d = c := Option.some.inj (Except.ok.inj heq)
      exact ⟨a, b, rfl, rfl, hd⟩

/-- A truth value is known only of a known Boolean. -/
theorem truthOf_eq_ok {x : Option Value} {t : Bool} (h : truthOf x = .ok (some t)) :
    ∃ a, x = some a ∧ a.asBool = .ok t := by
  rcases x with _ | a
  · cases h
  · obtain ⟨u, hu, heq⟩ := bind_eq_ok.1 h
    obtain rfl : u = t := Option.some.inj (Except.ok.inj heq)
    exact ⟨a, rfl, hu⟩

section Known

variable {e f : Expr} {v : Valuation} {σ : Store} {a b : Value}

/-- Whatever is known about the expression is so in the store. -/
def Known (v : Valuation) (σ : Store) (e : Expr) : Prop :=
  ∀ ⦃a b⦄, e.eval v = .ok (some a) → e.value σ = .ok b → a = b

/-- If what is known of two operands is right, so is what is known of an operation on them. -/
theorem Known.onBoth {g : Value → Value → Except TypeMismatch Value} (he : e.Known v σ)
    (hf : f.Known v σ)
    (ha : (e.eval v >>= fun x ↦ f.eval v >>= fun y ↦ Expr.onBoth g x y) = .ok (some a))
    (hb : (e.value σ >>= fun c ↦ f.value σ >>= fun d ↦ g c d) = .ok b) : a = b := by
  obtain ⟨x, hx, ha⟩ := bind_eq_ok.1 ha
  obtain ⟨y, hy, ha⟩ := bind_eq_ok.1 ha
  obtain ⟨c, d, rfl, rfl, hcd⟩ := onBoth_eq_ok ha
  obtain ⟨c', hc, hb⟩ := bind_eq_ok.1 hb
  obtain ⟨d', hd, hb⟩ := bind_eq_ok.1 hb
  obtain rfl := he hx hc
  obtain rfl := hf hy hd
  exact Except.ok.inj (hcd.symm.trans hb)

/-- A truth value that is known is that of the store. -/
theorem Known.truth {x : Option Value} {t u : Bool} (he : e.Known v σ) (hx : e.eval v = .ok x)
    (ht : truthOf x = .ok (some t)) (hb : e.value σ = .ok b) (hu : b.asBool = .ok u) : t = u := by
  obtain ⟨a, rfl, ha⟩ := truthOf_eq_ok ht
  obtain rfl := he hx hb
  exact Except.ok.inj (ha.symm.trans hu)

theorem Known.neg (he : e.Known v σ) : e.neg.Known v σ := by
  intro a b ha hb
  obtain ⟨x, hx, ha⟩ := bind_eq_ok.1 ha
  obtain ⟨y, hy, ha⟩ := bind_eq_ok.1 ha
  obtain ⟨c, hc, hb⟩ := bind_eq_ok.1 hb
  obtain ⟨u, hu, hb⟩ := bind_eq_ok.1 hb
  obtain rfl := Except.ok.inj hb
  obtain ⟨t, rfl, rfl⟩ := Option.map_eq_some_iff.1 (Except.ok.inj ha)
  rw [he.truth hx hy hc hu]

/-- A logical operation that agrees with its operands where they are known. -/
theorem Known.logical {op : Option Bool → Option Bool → Option Bool} {g : Bool → Bool → Bool}
    (hop : ∀ {x y t u w}, op x y = some t → (∀ {t}, x = some t → t = u) →
      (∀ {t}, y = some t → t = w) → t = g u w) (he : e.Known v σ) (hf : f.Known v σ)
    (ha : (e.eval v >>= fun x ↦ truthOf x >>= fun t ↦ f.eval v >>= fun y ↦ truthOf y >>= fun u ↦
      pure ((op t u).map .bool)) = .ok (some a))
    (hb : (e.value σ >>= fun c ↦ c.asBool >>= fun t ↦ f.value σ >>= fun d ↦ d.asBool >>= fun u ↦
      pure (.bool (g t u))) = .ok b) : a = b := by
  obtain ⟨x, hx, ha⟩ := bind_eq_ok.1 ha
  obtain ⟨y, hy, ha⟩ := bind_eq_ok.1 ha
  obtain ⟨x', hx', ha⟩ := bind_eq_ok.1 ha
  obtain ⟨y', hy', ha⟩ := bind_eq_ok.1 ha
  obtain ⟨c, hc, hb⟩ := bind_eq_ok.1 hb
  obtain ⟨u, hu, hb⟩ := bind_eq_ok.1 hb
  obtain ⟨d, hd, hb⟩ := bind_eq_ok.1 hb
  obtain ⟨w, hw, hb⟩ := bind_eq_ok.1 hb
  obtain rfl := Except.ok.inj hb
  obtain ⟨t, ht, rfl⟩ := Option.map_eq_some_iff.1 (Except.ok.inj ha)
  have hleft : ∀ {t}, y = some t → t = u := fun h ↦ he.truth hx (h ▸ hy) hc hu
  have hright : ∀ {t}, y' = some t → t = w := fun h ↦ hf.truth hx' (h ▸ hy') hd hw
  rw [hop ht hleft hright]

/-- If what is known of two truth values is right, so is what is known of their conjunction. -/
theorem conjTruth_eq {x y : Option Bool} {t u w : Bool} (h : conjTruth x y = some t)
    (hx : ∀ {t}, x = some t → t = u) (hy : ∀ {t}, y = some t → t = w) : t = (u && w) := by
  rcases x with _ | t₁ <;> rcases y with _ | t₂ <;> simp only [conjTruth] at h <;> grind

/-- If what is known of two truth values is right, so is what is known of their disjunction. -/
theorem disjTruth_eq {x y : Option Bool} {t u w : Bool} (h : disjTruth x y = some t)
    (hx : ∀ {t}, x = some t → t = u) (hy : ∀ {t}, y = some t → t = w) : t = (u || w) := by
  rcases x with _ | t₁ <;> rcases y with _ | t₂ <;> simp only [disjTruth] at h <;> grind

/-- **What is known is so.** A value found under a partial valuation is the value in every store
that has the known values, provided that the expression has a value there. -/
theorem known_of_extends (hσ : σ.Extends v) : e.Known v σ := by
  induction e with
  | const c =>
    intro a b ha hb
    obtain rfl := Except.ok.inj hb
    exact (Option.some.inj (Except.ok.inj ha)).symm
  | var x =>
    intro a b ha hb
    have hx : v.find? x = some a := Except.ok.inj ha
    exact (hσ hx).symm.trans (Except.ok.inj hb)
  | arith op e f ihe ihf => exact fun _ _ ha hb ↦ ihe.onBoth ihf ha hb
  | compare op e f ihe ihf => exact fun _ _ ha hb ↦ ihe.onBoth ihf ha hb
  | equal e f ihe ihf => exact fun _ _ ha hb ↦ ihe.onBoth ihf ha hb
  | differ e f ihe ihf => exact fun _ _ ha hb ↦ ihe.onBoth ihf ha hb
  | neg e ih => exact ih.neg
  | conj e f ihe ihf => exact fun _ _ ha hb ↦ ihe.logical conjTruth_eq ihf ha hb
  | disj e f ihe ihf => exact fun _ _ ha hb ↦ ihe.logical disjTruth_eq ihf ha hb

/-! ### Forced bindings -/

/-- An equation is a binding if one side is an unknown variable and the other has a known value. -/
theorem bindingOf_eq_some {x : VarId} (h : bindingOf v e f = some (x, a)) :
    e = .var x ∧ v.find? x = none ∧ f.eval v = .ok (some a) := by
  cases e with
  | var y =>
    rw [bindingOf] at h
    split at h
    · cases h
    · rename_i hy
      split at h
      · rename_i c hc
        obtain ⟨rfl, rfl⟩ := Prod.mk.inj (Option.some.inj h)
        exact ⟨rfl, Option.not_isSome_iff_eq_none.1 hy, hc⟩
      · cases h
  | _ => cases h

/-- A forced binding comes from an equality of an unknown variable with something known. -/
theorem forcedBinding_eq_some {x : VarId} (h : e.forcedBinding v = some (x, a)) :
    v.find? x = none ∧ ∃ other, other.eval v = .ok (some a) ∧
      (e = .equal (.var x) other ∨ e = .equal other (.var x)) := by
  cases e with
  | equal e f =>
    rcases Option.or_eq_some_iff.1 h with h | ⟨-, h⟩
    · obtain ⟨rfl, hx, hf⟩ := bindingOf_eq_some h
      exact ⟨hx, f, hf, .inl rfl⟩
    · obtain ⟨rfl, hx, hf⟩ := bindingOf_eq_some h
      exact ⟨hx, e, hf, .inr rfl⟩
  | _ => cases h

/-- An equality that forces a binding has no value yet. -/
theorem eval_of_forcedBinding {x : VarId} (h : e.forcedBinding v = some (x, a)) :
    e.eval v = .ok none := by
  obtain ⟨hx, other, ho, rfl | rfl⟩ := forcedBinding_eq_some h
  · rw [eval, eval, hx, ho]
    rfl
  · rw [eval, eval, hx, ho]
    rfl

/-- Values that compare as equal are equal. -/
theorem eq_of_equalValues (h : equalValues a b = .ok true) : a = b := by
  rw [equalValues] at h
  split at h
  · exact of_decide_eq_true (Except.ok.inj h)
  · cases h

/-- Where an equality holds, its sides have the same value. -/
theorem eq_of_value_equal (h : (equal e f).value σ = .ok (.bool true)) :
    ∃ a, e.value σ = .ok a ∧ f.value σ = .ok a := by
  obtain ⟨a, ha, h⟩ := bind_eq_ok.1 h
  obtain ⟨b, hb, h⟩ := bind_eq_ok.1 h
  obtain ⟨u, hu, h⟩ := bind_eq_ok.1 h
  obtain rfl := Value.bool.inj (Except.ok.inj h)
  obtain rfl := eq_of_equalValues hu
  exact ⟨a, ha, hb⟩

/-- **A forced binding is forced**: it holds wherever the condition does. -/
theorem eq_of_forcedBinding {x : VarId} (h : e.forcedBinding v = some (x, a)) (hσ : σ.Extends v)
    (he : e.value σ = .ok (.bool true)) : σ x = a := by
  obtain ⟨-, other, ho, rfl | rfl⟩ := forcedBinding_eq_some h
  · obtain ⟨b, hx, hb⟩ := eq_of_value_equal he
    exact (Except.ok.inj hx).trans (known_of_extends hσ ho hb).symm
  · obtain ⟨b, hb, hx⟩ := eq_of_value_equal he
    exact (Except.ok.inj hx).trans (known_of_extends hσ ho hb).symm

end Known

end Expr

end AbstractionRefinement
