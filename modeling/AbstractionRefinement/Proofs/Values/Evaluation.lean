import AbstractionRefinement.Proofs.Values.Slicing
import Mathlib.Data.Fintype.Option

/-!
# Evaluation and information

What becomes of the value of an expression when more variables are known. An answer of the
evaluation is one of three: the value is unknown, it is known, or there is a type mismatch. With
more information an answer can only move in this order (`Expr.Sharpens`): an unknown value may
become anything, a known one stays as it is unless a mismatch comes up elsewhere in the expression,
and a mismatch stays a mismatch, although perhaps not the same one. Every operation on answers
respects the order, and binding respects it (`Expr.Sharpens.bind`), so evaluation does
(`Expr.sharpens_eval`).

Nothing is claimed about which mismatch is reported. Operands are looked at from left to right, and
a mismatch in an operand that was unknown hides one to its right.

The module is about the same expression under two valuations of which one extends the other. It is
what allows the simulation to bind variables late: a condition that was found true stays true when
more becomes known. For a mismatch this is not so simple, as the last sentence says, and the order
was chosen to be the strongest one that evaluation respects.
-/

namespace AbstractionRefinement

/-- The first valuation knows everything that the second knows. -/
def Valuation.Extends (w v : Valuation) : Prop := ∀ ⦃x a⦄, v.find? x = some a → w.find? x = some a

namespace Expr

/-! ### The order on answers -/

/-- The second answer is possible where the first was found with less information. -/
inductive Sharpens {α : Type} :
    Except TypeMismatch (Option α) → Except TypeMismatch (Option α) → Prop
  /-- What was unknown may become anything. -/
  | unknown {r : Except TypeMismatch (Option α)} : Sharpens (.ok none) r
  /-- What was known stays. -/
  | known {a : α} : Sharpens (.ok (some a)) (.ok (some a))
  /-- A mismatch may come up in any case. -/
  | mismatch {r : Except TypeMismatch (Option α)} {m : TypeMismatch} : Sharpens r (.error m)

namespace Sharpens

variable {α β : Type} {r r' : Except TypeMismatch (Option α)}

theorem refl : Sharpens r r := by
  rcases r with m | _ | a
  · exact .mismatch
  · exact .unknown
  · exact .known

/-- A value stays, unless a mismatch comes up. -/
theorem eq_or_mismatch {a : α} (h : Sharpens (.ok (some a)) r) :
    r = .ok (some a) ∨ ∃ m, r = .error m := by
  cases h with
  | known => exact .inl rfl
  | @mismatch _ m => exact .inr ⟨m, rfl⟩

/-- A mismatch stays a mismatch. -/
theorem of_mismatch {m : TypeMismatch} (h : Sharpens (.error m) r) : ∃ m', r = .error m' := by
  cases h with
  | @mismatch _ m' => exact ⟨m', rfl⟩

/-- **Binding respects the order**, if what is done with the answers does. -/
theorem bind {f f' : Option α → Except TypeMismatch (Option β)} (h : Sharpens r r')
    (hf : ∀ {x x'}, Sharpens (.ok x) (.ok x') → Sharpens (f x) (f' x')) :
    Sharpens (r >>= f) (r' >>= f') := by
  cases r' with
  | error m => exact .mismatch
  | ok x' =>
    cases r with
    | error m =>
      obtain ⟨m', hm⟩ := h.of_mismatch
      cases hm
    | ok x => exact hf h

end Sharpens

/-- An operation on two operands has no answer before both are known. -/
theorem sharpens_onBoth {f : Value → Value → Except TypeMismatch Value} {x x' y y' : Option Value}
    (hx : Sharpens (.ok x) (.ok x')) (hy : Sharpens (.ok y) (.ok y')) :
    Sharpens (onBoth f x y) (onBoth f x' y') := by
  cases hx with
  | unknown => exact .unknown
  | known =>
    cases hy with
    | unknown => exact .unknown
    | known => exact .refl

theorem sharpens_truthOf {x x' : Option Value} (hx : Sharpens (.ok x) (.ok x')) :
    Sharpens (truthOf x) (truthOf x') := by
  cases hx with
  | unknown => exact .unknown
  | known => exact .refl

/-- A logical operation that is decided by one operand stays so, whatever the other one becomes. -/
theorem sharpens_logical {op : Option Bool → Option Bool → Option Bool} {x x' y y' : Option Bool}
    (hop : ∀ x y t, op x y = some t →
      (x = none → ∀ x', op x' y = some t) ∧ (y = none → ∀ y', op x y' = some t))
    (hx : Sharpens (.ok x) (.ok x')) (hy : Sharpens (.ok y) (.ok y')) :
    Sharpens (.ok ((op x y).map Value.bool)) (.ok ((op x' y').map .bool)) := by
  cases h : op x y with
  | none => exact .unknown
  | some t =>
    have hleft : op x' y = some t := by
      cases hx with
      | unknown => exact (hop _ y t h).1 rfl x'
      | known => exact h
    have hright : op x' y' = some t := by
      cases hy with
      | unknown => exact (hop x' _ t hleft).2 rfl y'
      | known => exact hleft
    rw [hright]
    exact .known

/-! ### Evaluation -/

variable {e f : Expr} {u v w : Valuation}

/-- **Evaluation respects the order**: with more information the answer is sharper. -/
theorem sharpens_eval (hw : w.Extends v) : Sharpens (e.eval v) (e.eval w) := by
  induction e with
  | const a => exact .known
  | var x =>
    show Sharpens (.ok (v.find? x)) (.ok (w.find? x))
    cases hx : v.find? x with
    | none => exact .unknown
    | some a =>
      rw [hw hx]
      exact .known
  | arith op e f ihe ihf | compare op e f ihe ihf | equal e f ihe ihf | differ e f ihe ihf =>
    exact ihe.bind fun hx ↦ ihf.bind fun hy ↦ sharpens_onBoth hx hy
  | neg e ih =>
    refine ih.bind fun hx ↦ (sharpens_truthOf hx).bind fun {t t'} ht ↦ ?_
    cases ht with
    | unknown => exact .unknown
    | known => exact .known
  | conj e f ihe ihf =>
    exact ihe.bind fun hx ↦ (sharpens_truthOf hx).bind fun ht ↦
      ihf.bind fun hy ↦ (sharpens_truthOf hy).bind fun hu ↦
        sharpens_logical (by decide) ht hu
  | disj e f ihe ihf =>
    exact ihe.bind fun hx ↦ (sharpens_truthOf hx).bind fun ht ↦
      ihf.bind fun hy ↦ (sharpens_truthOf hy).bind fun hu ↦
        sharpens_logical (by decide) ht hu

/-- **Only the variables of an expression count.** -/
theorem eval_congr (h : ∀ x ∈ e.vars, u.find? x = v.find? x) : e.eval u = e.eval v := by
  induction e with
  | const a => rfl
  | var x =>
    show Except.ok (u.find? x) = .ok (v.find? x)
    rw [h x (IndexSet.mem_ofList.2 List.mem_cons_self)]
  | arith op e f ihe ihf | compare op e f ihe ihf | equal e f ihe ihf | differ e f ihe ihf
  | conj e f ihe ihf | disj e f ihe ihf =>
    obtain ⟨he, hf⟩ := IndexSet.forall_mem_union.1 h
    rw [eval, eval, ihe he, ihf hf]
  | neg e ih => rw [eval, eval, ih h]

/-- **An expression whose variables are known is not unknown.** -/
theorem eval_ne_unknown (h : ∀ x ∈ e.vars, v.contains x = true) : e.eval v ≠ .ok none := by
  -- in any store with the known values, the expression has these operands
  have hknows : (Store.override default v).Knows v e.vars := by
    intro x hx
    obtain ⟨a, ha⟩ := Option.isSome_iff_exists.1 (h x hx)
    rw [ha, Store.extends_override ha]
  rw [eval_eq_of_knows hknows]
  cases e.value (Store.override default v) with
  | error m => exact fun h ↦ by cases h
  | ok a => exact fun h ↦ by cases h

/-! ### Forced bindings -/

/-- The comparison of two values, where it has an answer. -/
theorem equalValues_eq_ok {a b : Value} {t : Bool} (h : equalValues a b = .ok t) :
    t = decide (a = b) := by
  rw [equalValues] at h
  split at h
  · exact (Except.ok.inj h).symm
  · cases h

/-- Where an equality has an answer, so have its sides, and if both are known it says whether they
are equal. -/
theorem eval_equal_eq_ok {r : Option Value} (h : (equal e f).eval w = .ok r) :
    ∃ x y, e.eval w = .ok x ∧ f.eval w = .ok y ∧
      ∀ a b, x = some a → y = some b → r = some (.bool (decide (a = b))) := by
  obtain ⟨x, hx, h⟩ := bind_eq_ok.1 h
  obtain ⟨y, hy, h⟩ := bind_eq_ok.1 h
  refine ⟨x, y, hx, hy, ?_⟩
  rintro a b rfl rfl
  obtain ⟨c, hc, h⟩ := bind_eq_ok.1 h
  obtain ⟨t, ht, hc⟩ := bind_eq_ok.1 hc
  obtain rfl := Except.ok.inj hc
  rw [← equalValues_eq_ok ht]
  exact (Except.ok.inj h).symm

/-- A value that was known is found again, where there is an answer. -/
theorem eval_eq_of_extends {a : Value} {r : Option Value} (ha : e.eval v = .ok (some a))
    (hw : w.Extends v) (hr : e.eval w = .ok r) : r = some a := by
  have hsharp : Sharpens (e.eval v) (e.eval w) := sharpens_eval hw
  rw [ha, hr] at hsharp
  rcases hsharp.eq_or_mismatch with heq | ⟨m, hm⟩
  · exact Except.ok.inj heq
  · cases hm

/-- **A forced binding decides the equality.** Once the variable is bound, the equality says whether
it is bound to the value forced. The other side may contain the variable too: what was known of it
before stays. -/
theorem eval_of_forcedBinding_of_extends {y : VarId} {a b : Value} {r : Option Value}
    (h : e.forcedBinding v = some (y, a)) (hw : w.Extends v) (hy : w.find? y = some b)
    (hr : e.eval w = .ok r) : r = some (.bool (decide (b = a))) := by
  obtain ⟨-, other, ho, rfl | rfl⟩ := forcedBinding_eq_some h
  · obtain ⟨_, _, hside, hother, heq⟩ := eval_equal_eq_ok hr
    exact heq b a (Except.ok.inj hside ▸ hy) (eval_eq_of_extends ho hw hother)
  · obtain ⟨_, _, hother, hside, heq⟩ := eval_equal_eq_ok hr
    rw [heq a b (eval_eq_of_extends ho hw hother) (Except.ok.inj hside ▸ hy)]
    simp only [eq_comm]

/-- **Evaluation is monotone in information.** Let the second valuation know at least as much as the
first. A value found in the first is found in the second, or a mismatch comes up; a mismatch stays a
mismatch. The value of an expression is unknown only if one of its variables is, and depends on
nothing else. A binding that an equality forces in the first valuation is of a variable unknown
there, and if it is known in the second, the equality is true or false there according to whether it
has the forced value. -/
theorem eval_monotone (e : Expr) {v w : Valuation} (hw : w.Extends v) :
    (∀ a, e.eval v = .ok (some a) → e.eval w = .ok (some a) ∨ ∃ m, e.eval w = .error m) ∧
      (∀ m, e.eval v = .error m → ∃ m', e.eval w = .error m') ∧
      ((∀ x ∈ e.vars, v.contains x = true) → e.eval v ≠ .ok none) ∧
      (∀ u : Valuation, (∀ x ∈ e.vars, u.find? x = v.find? x) → e.eval u = e.eval v) ∧
      ∀ y a, e.forcedBinding v = some (y, a) → v.find? y = none ∧
        ∀ b r, w.find? y = some b → e.eval w = .ok r →
          (e.eval w = .ok (some (.bool true)) ↔ b = a) ∧
            (b ≠ a → e.eval w = .ok (some (.bool false))) := by
  have hsharp : Sharpens (e.eval v) (e.eval w) := sharpens_eval hw
  refine ⟨fun a ha ↦ (ha ▸ hsharp).eq_or_mismatch, fun m hm ↦ (hm ▸ hsharp).of_mismatch,
    eval_ne_unknown, fun u ↦ eval_congr, fun y a hforced ↦
      ⟨(forcedBinding_eq_some hforced).1, fun b r hy hr ↦ ?_⟩⟩
  obtain rfl := eval_of_forcedBinding_of_extends hforced hw hy hr
  rw [hr]
  refine ⟨⟨fun h ↦ ?_, fun h ↦ by rw [decide_eq_true h]⟩, fun h ↦ by rw [decide_eq_false h]⟩
  exact of_decide_eq_true (Value.bool.inj (Option.some.inj (Except.ok.inj h)))

/-- A variable is compared with a conjunction in which it occurs itself. -/
def selfCheck : Expr := .equal (.var 0) (.conj (.const (.bool false)) (.var 0))

/-- The whole statement at this expression: the other side is false whatever the variable is, so
this value is forced, and the equality fails when the variable turns out to be true. -/
theorem eval_selfCheck : Valuation.Extends (.ofList [(0, .bool true)]) .empty ∧
    selfCheck.forcedBinding .empty = some (0, .bool false) ∧
    selfCheck.eval (.ofList [(0, .bool true)]) = .ok (some (.bool false)) := by
  have hext : Valuation.Extends (.ofList [(0, .bool true)]) .empty := fun x a h ↦ by cases h
  have hforced : selfCheck.forcedBinding .empty = some (0, .bool false) := by decide
  obtain ⟨-, -, -, -, hdecides⟩ := eval_monotone selfCheck hext
  exact ⟨hext, hforced, ((hdecides 0 _ hforced).2 (.bool true) _ rfl rfl).2 (by decide)⟩

end Expr

end AbstractionRefinement
