import AbstractionRefinement.Proofs.Work
import AbstractionRefinement.Values.Analysis
import Mathlib.Algebra.BigOperators.Group.List.Lemmas
import Mathlib.Algebra.BigOperators.Ring.List
import Mathlib.Algebra.Ring.Nat

/-!
# Room for values

Two functions list values of a type before they look at them: the initial states are one for each
combination of values, and a simulation that reads an unknown variable forks over the values of its
type. Both have a bound, and both compare it with the number of values as far as it can be told in
64 bits. Neither asks whether there is room for the list.

A list for which there is no room is a fault. Two predicates say when this happens. `Program.Crowds`
is about the initial states: the estimated number of combinations is within the bound, and the
combinations themselves are more than memory can hold. `VarType.Spills` is about one type in the
same way. Either needs a bound that is itself beyond what memory can hold (`Program.Crowds.lt`,
`VarType.Spills.lt`): a variable that is counted wrongly has as many values as can be told, which is
more than any list has entries. So the faults are a matter of extreme bounds only, and wherever a
bound is reasonable the results below say that there are none.
-/

namespace AbstractionRefinement

/-! ### Making room -/

namespace Memory

variable {bytes entries : Nat}

theorem reserve_of_le (h : bytes * entries ≤ maxBytes) : reserve bytes entries = .ok () := if_pos h

/-- Room that no list can have is refused. -/
theorem reserve_of_lt (h : maxBytes < bytes * entries) :
    reserve bytes entries = .error .beyondMemory :=
  if_neg (Nat.not_le.2 h)

end Memory

/-! ### The values of a type -/

namespace VarType

variable {t : VarType}

/-- A type has no more values than can be told apart by 64 bits. -/
theorem count_le : t.count ≤ UInt64.size := by
  cases t with
  | bool => decide
  | int lo hi =>
    have hlo := lo.le_toInt
    have hhi := hi.toInt_lt
    rw [count, UInt64.size]
    omega

/-- **The number of values is told exactly**, unless they are all the integers. -/
theorem size_eq_count (h : t.count ≠ UInt64.size) : t.size = t.count := by
  have hle := t.count_le
  rw [size]
  omega

/-- The values of the type are within a bound, as far as they are counted, and there is no room for
a list of them. -/
def Spills (t : VarType) (bytes bound : Nat) : Prop :=
  t.size ≤ bound ∧ Memory.maxBytes < bytes * t.count

/-- **Only a bound for which there is no room lets such a type pass.** -/
theorem Spills.lt {bytes bound : Nat} (h : t.Spills bytes bound) :
    Memory.maxBytes < bytes * bound := by
  obtain ⟨hsize, hroom⟩ := h
  by_cases hcount : t.count = UInt64.size
  · -- the type is counted as large as can be, which is too large for a list
    have hbytes : 0 < bytes := Nat.pos_of_ne_zero fun hzero ↦ by simp [hzero] at hroom
    have hbound : Memory.maxBytes < bound := by
      rw [size, hcount] at hsize
      exact Nat.lt_of_lt_of_le (by decide) hsize
    exact Nat.lt_of_lt_of_le hbound (Nat.le_mul_of_pos_left bound hbytes)
  · rw [size_eq_count hcount] at hsize
    exact Nat.lt_of_lt_of_le hroom (Nat.mul_le_mul_left bytes hsize)

end VarType

/-! ### Combinations -/

namespace Program

variable {p : Program} {maxEnum : Nat} {prec : TrackedVars} {vars : List (VarId × VarType)}

theorem combinations_eq_prod : combinations vars = (vars.map fun xt ↦ xt.2.count).prod := by
  rw [combinations, List.prod_eq_foldl, List.foldl_map]

theorem estimate_eq_prod : estimate vars = (vars.map fun xt ↦ xt.2.size).prod := by
  rw [estimate, List.prod_eq_foldl, List.foldl_map]

/-- The estimate is never more than the number of combinations. -/
theorem estimate_le_combinations : estimate vars ≤ combinations vars := by
  rw [estimate_eq_prod, combinations_eq_prod]
  induction vars with
  | nil => exact Nat.le_refl 1
  | cons xt vars ih => exact Nat.mul_le_mul (Nat.min_le_left ..) ih

/-- **The estimate is exact** if no variable ranges over all the integers. -/
theorem estimate_eq_combinations (h : ∀ xt ∈ vars, xt.2.count ≠ UInt64.size) :
    estimate vars = combinations vars := by
  rw [estimate_eq_prod, combinations_eq_prod]
  exact congrArg List.prod (List.map_congr_left fun xt hxt ↦ VarType.size_eq_count (h xt hxt))

/-- If there is a combination at all, no fewer are estimated than each variable has values. -/
theorem size_le_estimate (hpos : 0 < combinations vars) {xt : VarId × VarType} (hxt : xt ∈ vars) :
    xt.2.size ≤ estimate vars := by
  have hword : 1 < UInt64.size := by decide
  have hne : estimate vars ≠ 0 := by
    rw [combinations_eq_prod] at hpos
    rw [estimate_eq_prod]
    intro hzero
    obtain ⟨yt, hyt, hsize⟩ := List.mem_map.1 (List.prod_eq_zero_iff.1 hzero)
    have hcount : yt.2.count = 0 := by
      rw [VarType.size] at hsize
      omega
    rw [List.prod_eq_zero (List.mem_map.2 ⟨yt, hyt, hcount⟩)] at hpos
    exact Nat.lt_irrefl 0 hpos
  refine Nat.le_of_dvd (Nat.pos_of_ne_zero hne) ?_
  rw [estimate_eq_prod]
  exact List.dvd_prod (List.mem_map.2 ⟨xt, hxt, rfl⟩)

/-- The combinations of values that are to be told apart are within the bound, as far as they are
estimated, and there is no room for a list of them. -/
def Crowds (p : Program) (maxEnum : Nat) (prec : TrackedVars) : Prop :=
  ∃ vars, p.enumerableVars maxEnum prec.vars.toList = .ok vars ∧ estimate vars ≤ maxEnum ∧
    Memory.maxBytes < Knowledge.bytes * combinations vars

/-- **Only a bound for which there is no room lets so many combinations pass.** -/
theorem Crowds.lt (h : p.Crowds maxEnum prec) : Memory.maxBytes < Knowledge.bytes * maxEnum := by
  obtain ⟨vars, -, hestimate, hroom⟩ := h
  by_cases hall : ∀ xt ∈ vars, xt.2.count ≠ UInt64.size
  · rw [← estimate_eq_combinations hall] at hroom
    exact Nat.lt_of_lt_of_le hroom (Nat.mul_le_mul_left _ hestimate)
  · push Not at hall
    obtain ⟨xt, hxt, hcount⟩ := hall
    have hpos : 0 < combinations vars := Nat.pos_of_ne_zero fun hzero ↦ by simp [hzero] at hroom
    refine VarType.Spills.lt (t := xt.2) ⟨(size_le_estimate hpos hxt).trans hestimate, ?_⟩
    rw [hcount]
    decide

theorem not_crowds (h : Knowledge.bytes * maxEnum ≤ Memory.maxBytes) : ¬p.Crowds maxEnum prec :=
  fun hcrowds ↦ absurd hcrowds.lt (Nat.not_lt.2 h)

/-- **What the initial states are**, given the variables with few enough values. -/
theorem initialKnowledge_eq (h : p.enumerableVars maxEnum prec.vars.toList = .ok vars) :
    p.initialKnowledge maxEnum prec =
      if maxEnum < estimate vars then .ok [.top]
      else if Knowledge.bytes * combinations vars ≤ Memory.maxBytes then
        .ok ((bindAll vars).map .known)
      else .error .beyondMemory := by
  rw [initialKnowledge, h]
  show (if _ then _ else _) = _
  cases vars with
  | nil =>
    -- nothing to tell apart: the only combination binds nothing
    refine (if_pos rfl).trans ?_
    split
    · rfl
    · exact (if_pos (by decide)).symm
  | cons xt vars =>
    simp only [List.isEmpty_cons, Bool.false_or, decide_eq_true_eq]
    split
    · rfl
    · split
      · rename_i hroom
        rw [Memory.reserve_of_le hroom]
        rfl
      · rename_i hroom
        rw [Memory.reserve_of_lt (Nat.lt_of_not_le hroom)]
        rfl

end Program

end AbstractionRefinement
