import AbstractionRefinement.Proofs.Values.Kinds
import Mathlib.Algebra.BigOperators.Ring.List
import Mathlib.Data.Set.Card

/-!
# Initial knowledge

The initial states of the analysis of values divide the stores of the declared types among
themselves: each store is described by exactly one of them (`Program.initial_partition`). They are
the combinations of values of the tracked variables that have few enough values each
(`Program.Combination`), unless there are too many combinations; then nothing is known.

The states are listed at once, and it is a fault if there is no room for the list. This happens to
some bounds that are themselves too large for a list (`Program.Crowds`). The number of values of a
type is told in 64 bits, and the integers have one value too many for that
(`VarType.size_eq_count`). So there is one case in which more states are to be listed than the bound
allows: the bound is the largest one, and the only variable that has several values ranges over all
integers (`Program.Saturates`). There is no room for so many, and the answer is a fault where it
should be that nothing is known.

So there are three outcomes, and the conditions under which each of them arises are exact: the list
of the combinations, one state that knows nothing, and the fault. The first two divide the stores,
and are within the bound.
-/

namespace AbstractionRefinement

/-! ### Counting the values of a type -/

namespace VarType

variable {t : VarType}

theorem length_values : t.values.length = t.count := by
  rw [values, firstValues, Nat.min_self, List.length_map, List.length_range]

/-- **No value is listed twice.** -/
theorem nodup_values : t.values.Nodup := by
  rw [values, firstValues, Nat.min_self]
  refine .map_on (fun i hi j hj heq ↦ ?_) List.nodup_range
  rw [List.mem_range] at hi hj
  cases t with
  | bool =>
    have hzero : (i != 0) = (j != 0) := Value.bool.inj heq
    rw [count] at hi hj
    rw [Bool.eq_iff_iff, bne_iff_ne, bne_iff_ne] at hzero
    omega
  | int lo hi' =>
    have hlo := lo.le_toInt
    have hhi := hi'.toInt_lt
    rw [count] at hi hj
    have htoInt : ∀ n : Nat, n < (hi'.toInt - lo.toInt + 1).toNat →
        (Int64.ofInt (lo.toInt + n)).toInt = lo.toInt + n :=
      fun n hn ↦ Int64.toInt_ofInt_of_le (by omega) (by omega)
    have hsum := congrArg Int64.toInt (Value.int.inj heq)
    rw [htoInt i hi, htoInt j hj] at hsum
    omega

end VarType

/-! ### Combinations -/

namespace IndexMap

variable {α : Type} {m : IndexMap α} {k : Nat} {a : α}

theorem erase_insert (h : m.find? k = none) : (m.insert k a).erase k = m := by
  refine ext fun j ↦ ?_
  rw [find?_erase]
  split
  · rename_i hjk
    rw [hjk, h]
  · rename_i hjk
    rw [find?_insert, if_neg hjk]

theorem insert_erase (h : m.find? k = some a) : (m.erase k).insert k a = m := by
  refine ext fun j ↦ ?_
  rw [find?_insert]
  split
  · rename_i hjk
    rw [hjk, h]
  · rename_i hjk
    rw [find?_erase, if_neg hjk]

end IndexMap

namespace Program

variable {p : Program} {maxEnum : Nat} {prec : TrackedVars} {vars : List (VarId × VarType)}
  {v w : Valuation} {x : VarId} {type : VarType} {σ : Store}

/-- The variable is tracked, and its values are few enough to be told apart. -/
structure Enumerates (p : Program) (maxEnum : Nat) (prec : TrackedVars) (x : VarId)
    (type : VarType) : Prop where
  /-- It is tracked. -/
  tracked : prec.tracks x = true
  /-- It is declared with the type. -/
  declared : p.varType x = .ok type
  /-- The type has few enough values. -/
  few : type.size ≤ maxEnum

/-- The valuation binds exactly the tracked variables with few enough values, each to a value of its
type. -/
structure Combination (p : Program) (maxEnum : Nat) (prec : TrackedVars) (v : Valuation) :
    Prop where
  /-- Each of the variables has a value of its type. -/
  bound : ∀ ⦃x type⦄, p.Enumerates maxEnum prec x type →
    ∃ a, v.find? x = some a ∧ type.contains a = true
  /-- No other variable has a value. -/
  only : ∀ ⦃x a⦄, v.find? x = some a → ∃ type, p.Enumerates maxEnum prec x type

/-- **A store decides the combination.** -/
theorem Combination.eq_of_extends (hv : p.Combination maxEnum prec v)
    (hw : p.Combination maxEnum prec w) (hσv : σ.Extends v) (hσw : σ.Extends w) : v = w := by
  -- what one binds, the other binds too, and the store says to what
  have hbinds : ∀ {u u' : Valuation} {x a}, p.Combination maxEnum prec u →
      p.Combination maxEnum prec u' → σ.Extends u → σ.Extends u' →
      u.find? x = some a → u'.find? x = some a := by
    intro u u' x a hu hu' hσ hσ' hx
    obtain ⟨type, hx'⟩ := hu.only hx
    obtain ⟨b, hb, -⟩ := hu'.bound hx'
    rw [hb, ← hσ hx, ← hσ' hb]
  exact IndexMap.ext fun x ↦ Option.ext fun a ↦
    ⟨hbinds hv hw hσv hσw, hbinds hw hv hσw hσv⟩

/-- The list has each tracked variable with few enough values once. -/
structure Listing (p : Program) (maxEnum : Nat) (prec : TrackedVars)
    (vars : List (VarId × VarType)) : Prop where
  /-- No variable is listed twice. -/
  distinct : (vars.map Prod.fst).Nodup
  /-- The variables listed are those with few enough values. -/
  mem_iff : ∀ {x type}, (x, type) ∈ vars ↔ p.Enumerates maxEnum prec x type

/-- The variables that are enumerated are some of those given, in order. -/
theorem sublist_of_enumerableVars {xs : List VarId}
    (h : p.enumerableVars maxEnum xs = .ok vars) : (vars.map Prod.fst).Sublist xs := by
  induction xs generalizing vars with
  | nil =>
    obtain rfl := Except.ok.inj h
    exact .slnil
  | cons x xs ih =>
    obtain ⟨type, -, h⟩ := bind_eq_ok.1 h
    obtain ⟨others, hothers, h⟩ := bind_eq_ok.1 h
    obtain rfl := Except.ok.inj h
    split
    · exact (ih hothers).cons_cons x
    · exact (ih hothers).cons x

/-- The variables that are enumerated, with their types, are a listing of those with few values. -/
theorem listing_of_enumerableVars (h : p.enumerableVars maxEnum prec.vars.toList = .ok vars) :
    p.Listing maxEnum prec vars where
  distinct := (sublist_of_enumerableVars h).nodup (prec.vars.ascending.imp Nat.ne_of_lt)
  mem_iff := (mem_enumerableVars h).trans
    ⟨fun ⟨hx, htype, hsize⟩ ↦ ⟨decide_eq_true hx, htype, hsize⟩,
      fun ⟨hx, htype, hsize⟩ ↦ ⟨of_decide_eq_true hx, htype, hsize⟩⟩

theorem bindAll_concat {xt : VarId × VarType} :
    bindAll (vars ++ [xt]) = bindOne (bindAll vars) xt := List.foldl_concat ..

theorem nodup_fst_concat {xt : VarId × VarType} (h : ((vars ++ [xt]).map Prod.fst).Nodup) :
    (vars.map Prod.fst).Nodup ∧ xt.1 ∉ vars.map Prod.fst := by
  rw [List.map_append, List.map_singleton, List.nodup_append] at h
  exact ⟨h.1, fun hmem ↦ h.2.2 _ hmem _ (List.mem_singleton.2 rfl) rfl⟩

/-- One more variable is bound to a value of its type. -/
theorem mem_bindOne {vs : List Valuation} {xt : VarId × VarType}
    (h : ∀ w ∈ vs, w.find? xt.1 = none) : v ∈ bindOne vs xt ↔
      v.erase xt.1 ∈ vs ∧ ∃ a, v.find? xt.1 = some a ∧ xt.2.contains a = true := by
  rw [bindOne, List.mem_flatMap]
  constructor
  · rintro ⟨w, hw, hv⟩
    obtain ⟨a, ha, rfl⟩ := List.mem_map.1 hv
    rw [IndexMap.erase_insert (h w hw), IndexMap.find?_insert, if_pos rfl]
    exact ⟨hw, a, rfl, VarType.mem_values.1 ha⟩
  · rintro ⟨hv, a, ha, hcontains⟩
    exact ⟨_, hv, List.mem_map.2 ⟨a, VarType.mem_values.2 hcontains, IndexMap.insert_erase ha⟩⟩

/-- **The combinations are listed**: the valuations that bind exactly the given variables, to values
of their types. -/
theorem mem_bindAll (h : (vars.map Prod.fst).Nodup) : v ∈ bindAll vars ↔
    (∀ xt ∈ vars, ∃ a, v.find? xt.1 = some a ∧ xt.2.contains a = true) ∧
      ∀ x a, v.find? x = some a → x ∈ vars.map Prod.fst := by
  induction vars using List.reverseRecOn generalizing v with
  | nil =>
    refine List.mem_singleton.trans ⟨?_, fun ⟨_, honly⟩ ↦ IndexMap.ext fun x ↦ ?_⟩
    · rintro rfl
      exact ⟨List.forall_mem_nil _, fun x a hx ↦ by cases hx⟩
    · exact Option.eq_none_iff_forall_ne_some.2 fun a ha ↦ List.not_mem_nil (honly x a ha)
  | append_singleton vars xt ih =>
    obtain ⟨hnodup, hfresh⟩ := nodup_fst_concat h
    have hunbound : ∀ w ∈ bindAll vars, w.find? xt.1 = none := fun w hw ↦
      Option.eq_none_iff_forall_ne_some.2 fun a ha ↦ hfresh (((ih hnodup).1 hw).2 _ a ha)
    -- without its last variable, a combination is one of the others
    have hfind : ∀ {y}, y ≠ xt.1 → (v.erase xt.1).find? y = v.find? y := fun hy ↦ by
      rw [IndexMap.find?_erase, if_neg hy]
    have hbound : (∀ yt ∈ vars, ∃ a, (v.erase xt.1).find? yt.1 = some a ∧
        yt.2.contains a = true) ↔ ∀ yt ∈ vars, ∃ a, v.find? yt.1 = some a ∧
          yt.2.contains a = true := by
      refine forall₂_congr fun yt hyt ↦ ?_
      rw [hfind fun heq ↦ hfresh (List.mem_map.2 ⟨yt, hyt, heq⟩)]
    have honly : (∀ y a, (v.erase xt.1).find? y = some a → y ∈ vars.map Prod.fst) ↔
        ∀ y a, v.find? y = some a → y ∈ (vars ++ [xt]).map Prod.fst := by
      refine forall₂_congr fun y a ↦ ?_
      rw [List.map_append, List.map_singleton, List.mem_append, List.mem_singleton]
      by_cases hy : y = xt.1
      · rw [hy, IndexMap.find?_erase, if_pos rfl]
        exact iff_of_true nofun fun _ ↦ .inr rfl
      · rw [hfind hy, or_iff_left hy]
    rw [bindAll_concat, mem_bindOne hunbound, ih hnodup, hbound, honly, List.forall_mem_append,
      List.forall_mem_singleton]
    exact and_right_comm

/-- **No combination is listed twice.** -/
theorem nodup_bindAll (h : (vars.map Prod.fst).Nodup) : (bindAll vars).Nodup := by
  induction vars using List.reverseRecOn with
  | nil => exact List.nodup_singleton _
  | append_singleton vars xt ih =>
    obtain ⟨hnodup, hfresh⟩ := nodup_fst_concat h
    have hunbound : ∀ w ∈ bindAll vars, w.find? xt.1 = none := fun w hw ↦
      Option.eq_none_iff_forall_ne_some.2 fun a ha ↦ hfresh (((mem_bindAll hnodup).1 hw).2 _ a ha)
    rw [bindAll_concat, bindOne, List.nodup_flatMap]
    constructor
    · intro w _
      refine VarType.nodup_values.map_on fun a _ b _ heq ↦ ?_
      have hfind := congrArg (IndexMap.find? · xt.1) heq
      simpa only [IndexMap.find?_insert, if_pos, Option.some.injEq] using hfind
    · refine (ih hnodup).pairwise_of_forall_ne fun w hw w' hw' hne u hu hu' ↦ hne ?_
      obtain ⟨a, -, rfl⟩ := List.mem_map.1 hu
      obtain ⟨b, -, heq⟩ := List.mem_map.1 hu'
      rw [← IndexMap.erase_insert (hunbound w hw), ← heq, IndexMap.erase_insert (hunbound w' hw')]

/-- There are as many combinations as the sizes of the types say. -/
theorem length_bindAll : (bindAll vars).length = combinations vars := by
  rw [combinations_eq_prod]
  induction vars using List.reverseRecOn with
  | nil => rfl
  | append_singleton vars xt ih =>
    rw [bindAll_concat, bindOne, List.length_flatMap, List.map_append, List.prod_append, ← ih]
    simp [VarType.length_values]

namespace Listing

variable (h : p.Listing maxEnum prec vars)
include h

/-- **The combinations that are listed are all there are**: one value of its type for each variable
with few. -/
theorem mem_bindAll_iff : v ∈ bindAll vars ↔ p.Combination maxEnum prec v := by
  rw [mem_bindAll h.distinct]
  constructor
  · rintro ⟨hbound, honly⟩
    refine ⟨fun x type hx ↦ hbound _ (h.mem_iff.2 hx), fun x a hx ↦ ?_⟩
    obtain ⟨⟨_, type⟩, hmem, rfl⟩ := List.mem_map.1 (honly x a hx)
    exact ⟨type, h.mem_iff.1 hmem⟩
  · intro hv
    refine ⟨fun xt hxt ↦ hv.bound (h.mem_iff.1 hxt), fun x a hx ↦ ?_⟩
    obtain ⟨type, hx'⟩ := hv.only hx
    exact List.mem_map.2 ⟨(x, type), h.mem_iff.2 hx', rfl⟩

/-- **The combinations are counted exactly.** -/
theorem combinations_eq_ncard : combinations vars = {v | p.Combination maxEnum prec v}.ncard := by
  have hset : {v | p.Combination maxEnum prec v} = (bindAll vars).toFinset := by
    ext v
    rw [Set.mem_ofPred_eq, ← h.mem_bindAll_iff, Finset.mem_coe, List.mem_toFinset]
  rw [hset, Set.ncard_coe_finset, List.toFinset_card_of_nodup (nodup_bindAll h.distinct),
    length_bindAll]

/-- Every store of the declared types agrees with one of the combinations. -/
theorem exists_mem_bindAll (hσ : p.InType σ) : ∃ v ∈ bindAll vars, σ.Extends v :=
  exists_mem_foldl_bindOne (fun _ hxt ↦ hσ (h.mem_iff.1 hxt).declared)
    ⟨.empty, List.mem_singleton.2 rfl, Store.extends_empty⟩

end Listing

/-! ### The number of combinations -/

/-- A variable that ranges over all the integers is told apart, beside constants only. -/
def Saturates (p : Program) (maxEnum : Nat) (prec : TrackedVars) : Prop :=
  ∃ x type, p.Enumerates maxEnum prec x type ∧ type.count = UInt64.size ∧
    ∀ y type', p.Enumerates maxEnum prec y type' → y ≠ x → type'.count = 1

/-- The number of combinations is only miscounted if as many are allowed as can be counted. -/
theorem Saturates.le (h : p.Saturates maxEnum prec) : UInt64.size - 1 ≤ maxEnum := by
  obtain ⟨x, type, hx, hcount, -⟩ := h
  have hfew := hx.few
  rw [VarType.size, hcount] at hfew
  omega

namespace Listing

variable (h : p.Listing maxEnum prec vars)
include h

/-- In the exceptional case there is one combination more than is estimated. -/
theorem estimate_of_saturates (hsat : p.Saturates maxEnum prec) :
    estimate vars = UInt64.size - 1 ∧ combinations vars = UInt64.size := by
  obtain ⟨x, type, hx, hcount, hothers⟩ := hsat
  have hperm := List.perm_cons_erase (h.mem_iff.2 hx)
  have hfresh := (List.nodup_cons.1 ((hperm.map Prod.fst).nodup_iff.1 h.distinct)).1
  have hone : ∀ yt ∈ vars.erase (x, type), yt.2.count = 1 := fun yt hyt ↦
    hothers yt.1 yt.2 (h.mem_iff.1 (List.mem_of_mem_erase hyt)) fun heq ↦
      hfresh (List.mem_map.2 ⟨yt, hyt, heq⟩)
  have hcounts : combinations (vars.erase (x, type)) = 1 := by
    rw [combinations_eq_prod]
    exact List.prod_eq_one (List.forall_mem_map.2 hone)
  have hsizes : estimate (vars.erase (x, type)) = 1 := by
    rw [estimate_eq_combinations fun yt hyt ↦ by rw [hone yt hyt]; decide, hcounts]
  rw [combinations_eq_prod] at hcounts
  rw [estimate_eq_prod] at hsizes
  rw [estimate_eq_prod, combinations_eq_prod, (hperm.map _).prod_eq, (hperm.map _).prod_eq,
    List.map_cons, List.map_cons, List.prod_cons, List.prod_cons, hcounts, hsizes, VarType.size,
    hcount]
  decide

/-- **In every other case the estimate holds the combinations within a bound of 64 bits.** -/
theorem combinations_le (hsat : ¬p.Saturates maxEnum prec) (hmax : maxEnum < UInt64.size)
    (hsize : estimate vars ≤ maxEnum) : combinations vars ≤ maxEnum := by
  have hword : 2 < UInt64.size := by decide
  by_cases hall : ∀ xt ∈ vars, xt.2.count ≠ UInt64.size
  · rw [← estimate_eq_combinations hall]
    exact hsize
  -- one variable takes up the whole bound, so another one has no value, or all have one
  push Not at hall
  obtain ⟨xt, hxt, hcount⟩ := hall
  have hperm := List.perm_cons_erase hxt
  have hwhole : xt.2.size = UInt64.size - 1 := by
    rw [VarType.size, hcount]
    decide
  rw [estimate_eq_prod, (hperm.map _).prod_eq, List.map_cons, List.prod_cons, hwhole] at hsize
  have hle : ((vars.erase xt).map fun xt ↦ xt.2.size).prod ≤ 1 := by
    by_contra hlt
    have := Nat.mul_le_mul_left (UInt64.size - 1) (Nat.succ_le_of_lt (Nat.lt_of_not_le hlt))
    omega
  rcases Nat.le_one_iff_eq_zero_or_eq_one.1 hle with hzero | hone
  · obtain ⟨yt, hyt, hempty⟩ := List.mem_map.1 (List.prod_eq_zero_iff.1 hzero)
    have hnone : yt.2.count = 0 := by
      rw [VarType.size] at hempty
      omega
    rw [combinations_eq_prod,
      List.prod_eq_zero (List.mem_map.2 ⟨yt, List.mem_of_mem_erase hyt, hnone⟩)]
    exact Nat.zero_le _
  · refine absurd ⟨xt.1, xt.2, h.mem_iff.1 hxt, hcount, fun y type' hy hne ↦ ?_⟩ hsat
    have hmem : (y, type') ∈ vars.erase xt := by
      refine (List.mem_cons.1 (hperm.subset (h.mem_iff.2 hy))).resolve_left ?_
      rintro rfl
      exact hne rfl
    have hdvd : type'.size ∣ 1 := hone ▸ List.dvd_prod (List.mem_map.2 ⟨_, hmem, rfl⟩)
    have hsize' := Nat.dvd_one.1 hdvd
    rw [VarType.size] at hsize'
    omega

/-- **When there is no room for the states to be listed.** -/
theorem crowds_iff (hvars : p.enumerableVars maxEnum prec.vars.toList = .ok vars)
    (hmax : maxEnum < UInt64.size) : p.Crowds maxEnum prec ↔
      Memory.maxBytes < Knowledge.bytes * {v | p.Combination maxEnum prec v}.ncard ∧
        ({v | p.Combination maxEnum prec v}.ncard ≤ maxEnum ∨ p.Saturates maxEnum prec) := by
  rw [← h.combinations_eq_ncard]
  constructor
  · rintro ⟨vars', hvars', hestimate, hroom⟩
    obtain rfl := Except.ok.inj (hvars.symm.trans hvars')
    by_cases hsat : p.Saturates maxEnum prec
    · exact ⟨hroom, .inr hsat⟩
    · exact ⟨hroom, .inl (h.combinations_le hsat hmax hestimate)⟩
  · rintro ⟨hroom, hle | hsat⟩
    · exact ⟨vars, hvars, estimate_le_combinations.trans hle, hroom⟩
    · exact ⟨vars, hvars, (h.estimate_of_saturates hsat).1 ▸ hsat.le, hroom⟩

end Listing

/-! ### Initial states -/

/-- In the exceptional case there is no room: every integer would have to be listed. -/
theorem crowds_of_saturates (h : p.enumerableVars maxEnum prec.vars.toList = .ok vars)
    (hsat : p.Saturates maxEnum prec) : p.Crowds maxEnum prec := by
  obtain ⟨hestimate, hcombinations⟩ := (listing_of_enumerableVars h).estimate_of_saturates hsat
  refine ⟨vars, h, hestimate ▸ hsat.le, ?_⟩
  rw [hcombinations]
  decide

/-- What holds of the states that a listing of values gives. -/
theorem Listing.divides (h : p.Listing maxEnum prec vars) :
    (bindAll vars |>.map Knowledge.known).Nodup ∧
      (∀ k, k ∈ (bindAll vars).map Knowledge.known ↔
        ∃ v, p.Combination maxEnum prec v ∧ k = .known v) ∧
      ∀ σ, p.InType σ → ∃! k, k ∈ (bindAll vars).map Knowledge.known ∧ k.Admits σ := by
  refine ⟨?_, fun k ↦ ?_, fun σ hσ ↦ ?_⟩
  · exact (nodup_bindAll h.distinct).map_on fun v _ w _ heq ↦ Knowledge.known.inj heq
  · refine List.mem_map.trans (exists_congr fun v ↦ ?_)
    rw [h.mem_bindAll_iff, eq_comm]
  · obtain ⟨v, hv, hσv⟩ := h.exists_mem_bindAll hσ
    refine ⟨.known v, ⟨List.mem_map.2 ⟨v, hv, rfl⟩, hσv⟩, ?_⟩
    rintro _ ⟨hk, hσw⟩
    obtain ⟨w, hw, rfl⟩ := List.mem_map.1 hk
    exact congrArg _ (Combination.eq_of_extends (h.mem_bindAll_iff.1 hw)
      (h.mem_bindAll_iff.1 hv) hσw hσv)

/-- **The initial states divide the stores among themselves, if there is room for them.** Let the
tracked variables be declared. If there is room for the combinations of values that pass the bound,
there are initial states. None of them is bottom, and none is listed twice. They are the
combinations of values, or there are more of those than the bound allows and nothing is known. Every
store of the declared types is described by exactly one of them, and they are at most as many as the
bound allows, or one. If there is no room, the answer is a fault. This is so if the combinations are
within the bound and too many for a list, or if all integers are to be listed against a bound that
is by one too low; the bound is itself too large for a list then. -/
theorem initial_partition (limit : UInt64) (hprec : p.Declares prec) :
    (¬p.Crowds limit.toNat prec → ∃ ks,
      (p.valueAnalysis limit.toNat).initial prec = .ok ks ∧ .bottom ∉ ks ∧ ks.Nodup ∧
      ((∀ k, k ∈ ks ↔ ∃ v, p.Combination limit.toNat prec v ∧ k = .known v) ∨
        ks = [.top] ∧ limit.toNat < {v | p.Combination limit.toNat prec v}.ncard) ∧
      (∀ σ, p.InType σ → ∃! k, k ∈ ks ∧ k.Admits σ) ∧ ks.length ≤ max 1 limit.toNat) ∧
    (p.Crowds limit.toNat prec →
      (p.valueAnalysis limit.toNat).initial prec = .error (.fault .beyondMemory) ∧
      Memory.maxBytes < Knowledge.bytes * limit.toNat) ∧
    (p.Crowds limit.toNat prec ↔
      Memory.maxBytes < Knowledge.bytes * {v | p.Combination limit.toNat prec v}.ncard ∧
        ({v | p.Combination limit.toNat prec v}.ncard ≤ limit.toNat ∨
          p.Saturates limit.toNat prec)) := by
  obtain ⟨vars, hvars⟩ := exists_enumerableVars limit.toNat fun x hx ↦ hprec (decide_eq_true hx)
  have hlist := listing_of_enumerableVars hvars
  have hinitial := initialKnowledge_eq hvars
  have hlimit := limit.toNat_lt_size
  refine ⟨fun hroomy ↦ ?_, fun hcrowds ↦ ⟨?_, hcrowds.lt⟩, hlist.crowds_iff hvars hlimit⟩
  · have hsat : ¬p.Saturates limit.toNat prec := fun hsat ↦ hroomy (crowds_of_saturates hvars hsat)
    by_cases hmany : limit.toNat < estimate vars
    · rw [if_pos hmany] at hinitial
      refine ⟨_, orFault_eq_ok.2 hinitial, fun hbottom ↦ ?_, List.nodup_singleton _,
        .inr ⟨rfl, ?_⟩, fun σ _ ↦ ?_, Nat.le_max_left ..⟩
      · cases List.mem_singleton.1 hbottom
      · rw [← hlist.combinations_eq_ncard]
        exact Nat.lt_of_lt_of_le hmany estimate_le_combinations
      · exact ⟨.top, ⟨List.mem_singleton.2 rfl, Store.extends_empty⟩, fun k hk ↦
          List.mem_singleton.1 hk.1⟩
    · have hestimate := Nat.le_of_not_lt hmany
      have hroom : Knowledge.bytes * combinations vars ≤ Memory.maxBytes :=
        Nat.le_of_not_lt fun hlt ↦ hroomy ⟨vars, hvars, hestimate, hlt⟩
      rw [if_neg hmany, if_pos hroom] at hinitial
      obtain ⟨hnodup, hmem, hdivides⟩ := hlist.divides
      refine ⟨_, orFault_eq_ok.2 hinitial, fun hbottom ↦ ?_, hnodup, .inl hmem, hdivides, ?_⟩
      · obtain ⟨v, -, hv⟩ := List.mem_map.1 hbottom
        cases hv
      · rw [List.length_map, length_bindAll]
        exact (hlist.combinations_le hsat hlimit hestimate).trans (Nat.le_max_right ..)
  · obtain ⟨vars', hvars', hestimate, hroom⟩ := hcrowds
    obtain rfl := Except.ok.inj (hvars.symm.trans hvars')
    rw [if_neg (Nat.not_lt.2 hestimate), if_neg (Nat.not_le.2 hroom)] at hinitial
    exact orFault_eq_error.2 ⟨_, hinitial, rfl⟩

/-- A variable that ranges over all integers, and two with few values. -/
def words : Draft where
  vars := [⟨"n", .int Int64.minValue Int64.maxValue⟩, ⟨"x", .int 0 2⟩, ⟨"b", .bool⟩]
  locations := ["A"]
  edges := []
  init := some 0
  error := some 0

/-- The variable with too many values is left out of the combinations. -/
theorem words_partition : ∃ p ks, words.build = .ok p ∧ p.Declares ⟨.ofList [0, 1, 2]⟩ ∧
    (p.valueAnalysis 16).initial ⟨.ofList [0, 1, 2]⟩ = .ok ks ∧ ks.length = 6 ∧
    ∀ σ, p.InType σ → ∃! k, k ∈ ks ∧ k.Admits σ := by
  have hrun : (words.build.toOption.any fun p ↦ p.vars.length = 3 ∧
      ((p.valueAnalysis 16).initial ⟨.ofList [0, 1, 2]⟩).toOption.any fun ks ↦
        ks.length = 6) = true := by decide +kernel
  obtain ⟨p, hp, hrun⟩ := exists_of_toOption_any hrun
  obtain ⟨hvars, hrun⟩ := of_decide_eq_true hrun
  obtain ⟨ks, hks, hlength⟩ := exists_of_toOption_any hrun
  have hprec : p.Declares ⟨.ofList [0, 1, 2]⟩ := by
    intro x hx
    have hmem : x ∈ [0, 1, 2] := IndexSet.mem_ofList.1 (of_decide_eq_true hx)
    have hlt : x < p.vars.length := hvars ▸ List.mem_range.1 hmem
    exact ⟨p.vars[x].type, by rw [varType, List.getElem?_eq_getElem hlt]; rfl⟩
  obtain ⟨hroomy, -, -⟩ := initial_partition 16 hprec
  obtain ⟨ks', hks', -, -, -, hpart, -⟩ := hroomy (not_crowds (by decide))
  obtain rfl := Except.ok.inj (hks.symm.trans hks')
  exact ⟨p, ks, hp, hprec, hks, of_decide_eq_true hlength, hpart⟩

/-- **The largest bound lets a variable pass that has one value too many.** There is no room for a
list of all integers, and the answer is a fault, where it should be that nothing is known. -/
theorem words_overflow : ∃ p, words.build = .ok p ∧ p.Declares ⟨.ofList [0]⟩ ∧
    (p.valueAnalysis (UInt64.size - 1)).initial ⟨.ofList [0]⟩ = .error (.fault .beyondMemory) := by
  obtain ⟨p, hp, htype⟩ : ∃ p, words.build = .ok p ∧
      p.varType 0 = .ok (.int Int64.minValue Int64.maxValue) := ⟨_, rfl, rfl⟩
  have hprec : p.Declares ⟨.ofList [0]⟩ := fun x hx ↦
    ⟨_, List.mem_singleton.1 (IndexSet.mem_ofList.1 (of_decide_eq_true hx)) ▸ htype⟩
  have hvars : p.enumerableVars (UInt64.size - 1) [0] =
      .ok [(0, .int Int64.minValue Int64.maxValue)] := by
    rw [enumerableVars, htype]
    rfl
  refine ⟨p, hp, hprec, orFault_eq_error.2 ⟨_, ?_, rfl⟩⟩
  rw [initialKnowledge_eq hvars, if_neg (by decide), if_neg (by decide)]

end Program

end AbstractionRefinement
