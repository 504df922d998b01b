import AbstractionRefinement.Proofs.Product
import AbstractionRefinement.Proofs.Program.Declarations
import AbstractionRefinement.Proofs.Program.Semantics
import AbstractionRefinement.Proofs.Values.Room

/-!
# Soundness of the program analysis

The abstract states of the program analysis describe stores (`Knowledge.Admits`). Executing a
statement abstractly keeps a description of every store that the statement leads to, with one
exception. An equality with an unknown tracked variable on one side binds the variable, and the
state is dropped if the value lies outside the declared range. This is right for a variable whose
value comes from the start or from an arbitrary assignment. But a variable also becomes unknown when
an unknown value is assigned to it, and assignments are not bounded by the range. So the analysis
may lose an execution that compares a tracked variable while its value lies outside its range
(`Program.Strays`), and no other (`Program.simulates_model`).

The exception is built into the system that is followed: `Program.system` takes a test on statements
and stores, and executions that fail it are left out. With the test that an execution does not stray
the analysis follows the system, and this is what safety rests on. Whether a given program can stray
is a question about the program; a sufficient condition is given in the module on safety.

Locations are followed exactly, edges are taken as they are, and the product of the two halves is
sound because both halves are.
-/

namespace AbstractionRefinement

/-! ### What knowledge stands for -/

/-- The stores that a state of knowledge describes. -/
def Knowledge.Admits : Knowledge → Store → Prop
  | .bottom, _ => False
  | .known v, σ => σ.Extends v

/-- Only tracked variables are bound. -/
def TrackedVars.Fits (prec : TrackedVars) (v : Valuation) : Prop :=
  ∀ ⦃x a⦄, v.find? x = some a → prec.tracks x = true

/-- Knowledge of tracked variables only. -/
def TrackedVars.FitsKnown (prec : TrackedVars) (k : Knowledge) : Prop :=
  ∀ ⦃v⦄, k = .known v → prec.Fits v

namespace Knowledge

variable {k l : Knowledge} {σ : Store}

/-- What knowledge admits is admitted by all knowledge above it. -/
theorem admits_of_leq (h : k.leq l = true) (hk : k.Admits σ) : l.Admits σ := by
  rcases k with _ | v
  · exact hk.elim
  · rcases l with _ | w
    · cases h
    · exact fun x a hx ↦ hk (IndexMap.isExtensionOf_iff.1 h x a hx)

/-- What one of two pieces of knowledge admits is admitted by their join. -/
theorem admits_join (h : k.Admits σ ∨ l.Admits σ) : (k.join l).Admits σ := by
  rcases k with _ | v
  · exact h.resolve_left id
  · rcases l with _ | w
    · exact h.resolve_right id
    · intro x a hx
      obtain ⟨hv, hw⟩ := IndexMap.find?_filter_eq_some_iff.1 hx
      rcases h with h | h
      · exact h hv
      · exact h (of_decide_eq_true hw)

end Knowledge

namespace TrackedVars

variable {prec : TrackedVars} {v : Valuation} {x : VarId} {a : Value}

theorem fits_empty : prec.Fits .empty := by
  intro x a h
  cases h

/-- A valuation within a precision stays so when a tracked variable is entered. -/
theorem Fits.insert (h : prec.Fits v) (hx : prec.tracks x = true) : prec.Fits (v.insert x a) := by
  intro y b hy
  rw [IndexMap.find?_insert] at hy
  split at hy
  · rename_i hyx
    rw [hyx]
    exact hx
  · exact h hy

/-- A valuation within a precision stays so when a variable is forgotten. -/
theorem Fits.erase (h : prec.Fits v) : prec.Fits (v.erase x) := by
  intro y b hy
  rw [IndexMap.find?_erase] at hy
  split at hy
  · cases hy
  · exact h hy

/-- A variable that is not tracked is not bound. -/
theorem Fits.find?_eq_none (h : prec.Fits v) (hx : prec.tracks x = false) : v.find? x = none := by
  cases hv : v.find? x with
  | none => rfl
  | some a => cases (h hv).symm.trans hx

/-- The join of two pieces of knowledge within a precision is within it. -/
theorem fitsKnown_join {k l : Knowledge} (hk : prec.FitsKnown k) (hl : prec.FitsKnown l) :
    prec.FitsKnown (k.join l) := by
  rcases k with _ | v
  · exact hl
  · rcases l with _ | w
    · exact hk
    · rintro u ⟨⟩
      exact fun x a hx ↦ hk rfl (IndexMap.find?_filter_eq_some_iff.1 hx).1

end TrackedVars

theorem orMismatch_eq_ok {α : Type} {x : Except TypeMismatch α} {a : α} :
    orMismatch x = .ok a ↔ x = .ok a := by
  constructor
  · intro h
    cases x with
    | ok b => exact congrArg _ (Except.ok.inj h)
    | error e => cases h
  · rintro rfl
    rfl

theorem asBool_eq_ok {a : Value} {t : Bool} : a.asBool = .ok t ↔ a = .bool t := by
  constructor
  · intro h
    cases a with
    | int n => cases h
    | bool b => exact congrArg _ (Except.ok.inj h)
  · rintro rfl
    rfl

/-- What is collected from the elements of a list. -/
theorem flatMapM_eq_ok {ε α β : Type} {f : α → Except ε (List β)} {l : List α} {out : List β}
    (h : l.flatMapM f = .ok out) :
    ∃ parts, List.Forall₂ (fun a bs ↦ f a = .ok bs) l parts ∧ out = parts.flatten := by
  induction l generalizing out with
  | nil =>
    obtain rfl := Except.ok.inj h
    exact ⟨[], .nil, rfl⟩
  | cons a l ih =>
    rw [List.flatMapM_cons] at h
    obtain ⟨bs, hbs, h⟩ := bind_eq_ok.1 h
    obtain ⟨rest, hrest, h⟩ := bind_eq_ok.1 h
    obtain ⟨parts, hparts, rfl⟩ := ih hrest
    exact ⟨bs :: parts, .cons hbs hparts, (Except.ok.inj h).symm⟩

/-- An early stop comes from one of the elements. -/
theorem exists_of_flatMapM_eq_error {ε α β : Type} {f : α → Except ε (List β)} {l : List α} {e : ε}
    (h : l.flatMapM f = .error e) : ∃ a ∈ l, f a = .error e := by
  induction l with
  | nil => cases h
  | cons a l ih =>
    rw [List.flatMapM_cons, bind_eq_error] at h
    rcases h with h | ⟨bs, -, h⟩
    · exact ⟨a, List.mem_cons_self, h⟩
    · rcases bind_eq_error.1 h with h | ⟨rest, -, h⟩
      · obtain ⟨b, hb, he⟩ := ih h
        exact ⟨b, List.mem_cons_of_mem _ hb, he⟩
      · cases h

namespace Program

variable {p : Program} {maxEnum : Nat} {prec : TrackedVars} {σ τ : Store} {v w : Valuation}
  {vs ws : List Valuation}

/-! ### Statements -/

variable (p) in
/-- The statement compares a tracked variable for equality while its value lies outside its declared
range. -/
def Strays (prec : TrackedVars) (s : Statement) (σ : Store) : Prop :=
  ∃ a b x type, s = .assume (.equal a b) ∧ (a = .var x ∨ b = .var x) ∧ prec.tracks x = true ∧
    p.varType x = .ok type ∧ type.contains (σ x) = false

/-- What an abstract assumption answers. -/
theorem assumeOn_eq_ok {condition : Expr} (h : p.assumeOn prec condition v = .ok vs) :
    (∃ t, condition.eval v = .ok (some (.bool t)) ∧ vs = if t then [v] else []) ∨
      condition.eval v = .ok none ∧
        ((∀ {x a}, condition.forcedBinding v = some (x, a) → prec.tracks x = false) ∧ vs = [v] ∨
          ∃ x a type, condition.forcedBinding v = some (x, a) ∧ prec.tracks x = true ∧
            p.varType x = .ok type ∧ vs = if type.contains a then [v.insert x a] else []) := by
  obtain ⟨r, hr, h⟩ := bind_eq_ok.1 h
  replace hr := orMismatch_eq_ok.1 hr
  cases r with
  | some a =>
    obtain ⟨t, ht, h⟩ := bind_eq_ok.1 h
    obtain rfl := asBool_eq_ok.1 (orMismatch_eq_ok.1 ht)
    exact .inl ⟨t, hr, (Except.ok.inj h).symm⟩
  | none =>
    right
    refine ⟨hr, ?_⟩
    dsimp only at h
    split at h
    · rename_i hnone
      refine .inl ⟨fun hf ↦ ?_, (Except.ok.inj h).symm⟩
      cases hnone.symm.trans hf
    · rename_i x a hforced
      split at h
      · rename_i hx
        refine .inl ⟨fun hf ↦ ?_, (Except.ok.inj h).symm⟩
        obtain ⟨rfl, -⟩ := Prod.mk.inj (Option.some.inj (hforced.symm.trans hf))
        exact Bool.not_eq_eq_eq_not.1 hx
      · rename_i hx
        obtain ⟨type, htype, h⟩ := bind_eq_ok.1 h
        refine .inr ⟨x, a, type, hforced, ?_, orFault_eq_ok.1 htype, (Except.ok.inj h).symm⟩
        simpa using hx

/-- **What an abstract assumption loses.** A store in which the condition holds is lost exactly if
the condition forces a tracked variable to a value outside its range. -/
theorem exists_of_assumeOn_iff {condition : Expr} (h : p.assumeOn prec condition v = .ok vs)
    (hσ : σ.Extends v) (hc : condition.value σ = .ok (.bool true)) :
    (∃ w ∈ vs, σ.Extends w) ↔ ¬∃ x type, condition.forcedBinding v = some (x, σ x) ∧
      prec.tracks x = true ∧ p.varType x = .ok type ∧ type.contains (σ x) = false := by
  rcases assumeOn_eq_ok h with ⟨t, ht, rfl⟩ | ⟨-, ⟨hno, rfl⟩ | ⟨x, a, type, hf, htrack, htype, rfl⟩⟩
  · obtain rfl := Value.bool.inj (Expr.known_of_extends hσ ht hc)
    refine iff_of_true ⟨v, List.mem_singleton.2 rfl, hσ⟩ ?_
    rintro ⟨x, type, hf, -⟩
    cases (Expr.eval_of_forcedBinding hf).symm.trans ht
  · refine iff_of_true ⟨v, List.mem_singleton.2 rfl, hσ⟩ ?_
    rintro ⟨x, type, hf, htrack, -⟩
    cases (hno hf).symm.trans htrack
  · obtain rfl := Expr.eq_of_forcedBinding hf hσ hc
    cases hrange : type.contains (σ x) with
    | true =>
      refine iff_of_true ⟨_, List.mem_singleton.2 rfl, hσ.insert⟩ ?_
      rintro ⟨y, type', hf', -, htype', hout⟩
      obtain ⟨rfl, -⟩ := Prod.mk.inj (Option.some.inj (hf.symm.trans hf'))
      obtain rfl := Except.ok.inj (htype.symm.trans htype')
      cases hrange.symm.trans hout
    | false =>
      refine iff_of_false ?_ (not_not_intro ⟨x, type, hf, htrack, htype, hrange⟩)
      rintro ⟨w, hw, -⟩
      cases hw

/-- An assumption that holds keeps the store, unless it strays. -/
theorem exists_of_assumeOn {condition : Expr} (h : p.assumeOn prec condition v = .ok vs)
    (hσ : σ.Extends v) (hc : condition.value σ = .ok (.bool true))
    (hok : ¬p.Strays prec (.assume condition) σ) : ∃ w ∈ vs, σ.Extends w := by
  refine (exists_of_assumeOn_iff h hσ hc).2 ?_
  rintro ⟨x, type, hforced, htrack, htype, hout⟩
  obtain ⟨-, other, -, rfl | rfl⟩ := Expr.forcedBinding_eq_some hforced
  · exact hok ⟨_, _, x, type, rfl, .inl rfl, htrack, htype, hout⟩
  · exact hok ⟨_, _, x, type, rfl, .inr rfl, htrack, htype, hout⟩

/-- **Executing a statement abstractly keeps every store it leads to**, unless it strays. -/
theorem exists_of_executeOn {s : Statement} (h : p.executeOn maxEnum prec s v = .ok vs)
    (hfit : prec.Fits v) (hσ : σ.Extends v) (hexec : p.Exec s σ τ) (hok : ¬p.Strays prec s σ) :
    ∃ w ∈ vs, τ.Extends w := by
  cases hexec with
  | assume hc => exact exists_of_assumeOn h hσ hc hok
  | @assign x e a _ ha =>
    rw [executeOn, assignOn] at h
    split at h
    · rename_i htrack
      obtain rfl := Except.ok.inj h
      have hx := hfit.find?_eq_none (Bool.not_eq_eq_eq_not.1 htrack)
      exact ⟨v, List.mem_singleton.2 rfl, hσ.set hx⟩
    · obtain ⟨r, hr, h⟩ := bind_eq_ok.1 h
      cases r with
      | some b =>
        obtain rfl := Except.ok.inj h
        obtain rfl := Expr.known_of_extends hσ (orMismatch_eq_ok.1 hr) ha
        exact ⟨_, List.mem_singleton.2 rfl, hσ.set_insert⟩
      | none =>
        obtain rfl := Except.ok.inj h
        exact ⟨_, List.mem_singleton.2 rfl, hσ.set_erase⟩
  | @havoc x type a _ htype ha =>
    rw [executeOn, havocOn] at h
    split at h
    · obtain rfl := Except.ok.inj h
      exact ⟨_, List.mem_singleton.2 rfl, hσ.set_erase⟩
    · obtain ⟨type', htype', h⟩ := bind_eq_ok.1 h
      obtain rfl := Except.ok.inj (htype.symm.trans (orFault_eq_ok.1 htype'))
      obtain rfl := Except.ok.inj h
      split
      · exact ⟨_, List.mem_map.2 ⟨a, VarType.mem_values.2 ha, rfl⟩, hσ.set_insert⟩
      · exact ⟨_, List.mem_singleton.2 rfl, hσ.set_erase⟩

/-- **One statement** keeps valuations within the precision. -/
theorem fits_of_executeOn {s : Statement} (h : p.executeOn maxEnum prec s v = .ok vs)
    (hfit : prec.Fits v) : ∀ w ∈ vs, prec.Fits w := by
  cases s with
  | assume condition =>
    rcases assumeOn_eq_ok h with ⟨t, -, rfl⟩ | ⟨-, ⟨-, rfl⟩ | ⟨x, a, type, -, htrack, -, rfl⟩⟩
    · split
      · exact List.forall_mem_singleton.2 hfit
      · exact List.forall_mem_nil _
    · exact List.forall_mem_singleton.2 hfit
    · split
      · exact List.forall_mem_singleton.2 (hfit.insert htrack)
      · exact List.forall_mem_nil _
  | assign x e =>
    rw [executeOn, assignOn] at h
    split at h
    · obtain rfl := Except.ok.inj h
      exact List.forall_mem_singleton.2 hfit
    · rename_i htrack
      have htrack : prec.tracks x = true := by simpa using htrack
      obtain ⟨r, -, h⟩ := bind_eq_ok.1 h
      cases r with
      | some b =>
        obtain rfl := Except.ok.inj h
        exact List.forall_mem_singleton.2 (hfit.insert htrack)
      | none =>
        obtain rfl := Except.ok.inj h
        exact List.forall_mem_singleton.2 hfit.erase
  | havoc x =>
    rw [executeOn, havocOn] at h
    split at h
    · obtain rfl := Except.ok.inj h
      exact List.forall_mem_singleton.2 hfit.erase
    · rename_i htrack
      have htrack : prec.tracks x = true := by simpa using htrack
      obtain ⟨type, -, h⟩ := bind_eq_ok.1 h
      obtain rfl := Except.ok.inj h
      split
      · exact List.forall_mem_map.2 fun a _ ↦ hfit.insert htrack
      · exact List.forall_mem_singleton.2 hfit.erase

/-- So does one statement executed on each of several. -/
theorem fits_of_executeOnEach {s : Statement} (h : p.executeOnEach maxEnum prec s vs = .ok ws)
    (hfit : ∀ v ∈ vs, prec.Fits v) : ∀ w ∈ ws, prec.Fits w := by
  obtain ⟨parts, hparts, rfl⟩ := flatMapM_eq_ok h
  intro w hw
  obtain ⟨us, hus, hw⟩ := List.mem_flatten.1 hw
  obtain ⟨v, hv, hvus⟩ := exists_of_forall₂_of_mem_right hparts hus
  exact fits_of_executeOn hvus (hfit v hv) w hw

/-- **All statements of an edge** keep valuations within the precision. -/
theorem fits_of_executeAll {body : List Statement}
    (h : p.executeAll maxEnum prec vs body = .ok ws) (hfit : ∀ v ∈ vs, prec.Fits v) :
    ∀ w ∈ ws, prec.Fits w := by
  induction body generalizing vs with
  | nil =>
    obtain rfl := Except.ok.inj h
    exact hfit
  | cons s rest ih =>
    obtain ⟨us, hus, h⟩ := bind_eq_ok.1 h
    exact ih h (fits_of_executeOnEach hus hfit)

/-- **Executing the statements of an edge abstractly keeps every store they lead to**, unless one of
them strays. -/
theorem exists_of_executeAll {body : List Statement}
    (h : p.executeAll maxEnum prec vs body = .ok ws) (hfit : ∀ v ∈ vs, prec.Fits v)
    (hσ : ∃ v ∈ vs, σ.Extends v)
    (hexec : p.ExecAll (fun s σ ↦ ¬p.Strays prec s σ) body σ τ) : ∃ w ∈ ws, τ.Extends w := by
  induction hexec generalizing vs with
  | nil =>
    obtain rfl := Except.ok.inj h
    exact hσ
  | cons hok hs _ ih =>
    obtain ⟨us, hus, h⟩ := bind_eq_ok.1 h
    refine ih h (fits_of_executeOnEach hus hfit) ?_
    obtain ⟨v, hv, hσ⟩ := hσ
    obtain ⟨parts, hparts, rfl⟩ := flatMapM_eq_ok hus
    obtain ⟨part, hpart, hvpart⟩ := exists_of_forall₂_of_mem_left hparts hv
    obtain ⟨u, hu, hτ⟩ := exists_of_executeOn hvpart (hfit v hv) hσ hs hok
    exact ⟨u, List.mem_flatten.2 ⟨part, hpart, hu⟩, hτ⟩

/-! ### Initial knowledge -/

/-- The enumerable variables are those listed with few enough values. -/
theorem mem_enumerableVars {xs : List VarId} {vars : List (VarId × VarType)}
    (h : p.enumerableVars maxEnum xs = .ok vars) {xt : VarId × VarType} :
    xt ∈ vars ↔ xt.1 ∈ xs ∧ p.varType xt.1 = .ok xt.2 ∧ xt.2.size ≤ maxEnum := by
  induction xs generalizing vars with
  | nil =>
    obtain rfl := Except.ok.inj h
    exact iff_of_false List.not_mem_nil fun h ↦ List.not_mem_nil h.1
  | cons x xs ih =>
    obtain ⟨type, htype, h⟩ := bind_eq_ok.1 h
    obtain ⟨others, hothers, h⟩ := bind_eq_ok.1 h
    obtain rfl := Except.ok.inj h
    have hhead : xt.1 = x ∧ p.varType xt.1 = .ok xt.2 ∧ xt.2.size ≤ maxEnum ↔
        xt = (x, type) ∧ type.size ≤ maxEnum := by
      constructor
      · rintro ⟨rfl, h, hsize⟩
        obtain rfl := Except.ok.inj (htype.symm.trans h)
        exact ⟨rfl, hsize⟩
      · rintro ⟨rfl, hsize⟩
        exact ⟨rfl, htype, hsize⟩
    rw [List.mem_cons, or_and_right, ← ih hothers, hhead]
    split
    · rename_i hsize
      rw [List.mem_cons, and_iff_left hsize]
    · rename_i hsize
      exact (or_iff_right fun h ↦ hsize h.2).symm

/-- Binding one more variable in every possible way. -/
def bindOne (vs : List Valuation) (xt : VarId × VarType) : List Valuation :=
  vs.flatMap fun v ↦ xt.2.values.map fun a ↦ v.insert xt.1 a

/-- If the values of a store are among those entered for each variable, one combination agrees with
it. -/
theorem exists_mem_foldl_bindOne {vars : List (VarId × VarType)}
    (hvars : ∀ xt ∈ vars, xt.2.contains (σ xt.1) = true) (h : ∃ v ∈ vs, σ.Extends v) :
    ∃ w ∈ vars.foldl bindOne vs, σ.Extends w := by
  induction vars generalizing vs with
  | nil => exact h
  | cons xt vars ih =>
    obtain ⟨hxt, hvars⟩ := List.forall_mem_cons.1 hvars
    obtain ⟨v, hv, hσ⟩ := h
    refine ih hvars ⟨v.insert xt.1 (σ xt.1), List.mem_flatMap.2 ⟨v, hv, ?_⟩, hσ.insert⟩
    exact List.mem_map.2 ⟨σ xt.1, VarType.mem_values.2 hxt, rfl⟩

/-- What binding a variable to a value of its type keeps holds of every combination. -/
theorem forall_mem_foldl_bindOne {Q : Valuation → Prop} {vars : List (VarId × VarType)}
    (hbind : ∀ xt ∈ vars, ∀ v, ∀ a ∈ xt.2.values, Q v → Q (v.insert xt.1 a))
    (h : ∀ v ∈ vs, Q v) : ∀ w ∈ vars.foldl bindOne vs, Q w := by
  induction vars generalizing vs with
  | nil => exact h
  | cons xt vars ih =>
    obtain ⟨hxt, hrest⟩ := List.forall_mem_cons.1 hbind
    refine ih hrest fun w hw ↦ ?_
    obtain ⟨v, hv, hw⟩ := List.mem_flatMap.1 hw
    obtain ⟨a, ha, rfl⟩ := List.mem_map.1 hw
    exact hxt v a ha (h v hv)

/-- Initial knowledge is that nothing is known, or one of all combinations of some tracked
variables. -/
theorem initialKnowledge_eq_ok {ks : List Knowledge}
    (h : p.initialKnowledge maxEnum prec = .ok ks) :
    ∃ vars : List (VarId × VarType),
      (∀ xt ∈ vars, prec.tracks xt.1 = true ∧ p.varType xt.1 = .ok xt.2) ∧
        ks = (vars.foldl bindOne [.empty]).map .known := by
  obtain ⟨vars, hvars, -⟩ := bind_eq_ok.1 h
  rw [initialKnowledge_eq hvars] at h
  split at h
  · obtain rfl := Except.ok.inj h
    exact ⟨[], List.forall_mem_nil _, rfl⟩
  · split at h
    · obtain rfl := Except.ok.inj h
      refine ⟨vars, fun xt hxt ↦ ?_, rfl⟩
      obtain ⟨hmem, htype, -⟩ := (mem_enumerableVars hvars).1 hxt
      exact ⟨decide_eq_true hmem, htype⟩
    · cases h

/-! ### The analyses -/

variable {ok : Statement → Store → Prop}

/-- The locations of a program are followed exactly. -/
theorem simulates_locationAnalysis {prec : Unit} : p.locationAnalysis.Simulates prec (p.system ok)
    (fun s c ↦ s.location = c.location) fun _ ↦ True where
  initial h hc := by
    obtain rfl := Except.ok.inj h
    exact ⟨_, List.mem_singleton.2 rfl, hc.1.symm⟩
  fit_initial _ _ := trivial
  successors {st m states c c'} _ h hγ hstep := by
    obtain ⟨e, -, rfl, hsource, htarget, -⟩ := hstep
    obtain rfl := Except.ok.inj h
    have hmatch : e.move.source = st.location := hsource.trans hγ.symm
    rw [if_pos hmatch]
    exact ⟨_, List.mem_singleton.2 rfl, htarget⟩
  fit_successors _ _ _ := trivial
  bottom h := by cases h
  leq h hγ := by
    obtain rfl := of_decide_eq_true h
    exact hγ

/-- The analysis of values loses only executions that stray. -/
theorem simulates_valueAnalysis (hedge : ∀ e ∈ p.edges, p.edge e.id = .ok e) :
    (p.valueAnalysis maxEnum).Simulates prec (p.system fun s σ ↦ ¬p.Strays prec s σ)
      (fun k c ↦ k.Admits c.store) prec.FitsKnown where
  initial {ks c} h hc := by
    obtain ⟨vars, hvars, rfl⟩ := initialKnowledge_eq_ok (orFault_eq_ok.1 h)
    obtain ⟨w, hw, hσ⟩ := exists_mem_foldl_bindOne (fun xt hxt ↦ hc.2 (hvars xt hxt).2)
      ⟨.empty, List.mem_singleton.2 rfl, Store.extends_empty⟩
    exact ⟨.known w, List.mem_map.2 ⟨w, hw, rfl⟩, hσ⟩
  fit_initial h hk := by
    obtain ⟨vars, hvars, rfl⟩ := initialKnowledge_eq_ok (orFault_eq_ok.1 h)
    obtain ⟨w, hw, rfl⟩ := List.mem_map.1 hk
    rintro _ ⟨⟩
    exact forall_mem_foldl_bindOne (fun xt hxt v a _ hv ↦ hv.insert (hvars xt hxt).1)
      (List.forall_mem_singleton.2 TrackedVars.fits_empty) w hw
  successors {k m ks c c'} hfit h hγ hstep := by
    obtain ⟨e, he, rfl, -, -, hexec⟩ := hstep
    rcases k with _ | v
    · exact hγ.elim
    · obtain ⟨e', he', h⟩ := bind_eq_ok.1 h
      obtain rfl := Except.ok.inj ((hedge e he).symm.trans (orFault_eq_ok.1 he'))
      obtain ⟨ws, hws, h⟩ := bind_eq_ok.1 h
      obtain rfl := Except.ok.inj h
      obtain ⟨w, hw, hσ⟩ := exists_of_executeAll hws (List.forall_mem_singleton.2 (hfit rfl))
        ⟨v, List.mem_singleton.2 rfl, hγ⟩ hexec
      exact ⟨.known w, List.mem_map.2 ⟨w, hw, rfl⟩, hσ⟩
  fit_successors {k m ks k'} hfit h hk := by
    rcases k with _ | v
    · obtain rfl := Except.ok.inj h
      cases hk
    · obtain ⟨e, -, h⟩ := bind_eq_ok.1 h
      obtain ⟨ws, hws, h⟩ := bind_eq_ok.1 h
      obtain rfl := Except.ok.inj h
      obtain ⟨w, hw, rfl⟩ := List.mem_map.1 hk
      rintro _ ⟨⟩
      exact fits_of_executeAll hws (List.forall_mem_singleton.2 (hfit rfl)) w hw
  bottom {k c} h hγ := by
    rcases k with _ | v
    · exact hγ
    · cases h
  leq := Knowledge.admits_of_leq

/-- The configurations that a state of the analysis stands for. -/
def StandsFor (s : ProgramState) (c : Config) : Prop :=
  s.first.location = c.location ∧ s.second.Admits c.store

/-- A state that knows tracked variables only. -/
def FitsState (prec : ProgramPrecision) (s : ProgramState) : Prop := prec.second.FitsKnown s.second

/-- States are merged only at the same location, and their knowledge is joined. -/
theorem merge_eq_some {merge : Bool} {s t u : ProgramState}
    (h : (p.model maxEnum merge).merge s t = some u) :
    s.first = t.first ∧ u = ⟨s.first, s.second.join t.second⟩ := by
  replace h : (if merge then mergeStates s t else none) = some u := h
  split at h
  · rw [mergeStates] at h
    split at h
    · rename_i hfirst
      exact ⟨hfirst, (Option.some.inj h).symm⟩
    · cases h
  · cases h

/-- **The analysis of a program follows its executions**, except those that stray. -/
theorem simulates_analysis (hedge : ∀ e ∈ p.edges, p.edge e.id = .ok e) {prec : ProgramPrecision} :
    (p.analysis maxEnum).Simulates prec (p.system fun s σ ↦ ¬p.Strays prec.second s σ) StandsFor
      (FitsState prec) := by
  have hvalue : (p.valueAnalysis maxEnum).Simulates prec.second _ _ _ :=
    simulates_valueAnalysis hedge
  have h := simulates_locationAnalysis.product hvalue
  simp only [true_and] at h
  exact h

/-- **The program analysis loses only executions that stray.** -/
theorem simulates_model (hedge : ∀ e ∈ p.edges, p.edge e.id = .ok e) {merge : Bool}
    {prec : ProgramPrecision} :
    (p.model maxEnum merge).Simulates prec (p.system fun s σ ↦ ¬p.Strays prec.second s σ) StandsFor
      (FitsState prec) where
  toSimulates := simulates_analysis hedge
  enabled {st moves c m c'} _ h hγ hstep := by
    obtain ⟨e, he, rfl, hsource, -⟩ := hstep
    obtain ⟨edges, hedges, h⟩ := bind_eq_ok.1 h
    obtain rfl := Except.ok.inj h
    rw [outgoing] at hedges
    split at hedges
    · obtain rfl := Except.ok.inj hedges
      refine List.mem_map.2 ⟨e, List.mem_filter.2 ⟨he, decide_eq_true ?_⟩, rfl⟩
      exact hsource.trans hγ.1.symm
    · cases hedges
  merge {st st' u c} h hγ := by
    obtain ⟨hfirst, rfl⟩ := merge_eq_some h
    refine ⟨?_, Knowledge.admits_join (hγ.imp And.right And.right)⟩
    rcases hγ with hγ | hγ
    · exact hγ.1
    · exact hfirst ▸ hγ.1
  fit_merge h hst hst' := by
    obtain ⟨-, rfl⟩ := merge_eq_some h
    exact TrackedVars.fitsKnown_join hst hst'
  target hγ htarget := decide_eq_true (hγ.1.trans htarget)

end Program

end AbstractionRefinement
