import AbstractionRefinement.Proofs.Values.Simulation

/-!
# Values of the declared kinds

A well-typed expression has a value of its kind in every store of the declared kinds. Here the same
is said of partial valuations. If the values known are of the declared kinds (`Program.Kinded`), a
well-typed expression evaluates without mismatch, to a value of its kind or to an unknown one
(`Expr.HasKind.exists_eval`). So the abstract execution of well-typed statements answers, and keeps
the kinds (`Program.exists_executeAll`), and so does the analysis of values as a whole, provided
that the tracked variables are declared (`Program.exists_initial_or_crowds`,
`Program.exists_successors`).

The kinds of the values that a valuation knows are an invariant of the analysis: they hold of the
initial knowledge, are kept by every statement, and hence hold at every node of the graph. Ranges
are not: an assignment may store a value outside the range of its variable, and the analysis follows
it there.

What can still go wrong with the initial states is their number. They are listed at once, and if the
list does not fit in memory the analysis stops with a fault, which is why the first of the two
results is an alternative (`Program.Crowds`). Successors are not listed with a length known
beforehand, so the second has no such case.
-/

namespace AbstractionRefinement

/-- The values known are of the kinds of their variables. -/
def Program.Kinded (p : Program) (v : Valuation) : Prop :=
  ∀ ⦃x a type⦄, v.find? x = some a → p.varType x = .ok type → a.kind = type.kind

variable {p : Program} {v w : Valuation} {x : VarId} {a : Value} {type : VarType}

namespace Program

theorem kinded_empty : p.Kinded .empty := by
  intro x a type h
  cases h

/-- A valuation of the right kinds stays so when a value of the right kind is entered. -/
theorem Kinded.insert (h : p.Kinded v) (htype : p.varType x = .ok type)
    (ha : a.kind = type.kind) : p.Kinded (v.insert x a) := by
  intro y b type' hy htype'
  rw [IndexMap.find?_insert] at hy
  split at hy
  · rename_i hyx
    subst hyx
    obtain rfl := Option.some.inj hy
    obtain rfl := Except.ok.inj (htype.symm.trans htype')
    exact ha
  · exact h hy htype'

theorem Kinded.erase (h : p.Kinded v) : p.Kinded (v.erase x) := by
  intro y b type' hy htype'
  rw [IndexMap.find?_erase] at hy
  split at hy
  · cases hy
  · exact h hy htype'

theorem Kinded.filter {f : VarId → Value → Bool} (h : p.Kinded v) : p.Kinded (v.filter f) :=
  fun _ _ _ hy htype' ↦ h (IndexMap.find?_filter_eq_some_iff.1 hy).1 htype'

end Program

/-! ### Expressions -/

namespace Expr

variable {e : Expr} {k : Kind}

theorem exists_onBoth {f : Value → Value → Except TypeMismatch Value} {b c : Option Value}
    (h : ∀ {m n}, b = some m → c = some n → ∃ a, f m n = .ok a ∧ a.kind = k) :
    ∃ r, onBoth f b c = .ok r ∧ ∀ a ∈ r, a.kind = k := by
  rcases b with _ | m
  · exact ⟨none, rfl, by simp⟩
  · rcases c with _ | n
    · exact ⟨none, rfl, by simp⟩
    · obtain ⟨a, ha, hk⟩ := h rfl rfl
      refine ⟨some a, by rw [onBoth, ha]; rfl, ?_⟩
      rintro _ ⟨⟩
      exact hk

theorem exists_truthOf {b : Option Value} (h : ∀ a ∈ b, a.kind = .bool) :
    ∃ t, truthOf b = .ok t := by
  rcases b with _ | a
  · exact ⟨none, rfl⟩
  · obtain ⟨t, rfl⟩ := Value.kind_eq_bool.1 (h a rfl)
    exact ⟨some t, rfl⟩

theorem kind_of_mem_map {op : Option Bool} : ∀ a ∈ op.map Value.bool, a.kind = .bool := by
  intro a ha
  obtain ⟨t, -, rfl⟩ := Option.map_eq_some_iff.1 ha
  rfl

/-- **A well-typed expression evaluates without mismatch** if what is known is of the declared
kinds. -/
theorem HasKind.exists_eval (h : e.HasKind p k) (hv : p.Kinded v) :
    ∃ r, e.eval v = .ok r ∧ ∀ a ∈ r, a.kind = k := by
  induction h with
  | @const a => exact ⟨some a, rfl, by rintro _ ⟨⟩; rfl⟩
  | @var x type htype => exact ⟨v.find? x, rfl, fun a ha ↦ hv ha htype⟩
  | arith _ _ ihe ihf | compare _ _ ihe ihf =>
    obtain ⟨b, hb, hkb⟩ := ihe
    obtain ⟨c, hc, hkc⟩ := ihf
    rw [eval, hb, hc]
    refine exists_onBoth fun {m n} hm hn ↦ ?_
    obtain ⟨i, rfl⟩ := Value.kind_eq_int.1 (hkb m hm)
    obtain ⟨j, rfl⟩ := Value.kind_eq_int.1 (hkc n hn)
    exact ⟨_, rfl, rfl⟩
  | equal _ _ ihe ihf | differ _ _ ihe ihf =>
    obtain ⟨b, hb, hkb⟩ := ihe
    obtain ⟨c, hc, hkc⟩ := ihf
    rw [eval, hb, hc]
    refine exists_onBoth fun {m n} hm hn ↦ ?_
    have heq : equalValues m n = .ok (m = n) := if_pos ((hkb m hm).trans (hkc n hn).symm)
    rw [heq]
    exact ⟨_, rfl, rfl⟩
  | neg _ ih =>
    obtain ⟨b, hb, hkb⟩ := ih
    obtain ⟨t, ht⟩ := exists_truthOf hkb
    refine ⟨t.map fun t ↦ .bool (!t), by rw [eval, hb]; simp only [bind, Except.bind, ht]; rfl, ?_⟩
    intro a ha
    obtain ⟨u, -, rfl⟩ := Option.map_eq_some_iff.1 ha
    rfl
  | conj _ _ ihe ihf | disj _ _ ihe ihf =>
    obtain ⟨b, hb, hkb⟩ := ihe
    obtain ⟨c, hc, hkc⟩ := ihf
    obtain ⟨t, ht⟩ := exists_truthOf hkb
    obtain ⟨u, hu⟩ := exists_truthOf hkc
    rw [eval, hb, hc]
    simp only [bind, Except.bind, ht, hu]
    exact ⟨_, rfl, kind_of_mem_map⟩

/-- A variable that a well-typed condition binds is declared, and bound to a value of its kind. -/
theorem HasKind.kind_of_forcedBinding (h : e.HasKind p k) (hv : p.Kinded v)
    (hf : e.forcedBinding v = some (x, a)) :
    ∃ type, p.varType x = .ok type ∧ a.kind = type.kind := by
  have hsides : ∀ {other : Expr} {l : Kind}, other.eval v = .ok (some a) →
      (Expr.var x).HasKind p l → other.HasKind p l →
      ∃ type, p.varType x = .ok type ∧ a.kind = type.kind := by
    intro other l ho hx hother
    obtain ⟨r, hr, hk⟩ := hother.exists_eval hv
    obtain rfl := Except.ok.inj (ho.symm.trans hr)
    cases hx with
    | var htype => exact ⟨_, htype, hk a rfl⟩
  obtain ⟨-, other, ho, rfl | rfl⟩ := forcedBinding_eq_some hf
  · cases h with
    | equal hx hother => exact hsides ho hx hother
  · cases h with
    | equal hother hx => exact hsides ho hx hother

end Expr

/-! ### Statements -/

/-- A list of answers is an answer. -/
theorem exists_flatMapM {ε α β : Type} {f : α → Except ε (List β)} {l : List α} {Q : β → Prop}
    (h : ∀ a ∈ l, ∃ bs, f a = .ok bs ∧ ∀ b ∈ bs, Q b) :
    ∃ out, l.flatMapM f = .ok out ∧ ∀ b ∈ out, Q b := by
  induction l with
  | nil => exact ⟨[], rfl, List.forall_mem_nil _⟩
  | cons a l ih =>
    obtain ⟨⟨bs, hbs, hQ⟩, hl⟩ := List.forall_mem_cons.1 h
    obtain ⟨out, hout, hQ'⟩ := ih hl
    refine ⟨bs ++ out, ?_, List.forall_mem_append.2 ⟨hQ, hQ'⟩⟩
    rw [List.flatMapM_cons, hbs, hout]
    rfl

namespace Program

variable {maxEnum : Nat} {prec : TrackedVars} {s : Statement} {vs : List Valuation}

/-- Assuming a Boolean condition on values of the right kinds succeeds and keeps the kinds. -/
theorem exists_assumeOn {condition : Expr} (hcond : condition.HasKind p .bool) (hv : p.Kinded v) :
    ∃ vs, p.assumeOn prec condition v = .ok vs ∧ ∀ w ∈ vs, p.Kinded w := by
  obtain ⟨r, hr, hk⟩ := hcond.exists_eval hv
  rw [assumeOn, hr]
  cases r with
  | some b =>
    obtain ⟨t, rfl⟩ := Value.kind_eq_bool.1 (hk b rfl)
    cases t with
    | true => exact ⟨[v], rfl, List.forall_mem_singleton.2 hv⟩
    | false => exact ⟨[], rfl, List.forall_mem_nil _⟩
  | none =>
    simp only [orMismatch, bind, Except.bind]
    cases hf : condition.forcedBinding v with
    | none => exact ⟨[v], rfl, List.forall_mem_singleton.2 hv⟩
    | some xa =>
      obtain ⟨x, a⟩ := xa
      obtain ⟨type, htype, ha⟩ := hcond.kind_of_forcedBinding hv hf
      dsimp only
      split
      · exact ⟨[v], rfl, List.forall_mem_singleton.2 hv⟩
      · rw [htype]
        refine ⟨_, rfl, ?_⟩
        split
        · exact List.forall_mem_singleton.2 (hv.insert htype ha)
        · exact List.forall_mem_nil _

/-- **A well-typed statement answers**, and keeps the kinds. -/
theorem exists_executeOn (hs : s.WellTyped p) (hv : p.Kinded v) :
    ∃ vs, p.executeOn maxEnum prec s v = .ok vs ∧ ∀ w ∈ vs, p.Kinded w := by
  cases hs with
  | assume hcond => exact exists_assumeOn hcond hv
  | @assign x type e htype he =>
    rw [executeOn, assignOn]
    split
    · exact ⟨[v], rfl, List.forall_mem_singleton.2 hv⟩
    · obtain ⟨r, hr, hk⟩ := he.exists_eval hv
      rw [hr]
      cases r with
      | some a => exact ⟨_, rfl, List.forall_mem_singleton.2 (hv.insert htype (hk a rfl))⟩
      | none => exact ⟨_, rfl, List.forall_mem_singleton.2 hv.erase⟩
  | @havoc x type htype =>
    rw [executeOn, havocOn]
    split
    · exact ⟨_, rfl, List.forall_mem_singleton.2 hv.erase⟩
    · rw [htype]
      refine ⟨_, rfl, ?_⟩
      split
      · refine List.forall_mem_map.2 fun a ha ↦ hv.insert htype ?_
        exact VarType.kind_of_contains (VarType.mem_values.1 ha)
      · exact List.forall_mem_singleton.2 hv.erase

/-- **Well-typed statements answer**, and keep the kinds. -/
theorem exists_executeAll {body : List Statement} (hbody : ∀ s ∈ body, s.WellTyped p)
    (hvs : ∀ v ∈ vs, p.Kinded v) :
    ∃ ws, p.executeAll maxEnum prec vs body = .ok ws ∧ ∀ w ∈ ws, p.Kinded w := by
  induction body generalizing vs with
  | nil => exact ⟨vs, rfl, hvs⟩
  | cons s rest ih =>
    obtain ⟨hs, hrest⟩ := List.forall_mem_cons.1 hbody
    obtain ⟨us, hus, hkinds⟩ := exists_flatMapM (f := p.executeOn maxEnum prec s)
      fun v hv ↦ exists_executeOn hs (hvs v hv)
    obtain ⟨ws, hws, hkinds⟩ := ih hrest hkinds
    exact ⟨ws, bind_eq_ok.2 ⟨us, hus, hws⟩, hkinds⟩

/-! ### The analysis of values -/

/-- What is known is of the declared kinds. -/
def KindedKnowledge (p : Program) (k : Knowledge) : Prop := ∀ ⦃v⦄, k = .known v → p.Kinded v

/-- Only declared variables are tracked. -/
def Declares (p : Program) (prec : TrackedVars) : Prop :=
  ∀ ⦃x⦄, prec.tracks x = true → ∃ type, p.varType x = .ok type

variable (maxEnum) in
/-- Declared variables can be enumerated. -/
theorem exists_enumerableVars {xs : List VarId} (h : ∀ x ∈ xs, ∃ type, p.varType x = .ok type) :
    ∃ vars, p.enumerableVars maxEnum xs = .ok vars := by
  induction xs with
  | nil => exact ⟨[], rfl⟩
  | cons x xs ih =>
    obtain ⟨⟨type, htype⟩, hxs⟩ := List.forall_mem_cons.1 h
    obtain ⟨others, hothers⟩ := ih hxs
    exact ⟨_, bind_eq_ok.2 ⟨type, htype, bind_eq_ok.2 ⟨others, hothers, rfl⟩⟩⟩

/-- Initial knowledge is of the right kinds. -/
theorem kinded_of_initial {ks : List Knowledge}
    (h : (p.valueAnalysis maxEnum).initial prec = .ok ks) : ∀ k ∈ ks, p.KindedKnowledge k := by
  intro k hk
  obtain ⟨vars, hvars, rfl⟩ := initialKnowledge_eq_ok (orFault_eq_ok.1 h)
  obtain ⟨w, hw, rfl⟩ := List.mem_map.1 hk
  rintro _ ⟨⟩
  refine forall_mem_foldl_bindOne (fun xt hxt v a ha hv ↦ ?_)
    (List.forall_mem_singleton.2 kinded_empty) w hw
  exact hv.insert (hvars xt hxt).2 (VarType.kind_of_contains (VarType.mem_values.1 ha))

variable (maxEnum) in
/-- **There is initial knowledge**, of the declared kinds, unless there is no room for it. -/
theorem exists_initial_or_crowds (h : p.Declares prec) :
    (∃ ks, (p.valueAnalysis maxEnum).initial prec = .ok ks ∧ ∀ k ∈ ks, p.KindedKnowledge k) ∨
      p.Crowds maxEnum prec ∧
        (p.valueAnalysis maxEnum).initial prec = .error (.fault .beyondMemory) := by
  have hdeclared : ∀ x ∈ prec.vars.toList, ∃ type, p.varType x = .ok type :=
    fun x hx ↦ h (decide_eq_true hx)
  obtain ⟨vars, hvars⟩ := exists_enumerableVars maxEnum hdeclared
  have hinitial := initialKnowledge_eq hvars
  have hok : ∀ {ks}, p.initialKnowledge maxEnum prec = .ok ks →
      ∃ ks, (p.valueAnalysis maxEnum).initial prec = .ok ks ∧ ∀ k ∈ ks, p.KindedKnowledge k :=
    fun hks ↦ ⟨_, orFault_eq_ok.2 hks, kinded_of_initial (orFault_eq_ok.2 hks)⟩
  split at hinitial
  · exact .inl (hok hinitial)
  · rename_i hestimate
    split at hinitial
    · exact .inl (hok hinitial)
    · rename_i hroom
      exact .inr ⟨⟨vars, hvars, Nat.le_of_not_lt hestimate, Nat.lt_of_not_le hroom⟩,
        orFault_eq_error.2 ⟨_, hinitial, rfl⟩⟩

variable (maxEnum prec) in
/-- **There are successors along every edge**, of the declared kinds. -/
theorem exists_successors (htyped : p.WellTyped) {k : Knowledge} (hk : p.KindedKnowledge k)
    {m : Move} {e : Edge} (he : p.edge m.edge = .ok e) :
    ∃ ks, (p.valueAnalysis maxEnum).successors k m prec = .ok ks ∧
      ∀ k' ∈ ks, p.KindedKnowledge k' := by
  cases k with
  | bottom => exact ⟨[], rfl, List.forall_mem_nil _⟩
  | known v =>
    obtain ⟨ws, hws, hkinds⟩ : ∃ ws, p.executeAll maxEnum prec [v] e.body = .ok ws ∧
        ∀ w ∈ ws, p.Kinded w :=
      exists_executeAll (htyped e (mem_of_edge he)) (List.forall_mem_singleton.2 (hk rfl))
    refine ⟨ws.map .known, bind_eq_ok.2 ⟨e, orFault_eq_ok.2 he, bind_eq_ok.2 ⟨ws, hws, rfl⟩⟩,
      List.forall_mem_map.2 fun w hw ↦ ?_⟩
    rintro _ ⟨⟩
    exact hkinds w hw

end Program

end AbstractionRefinement
