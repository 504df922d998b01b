import AbstractionRefinement.Proofs.Values.Slicing

/-!
# States that know everything

The analysis of values loses nothing where nothing is unknown. Let a state bind all declared
variables, let all of them be tracked, and let the values that an edge may store arbitrarily be few
enough to be told apart. Then the successors along the edge are what its executions leave, and the
analysis stops exactly if one of these executions comes to a statement whose operands have the wrong
types (`Program.successors_eq_executions`).

The statements are executed one after the other on a list of valuations, while an execution is a
single path through all of them. `Program.Exact` is the judgement that joins the two: the valuations
listed are those of a set of stores, or a mismatch that is met by one of them is reported. It is
proved of one statement on one valuation (`Program.exact_executeOn`), then of several valuations
(`Program.exact_flatMapM`), then of several statements (`Program.exact_executeAll`).
-/

namespace AbstractionRefinement

/-! ### Stores on bound variables -/

namespace Store

variable {σ : Store} {v : Valuation} {x : VarId} {a : Value}

/-- What the store gives the variables that are bound. -/
def restrict (σ : Store) (v : Valuation) : Valuation :=
  ⟨v.toList.map fun b ↦ (b.1, σ b.1), List.pairwise_map.2 v.ascending⟩

@[simp] theorem find?_restrict : (σ.restrict v).find? x = (v.find? x).map fun _ ↦ σ x := by
  refine Option.ext fun a ↦ ?_
  simp only [IndexMap.find?_eq_some_iff, Option.map_eq_some_iff, restrict, List.mem_map,
    Prod.mk.injEq, Prod.exists]
  constructor
  · rintro ⟨_, b, hb, rfl, rfl⟩
    exact ⟨b, hb, rfl⟩
  · rintro ⟨b, hb, rfl⟩
    exact ⟨x, b, hb, rfl, rfl⟩

/-- A store that agrees with a valuation, restricted to its variables, is the valuation. -/
theorem restrict_of_extends (h : σ.Extends v) : σ.restrict v = v := by
  ext x : 1
  rw [find?_restrict]
  cases hx : v.find? x with
  | none => rfl
  | some a => rw [Option.map_some, h hx]

/-- Writing a bound variable. -/
theorem restrict_set (hx : v.contains x = true) :
    (σ.set x a).restrict v = (σ.restrict v).insert x a := by
  ext y : 1
  rw [find?_restrict, IndexMap.find?_insert]
  split
  · rename_i hyx
    obtain ⟨b, hb⟩ := Option.isSome_iff_exists.1 hx
    rw [hyx, hb, Option.map_some, set_self]
  · rename_i hyx
    rw [find?_restrict, set_of_ne hyx]

theorem knows_restrict {xs : IndexSet} (h : ∀ x ∈ xs, v.contains x = true) :
    σ.Knows (σ.restrict v) xs := by
  intro x hx
  obtain ⟨b, hb⟩ := Option.isSome_iff_exists.1 (h x hx)
  rw [find?_restrict, hb, Option.map_some]

end Store

/-! ### Mismatches -/

/-- What the statement evaluates has operands of the wrong types; a condition must be a truth
value. -/
def Statement.Mismatch (s : Statement) (σ : Store) (m : TypeMismatch) : Prop :=
  match s with
  | .assume condition => (condition.value σ >>= Value.asBool) = .error m
  | .assign _ e => e.value σ = .error m
  | .havoc _ => False

namespace Program

variable {p : Program} {maxEnum : Nat} {prec : TrackedVars} {σ : Store} {v : Valuation}
  {vs : List Valuation} {s : Statement} {body rest : List Statement} {m : TypeMismatch}

variable (p) in
/-- An execution of some of the statements comes to one that mismatches. -/
def GoesWrong (body : List Statement) (σ : Store) (m : TypeMismatch) : Prop :=
  ∃ done s rest τ, body = done ++ s :: rest ∧ p.Executes done σ τ ∧ s.Mismatch τ m

theorem not_goesWrong_nil : ¬p.GoesWrong [] σ m := by
  rintro ⟨done, s, rest, -, h, -⟩
  exact List.append_ne_nil_of_right_ne_nil done (List.cons_ne_nil s rest) h.symm

/-- Statements go wrong if the first does, or the others do after it. -/
theorem goesWrong_cons_iff : p.GoesWrong (s :: rest) σ m ↔
    s.Mismatch σ m ∨ ∃ τ, p.Exec s σ τ ∧ p.GoesWrong rest τ m := by
  constructor
  · rintro ⟨done, t, todo, τ, hbody, hdone, hm⟩
    cases done with
    | nil =>
      obtain ⟨rfl, -⟩ := List.cons.inj hbody
      cases hdone
      exact .inl hm
    | cons s' done =>
      obtain ⟨rfl, rfl⟩ := List.cons.inj hbody
      obtain ⟨ρ, hs, hdone⟩ := executes_cons_iff.1 hdone
      exact .inr ⟨ρ, hs, done, t, todo, τ, rfl, hdone, hm⟩
  · rintro (hm | ⟨ρ, hs, done, t, todo, τ, rfl, hdone, hm⟩)
    · exact ⟨[], s, rest, σ, rfl, .nil, hm⟩
    · exact ⟨s :: done, t, todo, τ, rfl, executes_cons_iff.2 ⟨ρ, hs, hdone⟩, hm⟩

/-! ### Exact outcomes -/

/-- The valuations are those of the stores in `S`. -/
def Lists (v : Valuation) (S : Store → Prop) (ws : List Valuation) : Prop :=
  ∀ w, w ∈ ws ↔ ∃ τ, S τ ∧ w = τ.restrict v

/-- The outcome lists the stores in `S` where no mismatch in `M` is met, and reports one that is met
otherwise. -/
def Exact (v : Valuation) (S : Store → Prop) (M : TypeMismatch → Prop) :
    Except Abort (List Valuation) → Prop
  | .ok ws => Lists v S ws ∧ ∀ m, ¬M m
  | .error a => ∃ m, M m ∧ a = .failure (.violation (.reported m.message))

theorem Exact.congr {S S' : Store → Prop} {M M' : TypeMismatch → Prop}
    {x : Except Abort (List Valuation)} (h : Exact v S M x) (hS : ∀ τ, S τ ↔ S' τ)
    (hM : ∀ m, M m ↔ M' m) : Exact v S' M' x := by
  obtain rfl : S = S' := funext fun τ ↦ propext (hS τ)
  obtain rfl : M = M' := funext fun m ↦ propext (hM m)
  exact h

/-! ### One statement -/

variable (p) in
/-- The statement reads variables that are bound and writes variables that are bound and tracked,
and the values that it may store arbitrarily are few enough to be told apart. -/
structure Determines (maxEnum : Nat) (prec : TrackedVars) (v : Valuation) (s : Statement) :
    Prop where
  /-- What is read is known. -/
  reads : ∀ x ∈ s.reads, v.contains x = true
  /-- What is written is known and stays so. -/
  writes : ∀ x ∈ s.writes, v.contains x = true ∧ prec.tracks x = true
  /-- Arbitrary values are told apart. -/
  few : ∀ x, s = .havoc x → ∃ type, p.varType x = .ok type ∧ type.size ≤ maxEnum

/-- **Assumptions** are executed exactly where their variables are known. -/
theorem exact_assumeOn {condition : Expr} (hs : p.Determines maxEnum prec v (.assume condition)) :
    Exact v (p.Exec (.assume condition) σ) (Statement.Mismatch (.assume condition) σ)
      (p.assumeOn prec condition (σ.restrict v)) := by
  rw [assumeOn, Expr.eval_eq_of_knows (Store.knows_restrict hs.reads)]
  have hvalue : ∀ {a}, condition.value σ = .ok a →
      ∀ m, Statement.Mismatch (.assume condition) σ m ↔ a.asBool = .error m := by
    intro a ha m
    rw [Statement.Mismatch, ha]
    rfl
  cases ha : condition.value σ with
  | error m =>
    refine ⟨m, ?_, rfl⟩
    rw [Statement.Mismatch, ha]
    rfl
  | ok a =>
    cases a with
    | int n => exact ⟨_, (hvalue ha _).2 rfl, rfl⟩
    | bool t =>
      refine ⟨fun w ↦ ⟨fun hw ↦ ?_, ?_⟩, fun m hm ↦ by cases (hvalue ha m).1 hm⟩
      · cases t with
        | false => cases hw
        | true => exact ⟨σ, .assume ha, List.mem_singleton.1 hw⟩
      · rintro ⟨τ, hτ, rfl⟩
        cases hτ with
        | assume htrue =>
          obtain rfl := Value.bool.inj (Except.ok.inj (ha.symm.trans htrue))
          exact List.mem_singleton.2 rfl

/-- **Assignments** are executed exactly where what they read is known and what they write is
tracked. -/
theorem exact_assignOn {x : VarId} {e : Expr} (hs : p.Determines maxEnum prec v (.assign x e)) :
    Exact v (p.Exec (.assign x e) σ) (Statement.Mismatch (.assign x e) σ)
      (assignOn prec x e (σ.restrict v)) := by
  obtain ⟨hx, htrack⟩ := hs.writes x rfl
  rw [assignOn, htrack, Expr.eval_eq_of_knows (Store.knows_restrict hs.reads)]
  cases ha : e.value σ with
  | error m => exact ⟨m, ha, rfl⟩
  | ok a =>
    refine ⟨fun w ↦ ⟨fun hw ↦ ?_, ?_⟩, fun m hm ↦ by cases ha.symm.trans hm⟩
    · refine ⟨_, .assign ha, ?_⟩
      rw [Store.restrict_set hx]
      exact List.mem_singleton.1 hw
    · rintro ⟨τ, hτ, rfl⟩
      cases hτ with
      | assign hb =>
        obtain rfl := Except.ok.inj (ha.symm.trans hb)
        exact List.mem_singleton.2 (Store.restrict_set hx)

/-- **Arbitrary values** are enumerated exactly where there are few of them. -/
theorem exact_havocOn {x : VarId} (hs : p.Determines maxEnum prec v (.havoc x)) :
    Exact v (p.Exec (.havoc x) σ) (Statement.Mismatch (.havoc x) σ)
      (p.havocOn maxEnum prec x (σ.restrict v)) := by
  obtain ⟨hx, htrack⟩ := hs.writes x rfl
  obtain ⟨type, htype, hfew⟩ := hs.few x rfl
  have hrun : p.havocOn maxEnum prec x (σ.restrict v) =
      .ok (type.values.map fun a ↦ (σ.restrict v).insert x a) := by
    rw [havocOn, htrack, htype]
    exact congrArg Except.ok (if_pos hfew)
  rw [hrun]
  refine ⟨fun w ↦ ⟨fun hw ↦ ?_, ?_⟩, fun m hm ↦ hm⟩
  · obtain ⟨a, ha, rfl⟩ := List.mem_map.1 hw
    exact ⟨_, .havoc htype (VarType.mem_values.1 ha), (Store.restrict_set hx).symm⟩
  · rintro ⟨τ, hτ, rfl⟩
    cases hτ with
    | @havoc _ type' a _ htype' ha =>
      obtain rfl := Except.ok.inj (htype.symm.trans htype')
      exact List.mem_map.2 ⟨a, VarType.mem_values.2 ha, (Store.restrict_set hx).symm⟩

/-- **One statement.** On the valuation of a store it lists what the statement leads to from there,
or reports that the statement mismatches. -/
theorem exact_executeOn (hs : p.Determines maxEnum prec v s) :
    Exact v (p.Exec s σ) (s.Mismatch σ) (p.executeOn maxEnum prec s (σ.restrict v)) := by
  cases s with
  | assume condition => exact exact_assumeOn hs
  | assign x e => exact exact_assignOn hs
  | havoc x => exact exact_havocOn hs

/-! ### Several valuations -/

/-- **Several valuations.** What is exact from each of the stores listed is exact from all of them
together. -/
theorem exact_flatMapM {S : Store → Prop} {E : Store → Store → Prop}
    {M : Store → TypeMismatch → Prop} {f : Valuation → Except Abort (List Valuation)}
    (hvs : Lists v S vs) (hf : ∀ τ, Exact v (E τ) (M τ) (f (τ.restrict v))) :
    Exact v (fun ρ ↦ ∃ τ, S τ ∧ E τ ρ) (fun m ↦ ∃ τ, S τ ∧ M τ m) (vs.flatMapM f) := by
  cases hrun : vs.flatMapM f with
  | error a =>
    obtain ⟨w, hw, hfw⟩ := exists_of_flatMapM_eq_error hrun
    obtain ⟨τ, hτ, rfl⟩ := (hvs w).1 hw
    obtain ⟨m, hm, rfl⟩ : Exact v (E τ) (M τ) (.error a) := hfw ▸ hf τ
    exact ⟨m, ⟨τ, hτ, hm⟩, rfl⟩
  | ok ws =>
    obtain ⟨parts, hparts, rfl⟩ := flatMapM_eq_ok hrun
    -- every store listed has its part, which is exact
    have hpart : ∀ τ, S τ → ∃ part ∈ parts, Lists v (E τ) part ∧ ∀ m, ¬M τ m := by
      intro τ hτ
      obtain ⟨part, hmem, hok⟩ :=
        exists_of_forall₂_of_mem_left hparts ((hvs _).2 ⟨τ, hτ, rfl⟩)
      exact ⟨part, hmem, (hok ▸ hf τ : Exact v (E τ) (M τ) (.ok part))⟩
    refine ⟨fun w ↦ ⟨fun hw ↦ ?_, ?_⟩, ?_⟩
    · obtain ⟨part, hmem, hw⟩ := List.mem_flatten.1 hw
      obtain ⟨u, hu, hok⟩ := exists_of_forall₂_of_mem_right hparts hmem
      obtain ⟨τ, hτ, rfl⟩ := (hvs u).1 hu
      obtain ⟨hlists, -⟩ : Exact v (E τ) (M τ) (.ok part) := hok ▸ hf τ
      obtain ⟨ρ, hρ, rfl⟩ := (hlists w).1 hw
      exact ⟨ρ, ⟨τ, hτ, hρ⟩, rfl⟩
    · rintro ⟨ρ, ⟨τ, hτ, hρ⟩, rfl⟩
      obtain ⟨part, hmem, hlists, -⟩ := hpart τ hτ
      exact List.mem_flatten.2 ⟨part, hmem, (hlists _).2 ⟨ρ, hρ, rfl⟩⟩
    · rintro m ⟨τ, hτ, hm⟩
      obtain ⟨part, -, -, hno⟩ := hpart τ hτ
      exact hno m hm

/-! ### Several statements -/

/-- **Several statements.** From the stores listed, the statements lead to the stores listed at the
end, unless one of the executions goes wrong. -/
theorem exact_executeAll {S : Store → Prop} (hbody : ∀ s ∈ body, p.Determines maxEnum prec v s)
    (hvs : Lists v S vs) :
    Exact v (fun ρ ↦ ∃ τ, S τ ∧ p.Executes body τ ρ) (fun m ↦ ∃ τ, S τ ∧ p.GoesWrong body τ m)
      (p.executeAll maxEnum prec vs body) := by
  induction body generalizing vs S with
  | nil =>
    refine ⟨fun w ↦ (hvs w).trans (exists_congr fun ρ ↦ and_congr_left fun _ ↦ ?_), ?_⟩
    · constructor
      · exact fun hρ ↦ ⟨ρ, hρ, .nil⟩
      · rintro ⟨τ, hτ, hexec⟩
        cases hexec
        exact hτ
    · rintro m ⟨τ, -, hm⟩
      exact not_goesWrong_nil hm
  | cons s rest ih =>
    obtain ⟨hs, hrest⟩ := List.forall_mem_cons.1 hbody
    have hstep := exact_flatMapM hvs fun τ ↦ exact_executeOn (σ := τ) hs
    rw [executeAll, executeOnEach]
    cases hrun : vs.flatMapM (p.executeOn maxEnum prec s) with
    | error a =>
      rw [hrun] at hstep
      obtain ⟨m, ⟨τ, hτ, hm⟩, rfl⟩ := hstep
      exact ⟨m, ⟨τ, hτ, goesWrong_cons_iff.2 (.inl hm)⟩, rfl⟩
    | ok ws =>
      rw [hrun] at hstep
      obtain ⟨hws, hno⟩ := hstep
      refine (ih hrest hws).congr (fun ρ ↦ ?_) fun m ↦ ?_
      · constructor
        · rintro ⟨μ, ⟨τ, hτ, hs⟩, hexec⟩
          exact ⟨τ, hτ, executes_cons_iff.2 ⟨μ, hs, hexec⟩⟩
        · rintro ⟨τ, hτ, hexec⟩
          obtain ⟨μ, hs, hexec⟩ := executes_cons_iff.1 hexec
          exact ⟨μ, ⟨τ, hτ, hs⟩, hexec⟩
      · constructor
        · rintro ⟨μ, ⟨τ, hτ, hs⟩, hm⟩
          exact ⟨τ, hτ, goesWrong_cons_iff.2 (.inr ⟨μ, hs, hm⟩)⟩
        · rintro ⟨τ, hτ, hm⟩
          rcases goesWrong_cons_iff.1 hm with hm | ⟨μ, hs, hm⟩
          · exact (hno m ⟨τ, hτ, hm⟩).elim
          · exact ⟨μ, ⟨τ, hτ, hs⟩, hm⟩

/-! ### Edges -/

/-- The statements of an edge of a built program are determined by a state that knows all declared
variables. -/
theorem determines_of_build {d : Draft} (hbuild : d.build = .ok p) {e : Edge} (he : e ∈ p.edges)
    (hprec : ∀ ⦃x type⦄, p.varType x = .ok type → prec.tracks x = true)
    (hv : ∀ ⦃x type⦄, p.varType x = .ok type → v.contains x = true)
    (henum : ∀ ⦃x type⦄, .havoc x ∈ e.body → p.varType x = .ok type → type.size ≤ maxEnum) :
    ∀ s ∈ e.body, p.Determines maxEnum prec v s := by
  intro s hs
  refine ⟨fun x hx ↦ ?_, fun x hx ↦ ?_, ?_⟩
  · obtain ⟨type, htype⟩ := Draft.exists_varType_of_build hbuild he hs (.inl hx)
    exact hv htype
  · obtain ⟨type, htype⟩ := Draft.exists_varType_of_build hbuild he hs (.inr hx)
    exact ⟨hv htype, hprec htype⟩
  · rintro x rfl
    obtain ⟨type, htype⟩ := Draft.exists_varType_of_build hbuild he hs (.inr rfl)
    exact ⟨type, htype, henum hs htype⟩

/-- What the analysis of values answers at an edge. -/
theorem successors_known {d : Draft} (hbuild : d.build = .ok p) {e : Edge} (he : e ∈ p.edges) :
    (p.valueAnalysis maxEnum).successors (.known v) e.move prec =
      (p.executeAll maxEnum prec [v] e.body).map (List.map .known) := by
  show (orFault (p.edge e.id) >>= fun edge ↦ p.executeAll maxEnum prec [v] edge.body >>= fun vs ↦
    pure (vs.map Knowledge.known)) = _
  rw [Draft.edge_of_build hbuild he]
  show (p.executeAll maxEnum prec [v] e.body >>= fun vs ↦ pure (vs.map Knowledge.known)) = _
  cases p.executeAll maxEnum prec [v] e.body <;> rfl

/-- **On states that know everything the analysis is exact.** The successors along an edge are what
its executions leave, and there are none besides; the analysis stops exactly if an execution comes
to a statement that mismatches, and then reports such a mismatch. -/
theorem successors_eq_executions {d : Draft} (hbuild : d.build = .ok p) {e : Edge}
    (he : e ∈ p.edges) (hprec : ∀ ⦃x type⦄, p.varType x = .ok type → prec.tracks x = true)
    (hv : ∀ ⦃x type⦄, p.varType x = .ok type → v.contains x = true)
    (henum : ∀ ⦃x type⦄, .havoc x ∈ e.body → p.varType x = .ok type → type.size ≤ maxEnum)
    (hσ : σ.Extends v) :
    (∀ ks, (p.valueAnalysis maxEnum).successors (.known v) e.move prec = .ok ks →
      .bottom ∉ ks ∧ ∀ k, k ∈ ks ↔ ∃ τ, p.Executes e.body σ τ ∧ k = .known (τ.restrict v)) ∧
    ((∃ a, (p.valueAnalysis maxEnum).successors (.known v) e.move prec = .error a) ↔
      ∃ m, p.GoesWrong e.body σ m) ∧
    ∀ a, (p.valueAnalysis maxEnum).successors (.known v) e.move prec = .error a →
      ∃ m, p.GoesWrong e.body σ m ∧ a = .failure (.violation (.reported m.message)) := by
  have hstart : Lists v (· = σ) [v] := by
    intro w
    rw [List.mem_singleton, exists_eq_left, Store.restrict_of_extends hσ]
  have hexact := (exact_executeAll (determines_of_build hbuild he hprec hv henum) hstart).congr
    (fun τ ↦ exists_eq_left) fun m ↦ exists_eq_left
  rw [successors_known hbuild he]
  cases hrun : p.executeAll maxEnum prec [v] e.body with
  | error a =>
    rw [hrun] at hexact
    obtain ⟨m, hm, rfl⟩ := hexact
    exact ⟨fun ks hks ↦ (by cases hks), iff_of_true ⟨_, rfl⟩ ⟨m, hm⟩,
      fun a ha ↦ ⟨m, hm, (Except.error.inj ha).symm⟩⟩
  | ok ws =>
    rw [hrun] at hexact
    obtain ⟨hlists, hno⟩ := hexact
    refine ⟨fun ks hks ↦ ?_, iff_of_false (fun ⟨a, ha⟩ ↦ by cases ha) fun ⟨m, hm⟩ ↦ hno m hm,
      fun a ha ↦ by cases ha⟩
    obtain rfl := Except.ok.inj hks
    refine ⟨fun hbottom ↦ ?_, fun k ↦ List.mem_map.trans ⟨?_, ?_⟩⟩
    · obtain ⟨w, -, hw⟩ := List.mem_map.1 hbottom
      cases hw
    · rintro ⟨w, hw, rfl⟩
      obtain ⟨τ, hτ, rfl⟩ := (hlists w).1 hw
      exact ⟨τ, hτ, rfl⟩
    · rintro ⟨τ, hτ, rfl⟩
      exact ⟨_, (hlists _).2 ⟨τ, hτ, rfl⟩, rfl⟩

/-! ### An example -/

/-- One edge stores arbitrary values, one of them taken out of its range and the other one stored
twice; the other edge comes to a condition that is a number. -/
def scatter : Draft where
  vars := [⟨"x", .int 0 1⟩, ⟨"b", .bool⟩]
  locations := ["A", "B"]
  edges :=
    [⟨0, 1, [.havoc 0, .assign 0 (.arith .add (.var 0) (.const (.int 5))), .havoc 1, .havoc 1,
        .assume (.disj (.var 1) (.equal (.var 0) (.const (.int 6))))]⟩,
      ⟨0, 1, [.havoc 1, .assume (.var 1), .assume (.var 0)]⟩]
  init := some 0
  error := some 1

/-- All variables are known. -/
def scatterStart : Valuation := .ofList [(0, .int 0), (1, .bool false)]

/-- The whole statement at both edges. The first one has three successors, listed with repetitions;
of the two executions along the second one, one goes wrong. -/
theorem scatter_exact : ∃ p e f σ ks, scatter.build = .ok p ∧ p.edges = [e, f] ∧
    σ.Extends scatterStart ∧
    (p.valueAnalysis 2).successors (.known scatterStart) e.move ⟨.ofList [0, 1]⟩ = .ok ks ∧
    ks.dedup = [.known (.ofList [(0, .int 5), (1, .bool true)]),
      .known (.ofList [(0, .int 6), (1, .bool false)]),
      .known (.ofList [(0, .int 6), (1, .bool true)])] ∧
    (∀ k, k ∈ ks ↔ ∃ τ, p.Executes e.body σ τ ∧ k = .known (τ.restrict scatterStart)) ∧
    ∃ m, p.GoesWrong f.body σ m := by
  have hrun : (scatter.build.toOption.any fun p ↦
      (((p.valueAnalysis 2).successors (.known scatterStart) ⟨0, 0, 1⟩
        ⟨.ofList [0, 1]⟩).toOption.any fun ks ↦
          ks.dedup = [.known (.ofList [(0, .int 5), (1, .bool true)]),
            .known (.ofList [(0, .int 6), (1, .bool false)]),
            .known (.ofList [(0, .int 6), (1, .bool true)])]) &&
      ((p.valueAnalysis 2).successors (.known scatterStart) ⟨1, 0, 1⟩
        ⟨.ofList [0, 1]⟩).toOption.isNone) = true := by
    decide +kernel
  obtain ⟨p, hp, hrun⟩ := exists_of_toOption_any hrun
  obtain ⟨hrun, hwrong⟩ := Bool.and_eq_true_iff.1 hrun
  obtain ⟨ks, hks, hlist⟩ := exists_of_toOption_any hrun
  have htypes : ∀ ⦃x type⦄, p.varType x = .ok type → TrackedVars.tracks ⟨.ofList [0, 1]⟩ x = true ∧
      scatterStart.contains x = true ∧ type.size ≤ 2 := by
    cases hp
    rintro (_ | _ | x) type h
    · obtain rfl := Except.ok.inj h
      decide
    · obtain rfl := Except.ok.inj h
      decide
    · cases h
  obtain ⟨e, f, hedges, he, hf⟩ : ∃ e f, p.edges = [e, f] ∧ e.move = ⟨0, 0, 1⟩ ∧
      f.move = ⟨1, 0, 1⟩ := by
    cases hp
    exact ⟨_, _, rfl, rfl, rfl⟩
  rw [← he] at hks
  rw [← hf] at hwrong
  have hσ : (Store.override (fun _ ↦ .int 0) scatterStart).Extends scatterStart :=
    Store.extends_override
  obtain ⟨hanswers, -⟩ := successors_eq_executions hp (e := e) (hedges ▸ List.mem_cons_self)
    (fun x type h ↦ (htypes h).1) (fun x type h ↦ (htypes h).2.1)
    (fun x type _ h ↦ (htypes h).2.2) hσ
  obtain ⟨-, hstops, -⟩ := successors_eq_executions hp (e := f)
    (hedges ▸ List.mem_cons_of_mem e List.mem_cons_self) (fun x type h ↦ (htypes h).1)
    (fun x type h ↦ (htypes h).2.1) (fun x type _ h ↦ (htypes h).2.2) hσ
  refine ⟨p, e, f, _, ks, hp, hedges, hσ, hks, of_decide_eq_true hlist, (hanswers ks hks).2,
    hstops.1 ?_⟩
  cases hout : (p.valueAnalysis 2).successors (.known scatterStart) f.move ⟨.ofList [0, 1]⟩ with
  | error a => exact ⟨a, rfl⟩
  | ok ks =>
    rw [hout] at hwrong
    cases hwrong

end Program

end AbstractionRefinement
