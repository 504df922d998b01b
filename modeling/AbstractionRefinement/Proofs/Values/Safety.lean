import AbstractionRefinement.Proofs.Safety
import AbstractionRefinement.Proofs.Values.Transfer
import AbstractionRefinement.Values.Check

/-!
# What a safe report on a program shows

The error location of a program that is reported safe cannot be reached by an execution that never
strays: one that compares tracked variables only while their values lie in their declared ranges
(`Program.error_unreachable_of_safe`). The condition cannot be dropped: an assignment may take a
variable out of its range, and the analysis then drops the comparison that leads to the error
(`Program.overrun_safe`). It is sufficient and not meant to be the weakest possible. An execution
that strays is lost only if the analysis does not know the value of the variable at that point,
which depends on the precision and on the path; while the value is known, the comparison is
evaluated as it should be.

No condition on executions is left for a program whose edges keep every variable in its range
(`Program.reachable_of_keepsRanges`): it never strays, and a safe report excludes all that it can
do.
-/

namespace AbstractionRefinement

namespace Program

variable {p : Program}

theorem Strays.mono {prec prec' : TrackedVars} {s : Statement} {σ : Store}
    (h : p.Strays prec s σ) (hle : ∀ x, prec.tracks x = true → prec'.tracks x = true) :
    p.Strays prec' s σ := by
  obtain ⟨a, b, x, type, rfl, hx, htrack, hrest⟩ := h
  exact ⟨a, b, x, type, rfl, hx, hle x htrack, hrest⟩

theorem ExecAll.mono {ok ok' : Statement → Store → Prop} {body : List Statement} {σ τ : Store}
    (h : p.ExecAll ok body σ τ) (hok : ∀ s σ, ok s σ → ok' s σ) : p.ExecAll ok' body σ τ := by
  induction h with
  | nil => exact .nil
  | cons hs hexec _ ih => exact .cons (hok _ _ hs) hexec ih

/-- The more variables are tracked, the more executions count as straying. -/
theorem narrows_system : Checker.Narrows
    (fun prec : ProgramPrecision ↦ p.system fun s σ ↦ ¬p.Strays prec.second s σ) FitsState where
  initial _ h := h
  step {q r c m c'} hfiner h := by
    obtain ⟨e, he, hm, hs, ht, hexec⟩ := h
    refine ⟨e, he, hm, hs, ht, hexec.mono fun s σ hns hstray ↦ hns (hstray.mono fun x hx ↦ ?_)⟩
    exact decide_eq_true (IndexSet.isSubset_iff.1 hfiner x (of_decide_eq_true hx))
  fit {q r st} hfiner hfit v hv x a hx :=
    decide_eq_true (IndexSet.isSubset_iff.1 hfiner x (of_decide_eq_true (hfit hv hx)))

/-! ### Programs that keep their ranges -/

/-- However statements are executed from values of the declared types, every statement on the way
and the end find values of the declared types. -/
def KeepsRanges (p : Program) (body : List Statement) : Prop :=
  ∀ σ τ, p.InType σ → p.ExecAll (fun _ _ ↦ True) body σ τ →
    p.ExecAll (fun _ ρ ↦ p.InType ρ) body σ τ ∧ p.InType τ

theorem not_strays_of_inType {prec : TrackedVars} {s : Statement} {σ : Store} (h : p.InType σ) :
    ¬p.Strays prec s σ := by
  rintro ⟨-, -, x, type, -, -, -, htype, hout⟩
  cases (h htype).symm.trans hout

/-- **A program whose edges keep their ranges never strays**: whatever it reaches, it reaches
without straying. -/
theorem reachable_of_keepsRanges (h : ∀ e ∈ p.edges, p.KeepsRanges e.body) {prec : TrackedVars}
    {c : Config} (hc : p.concrete.Reachable c) :
    (p.system fun s σ ↦ ¬p.Strays prec s σ).Reachable c := by
  suffices hboth : (p.system fun s σ ↦ ¬p.Strays prec s σ).Reachable c ∧ p.InType c.store from
    hboth.1
  induction hc with
  | initial hinit => exact ⟨.initial hinit, hinit.2⟩
  | step _ hstep ih =>
    obtain ⟨e, he, hm, hs, ht, hexec⟩ := hstep
    obtain ⟨hin, hend⟩ := h e he _ _ ih.2 hexec
    exact ⟨.step ih.1 ⟨e, he, hm, hs, ht, hin.mono fun _ _ ↦ not_strays_of_inType⟩, hend⟩

/-! ### Safe reports -/

/-- **A safe report excludes every execution that does not stray.** -/
theorem error_unreachable_of_safe {d : Draft} (hbuild : d.build = .ok p) {o : ProgramOptions}
    {meter : Meter} {clock : Clock} {turns : Nat}
    {report : Report ProgramState Move ProgramPrecision (List Valuation)} {prec : ProgramPrecision}
    (h : p.check o meter clock turns = some (.ok report)) (hsafe : report.conclusion = .safe prec)
    {c : Config} (hc : (p.system fun s σ ↦ ¬p.Strays prec.second s σ).Reachable c) :
    c.location ≠ p.error := by
  have hedge : ∀ e ∈ p.edges, p.edge e.id = .ok e := fun e he ↦ d.edge_of_build hbuild he
  exact Checker.not_target_of_run (fun prec ↦ simulates_model hedge) narrows_system h hsafe hc

/-- Counts from zero in steps of two, and stops before five; three would be the error. -/
def ascent : Draft where
  vars := [⟨"x", .int 0 4⟩]
  locations := ["A", "B", "C"]
  edges :=
    [⟨0, 1, [.assign 0 (.const (.int 0))]⟩,
      ⟨1, 1, [.assume (.compare .lt (.var 0) (.const (.int 3))),
        .assign 0 (.arith .add (.var 0) (.const (.int 2)))]⟩,
      ⟨1, 2, [.assume (.equal (.var 0) (.const (.int 3)))]⟩]
  init := some 0
  error := some 2

theorem inType_ascent (hp : ascent.build = .ok p) {σ : Store} :
    p.InType σ ↔ ∃ n, σ 0 = .int n ∧ 0 ≤ n ∧ n ≤ 4 := by
  cases hp
  constructor
  · intro h
    have hx : (VarType.int 0 4).contains (σ 0) = true := h rfl
    cases hn : σ 0 with
    | int n =>
      rw [hn] at hx
      simpa [VarType.contains] using hx
    | bool b =>
      rw [hn] at hx
      cases hx
  · rintro ⟨n, hn, hlow, hhigh⟩ x type hx
    cases x with
    | zero =>
      obtain rfl := Except.ok.inj hx
      simp [VarType.contains, hn, hlow, hhigh]
    | succ x => cases hx

/-- The counter is in its range all the time. -/
theorem keepsRanges_ascent (hp : ascent.build = .ok p) :
    ∀ e ∈ p.edges, p.KeepsRanges e.body := by
  have hin := fun {σ} ↦ inType_ascent hp (σ := σ)
  have hedges : p.edges = Draft.numberEdges 0 ascent.edges := (Draft.build_eq_ok hp).1
  intro e he σ τ hσ hexec
  rw [hedges] at he
  rcases List.mem_cons.1 he with rfl | he
  · -- the counter is set to zero
    obtain - | ⟨-, hs, ⟨⟩⟩ := hexec
    cases hs with
    | assign ha =>
      obtain rfl := Except.ok.inj ha
      exact ⟨.cons hσ (.assign rfl) .nil, hin.2 ⟨0, rfl, by decide, by decide⟩⟩
  rcases List.mem_cons.1 he with rfl | he
  · -- it is below three before two is added
    obtain - | ⟨-, hs, hrest⟩ := hexec
    obtain - | ⟨-, ht, ⟨⟩⟩ := hrest
    cases hs with
    | assume hc =>
      cases ht with
      | @assign _ _ a _ ha =>
        obtain ⟨n, hn, hlow, -⟩ := hin.1 hσ
        have hless : n < 3 := by
          change Expr.compareValues .lt (σ 0) (.int 3) = .ok (.bool true) at hc
          rw [hn] at hc
          exact of_decide_eq_true (Value.bool.inj (Except.ok.inj hc))
        have hsum : a = .int (n + 2) := by
          change Expr.arithValues .add (σ 0) (.int 2) = .ok a at ha
          rw [hn] at ha
          exact (Except.ok.inj ha).symm
        exact ⟨.cons hσ (.assume hc) (.cons hσ (.assign ha) .nil),
          hin.2 ⟨n + 2, Store.set_self.trans hsum, by grind, by grind⟩⟩
  · obtain rfl := List.mem_singleton.1 he
    obtain - | ⟨-, hs, ⟨⟩⟩ := hexec
    cases hs with
    | assume hc => exact ⟨.cons hσ (.assume hc) .nil, hσ⟩

/-- The comparison that leads to the error is within the range of the counter, and what excludes it
is the report alone: the first counterexample is spurious, and tracking the counter refutes it. -/
theorem ascent_error_unreachable : ∃ p report prec, ascent.build = .ok p ∧
    p.check {} {} {} 9 = some (.ok report) ∧ report.statistics.iterations = 2 ∧
    report.conclusion = .safe prec ∧ ∀ c, p.concrete.Reachable c → c.location ≠ p.error := by
  have hrun : (ascent.build.toOption.any fun p ↦ (p.check {} {} {} 9).any fun e ↦
      e.toOption.any fun report ↦ report.statistics.iterations = 2 ∧
        report.conclusion = .safe ⟨(), ⟨.ofList [0]⟩⟩) = true := by decide +kernel
  obtain ⟨p, hp, hrun⟩ := exists_of_toOption_any hrun
  obtain ⟨e, he, hrun⟩ := (Option.any_eq_true _ _).1 hrun
  obtain ⟨report, rfl, hreport⟩ := exists_of_toOption_any hrun
  obtain ⟨hiter, hsafe⟩ := of_decide_eq_true hreport
  exact ⟨p, report, _, hp, he, hiter, hsafe, fun c hc ↦
    error_unreachable_of_safe hp he hsafe (reachable_of_keepsRanges (keepsRanges_ascent hp) hc)⟩

/-- An assignment takes `x` out of its range `0..0` before it is compared. -/
def overrun : Draft where
  vars := [⟨"x", .int 0 0⟩, ⟨"y", .int 0 1⟩]
  locations := ["A", "B"]
  edges := [⟨0, 1, [.assign 0 (.var 1), .assume (.equal (.var 0) (.const (.int 1)))]⟩]
  init := some 0
  error := some 1

/-- **Executions that stray may be lost.** The report is safe, and yet the error location can be
reached: `y` may begin with one, which is assigned to `x`. -/
theorem overrun_safe : ∃ p report prec, overrun.build = .ok p ∧
    p.check { initial := ⟨.ofList [0]⟩ } {} {} 9 = some (.ok report) ∧
    report.conclusion = .safe prec ∧ ∃ c, p.concrete.Reachable c ∧ c.location = p.error := by
  refine ⟨_, _, _, rfl, rfl, rfl, ⟨1, fun _ ↦ .int 1⟩, ?_, rfl⟩
  refine .step (c := ⟨0, fun x ↦ .int (if x = 0 then 0 else 1)⟩) (.initial ⟨rfl, ?_⟩)
    ⟨_, List.mem_singleton.2 rfl, rfl, rfl, rfl, .cons trivial (.assign (a := .int 1) rfl) ?_⟩
  · rintro (_ | _ | x) type h
    · obtain rfl := Except.ok.inj h
      rfl
    · obtain rfl := Except.ok.inj h
      rfl
    · cases h
  · have hstore : Store.set (fun x ↦ Value.int (if x = 0 then 0 else 1)) 0 (.int 1) =
        fun _ ↦ .int 1 := by
      funext x
      rcases x with _ | x <;> rfl
    rw [hstore]
    exact .cons trivial (.assume rfl) .nil

end Program

end AbstractionRefinement
