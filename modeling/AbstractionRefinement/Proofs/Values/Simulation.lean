import AbstractionRefinement.Proofs.Program.Declarations
import AbstractionRefinement.Proofs.Program.Typing
import AbstractionRefinement.Proofs.Values.Transfer
import AbstractionRefinement.Values.Simulation

/-!
# Soundness of the simulation

A run of the simulation holds partial valuations: of the current state, and of each state passed.
Its meaning is in its completions. Fill in the unknown variables of all of them with the values of
one store `ρ`, the same for all: then the statements of each edge lead from one completion to the
next (`Program.Retraces`), for every `ρ` whose values are in their types (`Simulated.Justified`).

That one `ρ` serves all states is what makes writing back right. When a variable that is unknown now
gets a value, it gets it in every valuation back to the last one that knows it. For these valuations
this amounts to another choice of `ρ`; the valuation at which writing back stops does not depend on
the choice, so the two halves still fit.

The statements of the module go function by function: what forking over unknown variables leaves
(`Program.Resolves`), what one statement does to a run, and what a simulation of all statements
comes to. Each says that a run that is justified before is justified after. The converse, that no
execution is lost, is the subject of `Proofs.Values.Exactness`.

The order of runs and the bound on their number play no part in what a run means.
-/

namespace AbstractionRefinement

/-! ### Completions -/

/-- The store with the known values, and those of `ρ` elsewhere. -/
def Store.override (ρ : Store) (v : Valuation) : Store := fun x ↦ (v.find? x).getD (ρ x)

namespace Store

variable {ρ : Store} {v : Valuation} {x : VarId} {a : Value}

/-- A store overridden by a valuation agrees with it. -/
theorem extends_override : (ρ.override v).Extends v := by
  intro x a hx
  rw [override, hx, Option.getD_some]

/-- Entering a value overrides the store at one variable more. -/
theorem override_insert : ρ.override (v.insert x a) = (ρ.override v).set x a := by
  funext y
  rw [override, IndexMap.find?_insert, Store.set]
  split <;> rfl

/-- Forgetting a value gives the variable back its value in the store. -/
theorem override_erase : ρ.override (v.erase x) = (ρ.override v).set x (ρ x) := by
  funext y
  rw [override, IndexMap.find?_erase, Store.set]
  split
  · rename_i hy
    rw [hy, Option.getD_none]
  · rfl

/-- For an unknown variable, knowing a value is the same as filling it in. -/
theorem override_set_of_unknown (h : v.find? x = none) :
    (ρ.set x a).override v = ρ.override (v.insert x a) := by
  funext y
  rw [override, override, IndexMap.find?_insert]
  split
  · rename_i hy
    rw [hy, h, Option.getD_none, Option.getD_some, Store.set_self]
  · rename_i hy
    rw [Store.set_of_ne hy]

/-- What is filled in for a known variable does not matter. -/
theorem override_set_of_known (h : v.contains x = true) :
    (ρ.set x a).override v = ρ.override v := by
  obtain ⟨b, hb⟩ := Option.isSome_iff_exists.1 h
  funext y
  rw [override, override]
  by_cases hy : y = x
  · rw [hy, hb, Option.getD_some, Option.getD_some]
  · rw [Store.set_of_ne hy]

end Store

namespace Program

variable {p : Program} {ρ σ τ : Store} {x : VarId} {a : Value} {type : VarType}
  {now v : Valuation} {bodies : List (List Statement)} {history : List Valuation}

/-- A store of the declared types stays so when a variable is given a value of its type. -/
theorem InType.set (h : p.InType ρ) (htype : p.varType x = .ok type)
    (ha : type.contains a = true) : p.InType (ρ.set x a) := by
  intro y type' htype'
  by_cases hy : y = x
  · subst hy
    obtain rfl := Except.ok.inj (htype.symm.trans htype')
    rw [Store.set_self]
    exact ha
  · rw [Store.set_of_ne hy]
    exact h htype'

/-- Statements in order, without further conditions. -/
abbrev Executes (p : Program) : List Statement → Store → Store → Prop := p.ExecAll fun _ _ ↦ True

/-- Statements executed one after the other are executed together. -/
theorem ExecAll.append {ok : Statement → Store → Prop} {body rest : List Statement} {μ : Store}
    (h : p.ExecAll ok body σ τ) (hrest : p.ExecAll ok rest τ μ) :
    p.ExecAll ok (body ++ rest) σ μ := by
  induction h with
  | nil => exact hrest
  | cons hok hs _ ih => exact .cons hok hs (ih hrest)

/-! ### Retracing a history -/

variable (p ρ) in
/-- Completed by `ρ`, the valuations of a history are the states of an execution that ends in the
completion of `now`. History and statements between its states are given latest first. -/
inductive Retraces : Valuation → List (List Statement) → List Valuation → Prop
  /-- The first state has values of the declared types. -/
  | start {now : Valuation} (h : p.InType (ρ.override now)) : Retraces now [] []
  /-- Statements lead from the latest state passed to the current one. -/
  | step {now v : Valuation} {body : List Statement} {bodies : List (List Statement)}
      {earlier : List Valuation} (h : p.Executes body (ρ.override v) (ρ.override now))
      (hrest : Retraces v bodies earlier) : Retraces now (body :: bodies) (v :: earlier)

namespace Retraces

/-- Well-typed statements lead to values of the declared kinds. -/
theorem wellKinded (h : p.Retraces ρ now bodies history)
    (hbodies : ∀ body ∈ bodies, ∀ s ∈ body, s.WellTyped p) : p.WellKinded (ρ.override now) := by
  induction h with
  | start h => exact h.wellKinded
  | step h _ ih =>
    obtain ⟨hbody, hrest⟩ := List.forall_mem_cons.1 hbodies
    exact h.wellKinded hbody (ih hrest)

/-- One more statement. -/
theorem snoc {body : List Statement} {s : Statement} {next : Valuation}
    (h : p.Retraces ρ now (body :: bodies) history)
    (hs : p.Exec s (ρ.override now) (ρ.override next)) :
    p.Retraces ρ next ((body ++ [s]) :: bodies) history := by
  cases h with
  | step h hrest => exact .step (h.append (.cons trivial hs .nil)) hrest

/-- **Writing back.** An unknown variable may get a value, back to the last state that knows it. -/
theorem bindBack (h : p.Retraces ρ now bodies history)
    (hset : p.Retraces (ρ.set x a) now bodies history) (hx : now.find? x = none) :
    p.Retraces ρ (now.insert x a) bodies (Simulated.bindBack x a history) := by
  induction h with
  | start h =>
    cases hset with
    | start hset =>
      rw [Store.override_set_of_unknown hx] at hset
      exact .start hset
  | @step now v body bodies earlier h hrest ih =>
    cases hset with
    | step hset hsetrest =>
      rw [Store.override_set_of_unknown hx] at hset
      rw [Simulated.bindBack]
      split
      · -- the state knows the variable, so it is the same under both completions
        rename_i hknown
        rw [Store.override_set_of_known hknown] at hset
        exact .step hset hrest
      · rename_i hunknown
        have hunknown : v.find? x = none := Option.not_isSome_iff_eq_none.1 hunknown
        rw [Store.override_set_of_unknown hunknown] at hset
        exact .step hset (ih hsetrest hunknown)

end Retraces

end Program

/-! ### Runs -/

namespace Simulated

variable {p : Program} {r r' : Simulated} {x : VarId} {a : Value} {type : VarType}
  {body : List Statement} {bodies : List (List Statement)}

/-- However the unknown variables are filled in, the run is an execution of these statements, given
latest first. -/
structure Justified (p : Program) (r : Simulated) (bodies : List (List Statement)) : Prop where
  /-- There is one valuation for each state passed. -/
  length_eq : r.history.length = bodies.length
  /-- Every completion is an execution. -/
  retraces : ∀ {ρ}, p.InType ρ → p.Retraces ρ r.values bodies r.history.reverse

/-- Before any statement, the first state is passed. -/
theorem justified_start : (({} : Simulated).reach 0).Justified p [[]] where
  length_eq := rfl
  retraces hρ := .step .nil (.start hρ)

theorem length_bindBack {history : List Valuation} :
    (bindBack x a history).length = history.length := by
  induction history with
  | nil => rfl
  | cons v earlier ih =>
    rw [bindBack]
    split
    · rfl
    · rw [List.length_cons, List.length_cons, ih]

/-- A variable that is unknown now gets a value of its type. -/
def Binds (p : Program) (r r' : Simulated) : Prop :=
  ∃ x a type, r.values.find? x = none ∧ p.varType x = .ok type ∧ type.contains a = true ∧
    r' = r.bind x a

/-- **Choosing a value keeps a run justified.** -/
theorem Justified.binds (h : r.Justified p bodies) (hr : r.Binds p r') : r'.Justified p bodies := by
  obtain ⟨x, a, type, hx, htype, ha, rfl⟩ := hr
  refine ⟨?_, fun {ρ} hρ ↦ ?_⟩
  · rw [bind, List.length_reverse, length_bindBack, List.length_reverse]
    exact h.length_eq
  · have hback := (h.retraces hρ).bindBack (h.retraces (hρ.set htype ha)) hx
    rw [bind, List.reverse_reverse]
    exact hback

/-- Entering values that were left open keeps a run justified. -/
theorem Justified.of_binds (h : r.Justified p bodies) (hr : Relation.ReflTransGen (Binds p) r r') :
    r'.Justified p bodies := by
  induction hr with
  | refl => exact h
  | tail _ hstep ih => exact ih.binds hstep

/-- One more statement, executed in every completion. -/
theorem Justified.snoc {s : Statement} {values : Valuation}
    (h : r.Justified p (body :: bodies))
    (hs : ∀ {ρ}, p.InType ρ → p.Exec s (ρ.override r.values) (ρ.override values)) :
    ({ r with values } : Simulated).Justified p ((body ++ [s]) :: bodies) :=
  ⟨h.length_eq, fun hρ ↦ (h.retraces hρ).snoc (hs hρ)⟩

/-! ### Passing states -/

/-- Following a run to one position and on to another comes to the latter. -/
theorem reach_reach {i j : Nat} (h : i ≤ j) : (r.reach i).reach j = r.reach j := by
  rw [reach, reach, reach, List.length_append, List.length_replicate, List.append_assoc,
    List.replicate_append_replicate]
  congr 3
  omega

/-- A run has got no further than its history. -/
theorem reach_of_length {i : Nat} (h : i + 1 ≤ r.history.length) : r.reach i = r := by
  rw [reach, Nat.sub_eq_zero_of_le h, List.replicate_zero, List.append_nil]

/-- Passing one more state. -/
theorem Justified.reach_succ {i : Nat} (h : r.Justified p bodies) (hi : bodies.length = i) :
    (r.reach i).Justified p ([] :: bodies) := by
  have hone : i + 1 - r.history.length = 1 := by
    rw [h.length_eq, hi, Nat.add_sub_cancel_left]
  rw [reach, hone]
  refine ⟨?_, fun hρ ↦ ?_⟩
  · rw [List.length_append, h.length_eq]
    rfl
  · show p.Retraces _ r.values ([] :: bodies) (r.history ++ [r.values]).reverse
    rw [List.reverse_append]
    exact .step .nil (h.retraces hρ)

end Simulated

namespace Program

variable {p : Program} {maxRuns : Nat} {r : Simulated} {e : Expr} {body : List Statement}
  {bodies : List (List Statement)}

/-! ### Forking -/

/-- A value that an expression takes after unknown variables were chosen. -/
def Resolves (p : Program) (e : Expr) (r : Simulated) (rv : Simulated × Value) : Prop :=
  Relation.ReflTransGen (Simulated.Binds p) r rv.1 ∧ e.eval rv.1.values = .ok (some rv.2)

/-- What forking comes to: the expression has a value, or each value of its first unknown variable
is tried in turn. -/
theorem resolveFrom_eq_ok {unknown : List VarId} {pending : Nat}
    {out res : Array (Simulated × Value)}
    (h : p.resolveFrom maxRuns e unknown pending out r = .ok res) :
    (∃ a, e.eval r.values = .ok (some a) ∧ res = out.push (r, a)) ∨
      ∃ x rest type acc, unknown = x :: rest ∧ p.varType x = .ok type ∧
        type.values.foldlM (fun acc a ↦ do
          let out ← p.resolveFrom maxRuns e rest (pending + (acc.1 - 1)) acc.2 (r.bind x a)
          return (acc.1 - 1, out)) (type.count, out) = .ok acc ∧ res = acc.2 := by
  rw [resolveFrom.eq_def] at h
  obtain ⟨value, hvalue, h⟩ := bind_eq_ok.1 h
  cases value with
  | some a => exact .inl ⟨a, orMismatch_eq_ok.1 hvalue, (Except.ok.inj h).symm⟩
  | none =>
    cases unknown with
    | nil => cases h
    | cons x rest =>
      obtain ⟨type, htype, h⟩ := bind_eq_ok.1 h
      dsimp only at h
      split at h
      · cases h
      obtain ⟨_, -, h⟩ := bind_eq_ok.1 h
      split at h
      · cases h
      obtain ⟨acc, hacc, h⟩ := bind_eq_ok.1 h
      exact .inr ⟨x, rest, type, acc, rfl, orFault_eq_ok.1 htype, hacc, (Except.ok.inj h).symm⟩

/-- Choosing one unknown variable leaves the others unknown. -/
theorem unknown_bind {x : VarId} {rest : List VarId} {a : Value} (hnodup : (x :: rest).Nodup)
    (hunknown : ∀ y ∈ x :: rest, r.values.find? y = none) :
    ∀ y ∈ rest, (r.bind x a).values.find? y = none := by
  intro y hy
  have hyx : y ≠ x := fun hyx ↦ (List.nodup_cons.1 hnodup).1 (hyx ▸ hy)
  rw [Simulated.bind, IndexMap.find?_insert, if_neg hyx]
  exact hunknown y (List.mem_cons_of_mem x hy)

/-- **What an expression resolves to** is made of runs that enter values for its unknown variables,
and its value on them. -/
theorem resolves_resolveFrom {unknown : List VarId} {pending : Nat}
    {out res : Array (Simulated × Value)}
    (h : p.resolveFrom maxRuns e unknown pending out r = .ok res)
    (hnodup : unknown.Nodup) (hunknown : ∀ x ∈ unknown, r.values.find? x = none) :
    ∀ rv ∈ res, rv ∈ out ∨ p.Resolves e r rv := by
  have hpush : ∀ {out : Array (Simulated × Value)} {r : Simulated} {a : Value},
      e.eval r.values = .ok (some a) → ∀ rv ∈ out.push (r, a), rv ∈ out ∨ p.Resolves e r rv := by
    intro out r a heval rv hrv
    rcases Array.mem_push.1 hrv with hrv | rfl
    · exact .inl hrv
    · exact .inr ⟨.refl, heval⟩
  induction unknown generalizing pending out r res with
  | nil =>
    obtain ⟨a, heval, rfl⟩ | ⟨x, rest, -, -, hnil, -⟩ := resolveFrom_eq_ok h
    · exact hpush heval
    · cases hnil
  | cons x unknown ih =>
    obtain ⟨a, heval, rfl⟩ | ⟨_, _, type, acc, hcons, htype, hacc, rfl⟩ := resolveFrom_eq_ok h
    · exact hpush heval
    · obtain ⟨rfl, rfl⟩ := List.cons.inj hcons
      -- every fork adds ways that begin with its own choice of the variable
      refine foldlM_induct (I := fun acc ↦ ∀ rv ∈ acc.2, rv ∈ out ∨ p.Resolves e r rv) hacc
        (fun rv hrv ↦ .inl hrv) fun {acc a acc'} ha hI hfork ↦ ?_
      obtain ⟨out', hout', hfork⟩ := bind_eq_ok.1 hfork
      obtain rfl := Except.ok.inj hfork
      have hbinds : r.Binds p (r.bind x a) :=
        ⟨x, a, type, hunknown x List.mem_cons_self, htype, VarType.mem_values.1 ha, rfl⟩
      intro rv hrv
      rcases ih hout' hnodup.tail (unknown_bind hnodup hunknown) rv hrv with hold | ⟨hrun, heval⟩
      · exact hI rv hold
      · exact .inr ⟨.head hbinds hrun, heval⟩

/-- The variables of an expression that have no value yet. -/
theorem unknown_of_mem {x : VarId} (hx : x ∈ e.vars.toList.filter fun x ↦ !r.values.contains x) :
    r.values.find? x = none := by
  have hnot := (List.mem_filter.1 hx).2
  rw [Bool.not_eq_eq_eq_not] at hnot
  exact Option.isNone_iff_eq_none.1 (Option.isSome_eq_false_iff.1 hnot)

theorem nodup_unknown : (e.vars.toList.filter fun x ↦ !r.values.contains x).Nodup :=
  (e.vars.ascending.imp fun h ↦ Nat.ne_of_lt h).filter _

/-- **Forking only chooses values**, and ends when the expression has one. -/
theorem resolves_resolve {res : Array (Simulated × Value)} (h : p.resolve maxRuns e r = .ok res) :
    ∀ rv ∈ res, p.Resolves e r rv := fun rv hrv ↦
  (resolves_resolveFrom h nodup_unknown (fun _ hx ↦ unknown_of_mem hx) rv hrv).resolve_left
    (Array.not_mem_empty rv)

/-! ### Statements -/

/-- The runs that are kept are those on which the condition is true. -/
theorem mem_keepTrue {forked : Array (Simulated × Value)} {kept : Array Simulated}
    (h : keepTrue forked = .ok kept) : ∀ r ∈ kept, (r, .bool true) ∈ forked := by
  obtain ⟨pairs, hpairs, h⟩ := bind_eq_ok.1 h
  obtain rfl := Except.ok.inj h
  have hmem : ∀ rv ∈ pairs, rv ∈ forked ∧ rv.2 = .bool true := by
    rw [Array.filterM, ← Array.foldlM_toList] at hpairs
    refine foldlM_induct (I := fun acc ↦ ∀ rv ∈ acc, rv ∈ forked ∧ rv.2 = .bool true) hpairs
      (fun rv hrv ↦ absurd hrv (Array.not_mem_empty rv)) fun {acc rv acc'} hrv hI hstep ↦ ?_
    obtain ⟨t, ht, hstep⟩ := bind_eq_ok.1 hstep
    cases t with
    | false =>
      obtain rfl := Except.ok.inj hstep
      exact hI
    | true =>
      obtain rfl := Except.ok.inj hstep
      intro rw' hrw'
      rcases Array.mem_push.1 hrw' with hold | rfl
      · exact hI rw' hold
      · exact ⟨Array.mem_toList_iff.1 hrv, asBool_eq_ok.1 (orMismatch_eq_ok.1 ht)⟩
  intro r hr
  obtain ⟨⟨r', a⟩, hrv, rfl⟩ := Array.mem_map.1 hr
  obtain ⟨hforked, rfl⟩ := hmem _ hrv
  exact hforked

variable {s : Statement} {runs : Array Simulated}

/-- **Executing a statement keeps runs justified.** -/
theorem justified_of_step (h : p.step maxRuns true r s = .ok runs)
    (hr : r.Justified p (body :: bodies)) (hs : s.WellTyped p)
    (hbodies : ∀ b ∈ body :: bodies, ∀ s ∈ b, s.WellTyped p) :
    ∀ r' ∈ runs, r'.Justified p ((body ++ [s]) :: bodies) := by
  intro r' hr'
  cases hs with
  | @assume condition hcond =>
    -- the run is the same, once its completions satisfy the condition
    have hkeep : r'.Justified p (body :: bodies) →
        (∀ {ρ}, p.InType ρ → condition.value (ρ.override r'.values) = .ok (.bool true)) →
        r'.Justified p ((body ++ [.assume condition]) :: bodies) :=
      fun hjust hvalue ↦ hjust.snoc fun hρ ↦ .assume (hvalue hρ)
    rw [step, if_neg (by decide)] at h
    split at h
    · rename_i x a hforced
      obtain ⟨type, htype, h⟩ := bind_eq_ok.1 h
      obtain rfl := Except.ok.inj h
      split at hr'
      · rename_i ha
        obtain rfl := Array.mem_singleton.1 hr'
        have hx := (Expr.forcedBinding_eq_some hforced).1
        have hjust := hr.binds ⟨x, a, type, hx, orFault_eq_ok.1 htype, ha, rfl⟩
        refine hkeep hjust fun {ρ} hρ ↦ ?_
        have hkinds := (hjust.retraces hρ).wellKinded hbodies
        have hext : (ρ.override (r.values.insert x a)).Extends (r.values.insert x a) :=
          Store.extends_override
        have hxa : ρ.override (r.values.insert x a) x = a :=
          hext (by rw [IndexMap.find?_insert, if_pos rfl])
        refine hcond.value_of_forcedBinding hkinds (fun y b hy ↦ hext ?_) (hxa.symm ▸ hforced)
        rw [IndexMap.find?_insert, if_neg (fun hyx ↦ by cases (hyx ▸ hy).symm.trans hx)]
        exact hy
      · exact absurd hr' (Array.not_mem_empty r')
    · obtain ⟨forked, hforked, h⟩ := bind_eq_ok.1 h
      obtain ⟨hrun, heval⟩ := resolves_resolve hforked _ (mem_keepTrue h r' hr')
      have hjust := hr.of_binds hrun
      exact hkeep hjust fun hρ ↦
        hcond.value_of_eval ((hjust.retraces hρ).wellKinded hbodies) Store.extends_override heval
  | @assign x type e htype he =>
    obtain ⟨forked, hforked, h⟩ := bind_eq_ok.1 h
    obtain rfl := Except.ok.inj h
    obtain ⟨⟨u, a⟩, hmem, rfl⟩ := Array.mem_map.1 hr'
    obtain ⟨hrun, heval⟩ := resolves_resolve hforked _ hmem
    have hjust := hr.of_binds hrun
    refine hjust.snoc fun {ρ} hρ ↦ ?_
    rw [Store.override_insert]
    exact .assign (he.value_of_eval ((hjust.retraces hρ).wellKinded hbodies)
      Store.extends_override heval)
  | @havoc x type htype =>
    obtain rfl := Except.ok.inj h
    obtain rfl := Array.mem_singleton.1 hr'
    refine hr.snoc fun {ρ} hρ ↦ ?_
    rw [Store.override_erase]
    exact .havoc htype (hρ htype)

/-- A run after a statement comes from one before it. -/
theorem mem_stepEach {active : Bool} {out : Array Simulated}
    (h : p.stepEach maxRuns active s runs = .ok out) :
    ∀ r' ∈ out, ∃ r ∈ runs, ∃ more, p.step maxRuns active r s = .ok more ∧ r' ∈ more := by
  rw [stepEach, ← Array.foldlM_toList] at h
  refine foldlM_induct (I := fun out ↦ ∀ r' ∈ out, ∃ r ∈ runs, ∃ more,
    p.step maxRuns active r s = .ok more ∧ r' ∈ more) h
    (fun r' hr' ↦ absurd hr' (Array.not_mem_empty r')) fun {out r out'} hr hI hstep ↦ ?_
  obtain ⟨more, hmore, hstep⟩ := bind_eq_ok.1 hstep
  dsimp only at hstep
  split at hstep
  · cases hstep
  · obtain rfl := Except.ok.inj hstep
    intro r' hr'
    rcases Array.mem_append.1 hr' with hold | hnew
    · exact hI r' hold
    · exact ⟨r, Array.mem_toList_iff.1 hr, more, hmore, hnew⟩

/-! ### Whole traces -/

/-- The statements along moves. -/
def BodiesOf (p : Program) : List Move → List (List Statement) → Prop :=
  List.Forall₂ fun m body ↦ ∃ e, p.edge m.edge = .ok e ∧ e.body = body

/-- The statements of one edge. -/
theorem justified_of_body {todo : List Statement} {rest : List TraceStatement} {i k : Nat}
    (h : p.simulateFrom maxRuns (fun _ ↦ true) k runs (todo.map (⟨i, ·⟩) ++ rest) =
      .ok (.feasible r)) (hi : bodies.length = i) (htodo : ∀ s ∈ todo, s.WellTyped p)
    (hbodies : ∀ b ∈ body :: bodies, ∀ s ∈ b, s.WellTyped p)
    (hruns : ∀ u ∈ runs, (u.reach i).Justified p (body :: bodies)) :
    ∃ k' runs', p.simulateFrom maxRuns (fun _ ↦ true) k' runs' rest = .ok (.feasible r) ∧
      ∀ u ∈ runs', (u.reach i).Justified p ((body ++ todo) :: bodies) := by
  induction todo generalizing k runs body with
  | nil =>
    rw [List.append_nil]
    exact ⟨k, runs, h, hruns⟩
  | cons s todo ih =>
    obtain ⟨hs, htodo⟩ := List.forall_mem_cons.1 htodo
    obtain ⟨hbody, hrest⟩ := List.forall_mem_cons.1 hbodies
    obtain ⟨next, hnext, h⟩ := bind_eq_ok.1 h
    split at h
    · cases Except.ok.inj h
    have hbody' : ∀ s' ∈ body ++ [s], s'.WellTyped p := by
      intro s' hs'
      rcases List.mem_append.1 hs' with hold | hnew
      · exact hbody s' hold
      · exact List.mem_singleton.1 hnew ▸ hs
    have hstep : ∀ u ∈ next, (u.reach i).Justified p ((body ++ [s]) :: bodies) := by
      intro u hu
      obtain ⟨r₀, hr₀, more, hmore, hu⟩ := mem_stepEach hnext u hu
      obtain ⟨r₁, hr₁, rfl⟩ := Array.mem_map.1 hr₀
      have hjust := justified_of_step hmore (hruns r₁ hr₁) hs hbodies u hu
      have hlen : i + 1 ≤ u.history.length := by rw [hjust.length_eq, List.length_cons, hi]
      rw [Simulated.reach_of_length hlen]
      exact hjust
    obtain ⟨k', runs', hsim, hruns'⟩ := ih h htodo (List.forall_mem_cons.2 ⟨hbody', hrest⟩) hstep
    refine ⟨k', runs', hsim, ?_⟩
    rwa [List.append_assoc] at hruns'

theorem mem_of_edge {i : EdgeId} {e : Edge} (h : p.edge i = .ok e) : e ∈ p.edges := by
  rw [edge] at h
  cases hi : p.edges[i]? with
  | none =>
    rw [hi] at h
    cases h
  | some e' =>
    rw [hi] at h
    obtain rfl := Except.ok.inj h
    exact List.mem_of_getElem? hi

/-- The statements of several edges. -/
theorem justified_of_moves (htyped : p.WellTyped) {moves : List Move}
    {statements : List TraceStatement} {i k : Nat}
    (h : p.simulateFrom maxRuns (fun _ ↦ true) k runs statements = .ok (.feasible r))
    (hst : p.statementsFrom i moves = .ok statements) (hi : bodies.length = i)
    (hbodies : ∀ b ∈ bodies, ∀ s ∈ b, s.WellTyped p)
    (hruns : ∀ u ∈ runs, (u.reach i).Justified p ([] :: bodies)) :
    ∃ along, p.BodiesOf moves along ∧
      (r.reach (i + moves.length)).Justified p ([] :: (along.reverse ++ bodies)) := by
  induction moves generalizing i k runs statements bodies with
  | nil =>
    obtain rfl := Except.ok.inj hst
    refine ⟨[], .nil, ?_⟩
    rw [simulateFrom] at h
    split at h
    · rename_i u hu
      obtain rfl : u = r := Simulation.feasible.inj (Except.ok.inj h)
      exact hruns u (Array.mem_of_getElem? hu)
    · cases h
  | cons m moves ih =>
    obtain ⟨e, he, hst⟩ := bind_eq_ok.1 hst
    obtain ⟨others, hothers, hst⟩ := bind_eq_ok.1 hst
    obtain rfl := Except.ok.inj hst
    have hbody := htyped e (mem_of_edge he)
    obtain ⟨k', runs', hsim, hruns'⟩ := justified_of_body h hi hbody
      (List.forall_mem_cons.2 ⟨List.forall_mem_nil _, hbodies⟩) hruns
    rw [List.nil_append] at hruns'
    have hlen : (e.body :: bodies).length = i + 1 := by rw [List.length_cons, hi]
    have hpassed : ∀ u ∈ runs', (u.reach (i + 1)).Justified p ([] :: e.body :: bodies) := by
      intro u hu
      rw [← Simulated.reach_reach (Nat.le_succ i)]
      exact (hruns' u hu).reach_succ hlen
    obtain ⟨along, halong, hjust⟩ := ih hsim hothers hlen
      (List.forall_mem_cons.2 ⟨hbody, hbodies⟩) hpassed
    refine ⟨e.body :: along, .cons ⟨e, he, rfl⟩ halong, ?_⟩
    rw [List.reverse_cons, List.append_assoc, List.singleton_append, List.length_cons,
      Nat.add_comm moves.length, ← Nat.add_assoc]
    exact hjust

/-- **A trace found feasible has its valuations completed by executions.** -/
theorem justified_of_simulate (htyped : p.WellTyped) {moves : List Move}
    {statements : List TraceStatement} (hst : p.statementsOf moves = .ok statements)
    (h : p.simulate maxRuns (fun _ ↦ true) statements = .ok (.feasible r)) :
    ∃ along, p.BodiesOf moves along ∧
      (r.reach moves.length).Justified p ([] :: along.reverse) := by
  obtain ⟨along, halong, hjust⟩ := justified_of_moves htyped h hst List.length_nil
    (List.forall_mem_nil _) fun u hu ↦ by
      rw [Array.mem_singleton.1 hu]
      exact Simulated.justified_start
  rw [List.append_nil, Nat.zero_add] at hjust
  exact ⟨along, halong, hjust⟩

end Program

end AbstractionRefinement
