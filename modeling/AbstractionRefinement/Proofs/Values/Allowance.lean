import AbstractionRefinement.Proofs.Values.Budget
import AbstractionRefinement.Proofs.Values.Evaluation

/-!
# How many runs are allowed

The number of runs that a simulation may hold decides whether there is an answer, and never which
one. What is answered with some number allowed is answered with every larger one
(`Program.stays_checkMoves`): each limit that is met stays met, so each part of the examination of a
trace goes on as before.

Too many runs is one of three reasons to stop. In a program that need not be well typed an operand
may be of the wrong type, and if so many runs are allowed that a list of as many values would be too
long for memory, there may be no room for the values of a type (`Program.Interrupts`). The two other
reasons that are provided for do not come up: an expression all of whose variables are known has a
value or a mismatch (`Expr.eval_ne_unknown`), and a simulation that has lost its last run is stuck
already.

The runs that wait while one is evaluated form a stack, in which a run gives way to one run for each
value of its first unknown variable. `Program.forkTurn` is one turn of the loop that works off the
stack. As every fork knows one variable more, the loop ends, whatever is allowed, and comes to what
the recursion over the unknown variables comes to (`Program.finishes_resolve`).
-/

namespace AbstractionRefinement

/-! ### Answers that stay -/

section Outcome

variable {ε α β : Type} {x y : Except ε α}

/-- An answer of the first computation is the answer of the second. -/
def Stays (x y : Except ε α) : Prop := ∀ ⦃a⦄, x = .ok a → y = .ok a

namespace Stays

theorem refl : Stays x x := fun _ h ↦ h

theorem of_error {e : ε} : Stays (.error e) y := fun _ h ↦ by cases h

/-- Answers stay if those of both steps do. -/
theorem bind {f g : α → Except ε β} (h : Stays x y) (hfg : ∀ a, Stays (f a) (g a)) :
    Stays (x >>= f) (y >>= g) := by
  intro b hb
  obtain ⟨a, ha, hb⟩ := bind_eq_ok.1 hb
  exact bind_eq_ok.2 ⟨a, h ha, hfg a hb⟩

/-- Answers of a fold stay if those of each step do. -/
theorem foldlM {f g : β → α → Except ε β} {l : List α} {b : β}
    (hfg : ∀ b a, Stays (f b a) (g b a)) : Stays (l.foldlM f b) (l.foldlM g b) := by
  induction l generalizing b with
  | nil => exact .refl
  | cons a l ih =>
    rw [List.foldlM_cons, List.foldlM_cons]
    exact (hfg b a).bind fun _ ↦ ih

end Stays

end Outcome

/-! ### Expressions -/

/-- A binding is forced on a variable of the expression. -/
theorem Expr.mem_vars_of_forcedBinding {e : Expr} {v : Valuation} {x : VarId} {a : Value}
    (h : e.forcedBinding v = some (x, a)) : x ∈ e.vars := by
  have hx : x ∈ (Expr.var x).vars := IndexSet.mem_ofList.2 List.mem_cons_self
  obtain ⟨-, other, -, rfl | rfl⟩ := forcedBinding_eq_some h
  · exact IndexSet.mem_union.2 (.inl hx)
  · exact IndexSet.mem_union.2 (.inr hx)

/-- The wording of a mismatch tells it from other violations by its first letter. -/
theorem TypeMismatch.head?_message (t : TypeMismatch) : t.message.toList.head? = some 't' := by
  rcases t with ⟨_ | _, _ | _⟩ <;> decide

namespace Program

variable {p : Program} {m m' : Nat} {e : Expr} {r : Simulated} {unknown : List VarId}
  {pending : Nat} {out : Array (Simulated × Value)} {x : VarId}

/-! ### Forking, case by case -/

/-- The variables of an expression that a run has no value for, in ascending order. -/
def unknownIn (e : Expr) (r : Simulated) : List VarId :=
  e.vars.toList.filter fun x ↦ !r.values.contains x

/-- Try a value of a variable, behind the ways found before. The number goes down with every value
that has been tried. -/
def tryValue (p : Program) (maxRuns : Nat) (e : Expr) (unknown : List VarId) (pending : Nat)
    (r : Simulated) (x : VarId) (acc : Nat × Array (Simulated × Value)) (a : Value) :
    Except Abort (Nat × Array (Simulated × Value)) := do
  let out ← p.resolveFrom maxRuns e unknown (pending + (acc.1 - 1)) acc.2 (r.bind x a)
  return (acc.1 - 1, out)

/-- What is checked before a run forks over the values of a type: that these are few enough, that
there is room for a list of them, and that there are not too many runs then. -/
def checkFork (maxRuns : Nat) (type : VarType) (runs : Nat) : Except Abort Unit :=
  if maxRuns < type.size then .error (tooManyRuns maxRuns)
  else do
    orFault (Memory.reserve Value.bytes type.count)
    if maxRuns < runs then .error (tooManyRuns maxRuns) else .ok ()

/-- The checks come first. -/
theorem checkFork_bind {α : Type} {type : VarType} {runs : Nat} {y : Except Abort α} :
    (if m < type.size then .error (tooManyRuns m) else
      orFault (Memory.reserve Value.bytes type.count) >>= fun _ ↦
        if m < runs then .error (tooManyRuns m) else y) = checkFork m type runs >>= fun _ ↦ y := by
  rw [checkFork]
  by_cases hsize : m < type.size
  · rw [if_pos hsize, if_pos hsize]
    rfl
  · rw [if_neg hsize, if_neg hsize]
    cases orFault (Memory.reserve Value.bytes type.count) with
    | error f => rfl
    | ok _ =>
      by_cases hruns : m < runs
      · simp only [if_pos hruns]
        rfl
      · simp only [if_neg hruns]
        rfl

/-- A type error in an expression ends its resolution. -/
theorem resolveFrom_of_mismatch {t : TypeMismatch} (h : e.eval r.values = .error t) :
    p.resolveFrom m e unknown pending out r =
      .error (.failure (.violation (.reported t.message))) := by
  rw [resolveFrom.eq_def]
  dsimp only
  rw [h]
  rfl

/-- Once the value of an expression is known, nothing is forked any more. -/
theorem resolveFrom_of_known {a : Value} (h : e.eval r.values = .ok (some a)) :
    p.resolveFrom m e unknown pending out r = .ok (out.push (r, a)) := by
  rw [resolveFrom.eq_def]
  dsimp only
  rw [h]
  rfl

/-- An expression that has no value although all its variables have one is reported. -/
theorem resolveFrom_nil (h : e.eval r.values = .ok none) :
    p.resolveFrom m e [] pending out r =
      .error (.failure (.violation (.reported s!"cannot evaluate {e.text}"))) := by
  rw [resolveFrom.eq_def]
  dsimp only
  rw [h]
  rfl

/-- The first unknown variable is forked over, if the checks are passed. -/
theorem resolveFrom_cons (h : e.eval r.values = .ok none) :
    p.resolveFrom m e (x :: unknown) pending out r = (do
      let type ← orFault (p.varType x)
      checkFork m type (pending + type.count + out.size)
      let acc ← type.values.foldlM (p.tryValue m e unknown pending r x) (type.count, out)
      return acc.2) := by
  rw [resolveFrom.eq_def]
  dsimp only
  rw [h]
  cases p.varType x with
  | error f => rfl
  | ok type => exact checkFork_bind

/-! ### More runs -/

/-- Checks that are passed with less allowed are passed with more. -/
theorem stays_checkFork {type : VarType} {runs : Nat} (hle : m ≤ m') :
    Stays (checkFork m type runs) (checkFork m' type runs) := by
  rw [checkFork, checkFork]
  by_cases hsize : m < type.size
  · rw [if_pos hsize]
    exact .of_error
  · have hsize' : ¬m' < type.size := by omega
    rw [if_neg hsize, if_neg hsize']
    refine Stays.refl.bind fun _ ↦ ?_
    by_cases hruns : m < runs
    · rw [if_pos hruns]
      exact .of_error
    · have hruns' : ¬m' < runs := by omega
      rw [if_neg hruns, if_neg hruns']
      exact .refl

/-- What an expression resolves to with a small allowance, it does with a larger one. -/
theorem stays_resolveFrom (hle : m ≤ m') : Stays (p.resolveFrom m e unknown pending out r)
    (p.resolveFrom m' e unknown pending out r) := by
  induction unknown generalizing pending out r with
  | nil =>
    rcases heval : e.eval r.values with t | _ | a
    · rw [resolveFrom_of_mismatch heval]
      exact .of_error
    · rw [resolveFrom_nil heval]
      exact .of_error
    · rw [resolveFrom_of_known heval, resolveFrom_of_known heval]
      exact .refl
  | cons x unknown ih =>
    rcases heval : e.eval r.values with t | _ | a
    · rw [resolveFrom_of_mismatch heval]
      exact .of_error
    · rw [resolveFrom_cons heval, resolveFrom_cons heval]
      refine Stays.refl.bind fun type ↦ (stays_checkFork hle).bind fun _ ↦
        .bind (.foldlM fun acc a ↦ ?_) fun _ ↦ .refl
      exact ih.bind fun _ ↦ .refl
    · rw [resolveFrom_of_known heval, resolveFrom_of_known heval]
      exact .refl

/-- **One statement** simulated with a small allowance comes out the same with a larger one. -/
theorem stays_step {active : Bool} {s : Statement} (hle : m ≤ m') :
    Stays (p.step m active r s) (p.step m' active r s) := by
  cases s with
  | assume condition =>
    rw [step, step]
    split
    · exact .refl
    split
    · exact .refl
    · exact (stays_resolveFrom hle).bind fun _ ↦ .refl
  | assign x e => exact (stays_resolveFrom hle).bind fun _ ↦ .refl
  | havoc x => exact .refl

/-- So does one statement simulated for each run. -/
theorem stays_stepEach {active : Bool} {s : Statement} {runs : Array Simulated} (hle : m ≤ m') :
    Stays (p.stepEach m active s runs) (p.stepEach m' active s runs) := by
  rw [stepEach, stepEach, ← Array.foldlM_toList, ← Array.foldlM_toList]
  refine .foldlM fun out r ↦ (stays_step hle).bind fun more ↦ ?_
  dsimp only
  split
  · exact .of_error
  · rename_i hroom
    rw [if_neg (by omega)]
    exact .refl

/-- **A simulation** that has an answer has the same one with a larger allowance. -/
theorem stays_simulateFrom {active : Nat → Bool} {i : Nat} {runs : Array Simulated}
    {statements : List TraceStatement} (hle : m ≤ m') :
    Stays (p.simulateFrom m active i runs statements)
      (p.simulateFrom m' active i runs statements) := by
  induction statements generalizing i runs with
  | nil => exact .refl
  | cons s rest ih =>
    refine (stays_stepEach hle).bind fun runs ↦ ?_
    split
    · exact .refl
    · exact ih

/-- Minimising a core comes out the same with a larger allowance. -/
theorem stays_minimize {statements : List TraceStatement} {core : IndexSet}
    {candidates : List Nat} (hle : m ≤ m') : Stays (p.minimize m statements core candidates)
      (p.minimize m' statements core candidates) := by
  induction candidates generalizing core with
  | nil => exact .refl
  | cons candidate rest ih =>
    refine (stays_simulateFrom hle).bind fun outcome ↦ ?_
    cases outcome with
    | feasible run => exact ih
    | stuck k => exact ih

/-- The core that explains a failure is the same with a larger allowance. -/
theorem stays_core {strategy : CoreStrategy} {statements : List TraceStatement} {failedAt : Nat}
    (hle : m ≤ m') : Stays (p.core m strategy statements failedAt)
      (p.core m' strategy statements failedAt) := by
  cases strategy with
  | last => exact .refl
  | all => exact .refl
  | minimal => exact stays_minimize hle

/-- **What is answered with some number of runs is answered with more.** -/
theorem stays_checkMoves {strategy : CoreStrategy} {moves : List Move} (hle : m ≤ m') :
    Stays (p.checkMoves m strategy moves) (p.checkMoves m' strategy moves) := by
  refine Stays.refl.bind fun statements ↦ (stays_simulateFrom hle).bind fun outcome ↦ ?_
  cases outcome with
  | feasible run => exact .refl
  | stuck failedAt => exact (stays_core hle).bind fun _ ↦ .refl

/-! ### Why there may be no answer -/

/-- Why the examination of a trace may stop. -/
inductive Interrupts (m : Nat) : Abort → Prop
  /-- There are more runs than allowed. -/
  | tooMany : Interrupts m (tooManyRuns m)
  /-- An operand is of the wrong type. -/
  | mismatch (t : TypeMismatch) : Interrupts m (.failure (.violation (.reported t.message)))
  /-- There is no room for the values of a type. So many runs are allowed that there would be none
  for as many values. -/
  | noRoom (h : Memory.maxBytes < Value.bytes * m) : Interrupts m (.fault .beyondMemory)

/-- No interruption is reported in words that begin otherwise than a type error does. -/
theorem Interrupts.ne_reported {stop : Abort} (h : Interrupts m stop) {text : String}
    (htext : text.toList.head? ≠ some 't') : stop ≠ .failure (.violation (.reported text)) := by
  cases h with
  | tooMany => exact fun heq ↦ by cases Abort.failure.inj heq
  | mismatch t =>
    intro heq
    rw [← Violation.reported.inj (Failure.violation.inj (Abort.failure.inj heq))] at htext
    exact htext t.head?_message
  | noRoom => exact fun heq ↦ by cases heq

/-- The variables that a statement reads are declared. -/
def Declared (p : Program) (s : Statement) : Prop := ∀ x ∈ s.reads, ∃ type, p.varType x = .ok type

theorem gives_orMismatch {α : Type} {x : Except TypeMismatch α} :
    Gives (Interrupts m) (fun a ↦ x = .ok a) (orMismatch x) := by
  cases x with
  | error t => exact .mismatch t
  | ok a => exact rfl

/-- Forking a run stops because of too many runs or too little room, and for no other reason. -/
theorem interrupts_checkFork {type : VarType} {runs : Nat} :
    Gives (Interrupts m) (fun _ ↦ True) (checkFork m type runs) := by
  rw [checkFork]
  split
  · exact .tooMany
  · rename_i hsize
    by_cases hroom : Value.bytes * type.count ≤ Memory.maxBytes
    · rw [Memory.reserve_of_le hroom]
      refine .bind_of_ok rfl ?_
      split
      · exact .tooMany
      · exact trivial
    · have hspills : type.Spills Value.bytes m :=
        ⟨Nat.le_of_not_lt hsize, Nat.lt_of_not_le hroom⟩
      rw [Memory.reserve_of_lt hspills.2]
      exact .noRoom hspills.lt

/-- Forking comes to an expression that is not unknown before the variables run out. -/
theorem interrupts_resolveFrom
    (hunknown : ∀ x ∈ e.vars, r.values.contains x = false → x ∈ unknown)
    (hdeclared : ∀ x ∈ unknown, ∃ type, p.varType x = .ok type) :
    Gives (Interrupts m) (fun _ ↦ True) (p.resolveFrom m e unknown pending out r) := by
  induction unknown generalizing pending out r with
  | nil =>
    rcases heval : e.eval r.values with t | _ | a
    · rw [resolveFrom_of_mismatch heval]
      exact .mismatch t
    · refine absurd heval (Expr.eval_ne_unknown fun x hx ↦ ?_)
      exact eq_true_of_ne_false fun hnot ↦ List.not_mem_nil (hunknown x hx hnot)
    · rw [resolveFrom_of_known heval]
      exact trivial
  | cons x unknown ih =>
    rcases heval : e.eval r.values with t | _ | a
    · rw [resolveFrom_of_mismatch heval]
      exact .mismatch t
    · obtain ⟨⟨type, htype⟩, hdeclared⟩ := List.forall_mem_cons.1 hdeclared
      rw [resolveFrom_cons heval]
      refine .bind_of_ok (orFault_eq_ok.2 htype) (interrupts_checkFork.bind fun _ _ ↦ ?_)
      refine Gives.bind (Q := fun _ ↦ True) (.foldlM trivial fun {acc a} _ _ ↦ ?_)
        fun _ _ ↦ trivial
      refine (ih (fun y hy hnot ↦ ?_) hdeclared).bind fun _ _ ↦ trivial
      -- the variable chosen is known from now on
      rw [IndexMap.contains, Simulated.bind, IndexMap.find?_insert] at hnot
      split at hnot
      · cases hnot
      · rename_i hyx
        exact (List.mem_cons.1 (hunknown y hy hnot)).resolve_left hyx
    · rw [resolveFrom_of_known heval]
      exact trivial

/-- Resolving an expression over declared variables stops for these reasons only. -/
theorem interrupts_resolve (hdeclared : ∀ x ∈ e.vars, ∃ type, p.varType x = .ok type) :
    Gives (Interrupts m) (fun _ ↦ True) (p.resolve m e r) := by
  refine interrupts_resolveFrom (fun x hx hnot ↦ List.mem_filter.2 ⟨hx, ?_⟩) fun x hx ↦ ?_
  · rw [hnot]
    rfl
  · exact hdeclared x (List.mem_filter.1 hx).1

/-- Keeping the runs on which a condition holds stops for these reasons only. -/
theorem interrupts_keepTrue {forked : Array (Simulated × Value)} :
    Gives (Interrupts m) (fun _ ↦ True) (keepTrue forked) := by
  refine Gives.bind (Q := fun _ ↦ True) ?_ fun _ _ ↦ trivial
  rw [Array.filterM, ← Array.foldlM_toList]
  exact .foldlM trivial fun _ _ ↦ gives_orMismatch.bind fun t _ ↦ by cases t <;> exact trivial

/-- **One statement** over declared variables stops for these reasons only. -/
theorem interrupts_step {active : Bool} {s : Statement} (hs : p.Declared s) :
    Gives (Interrupts m) (fun _ ↦ True) (p.step m active r s) := by
  cases s with
  | assume condition =>
    rw [step]
    split
    · exact trivial
    split
    · rename_i x a hforced
      obtain ⟨type, htype⟩ := hs x (Expr.mem_vars_of_forcedBinding hforced)
      exact .bind_of_ok (orFault_eq_ok.2 htype) trivial
    · exact (interrupts_resolve hs).bind fun _ _ ↦ interrupts_keepTrue
  | assign x e => exact (interrupts_resolve hs).bind fun _ _ ↦ trivial
  | havoc x => exact trivial

/-- So does one statement simulated for each run. -/
theorem interrupts_stepEach {active : Bool} {s : Statement} {runs : Array Simulated}
    (hs : p.Declared s) : Gives (Interrupts m) (fun _ ↦ True) (p.stepEach m active s runs) := by
  rw [stepEach, ← Array.foldlM_toList]
  refine .foldlM trivial fun _ _ ↦ (interrupts_step hs).bind fun more _ ↦ ?_
  dsimp only
  split
  · exact .tooMany
  · exact trivial

/-- Statements about declared variables stop for want of runs or of room, or at a mismatch. -/
theorem carries_of_declared {statements : List TraceStatement}
    (hst : ∀ s ∈ statements, p.Declared s.statement) :
    p.Carries m (Interrupts m) (fun _ ↦ True) statements where
  start := trivial
  reach _ _ := trivial
  stepEach hs _ _ _ := interrupts_stepEach (hst _ hs)

/-! ### The stack of forks -/

/-- The runs that wait to be evaluated, the next one first, and the ways found so far. -/
structure Forks where
  /-- The runs that wait. -/
  pending : List Simulated
  /-- The runs in which the expression has a value. -/
  out : Array (Simulated × Value) := #[]

/-- One turn of forking: the next run gives a way to evaluate the expression, or one run for each
value of its first unknown variable. -/
def forkTurn (p : Program) (maxRuns : Nat) (e : Expr) (f : Forks) :
    Except Abort (Turn Forks (Array (Simulated × Value))) :=
  match f.pending with
  | [] => return .done f.out
  | r :: rest => do
    match ← orMismatch (e.eval r.values) with
    | some value => return .again ⟨rest, f.out.push (r, value)⟩
    | none =>
      match e.vars.toList.find? fun x ↦ !r.values.contains x with
      | none => throw (.failure (.violation (.reported s!"cannot evaluate {e.text}")))
      | some x =>
        let type ← orFault (p.varType x)
        if maxRuns < type.size then throw (tooManyRuns maxRuns)
        orFault (Memory.reserve Value.bytes type.count)
        let pending := type.values.map (r.bind x) ++ rest
        if maxRuns < pending.length + f.out.size then throw (tooManyRuns maxRuns)
        return .again ⟨pending, f.out⟩

variable {rest : List Simulated}

theorem forkTurn_nil : p.forkTurn m e ⟨[], out⟩ = .ok (.done out) :=
  rfl

/-- A type error ends the loop that forks runs. -/
theorem forkTurn_of_mismatch {t : TypeMismatch} (h : e.eval r.values = .error t) :
    p.forkTurn m e ⟨r :: rest, out⟩ = .error (.failure (.violation (.reported t.message))) := by
  rw [forkTurn]
  dsimp only
  rw [h]
  rfl

/-- A run on which the value is known is put out, and the loop goes on with the others. -/
theorem forkTurn_of_known {a : Value} (h : e.eval r.values = .ok (some a)) :
    p.forkTurn m e ⟨r :: rest, out⟩ = .ok (.again ⟨rest, out.push (r, a)⟩) := by
  rw [forkTurn]
  dsimp only
  rw [h]
  rfl

/-- A run on which nothing can be forked and the value is still unknown is reported. -/
theorem forkTurn_of_exhausted (h : e.eval r.values = .ok none) (hnone : unknownIn e r = []) :
    p.forkTurn m e ⟨r :: rest, out⟩ =
      .error (.failure (.violation (.reported s!"cannot evaluate {e.text}"))) := by
  rw [forkTurn]
  dsimp only
  rw [h, ← List.head?_filter, ← unknownIn, hnone]
  rfl

/-- The next run forks over its first unknown variable, if the checks are passed. -/
theorem forkTurn_of_unknown (h : e.eval r.values = .ok none) (hx : unknownIn e r = x :: unknown) :
    p.forkTurn m e ⟨r :: rest, out⟩ = (do
      let type ← orFault (p.varType x)
      checkFork m type (rest.length + type.count + out.size)
      return .again ⟨type.values.map (r.bind x) ++ rest, out⟩) := by
  rw [forkTurn]
  dsimp only
  rw [h, ← List.head?_filter, ← unknownIn, hx, List.head?_cons]
  show (orFault (p.varType x) >>= _) = _
  cases p.varType x with
  | error f => rfl
  | ok type =>
    have hlen : (type.values.map (r.bind x) ++ rest).length = rest.length + type.count := by
      simp [VarType.values, VarType.firstValues, Nat.add_comm]
    show _ = checkFork m type (rest.length + type.count + out.size) >>= _
    rw [← hlen]
    exact checkFork_bind

/-- A fork knows one variable more. -/
theorem unknownIn_bind {a : Value} (h : unknownIn e r = x :: unknown) :
    unknownIn e (r.bind x a) = unknown := by
  have hnodup : (x :: unknown).Nodup := h ▸ nodup_unknown
  have hcontains : ∀ y, (!(r.bind x a).values.contains y) = (!r.values.contains y && y != x) := by
    intro y
    rw [IndexMap.contains, IndexMap.contains, Simulated.bind, IndexMap.find?_insert]
    by_cases hyx : y = x <;> simp [hyx]
  have hfilter : unknownIn e (r.bind x a) = (unknownIn e r).filter (· != x) := by
    rw [unknownIn, unknownIn, List.filter_filter]
    exact List.filter_congr fun y _ ↦ (hcontains y).trans (Bool.and_comm _ _)
  rw [hfilter, h, List.filter_cons_of_neg (by simp)]
  refine List.filter_eq_self.2 fun y hy ↦ bne_iff_ne.2 ?_
  rintro rfl
  exact (List.nodup_cons.1 hnodup).1 hy

/-- Forks for the values of a variable are worked off in turn, if each of them is; those that are
left wait on top of the rest. -/
theorem finishes_tryValues {values : List Value}
    {k : Array (Simulated × Value) → Except Abort (Array (Simulated × Value))}
    (hfork : ∀ {a rest out} {k : Array (Simulated × Value) → Except Abort _},
      (∀ out', Finishes (p.forkTurn m e) ⟨rest, out'⟩ (k out')) →
      Finishes (p.forkTurn m e) ⟨r.bind x a :: rest, out⟩
        (p.resolveFrom m e unknown rest.length out (r.bind x a) >>= k))
    (hrest : ∀ out', Finishes (p.forkTurn m e) ⟨rest, out'⟩ (k out')) :
    Finishes (p.forkTurn m e) ⟨values.map (r.bind x) ++ rest, out⟩ (do
      let acc ← values.foldlM (p.tryValue m e unknown rest.length r x) (values.length, out)
      k acc.2) := by
  induction values generalizing out with
  | nil => exact hrest out
  | cons a values ih =>
    have hlen : rest.length + ((a :: values).length - 1) =
        (values.map (r.bind x) ++ rest).length := by
      simp [Nat.add_comm]
    rw [List.foldlM_cons, bind_assoc, tryValue, bind_assoc, hlen]
    exact hfork fun _ ↦ ih

/-- **The stack is worked off.** With a run on top, the loop does what the recursion does with this
run, and then goes on with the rest. -/
theorem finishes_forkTurn {k : Array (Simulated × Value) → Except Abort (Array (Simulated × Value))}
    (hunknown : unknownIn e r = unknown)
    (hrest : ∀ out', Finishes (p.forkTurn m e) ⟨rest, out'⟩ (k out')) :
    Finishes (p.forkTurn m e) ⟨r :: rest, out⟩
      (p.resolveFrom m e unknown rest.length out r >>= k) := by
  induction unknown generalizing r rest out k with
  | nil =>
    rcases heval : e.eval r.values with t | _ | a
    · rw [resolveFrom_of_mismatch heval]
      exact finishes_of_error (forkTurn_of_mismatch heval)
    · rw [resolveFrom_nil heval]
      exact finishes_of_error (forkTurn_of_exhausted heval hunknown)
    · rw [resolveFrom_of_known heval]
      exact (hrest _).of_again (forkTurn_of_known heval)
  | cons x unknown ih =>
    rcases heval : e.eval r.values with t | _ | a
    · rw [resolveFrom_of_mismatch heval]
      exact finishes_of_error (forkTurn_of_mismatch heval)
    · have hturn : p.forkTurn m e ⟨r :: rest, out⟩ = _ := forkTurn_of_unknown heval hunknown
      rw [resolveFrom_cons heval]
      cases htype : p.varType x with
      | error f =>
        rw [htype] at hturn
        exact finishes_of_error hturn
      | ok type =>
        rw [htype] at hturn
        change _ = (checkFork m type _ >>= _) at hturn
        show Finishes _ _ ((checkFork m type _ >>= _) >>= k)
        cases hcheck : checkFork m type (rest.length + type.count + out.size) with
        | error stop =>
          rw [hcheck] at hturn
          exact finishes_of_error hturn
        | ok _ =>
          rw [hcheck] at hturn
          have hcount : type.values.length = type.count := by
            simp [VarType.values, VarType.firstValues]
          show Finishes _ _ ((List.foldlM _ _ _ >>= _) >>= k)
          rw [bind_assoc, ← hcount]
          exact .of_again hturn (finishes_tryValues (ih (unknownIn_bind hunknown)) hrest)
    · rw [resolveFrom_of_known heval]
      exact (hrest _).of_again (forkTurn_of_known heval)

/-- **The loop over the stack ends with the result of the recursion**, whatever is allowed. -/
theorem finishes_resolve : Finishes (p.forkTurn m e) ⟨[r], #[]⟩ (p.resolve m e r) := by
  have h : Finishes (p.forkTurn m e) ⟨[r], #[]⟩ (p.resolve m e r >>= pure) :=
    finishes_forkTurn rfl fun _ ↦ finishes_of_done forkTurn_nil
  rwa [bind_pure] at h

/-! ### The examination of a trace -/

/-- The statements along edges of a built program read declared variables. -/
theorem exists_declared_statements {d : Draft} (hbuild : d.build = .ok p) {edges : List Edge}
    (hedges : ∀ e ∈ edges, e ∈ p.edges) : ∃ statements,
      p.statementsOf (edges.map Edge.move) = .ok statements ∧
        ∀ s ∈ statements, p.Declared s.statement := by
  have hmoves : ∀ move ∈ edges.map Edge.move, ∃ e, p.edge move.edge = .ok e := by
    intro move hmove
    obtain ⟨e, he, rfl⟩ := List.mem_map.1 hmove
    exact ⟨e, d.edge_of_build hbuild (hedges e he)⟩
  obtain ⟨statements, hst⟩ := exists_statementsFrom hmoves
  refine ⟨statements, hst, fun s hs x hx ↦ ?_⟩
  have hmem : s.statement ∈ edges.flatMap Edge.body :=
    map_statementsFrom hbuild hedges hst ▸ List.mem_map_of_mem hs
  obtain ⟨e, he, hse⟩ := List.mem_flatMap.1 hmem
  exact d.exists_varType_of_build hbuild (hedges e he) hse (.inl hx)

/-- **The number of runs allowed never changes an answer.** For a trace along edges of a built
program, well typed or not, an answer with some number of runs is the answer with every larger one.
If there is none, then there were too many runs, an operand was of the wrong type, or so many runs
were allowed that there was no room for the values of a type; never did an expression turn out to
have no value, or a simulation to have no run. And each loop of the examination that works off a
stack of forks ends, whatever is allowed. -/
theorem check_of_more_runs {d : Draft} (hbuild : d.build = .ok p) (strategy : CoreStrategy)
    {t : Trace ProgramState Move} {edges : List Edge} (hedges : ∀ e ∈ edges, e ∈ p.edges)
    (hactions : t.actions = edges.map Edge.move) :
    (∀ {m m' answer}, m ≤ m' → (p.refuter m strategy).check t = .ok answer →
      (p.refuter m' strategy).check t = .ok answer) ∧
    (∀ {m stop}, (p.refuter m strategy).check t = .error stop → Interrupts m stop ∧
      (∀ e : Expr, stop ≠ .failure (.violation (.reported s!"cannot evaluate {e.text}"))) ∧
      stop ≠ .failure (.violation (.reported "simulation lost every valuation"))) ∧
    ∀ m e r, Finishes (p.forkTurn m e) ⟨[r], #[]⟩ (p.resolve m e r) := by
  refine ⟨fun hle h ↦ stays_checkMoves hle h, fun {m stop} h ↦ ?_, fun m e r ↦ finishes_resolve⟩
  obtain ⟨statements, hst, hdeclared⟩ := exists_declared_statements hbuild hedges
  have hstop : Interrupts m stop :=
    ((carries_of_declared hdeclared).gives_checkMoves (hactions ▸ hst)).error h
  refine ⟨hstop, fun e ↦ hstop.ne_reported ?_, hstop.ne_reported (by decide)⟩
  show ("cannot evaluate " ++ e.text).toList.head? ≠ some 't'
  rw [String.toList_append, List.head?_append]
  simp

/-- The whole statement at a trace that cannot be executed. The simulation holds sixteen runs once;
with one less there is no answer, and with more there is always the same. -/
theorem detourBack_allowance : ∃ p found, detour.build = .ok p ∧
    (p.refuter 15 .minimal).check detourBack = .error (tooManyRuns 15) ∧
    (∀ m, 16 ≤ m → (p.refuter m .minimal).check detourBack = .ok (.infeasible found)) ∧
    ∀ m e r, Finishes (p.forkTurn m e) ⟨[r], #[]⟩ (p.resolve m e r) := by
  have hrun : (detour.build.toOption.any fun p ↦
      (detourBack.actions = p.edges.reverse.map Edge.move &&
        (p.refuter 15 .minimal).check detourBack = .error (tooManyRuns 15)) &&
        ((p.refuter 16 .minimal).check detourBack).toOption.any fun
          | .infeasible _ => true
          | .feasible _ => false) = true := by
    decide +kernel
  obtain ⟨p, hp, hrun⟩ := exists_of_toOption_any hrun
  obtain ⟨hrun, hanswer⟩ := Bool.and_eq_true_iff.1 hrun
  obtain ⟨hactions, hfew⟩ := Bool.and_eq_true_iff.1 hrun
  obtain ⟨answer, hanswer, hkind⟩ := exists_of_toOption_any hanswer
  cases answer with
  | feasible witness => cases hkind
  | infeasible found =>
    obtain ⟨hmore, -, hends⟩ := check_of_more_runs hp .minimal
      (fun e he ↦ List.mem_reverse.1 he) (of_decide_eq_true hactions)
    exact ⟨p, found, hp, of_decide_eq_true hfew, fun m hm ↦ hmore hm hanswer, hends⟩

end Program

end AbstractionRefinement
