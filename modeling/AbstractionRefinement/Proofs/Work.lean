import AbstractionRefinement.Iteration
import AbstractionRefinement.Session
import Mathlib.Data.List.Forall2
import Mathlib.Logic.Relation

/-!
# Reasoning about computations that may stop early

A computation on a state keeps what it has done when it stops early, so one judgement speaks about
both ends: `Does T E m s Q` says that `m`, started in `s`, changes the state by steps of `T` only,
that a value it gives satisfies `Q` in the state it leaves, and that it stops early only for a
reason in `E`. Changes compose, so the judgement follows the program: one rule for each way to build
a computation, and one for bounded loops.

`Ends m s` is about computations that may take turns: with enough of them, what comes out is always
the same, and it is not that the turns did not suffice. A loop ends if every turn that goes on makes
a measure smaller.

`Finishes turn s r` is the same for a loop on its own: granted enough turns, it comes to the result
`r`, which may be an early end. Loops that work on a stack or a queue are compared with functions
that follow the data by this judgement.

`Keeps g m` is about one thing that `m` leaves alone, however it comes out.

The inversions of plain outcomes tell a failing part of a sequence from a failing whole.
-/

namespace AbstractionRefinement

/-! ### Outcomes -/

section Outcome

variable {ε α β : Type} {x : Except ε α} {f : α → Except ε β}

/-- Two steps succeed if the first does, and then the second on what the first gave. -/
theorem bind_eq_ok {b : β} : (x >>= f) = .ok b ↔ ∃ a, x = .ok a ∧ f a = .ok b := by
  cases x with
  | ok a => simp [bind, Except.bind]
  | error e => simp [bind, Except.bind]

/-- Two steps fail if the first does, or the second on what the first gave. -/
theorem bind_eq_error {e : ε} :
    (x >>= f) = .error e ↔ x = .error e ∨ ∃ a, x = .ok a ∧ f a = .error e := by
  cases x with
  | ok a => simp [bind, Except.bind]
  | error e' => simp [bind, Except.bind]

theorem map_eq_ok {g : α → β} {b : β} : x.map g = .ok b ↔ ∃ a, x = .ok a ∧ g a = b := by
  cases x with
  | ok a => simp [Except.map]
  | error e => simp [Except.map]

/-- A list of steps succeeds if each does, and gives what they give, in order. -/
theorem mapM_eq_ok {l : List α} {r : List β} :
    l.mapM f = .ok r ↔ List.Forall₂ (fun a b ↦ f a = .ok b) l r := by
  induction l generalizing r with
  | nil =>
    rw [List.mapM_nil, List.forall₂_nil_left_iff]
    exact ⟨fun h ↦ (Except.ok.inj h).symm, fun h ↦ h ▸ rfl⟩
  | cons a l ih =>
    rw [List.mapM_cons, bind_eq_ok, List.forall₂_cons_left_iff]
    refine exists_congr fun b ↦ ?_
    rw [bind_eq_ok]
    constructor
    · rintro ⟨hb, bs, hbs, heq⟩
      exact ⟨bs, hb, ih.1 hbs, (Except.ok.inj heq).symm⟩
    · rintro ⟨bs, hb, hbs, rfl⟩
      exact ⟨hb, bs, ih.2 hbs, rfl⟩

/-- Every entry of the first of two lists that match has a partner in the second. -/
theorem exists_of_forall₂_of_mem_left {R : α → β → Prop} {l : List α} {r : List β} {a : α}
    (h : List.Forall₂ R l r) (ha : a ∈ l) : ∃ b ∈ r, R a b := by
  induction h with
  | nil => exact (List.not_mem_nil ha).elim
  | @cons _ b _ _ hab _ ih =>
    rcases List.mem_cons.1 ha with rfl | ha
    · exact ⟨b, List.mem_cons_self, hab⟩
    · obtain ⟨b', hb', h'⟩ := ih ha
      exact ⟨b', List.mem_cons_of_mem _ hb', h'⟩

/-- Every entry of the second of two lists that match has a partner in the first. -/
theorem exists_of_forall₂_of_mem_right {R : α → β → Prop} {l : List α} {r : List β} {b : β}
    (h : List.Forall₂ R l r) (hb : b ∈ r) : ∃ a ∈ l, R a b :=
  exists_of_forall₂_of_mem_left h.flip hb

/-- What every step of a fold keeps holds at its end. -/
theorem foldlM_induct {g : β → α → Except ε β} {l : List α} {b c : β} {I : β → Prop}
    (h : l.foldlM g b = .ok c) (hb : I b)
    (hstep : ∀ {b a b'}, a ∈ l → I b → g b a = .ok b' → I b') : I c := by
  induction l generalizing b with
  | nil =>
    obtain rfl := Except.ok.inj h
    exact hb
  | cons a l ih =>
    rw [List.foldlM_cons] at h
    obtain ⟨b', hb', h⟩ := bind_eq_ok.1 h
    exact ih h (hstep List.mem_cons_self hb hb')
      fun ha hI heq ↦ hstep (List.mem_cons_of_mem _ ha) hI heq

/-- What the step at one entry brings about and every step keeps holds at the end. -/
theorem foldlM_of_mem {g : β → α → Except ε β} {l : List α} {b c : β} {a : α} {I : β → Prop}
    (h : l.foldlM g b = .ok c) (ha : a ∈ l) (hnew : ∀ {b b'}, g b a = .ok b' → I b')
    (hkeep : ∀ {b a b'}, I b → g b a = .ok b' → I b') : I c := by
  induction l generalizing b with
  | nil => exact (List.not_mem_nil ha).elim
  | cons d l ih =>
    rw [List.foldlM_cons] at h
    obtain ⟨b', hb', hrest⟩ := bind_eq_ok.1 h
    rcases List.mem_cons.1 ha with rfl | ha
    · exact foldlM_induct hrest (hnew hb') fun _ hI heq ↦ hkeep hI heq
    · exact ih hrest ha

theorem exists_of_toOption_any {x : Except ε α} {test : α → Bool}
    (h : x.toOption.any test = true) : ∃ a, x = .ok a ∧ test a = true := by
  cases x with
  | ok a => exact ⟨a, rfl, h⟩
  | error e => cases h

/-- If a list of steps fails, one of them fails in the same way. -/
theorem exists_of_mapM_eq_error {l : List α} {e : ε} (h : l.mapM f = .error e) :
    ∃ a ∈ l, f a = .error e := by
  induction l with
  | nil => cases h
  | cons a l ih =>
    rw [List.mapM_cons, bind_eq_error] at h
    rcases h with h | ⟨b, -, h⟩
    · exact ⟨a, List.mem_cons_self, h⟩
    · rcases bind_eq_error.1 h with h | ⟨bs, -, h⟩
      · obtain ⟨c, hc, he⟩ := ih h
        exact ⟨c, List.mem_cons_of_mem _ hc, he⟩
      · cases h

/-- A search that ends at the first hit has none exactly if every test says so. -/
theorem anyM_eq_ok_false {test : α → Except ε Bool} {l : List α} :
    l.anyM test = .ok false ↔ ∀ a ∈ l, test a = .ok false := by
  induction l with
  | nil => simp [pure, Except.pure]
  | cons a l ih =>
    rw [List.anyM_cons, bind_eq_ok, List.forall_mem_cons]
    constructor
    · rintro ⟨b, hb, hrest⟩
      cases b with
      | true => cases hrest
      | false => exact ⟨hb, ih.1 hrest⟩
    · rintro ⟨ha, hrest⟩
      exact ⟨false, ha, ih.2 hrest⟩

/-- A hit of such a search is a hit of a test. -/
theorem exists_of_anyM_eq_ok_true {test : α → Except ε Bool} {l : List α}
    (h : l.anyM test = .ok true) : ∃ a ∈ l, test a = .ok true := by
  induction l with
  | nil => cases h
  | cons a l ih =>
    rw [List.anyM_cons] at h
    obtain ⟨b, hb, hrest⟩ := bind_eq_ok.1 h
    cases b with
    | true => exact ⟨a, List.mem_cons_self, hb⟩
    | false =>
      obtain ⟨c, hc, htest⟩ := ih hrest
      exact ⟨c, List.mem_cons_of_mem _ hc, htest⟩

/-- If every test comes to an answer, so does the search. -/
theorem exists_anyM_eq_ok {test : α → Except ε Bool} {l : List α}
    (h : ∀ a ∈ l, ∃ b, test a = .ok b) : ∃ b, l.anyM test = .ok b := by
  induction l with
  | nil => exact ⟨false, rfl⟩
  | cons a l ih =>
    obtain ⟨⟨b, hb⟩, hrest⟩ := List.forall_mem_cons.1 h
    rw [List.anyM_cons, hb]
    cases b with
    | true => exact ⟨true, rfl⟩
    | false => exact ih hrest

end Outcome

/-! ### Loops that finish -/

section Loop

variable {σ ρ ε : Type} {turn : σ → Except ε (Turn σ ρ)} {s t : σ} {result : Except ε ρ}

/-- Granted enough turns, the loop comes to this result. -/
def Finishes (turn : σ → Except ε (Turn σ ρ)) (s : σ) (result : Except ε ρ) : Prop :=
  ∃ N, ∀ turns, N ≤ turns → iterate turn turns s = result.map some

/-- A loop whose first turn is its last finishes with what the turn gives. -/
theorem finishes_of_done {a : ρ} (h : turn s = .ok (.done a)) : Finishes turn s (.ok a) := by
  refine ⟨1, fun turns hle ↦ ?_⟩
  obtain ⟨k, rfl⟩ := Nat.exists_eq_add_one.2 hle
  rw [iterate, h]
  rfl

/-- A loop whose first turn fails finishes with that failure. -/
theorem finishes_of_error {e : ε} (h : turn s = .error e) : Finishes turn s (.error e) := by
  refine ⟨1, fun turns hle ↦ ?_⟩
  obtain ⟨k, rfl⟩ := Nat.exists_eq_add_one.2 hle
  rw [iterate, h]
  rfl

/-- A loop that goes on after a turn finishes as it does from there. -/
theorem Finishes.of_again (h : turn s = .ok (.again t)) (ht : Finishes turn t result) :
    Finishes turn s result := by
  obtain ⟨N, hN⟩ := ht
  refine ⟨N + 1, fun turns hle ↦ ?_⟩
  obtain ⟨k, rfl⟩ := Nat.exists_eq_add_one.2 (Nat.lt_of_lt_of_le N.succ_pos hle)
  rw [iterate, h]
  exact hN k (Nat.le_of_succ_le_succ hle)

end Loop

/-- Reporting faults as aborts does not change what succeeds. -/
theorem orFault_eq_ok {α : Type} {x : Except Fault α} {a : α} : orFault x = .ok a ↔ x = .ok a := by
  cases x <;> simp [orFault]

/-- The only aborts that come of a lookup are its faults. -/
theorem orFault_eq_error {α : Type} {x : Except Fault α} {e : Abort} :
    orFault x = .error e ↔ ∃ f, x = .error f ∧ e = .fault f := by
  cases x <;> simp [orFault, eq_comm]

namespace Work

variable {σ α β : Type}

/-- What a computation does from a state: steps of `T`, a value in `Q`, an early stop in `E`. -/
structure Does (T : σ → σ → Prop) (E : Abort → σ → Prop) (m : Work σ α) (s : σ)
    (Q : α → σ → Prop) : Prop where
  /-- The state changes by steps of `T`. -/
  change : Relation.ReflTransGen T s (m s).2
  /-- A value satisfies `Q`. -/
  value : ∀ a, (m s).1 = .ok a → Q a (m s).2
  /-- An early stop is for a reason in `E`. -/
  stop : ∀ e, (m s).1 = .error e → E e (m s).2

variable {T : σ → σ → Prop} {E : Abort → σ → Prop} {m : Work σ α} {f : α → Work σ β} {s : σ}
  {Q Q' : α → σ → Prop} {P : β → σ → Prop}

/-! ### What a sequence of computations does -/

/-- If the first of two pieces of work succeeds, the second goes on where it stopped. -/
theorem bind_of_ok {a : α} (h : (m s).1 = .ok a) : (m >>= f) s = f a (m s).2 := by
  rcases hm : m s with ⟨r, t⟩
  obtain rfl : r = .ok a := by rw [hm] at h; exact h
  simp only [bind, ExceptT.bind, ExceptT.mk, StateT.bind, hm]
  rfl

/-- If the first of two pieces of work is aborted, the second does not happen. -/
theorem bind_of_error {e : Abort} (h : (m s).1 = .error e) :
    (m >>= f) s = (.error e, (m s).2) := by
  rcases hm : m s with ⟨r, t⟩
  obtain rfl : r = .error e := by rw [hm] at h; exact h
  simp only [bind, ExceptT.bind, ExceptT.mk, StateT.bind, hm]
  rfl

/-- If a sequence gives a value, so do both its parts. -/
theorem exists_of_bind {b : β} {t : σ} (h : (m >>= f) s = (.ok b, t)) :
    ∃ a u, m s = (.ok a, u) ∧ f a u = (.ok b, t) := by
  cases hm : (m s).1 with
  | error e =>
    rw [bind_of_error hm] at h
    cases h
  | ok a =>
    rw [bind_of_ok hm] at h
    exact ⟨a, (m s).2, Prod.ext hm rfl, h⟩

namespace Does

/-- However work ends, the state has changed by the permitted steps only. -/
theorem change_of_eq {r : Except Abort α} {t : σ} (hm : Does T E m s Q) (h : m s = (r, t)) :
    Relation.ReflTransGen T s t := by
  have hchange := hm.change
  rwa [h] at hchange

/-- If work succeeds, what it gives is as promised. -/
theorem value_of_eq {a : α} {t : σ} (hm : Does T E m s Q) (h : m s = (.ok a, t)) : Q a t := by
  have hvalue := hm.value a (congrArg Prod.fst h)
  rwa [h] at hvalue

/-- If work is aborted, it is for a permitted reason. -/
theorem stop_of_eq {e : Abort} {t : σ} (hm : Does T E m s Q) (h : m s = (.error e, t)) : E e t := by
  have hstop := hm.stop e (congrArg Prod.fst h)
  rwa [h] at hstop

theorem pure {a : α} (h : Q a s) : Does T E (pure a) s Q where
  change := .refl
  value := fun b hb ↦ by
    obtain rfl : a = b := Except.ok.inj hb
    exact h
  stop := fun e he ↦ by cases he

theorem throw {e : Abort} (h : E e s) : Does T E (throw e : Work σ α) s Q where
  change := .refl
  value := fun a ha ↦ by cases ha
  stop := fun e' he ↦ by
    obtain rfl : e = e' := Except.error.inj he
    exact h

/-- **Sequencing.** -/
theorem bind (hm : Does T E m s Q)
    (hf : ∀ a t, Relation.ReflTransGen T s t → Q a t → Does T E (f a) t P) :
    Does T E (m >>= f) s P := by
  cases h : (m s).1 with
  | ok a =>
    have hrest := hf a (m s).2 hm.change (hm.value a h)
    exact ⟨by rw [bind_of_ok h]; exact hm.change.trans hrest.change,
      by rw [bind_of_ok h]; exact hrest.value, by rw [bind_of_ok h]; exact hrest.stop⟩
  | error e =>
    refine ⟨by rw [bind_of_error h]; exact hm.change, ?_, ?_⟩
    · rw [bind_of_error h]
      exact fun b hb ↦ by cases hb
    · rw [bind_of_error h]
      intro e' he
      obtain rfl : e = e' := Except.error.inj he
      exact hm.stop e h

/-- A computation that is known to give a value. -/
theorem of_eq {a : α} {t : σ} (h : m s = (.ok a, t)) (hT : Relation.ReflTransGen T s t)
    (hQ : Q a t) : Does T E m s Q := by
  refine ⟨by rw [h]; exact hT, fun b hb ↦ ?_, fun e he ↦ ?_⟩
  · rw [h] at hb ⊢
    obtain rfl : a = b := Except.ok.inj hb
    exact hQ
  · rw [h] at he
    cases he

/-- A weaker postcondition, which may use what is known about the change. -/
theorem imp (hm : Does T E m s Q)
    (h : ∀ a t, Relation.ReflTransGen T s t → Q a t → Q' a t) : Does T E m s Q' where
  change := hm.change
  value := fun a ha ↦ h a _ hm.change (hm.value a ha)
  stop := hm.stop

/-- **Bounded loops.** What every turn keeps, and what the last one gives. -/
theorem iterate {τ ρ : Type} {turn : τ → Work σ (Turn τ ρ)} {I : τ → σ → Prop}
    {R : ρ → σ → Prop}
    (hturn : ∀ p t, I p t → Does T E (turn p) t fun r u ↦
      match r with
      | .again p' => I p' u
      | .done a => R a u) {turns : Nat} {p : τ} (hp : I p s) :
    Does T E (AbstractionRefinement.iterate turn turns p) s fun r u ↦ ∀ a, r = some a → R a u := by
  induction turns generalizing p s with
  | zero => exact .pure fun a ha ↦ by cases ha
  | succ turns ih =>
    refine (hturn p s hp).bind fun r t _ hr ↦ ?_
    cases r with
    | again p' => exact ih hr
    | done a =>
      refine .pure fun b hb ↦ ?_
      obtain rfl := Option.some.inj hb
      exact hr

end Does

/-! ### Computations that end -/

/-- Granted enough turns, the computation gives an answer or stops, and how many turns there were
does not matter any more. -/
def Ends (m : Nat → Work σ (Option α)) (s : σ) : Prop :=
  ∃ N r t, r ≠ .ok none ∧ ∀ turns, N ≤ turns → m turns s = (r, t)

namespace Ends

/-- What comes first takes no turns: it may stop, and otherwise the rest has to end. -/
theorem bind {m : Work σ β} {f : β → Nat → Work σ (Option α)}
    (h : ∀ b, (m s).1 = .ok b → Ends (f b) (m s).2) : Ends (fun turns ↦ m >>= (f · turns)) s := by
  cases hm : (m s).1 with
  | error e =>
    exact ⟨0, .error e, (m s).2, (fun h ↦ by cases h), fun turns _ ↦ bind_of_error hm⟩
  | ok b =>
    obtain ⟨N, r, t, hr, hN⟩ := h b hm
    exact ⟨N, r, t, hr, fun turns hle ↦ (bind_of_ok hm).trans (hN turns hle)⟩

/-- What comes last takes no turns, and never says that they did not suffice. -/
theorem andThen {m : Nat → Work σ (Option β)} {k : Option β → Work σ (Option α)} (h : Ends m s)
    (hk : ∀ b t, (k (some b) t).1 ≠ .ok none) : Ends (fun turns ↦ m turns >>= k) s := by
  obtain ⟨N, r, t, hr, hN⟩ := h
  rcases r with e | ⟨_ | b⟩
  · refine ⟨N, .error e, t, (fun h ↦ by cases h), fun turns hle ↦ ?_⟩
    have heq := hN turns hle
    show (m turns >>= k) s = (.error e, t)
    rw [bind_of_error (congrArg Prod.fst heq), heq]
  · exact absurd rfl hr
  · refine ⟨N, (k (some b) t).1, (k (some b) t).2, hk b t, fun turns hle ↦ ?_⟩
    have heq := hN turns hle
    show (m turns >>= k) s = k (some b) t
    rw [bind_of_ok (congrArg Prod.fst heq), heq]

/-- **Loops end** if every turn that goes on makes a measure smaller. -/
theorem iterate {τ ρ μ : Type} {turn : τ → Work σ (Turn τ ρ)} {I : τ → σ → Prop}
    (measure : τ → σ → μ) {lt : μ → μ → Prop} (hwf : WellFounded lt)
    (hturn : ∀ {p t p'}, I p t → (turn p t).1 = .ok (.again p') →
      I p' (turn p t).2 ∧ lt (measure p' (turn p t).2) (measure p t)) {p : τ} (hp : I p s) :
    Ends (fun turns ↦ AbstractionRefinement.iterate turn turns p) s := by
  generalize hx : measure p s = x
  induction x using hwf.induction generalizing p s with
  | _ x ih =>
    cases hfirst : (turn p s).1 with
    | error e =>
      refine ⟨1, .error e, (turn p s).2, (fun h ↦ by cases h), fun turns hle ↦ ?_⟩
      obtain ⟨k, rfl⟩ := Nat.exists_eq_add_one.2 hle
      exact bind_of_error hfirst
    | ok r =>
      cases r with
      | done a =>
        refine ⟨1, .ok (some a), (turn p s).2, (fun h ↦ by cases h), fun turns hle ↦ ?_⟩
        obtain ⟨k, rfl⟩ := Nat.exists_eq_add_one.2 hle
        exact bind_of_ok hfirst
      | again p' =>
        obtain ⟨hI, hlt⟩ := hturn hp hfirst
        obtain ⟨N, r, t, hr, hN⟩ := ih _ (hx ▸ hlt) hI rfl
        refine ⟨N + 1, r, t, hr, fun turns hle ↦ ?_⟩
        obtain ⟨k, rfl⟩ := Nat.exists_eq_add_one.2 (Nat.lt_of_lt_of_le N.succ_pos hle)
        exact (bind_of_ok hfirst).trans (hN k (Nat.le_of_succ_le_succ hle))

end Ends

/-! ### What a computation leaves alone -/

/-- What `g` reads off the state is the same afterwards, whether the computation gives a value or
stops early. -/
def Keeps {γ : Type} (g : σ → γ) (m : Work σ α) : Prop := ∀ s, g (m s).2 = g s

namespace Keeps

variable {γ : Type} {g : σ → γ}

theorem pure {a : α} : Keeps g (Pure.pure a : Work σ α) := fun _ ↦ rfl

theorem bind (hm : Keeps g m) (hf : ∀ a, Keeps g (f a)) : Keeps g (m >>= f) := by
  intro s
  cases h : (m s).1 with
  | ok a => rw [bind_of_ok h, hf a, hm s]
  | error e => rw [bind_of_error h, hm s]

end Keeps

end Work

namespace Session

open Work

variable {S A α β : Type} {T : Session S A → Session S A → Prop}
  {E : Abort → Session S A → Prop} {s : Session S A} {Q : β → Session S A → Prop}

/-! ### The primitives of a session

The equations run a primitive in front of a computation; the judgements do the same for the
primitives that leave the session as it is. -/

/-- A demand that is met goes on at once, in the same state. -/
theorem demand_bind {x : Except Abort α} {a : α} {f : α → Work (Session S A) β} (h : x = .ok a) :
    (demand x >>= f) s = f a s := by
  rw [h]
  rfl

theorem currentGraph_bind {f : Graph S A → Work (Session S A) β} :
    (currentGraph >>= f) s = f s.graph s :=
  rfl

/-- An edit that succeeds replaces the graph and nothing else. -/
theorem editGraph_eq {f : Graph S A → Except Fault (Graph S A)} {g' : Graph S A}
    (h : f s.graph = .ok g') : editGraph f s = (.ok (), { s with graph := g' }) := by
  rw [editGraph, h]

theorem editGraph_bind {f : Graph S A → Except Fault (Graph S A)} {g' : Graph S A}
    {k : Unit → Work (Session S A) β} (h : f s.graph = .ok g') :
    (editGraph f >>= k) s = k () { s with graph := g' } := by
  rw [bind_of_ok (a := ()) (by rw [editGraph_eq h]), editGraph_eq h]

/-- After a demand, work is aborted if the demand is not met, and goes on unchanged if it is. -/
theorem does_demand_bind {x : Except Abort α} {f : α → Work (Session S A) β}
    (hstop : ∀ e, x = .error e → E e s) (hval : ∀ a, x = .ok a → Does T E (f a) s Q) :
    Does T E (demand x >>= f) s Q := by
  have hx : Does T E (demand x) s fun a t ↦ x = .ok a ∧ t = s :=
    ⟨.refl, fun a ha ↦ ⟨ha, rfl⟩, hstop⟩
  refine hx.bind ?_
  rintro a t - ⟨ha, rfl⟩
  exact hval a ha

/-- A demand that is met does nothing. -/
theorem does_demand_bind_of_ok {x : Except Abort α} {a : α} {f : α → Work (Session S A) β}
    (h : x = .ok a) (hf : Does T E (f a) s Q) : Does T E (demand x >>= f) s Q := by
  subst h
  exact does_demand_bind (fun _ he ↦ nomatch he) fun _ ha ↦ Except.ok.inj ha ▸ hf

theorem does_currentGraph_bind {f : Graph S A → Work (Session S A) β}
    (h : Does T E (f s.graph) s Q) : Does T E (currentGraph >>= f) s Q :=
  ⟨h.change, h.value, h.stop⟩

end Session

end AbstractionRefinement
