import AbstractionRefinement.Product
import AbstractionRefinement.Proofs.Soundness

/-!
# Soundness of products

A pair of states stands for what both components stand for. If both components over-approximate a
system, their product does (`Analysis.Simulates.product`): a concrete state that both components
keep is kept by a pair, and a state that is kept is not bottom, so neither the early exit nor the
dropping of bottom pairs loses it.

The order of a product is not componentwise, since a pair with a bottom component lies below every
pair. It is transitive all the same if only bottom lies below bottom in the components
(`Analysis.Ordered.product`): a pair below a bottom pair is then bottom itself.
`Analysis.product_keeps` puts together what a product keeps of its components.

No hypothesis relates the two components to each other. They are analyses of the same actions, and
each follows the system by itself; the pair then follows it too, since a concrete state that is
described by both is described by the pair. How precise the pair is, compared with what an exchange
between the components could give, is not a question that is asked here.

The example at the end is an account with a balance and its parity. Paying out of an empty account
leaves no pair, because one component finds it impossible, although the parity alone would allow it.
-/

namespace AbstractionRefinement

variable {S T A P Q C : Type}

namespace Analysis

variable {a : Analysis S A P} {b : Analysis T A Q} {prec : PairPrecision P Q} {X : System C A}
  {γ : S → C → Prop} {δ : T → C → Prop} {fit : S → Prop} {fit' : T → Prop}
  {firsts : List S} {seconds : List T} {c : C}

/-- The pairs that are formed are those of which neither half is bottom. -/
theorem mem_pairs {s : PairState S T} : s ∈ a.pairs b firsts seconds ↔
    (s.first ∈ firsts ∧ a.isBottom s.first = false) ∧
      s.second ∈ seconds ∧ b.isBottom s.second = false := by
  rw [pairs, List.mem_flatMap]
  constructor
  · rintro ⟨u, hu, hs⟩
    obtain ⟨w, hw, rfl⟩ := List.mem_map.1 hs
    simpa using And.intro (List.mem_filter.1 hu) (List.mem_filter.1 hw)
  · rintro ⟨⟨hf, hfb⟩, hs, hsb⟩
    refine ⟨s.first, List.mem_filter.2 ⟨hf, by rw [hfb]; rfl⟩, List.mem_map.2 ⟨s.second, ?_, rfl⟩⟩
    exact List.mem_filter.2 ⟨hs, by rw [hsb]; rfl⟩

/-- What both components keep is kept by a pair. -/
theorem exists_mem_pairs (hbot : ∀ {s c}, a.isBottom s = true → ¬γ s c)
    (hbot' : ∀ {t c}, b.isBottom t = true → ¬δ t c) (hf : ∃ s ∈ firsts, γ s c)
    (hs : ∃ t ∈ seconds, δ t c) :
    ∃ u ∈ a.pairs b firsts seconds, γ u.first c ∧ δ u.second c := by
  obtain ⟨t, ht, hδ⟩ := hs
  obtain ⟨s, hs, hγ⟩ := hf
  have hsb : a.isBottom s = false := eq_false_of_ne_true fun h ↦ hbot h hγ
  have htb : b.isBottom t = false := eq_false_of_ne_true fun h ↦ hbot' h hδ
  exact ⟨⟨s, t⟩, mem_pairs.2 ⟨⟨hs, hsb⟩, ht, htb⟩, hγ, hδ⟩

/-- What a product answers for initial states. -/
theorem product_initial_eq_ok {states : List (PairState S T)} :
    (a.product b).initial prec = .ok states ↔ ∃ firsts seconds, a.initial prec.first = .ok firsts ∧
      b.initial prec.second = .ok seconds ∧ states = a.pairs b firsts seconds := by
  constructor
  · intro h
    obtain ⟨firsts, hf, h⟩ := bind_eq_ok.1 h
    obtain ⟨seconds, hs, h⟩ := bind_eq_ok.1 h
    exact ⟨firsts, seconds, hf, hs, (Except.ok.inj h).symm⟩
  · rintro ⟨firsts, seconds, hf, hs, rfl⟩
    exact bind_eq_ok.2 ⟨firsts, hf, bind_eq_ok.2 ⟨seconds, hs, rfl⟩⟩

/-- What a product answers for successors: nothing if the first component is left with bottom, and
the pairs otherwise. -/
theorem product_successors_eq_ok {s : PairState S T} {act : A} {states : List (PairState S T)} :
    (a.product b).successors s act prec = .ok states ↔
      ∃ firsts, a.successors s.first act prec.first = .ok firsts ∧
        ((∀ t ∈ firsts, a.isBottom t = true) ∧ states = [] ∨
          (∃ t ∈ firsts, a.isBottom t = false) ∧
            ∃ seconds, b.successors s.second act prec.second = .ok seconds ∧
              states = a.pairs b firsts seconds) := by
  rw [show (a.product b).successors s act prec = (a.successors s.first act prec.first >>=
    fun firsts ↦ if firsts.all a.isBottom then pure [] else
      b.successors s.second act prec.second >>= fun seconds ↦
        pure (a.pairs b firsts seconds)) from rfl, bind_eq_ok]
  refine exists_congr fun firsts ↦ and_congr_right fun _ ↦ ?_
  split
  · rename_i hall
    have hall := List.all_eq_true.1 hall
    constructor
    · exact fun h ↦ .inl ⟨hall, (Except.ok.inj h).symm⟩
    · rintro (⟨-, rfl⟩ | ⟨⟨t, ht, htb⟩, -⟩)
      · rfl
      · cases (hall t ht).symm.trans htb
  · rename_i hall
    have hex : ∃ t ∈ firsts, a.isBottom t = false := by simpa using hall
    rw [bind_eq_ok]
    constructor
    · rintro ⟨seconds, hs, h⟩
      exact .inr ⟨hex, seconds, hs, (Except.ok.inj h).symm⟩
    · rintro (⟨hbot, -⟩ | ⟨-, seconds, hs, rfl⟩)
      · obtain ⟨t, ht, htb⟩ := hex
        cases (hbot t ht).symm.trans htb
      · exact ⟨seconds, hs, rfl⟩

/-- A product tells successors if both components do, and pairs theirs. -/
theorem exists_product_successors {s : PairState S T} {act : A}
    (hf : a.successors s.first act prec.first = .ok firsts)
    (hs : b.successors s.second act prec.second = .ok seconds) :
    ∃ states, (a.product b).successors s act prec = .ok states ∧
      ∀ st ∈ states, st.first ∈ firsts ∧ st.second ∈ seconds := by
  by_cases hall : ∀ t ∈ firsts, a.isBottom t = true
  · exact ⟨[], product_successors_eq_ok.2 ⟨firsts, hf, .inl ⟨hall, rfl⟩⟩, List.forall_mem_nil _⟩
  · have hex : ∃ t ∈ firsts, a.isBottom t = false := by simpa using hall
    refine ⟨_, product_successors_eq_ok.2 ⟨firsts, hf, .inr ⟨hex, seconds, hs, rfl⟩⟩,
      fun st hst ↦ ?_⟩
    obtain ⟨⟨hfirst, -⟩, hsecond, -⟩ := mem_pairs.1 hst
    exact ⟨hfirst, hsecond⟩

/-- A pair with a bottom component stands for nothing. -/
theorem not_of_pairIsBottom {s : PairState S T} (h : a.pairIsBottom b s = true)
    (hbot : a.isBottom s.first = true → ¬γ s.first c)
    (hbot' : b.isBottom s.second = true → ¬δ s.second c) : ¬(γ s.first c ∧ δ s.second c) := by
  rintro ⟨hγ, hδ⟩
  rcases Bool.or_eq_true_iff.1 h with h | h
  · exact hbot h hγ
  · exact hbot' h hδ

/-- A pair is below another if it is bottom or each half is below. -/
theorem product_leq_iff {s t : PairState S T} : (a.product b).leq s t = true ↔
    a.pairIsBottom b s = true ∨ a.leq s.first t.first = true ∧ b.leq s.second t.second = true := by
  rw [← Bool.and_eq_true_iff, ← Bool.or_eq_true_iff]
  rfl

/-- A larger pair stands for more. -/
theorem of_product_leq {s t : PairState S T} (h : (a.product b).leq s t = true)
    (hbot : a.isBottom s.first = true → ¬γ s.first c)
    (hbot' : b.isBottom s.second = true → ¬δ s.second c)
    (hleq : a.leq s.first t.first = true → γ s.first c → γ t.first c)
    (hleq' : b.leq s.second t.second = true → δ s.second c → δ t.second c)
    (hs : γ s.first c ∧ δ s.second c) : γ t.first c ∧ δ t.second c := by
  rcases product_leq_iff.1 h with h | ⟨hfirst, hsecond⟩
  · exact absurd hs (not_of_pairIsBottom h hbot hbot')
  · exact ⟨hleq hfirst hs.1, hleq' hsecond hs.2⟩

/-- **The product of two over-approximations is one**, for the intersection of what the components
stand for. -/
theorem Simulates.product (ha : a.Simulates prec.first X γ fit)
    (hb : b.Simulates prec.second X δ fit') :
    (a.product b).Simulates prec X (fun s c ↦ γ s.first c ∧ δ s.second c)
      fun s ↦ fit s.first ∧ fit' s.second where
  initial h hc := by
    obtain ⟨firsts, seconds, hf, hs, rfl⟩ := product_initial_eq_ok.1 h
    exact exists_mem_pairs ha.bottom hb.bottom (ha.initial hf hc) (hb.initial hs hc)
  fit_initial h hst := by
    obtain ⟨firsts, seconds, hf, hs, rfl⟩ := product_initial_eq_ok.1 h
    obtain ⟨⟨hfirst, -⟩, hsecond, -⟩ := mem_pairs.1 hst
    exact ⟨ha.fit_initial hf hfirst, hb.fit_initial hs hsecond⟩
  successors {st act states c c'} hfit h hγ hstep := by
    obtain ⟨firsts, hf, hrest⟩ := product_successors_eq_ok.1 h
    have hfirst := ha.successors hfit.1 hf hγ.1 hstep
    rcases hrest with ⟨hbot, -⟩ | ⟨-, seconds, hs, rfl⟩
    · -- the early exit is not taken: some first component stands for the state reached
      obtain ⟨t, ht, hγt⟩ := hfirst
      exact absurd hγt (ha.bottom (hbot t ht))
    · exact exists_mem_pairs ha.bottom hb.bottom hfirst (hb.successors hfit.2 hs hγ.2 hstep)
  fit_successors hfit h hst := by
    obtain ⟨firsts, hf, ⟨-, rfl⟩ | ⟨-, seconds, hs, rfl⟩⟩ := product_successors_eq_ok.1 h
    · exact (List.not_mem_nil hst).elim
    · obtain ⟨⟨hfirst, -⟩, hsecond, -⟩ := mem_pairs.1 hst
      exact ⟨ha.fit_successors hfit.1 hf hfirst, hb.fit_successors hfit.2 hs hsecond⟩
  bottom h := not_of_pairIsBottom h ha.bottom hb.bottom
  leq h := of_product_leq h ha.bottom hb.bottom ha.leq hb.leq

/-! ### Every precision -/

/-- The analysis over-approximates the system at every precision, on all states. -/
structure Approximates (D : Analysis S A P) (T : System C A) (γ : S → C → Prop) : Prop where
  /-- No initial state is lost. -/
  initial : ∀ {prec states c}, D.initial prec = .ok states → T.initial c → ∃ st ∈ states, γ st c
  /-- No step is lost. -/
  successors : ∀ {st act prec states c c'}, D.successors st act prec = .ok states → γ st c →
    T.step c act c' → ∃ st' ∈ states, γ st' c'
  /-- Bottom stands for nothing. -/
  bottom : ∀ {st c}, D.isBottom st = true → ¬γ st c
  /-- A larger state stands for more. -/
  leq : ∀ {st st' c}, D.leq st st' = true → γ st c → γ st' c

/-- What approximates a system simulates it, with no condition on states. -/
theorem Approximates.simulates (h : a.Approximates X γ) (p : P) :
    a.Simulates p X γ fun _ ↦ True where
  initial := h.initial
  fit_initial _ _ := trivial
  successors _ := h.successors
  fit_successors _ _ _ := trivial
  bottom := h.bottom
  leq := h.leq

/-- **The product of two approximations is an approximation**, by states that stand for what both
halves do. -/
theorem Approximates.product (ha : a.Approximates X γ) (hb : b.Approximates X δ) :
    (a.product b).Approximates X fun s c ↦ γ s.first c ∧ δ s.second c where
  initial {prec _ _} h hc :=
    ((ha.simulates prec.first).product (hb.simulates prec.second)).initial h hc
  successors {_ _ prec _ _ _} h hγ hstep :=
    ((ha.simulates prec.first).product (hb.simulates prec.second)).successors ⟨trivial, trivial⟩ h
      hγ hstep
  bottom h := not_of_pairIsBottom h ha.bottom hb.bottom
  leq h := of_product_leq h ha.bottom hb.bottom ha.leq hb.leq

/-! ### No pair that is bottom -/

/-- No pair that is formed is bottom. -/
theorem isBottom_of_mem_pairs {st : PairState S T} (h : st ∈ a.pairs b firsts seconds) :
    (a.product b).isBottom st = false := by
  obtain ⟨⟨-, hfirst⟩, -, hsecond⟩ := mem_pairs.1 h
  show (a.isBottom st.first || b.isBottom st.second) = false
  rw [hfirst, hsecond]
  rfl

/-- No initial state of a product is bottom. -/
theorem isBottom_of_mem_initial {states : List (PairState S T)}
    (h : (a.product b).initial prec = .ok states) :
    ∀ st ∈ states, (a.product b).isBottom st = false := by
  obtain ⟨firsts, seconds, -, -, rfl⟩ := product_initial_eq_ok.1 h
  exact fun st hst ↦ isBottom_of_mem_pairs hst

/-- No successor in a product is bottom. -/
theorem isBottom_of_mem_successors {s : PairState S T} {act : A} {states : List (PairState S T)}
    (h : (a.product b).successors s act prec = .ok states) :
    ∀ st ∈ states, (a.product b).isBottom st = false := by
  obtain ⟨firsts, -, ⟨-, rfl⟩ | ⟨-, seconds, -, rfl⟩⟩ := product_successors_eq_ok.1 h
  · exact List.forall_mem_nil _
  · exact fun st hst ↦ isBottom_of_mem_pairs hst

/-! ### When a product answers -/

/-- The initial states of a product can be computed if those of both halves can. -/
theorem product_initial_isOk : (∃ states, (a.product b).initial prec = .ok states) ↔
    (∃ firsts, a.initial prec.first = .ok firsts) ∧
      ∃ seconds, b.initial prec.second = .ok seconds := by
  constructor
  · rintro ⟨states, h⟩
    obtain ⟨firsts, seconds, hf, hs, -⟩ := product_initial_eq_ok.1 h
    exact ⟨⟨firsts, hf⟩, seconds, hs⟩
  · rintro ⟨⟨firsts, hf⟩, seconds, hs⟩
    exact ⟨_, product_initial_eq_ok.2 ⟨firsts, seconds, hf, hs, rfl⟩⟩

/-- The second component is not asked if the first is left with bottom. -/
theorem product_successors_isOk {s : PairState S T} {act : A} :
    (∃ states, (a.product b).successors s act prec = .ok states) ↔
      ∃ firsts, a.successors s.first act prec.first = .ok firsts ∧
        ((∀ t ∈ firsts, a.isBottom t = true) ∨
          ∃ seconds, b.successors s.second act prec.second = .ok seconds) := by
  constructor
  · rintro ⟨states, h⟩
    obtain ⟨firsts, hf, ⟨hbot, -⟩ | ⟨-, seconds, hs, -⟩⟩ := product_successors_eq_ok.1 h
    · exact ⟨firsts, hf, .inl hbot⟩
    · exact ⟨firsts, hf, .inr ⟨seconds, hs⟩⟩
  · rintro ⟨firsts, hf, hbot | ⟨seconds, hs⟩⟩
    · exact ⟨[], product_successors_eq_ok.2 ⟨firsts, hf, .inl ⟨hbot, rfl⟩⟩⟩
    · obtain ⟨states, h, -⟩ := exists_product_successors hf hs
      exact ⟨states, h⟩

/-! ### The order -/

/-- The order is reflexive and transitive, and only bottom lies below bottom. -/
structure Ordered (D : Analysis S A P) : Prop where
  /-- The order is reflexive. -/
  refl : ∀ s, D.leq s s = true
  /-- The order is transitive. -/
  trans : ∀ {s t u}, D.leq s t = true → D.leq t u = true → D.leq s u = true
  /-- What lies below bottom is bottom. -/
  bottom : ∀ {s t}, D.leq s t = true → D.isBottom t = true → D.isBottom s = true

/-- **The order of a product**, though not componentwise, is as good as those of its components. -/
theorem Ordered.product (ha : a.Ordered) (hb : b.Ordered) : (a.product b).Ordered := by
  have hbottom : ∀ {s t : PairState S T}, (a.product b).leq s t = true →
      a.pairIsBottom b t = true → a.pairIsBottom b s = true := by
    intro s t hst ht
    rcases product_leq_iff.1 hst with hs | ⟨hfirst, hsecond⟩
    · exact hs
    · exact Bool.or_eq_true_iff.2
        ((Bool.or_eq_true_iff.1 ht).imp (ha.bottom hfirst) (hb.bottom hsecond))
  refine ⟨fun s ↦ product_leq_iff.2 (.inr ⟨ha.refl _, hb.refl _⟩), fun {s t u} hst htu ↦ ?_,
    hbottom⟩
  refine product_leq_iff.2 ?_
  rcases product_leq_iff.1 hst with hs | ⟨hfirst, hsecond⟩
  · exact .inl hs
  · rcases product_leq_iff.1 htu with ht | ⟨hfirst', hsecond'⟩
    · -- a pair in the middle that is bottom makes the first one bottom
      exact .inl (hbottom hst ht)
    · exact .inr ⟨ha.trans hfirst hfirst', hb.trans hsecond hsecond'⟩

/-! ### What a product keeps -/

/-- **What a product keeps of its components.** If both over-approximate a system at every
precision, it does so for the intersection of what they stand for; whatever they are, it tells no
bottom state, and it answers when they do, without the second where the first is left with bottom;
if their orders are reflexive and transitive and only bottom lies below bottom, so is its own. -/
theorem product_keeps (a : Analysis S A P) (b : Analysis T A Q) (X : System C A)
    (γ : S → C → Prop) (δ : T → C → Prop) :
    (a.Approximates X γ → b.Approximates X δ →
        (a.product b).Approximates X fun s c ↦ γ s.first c ∧ δ s.second c) ∧
      (∀ {prec states}, (a.product b).initial prec = .ok states →
        ∀ st ∈ states, (a.product b).isBottom st = false) ∧
      (∀ {s act prec states}, (a.product b).successors s act prec = .ok states →
        ∀ st ∈ states, (a.product b).isBottom st = false) ∧
      (∀ prec, (∃ states, (a.product b).initial prec = .ok states) ↔
        (∃ firsts, a.initial prec.first = .ok firsts) ∧
          ∃ seconds, b.initial prec.second = .ok seconds) ∧
      (∀ s act prec, (∃ states, (a.product b).successors s act prec = .ok states) ↔
        ∃ firsts, a.successors s.first act prec.first = .ok firsts ∧
          ((∀ t ∈ firsts, a.isBottom t = true) ∨
            ∃ seconds, b.successors s.second act prec.second = .ok seconds)) ∧
      (a.Ordered → b.Ordered → (a.product b).Ordered) :=
  ⟨.product, isBottom_of_mem_initial, isBottom_of_mem_successors, fun _ ↦ product_initial_isOk,
    fun _ _ _ ↦ product_successors_isOk, .product⟩

end Analysis

/-! ### An example -/

/-- An account that is never overdrawn: an amount is paid in or out if something is left. -/
def account : System Int Int where
  initial n := n = 0
  step n amount m := m = n + amount ∧ 0 ≤ m
  target _ := False

/-- The balance is even, odd or unknown. -/
def balanceParity : Analysis (Option Bool) Int Unit where
  initial _ := .ok [some true]
  successors s amount _ := .ok [s.map (· == (amount % 2 == 0))]
  leq s t := t.isNone || s == t
  isBottom _ := false

/-- The balance; negative ones are impossible. -/
def balance : Analysis Int Int Unit where
  initial _ := .ok [0, 1]
  successors s amount _ := .ok [s + amount]
  leq s t := s == t
  isBottom s := s < 0

theorem approximates_balanceParity : balanceParity.Approximates account
    fun s n ↦ ∀ even ∈ s, (n % 2 = 0 ↔ even = true) where
  initial h hc := by
    obtain rfl := Except.ok.inj h
    obtain rfl : _ = 0 := hc
    exact ⟨some true, List.mem_singleton.2 rfl, by simp⟩
  successors {s amount _ _ n m} h hγ hstep := by
    obtain rfl := Except.ok.inj h
    obtain ⟨rfl, -⟩ := hstep
    refine ⟨_, List.mem_singleton.2 rfl, fun even heven ↦ ?_⟩
    obtain ⟨before, hs, rfl⟩ := Option.map_eq_some_iff.1 heven
    have hbefore := hγ before hs
    rw [beq_iff_eq]
    cases before <;> simp at hbefore ⊢ <;> omega
  bottom h := by cases h
  leq {s t n} h hγ even ht := by
    rcases Bool.or_eq_true_iff.1 h with h | h
    · rw [Option.isNone_iff_eq_none.1 h] at ht
      cases ht
    · exact hγ even (beq_iff_eq.1 h ▸ ht)

theorem approximates_balance : balance.Approximates account fun s n ↦ s = n ∧ 0 ≤ n where
  initial h hc := by
    obtain rfl := Except.ok.inj h
    obtain rfl : _ = 0 := hc
    exact ⟨0, by simp, rfl, Int.le_refl 0⟩
  successors h hγ hstep := by
    obtain rfl := Except.ok.inj h
    obtain ⟨rfl, -⟩ := hγ
    obtain ⟨rfl, hle⟩ := hstep
    exact ⟨_, List.mem_singleton.2 rfl, rfl, hle⟩
  bottom h hγ := by
    obtain ⟨rfl, hle⟩ := hγ
    exact absurd (of_decide_eq_true h) (Int.not_lt.2 hle)
  leq h hγ := beq_iff_eq.1 h ▸ hγ

theorem ordered_balanceParity : balanceParity.Ordered where
  refl s := by simp [balanceParity]
  trans {s t u} hst htu := by
    simp only [balanceParity, Bool.or_eq_true, Option.isNone_iff_eq_none, beq_iff_eq] at hst htu ⊢
    grind
  bottom _ h := by cases h

theorem ordered_balance : balance.Ordered where
  refl _ := beq_iff_eq.2 rfl
  trans hst htu := beq_iff_eq.2 ((beq_iff_eq.1 hst).trans (beq_iff_eq.1 htu))
  bottom hst ht := beq_iff_eq.1 hst ▸ ht

/-- Paying out of an empty account leaves no pair, since the balance would be impossible; paying in
leaves the one pair of the new balance and its parity. -/
theorem account_product_keeps :
    (balanceParity.product balance).successors ⟨some true, 0⟩ (-1) ⟨(), ()⟩ = .ok [] ∧
      (balanceParity.product balance).successors ⟨some true, 0⟩ 3 ⟨(), ()⟩ =
        .ok [⟨some false, 3⟩] ∧
      (balanceParity.product balance).Approximates account
        (fun s n ↦ (∀ even ∈ s.first, (n % 2 = 0 ↔ even = true)) ∧ s.second = n ∧ 0 ≤ n) ∧
      (balanceParity.product balance).Ordered := by
  obtain ⟨happrox, -, -, -, -, hordered⟩ :=
    Analysis.product_keeps balanceParity balance account _ _
  exact ⟨rfl, rfl, happrox approximates_balanceParity approximates_balance,
    hordered ordered_balanceParity ordered_balance⟩

end AbstractionRefinement
