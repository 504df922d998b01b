import AbstractionRefinement.Proofs.Values.Failures

/-!
# Order and join of the program analysis

The order of the analysis is inclusion of what its states stand for (`Knowledge.leq_iff`): knowing
more bindings is standing for fewer stores, and a binding that is not known can be missed, because
there are two values at least. Joining two states at one location gives their least upper bound
(`Program.leq_of_merge`).

Siblings are joined one after the other, each into the state kept at its location. With joins in
place of merges that are checked, putting a state among its siblings is a plain function
(`Program.joinInto`, `Program.absorb_eq`). What has been kept of the siblings so far is then, at
each location where there are any, their least upper bound (`Program.Gathers`).

That there are two values at least is where the order could be too fine: if a type had a single
value, knowing it would say nothing. Stores are taken to give any value to any variable here, and
not only those of its type, so the argument does not depend on the declarations.

The check of upper bounds that an exploration makes after each merge never fails for this domain,
with or without merging. This is used where the reasons for which a check of a program can stop are
listed.
-/

namespace AbstractionRefinement

/-! ### Knowledge -/

namespace Knowledge

variable {k l m : Knowledge}

/-- **The order is inclusion** of the stores described. -/
theorem leq_iff : k.leq l = true ↔ ∀ σ, k.Admits σ → l.Admits σ := by
  refine ⟨fun h σ hσ ↦ admits_of_leq h hσ, fun h ↦ ?_⟩
  rcases k with _ | v
  · rfl
  -- stores that have the known values, and one and the same value elsewhere
  have hfill : ∀ b : Value, l.Admits (Store.override (fun _ ↦ b) v) :=
    fun b ↦ h _ Store.extends_override
  rcases l with _ | w
  · exact (hfill default).elim
  · refine IndexMap.isExtensionOf_iff.2 fun x a hx ↦ ?_
    have ha : ∀ b : Value, (v.find? x).getD b = a := fun b ↦ hfill b hx
    cases hv : v.find? x with
    | some c => exact congrArg some ((ha default).symm ▸ hv ▸ rfl)
    | none =>
      rw [hv] at ha
      cases (ha (.bool true)).trans (ha (.bool false)).symm

theorem leq_trans (h : k.leq l = true) (h' : l.leq m = true) : k.leq m = true :=
  leq_iff.2 fun σ hσ ↦ leq_iff.1 h' σ (leq_iff.1 h σ hσ)

/-- The join is below all that both are below. -/
theorem join_leq (h : k.leq m = true) (h' : l.leq m = true) : (k.join l).leq m = true := by
  rcases k with _ | v
  · exact h'
  rcases l with _ | w
  · exact h
  rcases m with _ | u
  · cases h
  refine IndexMap.isExtensionOf_iff.2 fun x a hx ↦ ?_
  have hv := IndexMap.isExtensionOf_iff.1 h x a hx
  have hw := IndexMap.isExtensionOf_iff.1 h' x a hx
  exact IndexMap.find?_filter_eq_some_iff.2 ⟨hv, decide_eq_true hw⟩

theorem join_self : k.join k = k := by
  rcases k with _ | v
  · rfl
  · refine congrArg known (IndexMap.ext fun x ↦ Option.ext fun a ↦ ?_)
    rw [IndexMap.find?_filter_eq_some_iff, decide_eq_true_eq, and_self]

end Knowledge

namespace Program

variable {p : Program} {maxEnum : Nat} {merge : Bool} {s t u : ProgramState}

/-! ### Pairs of location and knowledge -/

/-- A state is below another if it is bottom, or at the same location and knows more. -/
theorem model_leq_iff : (p.model maxEnum merge).leq s t = true ↔
    s.second = .bottom ∨ s.first = t.first ∧ s.second.leq t.second = true := by
  have hbottom : Analysis.pairIsBottom p.locationAnalysis (p.valueAnalysis maxEnum) s = true ↔
      s.second = .bottom := by
    rcases s with ⟨l, _ | v⟩
    · exact iff_of_true rfl rfl
    · exact iff_of_false Bool.false_ne_true (fun h ↦ by cases h)
  show (Analysis.pairIsBottom _ _ s || (decide (s.first = t.first) && _)) = true ↔ _
  rw [Bool.or_eq_true_iff, Bool.and_eq_true_iff, decide_eq_true_iff, hbottom]
  rfl

/-- What a state stands for, a larger one does. -/
theorem standsFor_of_leq (h : (p.model maxEnum merge).leq s t = true) {c : Config}
    (hc : StandsFor s c) : StandsFor t c := by
  rcases model_leq_iff.1 h with hbottom | ⟨hfirst, hsecond⟩
  · have hadmits := hc.2
    rw [hbottom] at hadmits
    exact hadmits.elim
  · exact ⟨hfirst ▸ hc.1, Knowledge.leq_iff.1 hsecond _ hc.2⟩

/-- States are merged exactly at the same location, and their knowledge is joined. -/
theorem merge_eq_some_iff : (p.model maxEnum true).merge s t = some u ↔
    s.first = t.first ∧ u = ⟨s.first, s.second.join t.second⟩ := by
  refine ⟨merge_eq_some, ?_⟩
  rintro ⟨hfirst, rfl⟩
  exact if_pos hfirst

/-- **A merged state is below all that both operands are below.** -/
theorem leq_of_merge {r : ProgramState} (h : (p.model maxEnum true).merge s t = some u)
    (hs : (p.model maxEnum true).leq s r = true) (ht : (p.model maxEnum true).leq t r = true) :
    (p.model maxEnum true).leq u r = true := by
  obtain ⟨hfirst, rfl⟩ := merge_eq_some_iff.1 h
  rw [model_leq_iff] at hs ht ⊢
  -- a bottom operand leaves the other one as it is
  rcases hs with hs | ⟨hsr, hs⟩
  · rw [hs]
    exact ht.imp_right fun ht ↦ ⟨hfirst.trans ht.1, ht.2⟩
  · refine .inr ⟨hsr, Knowledge.join_leq hs ?_⟩
    rcases ht with ht | ⟨-, ht⟩
    · rw [ht]
      rfl
    · exact ht

/-! ### Siblings -/

/-- Join a state into the one at its location, or append it if there is none. -/
def joinInto : List ProgramState → ProgramState → List ProgramState
  | [], s => [s]
  | k :: kept, s =>
    if k.first = s.first then ⟨k.first, k.second.join s.second⟩ :: kept else k :: joinInto kept s

variable {x : Explorer ProgramState Move ProgramPrecision} {kept states : List ProgramState}

/-- **Putting a state among its siblings never fails**: it is joined into the one at its
location. -/
theorem absorb_eq (hx : x.model = p.model maxEnum true) :
    x.absorb kept s = .ok (joinInto kept s) := by
  induction kept with
  | nil => rfl
  | cons k kept ih =>
    rw [Explorer.absorb, joinInto]
    by_cases hk : k = s
    · rw [if_pos hk, if_pos (congrArg _ hk), hk, Knowledge.join_self]
    rw [if_neg hk, hx]
    by_cases hfirst : k.first = s.first
    · have hmerge : (p.model maxEnum true).merge k s = some ⟨k.first, k.second.join s.second⟩ :=
        merge_eq_some_iff.2 ⟨hfirst, rfl⟩
      rw [hmerge, if_pos hfirst]
      obtain ⟨hle, hle'⟩ := leq_merge hmerge
      have hcheck : x.checkMerged k s ⟨k.first, k.second.join s.second⟩ = .ok () := by
        rw [Explorer.checkMerged, hx, hle, hle', Bool.and_self, Bool.not_true, Bool.and_false]
        rfl
      show (x.checkMerged k s _ >>= fun _ ↦ _) = _
      rw [hcheck]
      rfl
    · have hmerge : (p.model maxEnum true).merge k s = none := if_neg hfirst
      rw [hmerge, if_neg hfirst, ih]
      rfl

/-- Siblings are absorbed one after the other, and no merge is refused. -/
theorem foldlM_absorb_eq (hx : x.model = p.model maxEnum true) :
    states.foldlM x.absorb kept = .ok (states.foldl joinInto kept) := by
  induction states generalizing kept with
  | nil => rfl
  | cons s states ih =>
    rw [List.foldlM_cons, absorb_eq hx, List.foldl_cons, ← ih]
    rfl

/-- The siblings along one action: bottoms are dropped, the others are put among each other. -/
theorem absorbAll_eq (hx : x.model = p.model maxEnum true) : x.absorbAll kept states =
    (states.filter fun s ↦ !x.model.isBottom s).foldlM x.absorb kept := by
  induction states generalizing kept with
  | nil => rfl
  | cons s states ih =>
    have hleq : x.model.leq s s = true := hx ▸ leq_of_leq rfl s.second.leq_self
    have hcheck : x.checkReflexive s = .ok () := by
      rw [Explorer.checkReflexive, hleq, Bool.not_true, Bool.and_false]
      rfl
    rw [Explorer.absorbAll, hcheck, List.filter_cons]
    show (if x.model.isBottom s = true then _ else _) = _
    cases x.model.isBottom s with
    | true => exact ih
    | false =>
      show (x.absorb kept s >>= fun kept ↦ x.absorbAll kept states) = _
      simp only [ih]
      rfl

/-- What is kept after a state is absorbed was kept before, or is the state, or is joined of the
two. -/
theorem exists_of_mem_joinInto (h : t ∈ joinInto kept s) : t ∈ kept ∨ t = s ∨
    ∃ k ∈ kept, k.first = s.first ∧ t = ⟨k.first, k.second.join s.second⟩ := by
  induction kept with
  | nil => exact .inr (.inl (List.mem_singleton.1 h))
  | cons k kept ih =>
    rw [joinInto] at h
    split at h
    · rename_i hfirst
      rcases List.mem_cons.1 h with rfl | h
      · exact .inr (.inr ⟨k, List.mem_cons_self, hfirst, rfl⟩)
      · exact .inl (List.mem_cons_of_mem _ h)
    · rcases List.mem_cons.1 h with rfl | h
      · exact .inl List.mem_cons_self
      · rcases ih h with h | h | ⟨k', hk', h⟩
        · exact .inl (List.mem_cons_of_mem _ h)
        · exact .inr (.inl h)
        · exact .inr (.inr ⟨k', List.mem_cons_of_mem _ hk', h⟩)

/-- The state itself, and every sibling, is below what is kept at its location. -/
theorem exists_mem_joinInto (h : t = s ∨ t ∈ kept) :
    ∃ k ∈ joinInto kept s, k.first = t.first ∧ t.second.leq k.second = true := by
  induction kept with
  | nil =>
    obtain rfl := h.resolve_right List.not_mem_nil
    exact ⟨t, List.mem_singleton.2 rfl, rfl, t.second.leq_self⟩
  | cons k kept ih =>
    rw [joinInto]
    split
    · rename_i hfirst
      obtain ⟨hle, hle'⟩ := k.second.leq_join s.second
      rcases h with rfl | h
      · exact ⟨_, List.mem_cons_self, hfirst, hle'⟩
      · rcases List.mem_cons.1 h with rfl | h
        · exact ⟨_, List.mem_cons_self, rfl, hle⟩
        · exact ⟨t, List.mem_cons_of_mem _ h, rfl, t.second.leq_self⟩
    · rw [List.mem_cons, or_left_comm] at h
      rcases h with rfl | h
      · exact ⟨t, List.mem_cons_self, rfl, t.second.leq_self⟩
      · obtain ⟨k', hk', h⟩ := ih h
        exact ⟨k', List.mem_cons_of_mem _ hk', h⟩

/-- No two states that are kept have the same location. -/
theorem nodup_joinInto (h : (kept.map PairState.first).Nodup) :
    ((joinInto kept s).map PairState.first).Nodup := by
  induction kept with
  | nil => exact List.nodup_singleton _
  | cons k kept ih =>
    obtain ⟨hk, hkept⟩ := List.nodup_cons.1 h
    rw [joinInto]
    split
    · exact h
    · rename_i hfirst
      refine List.nodup_cons.2 ⟨fun hmem ↦ ?_, ih hkept⟩
      obtain ⟨t, ht, heq⟩ := List.mem_map.1 hmem
      rcases exists_of_mem_joinInto ht with ht | rfl | ⟨k', hk', -, rfl⟩
      · exact hk (List.mem_map.2 ⟨t, ht, heq⟩)
      · exact hfirst heq.symm
      · exact hk (List.mem_map.2 ⟨k', hk', heq⟩)

/-- What has been kept of siblings: at each location where there are any, one state, which is their
least upper bound. -/
structure Gathers (p : Program) (maxEnum : Nat) (states kept : List ProgramState) : Prop where
  /-- No two states at one location. -/
  single : (kept.map PairState.first).Nodup
  /-- Every sibling is below the state at its location. -/
  upper : ∀ s ∈ states, ∃ k ∈ kept, k.first = s.first ∧ (p.model maxEnum true).leq s k = true
  /-- A state is below all that the siblings at its location are below. -/
  least : ∀ k ∈ kept, ∀ u, (∀ s ∈ states, s.first = k.first →
    (p.model maxEnum true).leq s u = true) → (p.model maxEnum true).leq k u = true

namespace Gathers

theorem nil : p.Gathers maxEnum [] [] :=
  ⟨List.nodup_nil, List.forall_mem_nil _, List.forall_mem_nil _⟩

/-- **One more sibling.** -/
theorem concat (h : p.Gathers maxEnum states kept) :
    p.Gathers maxEnum (states ++ [s]) (joinInto kept s) where
  single := nodup_joinInto h.single
  upper := by
    refine List.forall_mem_append.2 ⟨fun t ht ↦ ?_, List.forall_mem_singleton.2 ?_⟩
    · obtain ⟨k, hk, hfirst, hle⟩ := h.upper t ht
      obtain ⟨k', hk', hfirst', hle'⟩ := exists_mem_joinInto (s := s) (.inr hk)
      refine ⟨k', hk', hfirst'.trans hfirst, model_leq_iff.2 ?_⟩
      exact (model_leq_iff.1 hle).imp_right fun hle ↦
        ⟨hle.1.trans hfirst'.symm, Knowledge.leq_trans hle.2 hle'⟩
    · obtain ⟨k, hk, hfirst, hle⟩ : ∃ k ∈ joinInto kept s, _ := exists_mem_joinInto (.inl rfl)
      exact ⟨k, hk, hfirst, leq_of_leq hfirst.symm hle⟩
  least k hk u hu := by
    obtain ⟨hold, hnew⟩ := List.forall_mem_append.1 hu
    replace hnew := List.forall_mem_singleton.1 hnew
    rcases exists_of_mem_joinInto hk with hk | rfl | ⟨k', hk', hfirst, rfl⟩
    · exact h.least k hk u hold
    · exact hnew rfl
    · exact leq_of_merge (merge_eq_some_iff.2 ⟨hfirst, rfl⟩) (h.least k' hk' u hold)
        (hnew hfirst.symm)

theorem foldl : p.Gathers maxEnum states (states.foldl joinInto []) := by
  induction states using List.reverseRecOn with
  | nil => exact .nil
  | append_singleton states s ih =>
    rw [List.foldl_concat]
    exact ih.concat

end Gathers

/-- **Order and join of the program analysis.** The order of what is known is inclusion of the
stores described. Two states are merged exactly if they are at one location, into their least upper
bound in the order of the product. And siblings, whatever they are, are put among each other without
failure: nothing that they stand for is lost, and one state is kept at each location, the least
upper bound of the siblings there; expansion does so with the siblings that are not bottom. -/
theorem order_and_join (p : Program) (o : ProgramOptions) (meter : Meter) :
    let x := p.explorer { o with merge := true } meter
    (∀ k l, (p.valueAnalysis o.maxEnum).leq k l = true ↔ ∀ σ, k.Admits σ → l.Admits σ) ∧
    (∀ s t, ((∃ u, x.model.merge s t = some u) ↔ s.first = t.first) ∧
      ∀ u, x.model.merge s t = some u → x.model.leq s u = true ∧ x.model.leq t u = true ∧
        ∀ r, x.model.leq s r = true → x.model.leq t r = true → x.model.leq u r = true) ∧
    ∀ states, (∃ kept, states.foldlM x.absorb [] = .ok kept ∧
        (∀ s ∈ states, ∀ c, StandsFor s c → ∃ k ∈ kept, StandsFor k c) ∧
        p.Gathers o.maxEnum states kept) ∧
      x.absorbAll [] states =
        (states.filter fun s ↦ !x.model.isBottom s).foldlM x.absorb [] := by
  refine ⟨fun k l ↦ Knowledge.leq_iff, fun s t ↦ ⟨?_, fun u hu ↦ ?_⟩, fun states ↦ ⟨?_, ?_⟩⟩
  · constructor
    · rintro ⟨u, hu⟩
      exact (merge_eq_some_iff.1 hu).1
    · exact fun hfirst ↦ ⟨_, merge_eq_some_iff.2 ⟨hfirst, rfl⟩⟩
  · obtain ⟨hs, ht⟩ := leq_merge hu
    exact ⟨hs, ht, fun r ↦ leq_of_merge hu⟩
  · have hgathers : p.Gathers o.maxEnum states (states.foldl joinInto []) := .foldl
    refine ⟨_, foldlM_absorb_eq rfl, fun s hs c hc ↦ ?_, hgathers⟩
    obtain ⟨k, hk, -, hle⟩ := hgathers.upper s hs
    exact ⟨k, hk, standsFor_of_leq hle hc⟩
  · exact absorbAll_eq rfl

/-- Siblings at two locations. Two of those at the first agree on one variable only, and one is
bottom. -/
def siblings : List ProgramState :=
  [⟨⟨0⟩, .known (.ofList [(0, .int 1), (1, .int 2)])⟩, ⟨⟨1⟩, .known (.ofList [(0, .int 3)])⟩,
    ⟨⟨0⟩, .bottom⟩, ⟨⟨0⟩, .known (.ofList [(0, .int 1), (1, .int 0)])⟩]

/-- Of four siblings at two locations, two states are left. -/
theorem siblings_joined : ∃ p kept, detour.build = .ok p ∧
    kept = [⟨⟨0⟩, .known (.ofList [(0, .int 1)])⟩, ⟨⟨1⟩, .known (.ofList [(0, .int 3)])⟩] ∧
    siblings.foldlM (p.explorer { merge := true } {}).absorb [] = .ok kept ∧
    p.Gathers 16 siblings kept := by
  obtain ⟨p, hp⟩ : ∃ p, detour.build = .ok p := ⟨_, rfl⟩
  obtain ⟨-, -, hsiblings⟩ := order_and_join p {} {}
  obtain ⟨⟨kept, hkept, -, hgathers⟩, -⟩ := hsiblings siblings
  refine ⟨p, kept, hp, ?_, hkept, hgathers⟩
  rw [foldlM_absorb_eq rfl] at hkept
  exact (Except.ok.inj hkept).symm.trans (by decide)

end Program

end AbstractionRefinement
