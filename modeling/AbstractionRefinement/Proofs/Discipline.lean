import AbstractionRefinement.Proofs.Exploration.Growth
import AbstractionRefinement.Proofs.Refinement.Cuts

/-!
# The discipline of covering

What holds of every graph that explorations and refinements work on, whatever they are interrupted
by. Some of it concerns one node (`Node.Sane`): targets stay idle, no node is both covered and
expanded, and a node that may not cover covers nothing. The rest (`Model.Disciplined`) relates
nodes: a coverer is above what it covers and has its key, chains of coverers end, and siblings along
one action differ in their state.

Each step of an exploration keeps the discipline, and so does everything that only takes away.

Interruptions matter because a step is the unit: between two steps a graph may have a node that is
half expanded, with some of its children made, and the discipline says nothing that would forbid
this. It does say that such a node counts as unexpanded, so that it is taken up again.

The chain of coverers is the delicate part. A coverer is uncovered when it is chosen, but may be
covered itself later on, so chains get longer. They end all the same, since each link of a chain was
made later than the link before it; `Grounded` says so without speaking of time. That siblings
differ in their state is what makes a second expansion of a node find the children of the first.
-/

namespace AbstractionRefinement

variable {S A P : Type} {M : Model S A P} {g g' : Graph S A} {i id : NodeId} {n m : Node S A}

/-! ### One node -/

/-- What holds of a node by itself. -/
structure Node.Sane (M : Model S A P) (n : Node S A) : Prop where
  /-- Targets are the states that violate the property. -/
  target_eq : n.target = M.isTarget n.state
  /-- The key is that of the state. -/
  key_eq : n.key = M.key n.state
  /-- A target is neither covered nor expanded, and has no children. -/
  idle : n.target = true → n.coveredBy = none ∧ n.expanded = false ∧ n.children = []
  /-- An expanded node is not covered. -/
  single : n.expanded = true → n.coveredBy = none
  /-- A node that may not cover covers nothing. -/
  retired : n.canCover = false → n.covers = []

namespace Node.Sane

theorem freshNode {st : S} {incoming : Option (Incoming A)} {depth : Nat} :
    (Graph.freshNode i st (M.key st) incoming (M.isTarget st) depth).Sane M :=
  ⟨rfl, rfl, fun _ ↦ ⟨rfl, rfl, rfl⟩, fun _ ↦ rfl, fun _ ↦ rfl⟩

theorem shrinks (h : n.Sane M) (hnm : n.Shrinks m) : m.Sane M where
  target_eq := by rw [hnm.target, hnm.state, h.target_eq]
  key_eq := by rw [hnm.key, hnm.state, h.key_eq]
  idle ht := by
    obtain ⟨hc, he, hch⟩ := h.idle (hnm.target ▸ ht)
    refine ⟨hnm.coveredBy.elim (fun h ↦ h) fun h ↦ h.trans hc, ?_, ?_⟩
    · exact eq_false_of_ne_true fun hm ↦ by cases he.symm.trans (hnm.expanded hm).1
    · exact List.sublist_nil.1 (hch ▸ hnm.children)
  single he := hnm.coveredBy.elim (fun h ↦ h) fun h' ↦ h'.trans (h.single (hnm.expanded he).1)
  retired hr := by
    rcases hnm.canCover hr with hn | hm
    · exact List.sublist_nil.1 (h.retired hn ▸ hnm.covers)
    · exact hm

/-- An incomplete node may get children. -/
theorem addChild {c : NodeId} (h : n.Sane M) (hinc : n.isIncomplete = true) :
    ({ n with children := n.children ++ [c] } : Node S A).Sane M where
  target_eq := h.target_eq
  key_eq := h.key_eq
  idle ht := by cases (isIncomplete_iff.1 hinc).2.2.symm.trans ht
  single := h.single
  retired := h.retired

/-- An incomplete node may become expanded. -/
theorem expand (h : n.Sane M) (hinc : n.isIncomplete = true) :
    ({ n with expanded := true } : Node S A).Sane M where
  target_eq := h.target_eq
  key_eq := h.key_eq
  idle ht := by cases (isIncomplete_iff.1 hinc).2.2.symm.trans ht
  single _ := (isIncomplete_iff.1 hinc).2.1
  retired := h.retired

end Node.Sane

/-! ### The graph -/

/-- The discipline of a graph over a domain. -/
structure Model.Disciplined (M : Model S A P) (g : Graph S A) : Prop where
  /-- The graph is well formed. -/
  wellFormed : g.WellFormed
  /-- Every node is sane. -/
  sane : ∀ {i n}, g.node? i = some n → n.Sane M
  /-- A coverer is above what it covers, and has the same key. -/
  leq : ∀ {i n j m}, g.node? i = some n → n.coveredBy = some j → g.node? j = some m →
    M.leq n.state m.state = true ∧ m.key = n.key
  /-- Chains of coverers end. -/
  grounded : ∀ {i n}, g.node? i = some n → g.Grounded i
  /-- Siblings along one action differ in their state. -/
  siblings : ∀ {i n c m c' m'}, g.node? i = some n → c ∈ n.children → c' ∈ n.children →
    g.node? c = some m → g.node? c' = some m' → m.action? = m'.action? → m.state = m'.state →
    c = c'

namespace Model.Disciplined

theorem empty : M.Disciplined (.empty : Graph S A) where
  wellFormed := Graph.wellFormed_empty
  sane h := by simp at h
  leq h := by simp at h
  grounded h := by simp at h
  siblings h := by simp at h

/-- **What only takes away keeps the discipline.** -/
theorem shrinks (hg : M.Disciplined g) (h : g.Shrinks g') (hwf : g'.WellFormed) :
    M.Disciplined g' where
  wellFormed := hwf
  sane hm := by
    obtain ⟨n, hn, hnm⟩ := h.node? hm
    exact (hg.sane hn).shrinks hnm
  leq {i m j k} hm hj hk := by
    obtain ⟨n, hn, hnm⟩ := h.node? hm
    obtain ⟨l, hl, hlk⟩ := h.node? hk
    have hnj : n.coveredBy = some j :=
      (hnm.coveredBy.resolve_left fun h ↦ by cases hj.symm.trans h).symm.trans hj
    rw [hnm.state, hlk.state, hnm.key, hlk.key]
    exact hg.leq hn hnj hl
  grounded {i m} hm := by
    obtain ⟨n, hn, -⟩ := h.node? hm
    refine (hg.grounded hn).of_dropped (fun {i m} hm ↦ ?_) (fun hm hj ↦ ?_) hm
    · obtain ⟨n, hn, hnm⟩ := h.node? hm
      exact ⟨n, hn, hnm.coveredBy⟩
    · exact (hwf.linked.coverer hm hj).2
  siblings {i m c k c' k'} hm hc hc' hk hk' hact hst := by
    obtain ⟨n, hn, hnm⟩ := h.node? hm
    obtain ⟨l, hl, hlk⟩ := h.node? hk
    obtain ⟨l', hl', hlk'⟩ := h.node? hk'
    rw [Node.action?, Node.action?, hlk.incoming, hlk'.incoming] at hact
    rw [hlk.state, hlk'.state] at hst
    exact hg.siblings hn (hnm.children.subset hc) (hnm.children.subset hc') hl hl' hact hst

/-- Children of an old node that were there before still differ. -/
theorem siblings_of_extends (hg : M.Disciplined g) (hext : g.Extends g') {c c' : NodeId}
    {k k' : Node S A} (hn : g.node? i = some n) (hc : c ∈ n.children) (hc' : c' ∈ n.children)
    (hk : g'.node? c = some k) (hk' : g'.node? c' = some k') (hact : k.action? = k'.action?)
    (hst : k.state = k'.state) : c = c' := by
  have hback : ∀ {c k}, c ∈ n.children → g'.node? c = some k →
      ∃ l, g.node? c = some l ∧ l.Extends k := by
    intro c k hc hk
    obtain ⟨l, hl, -⟩ := (hg.wellFormed.forest.mem_children hn).1 hc
    obtain ⟨k', hk', hlk⟩ := hext.node? hl
    obtain rfl := Option.some.inj (hk.symm.trans hk')
    exact ⟨l, hl, hlk⟩
  obtain ⟨l, hl, hlk⟩ := hback hc hk
  obtain ⟨l', hl', hlk'⟩ := hback hc' hk'
  rw [Node.action?, Node.action?, hlk.incoming, hlk'.incoming] at hact
  rw [hlk.state, hlk'.state] at hst
  exact hg.siblings hn hc hc' hl hl' hact hst

/-- Growth that leaves the links alone keeps the discipline, if the nodes stay sane and siblings
differ. -/
theorem of_extends (hg : M.Disciplined g) (hwf : g'.WellFormed) (hext : g.Extends g')
    (hcov : ∀ {i n m}, g.node? i = some n → g'.node? i = some m → m.coveredBy = n.coveredBy)
    (hnew : ∀ {i m}, g.created ≤ i → g'.node? i = some m → m.coveredBy = none)
    (hsane : ∀ {i m}, g'.node? i = some m → m.Sane M)
    (hsib : ∀ {i n c m c' m'}, g'.node? i = some n → c ∈ n.children → c' ∈ n.children →
      g'.node? c = some m → g'.node? c' = some m' → m.action? = m'.action? → m.state = m'.state →
      c = c') : M.Disciplined g' := by
  -- whoever is covered was there before
  have hold : ∀ {i m j}, g'.node? i = some m → m.coveredBy = some j →
      ∃ n, g.node? i = some n ∧ n.Extends m ∧ n.coveredBy = some j := by
    intro i m j hm hj
    have hi : i < g.created := Nat.lt_of_not_le fun hle ↦ by cases hj.symm.trans (hnew hle hm)
    obtain ⟨n, hn, hnm⟩ := hext.exists_node? hi hm
    exact ⟨n, hn, hnm, (hcov hn hm).symm.trans hj⟩
  refine ⟨hwf, hsane, fun {i m j k} hm hj hk ↦ ?_, fun {i m} hm ↦ ?_, hsib⟩
  · obtain ⟨n, hn, hnm, hnj⟩ := hold hm hj
    obtain ⟨-, l, hl⟩ := hg.wellFormed.linked.coverer hn hnj
    obtain ⟨k', hk', hlk⟩ := hext.node? hl
    obtain rfl := Option.some.inj (hk.symm.trans hk')
    rw [hnm.state, hlk.state, hnm.key, hlk.key]
    exact hg.leq hn hnj hl
  · cases hc : m.coveredBy with
    | none => exact .uncovered hm hc
    | some j =>
      obtain ⟨n, hn, -⟩ := hold hm hc
      have h := hg.grounded hn
      clear hm hc hn
      induction h with
      | uncovered hn hc =>
        obtain ⟨m, hm, -⟩ := hext.node? hn
        exact .uncovered hm ((hcov hn hm).trans hc)
      | covered hn hc _ ih =>
        obtain ⟨m, hm, -⟩ := hext.node? hn
        exact .covered hm ((hcov hn hm).trans hc) ih

/-- A root made for a state keeps a graph disciplined. -/
theorem addRoot (hg : M.Disciplined g) {st : S} :
    M.Disciplined (g.addRoot st (M.key st) (M.isTarget st)) := by
  -- a position holds the new root, or what it held
  have hcases : ∀ {i m}, (g.addRoot st (M.key st) (M.isTarget st)).node? i = some m →
      m = Graph.freshNode i st (M.key st) none (M.isTarget st) 0 ∧ i = g.created ∨
        g.node? i = some m := by
    intro i m hm
    rw [Graph.node?_addRoot] at hm
    split at hm
    · exact .inl ⟨(Option.some.inj hm).symm, ‹_›⟩
    · exact .inr hm
  refine hg.of_extends hg.wellFormed.addRoot Graph.extends_addRoot (fun hn hm ↦ ?_)
    (fun hle hm ↦ ?_) (fun hm ↦ ?_) fun hm hc hc' hk hk' hact hst ↦ ?_
  · rcases hcases hm with ⟨-, rfl⟩ | hm
    · exact absurd (Graph.lt_created hn) (Nat.lt_irrefl _)
    · rw [Option.some.inj (hn.symm.trans hm)]
  · rcases hcases hm with ⟨rfl, -⟩ | hm
    · rfl
    · exact absurd (Graph.lt_created hm) (Nat.not_lt.2 hle)
  · rcases hcases hm with ⟨rfl, -⟩ | hm
    · exact .freshNode
    · exact hg.sane hm
  · rcases hcases hm with ⟨rfl, -⟩ | hm
    · exact (List.not_mem_nil hc).elim
    · exact hg.siblings_of_extends Graph.extends_addRoot hm hc hc' hk hk' hact hst

theorem setInitialized (hg : M.Disciplined g) : M.Disciplined (g.setInitialized true) := by
  refine hg.of_extends (hg.wellFormed.setInitialized true) Graph.extends_setInitialized
    (fun hn hm ↦ ?_) (fun hle hm ↦ ?_) (fun hm ↦ hg.sane hm) hg.siblings
  · rw [Option.some.inj (hn.symm.trans hm)]
  · exact absurd (Graph.lt_created hm) (Nat.not_lt.2 hle)

theorem setExpanded (hg : M.Disciplined g) (hn : g.node? id = some n)
    (hinc : n.isIncomplete = true) (hset : g.setExpanded id true = .ok g') :
    M.Disciplined g' := by
  have hext := Graph.extends_setExpanded hn hinc hset
  have hcases : ∀ {i m}, g'.node? i = some m →
      i = id ∧ m = { n with expanded := true } ∨ g.node? i = some m := by
    intro i m hm
    rw [Graph.eq_update_of_setExpanded hset, Graph.node?_update] at hm
    split at hm
    · rename_i hi
      rw [hi, hn] at hm
      exact .inl ⟨hi, (Option.some.inj hm).symm⟩
    · exact .inr hm
  refine hg.of_extends (hg.wellFormed.setExpanded hset) hext (fun {i k m} hk hm ↦ ?_)
    (fun hle hm ↦ ?_) (fun hm ↦ ?_) fun hm hc hc' hk hk' hact hst ↦ ?_
  · rcases hcases hm with ⟨rfl, rfl⟩ | hm
    · rw [Option.some.inj (hk.symm.trans hn)]
    · rw [Option.some.inj (hk.symm.trans hm)]
  · rcases hcases hm with ⟨rfl, -⟩ | hm
    · exact absurd (Graph.lt_created hn) (Nat.not_lt.2 hle)
    · exact absurd (Graph.lt_created hm) (Nat.not_lt.2 hle)
  · rcases hcases hm with ⟨-, rfl⟩ | hm
    · exact (hg.sane hn).expand hinc
    · exact hg.sane hm
  · rcases hcases hm with ⟨-, rfl⟩ | hm
    · exact hg.siblings_of_extends hext hn hc hc' hk hk' hact hst
    · exact hg.siblings_of_extends hext hm hc hc' hk hk' hact hst

/-- A covering that was looked for keeps a graph disciplined. -/
theorem cover (hg : M.Disciplined g) {coverer : NodeId} (hn : g.node? id = some n)
    (hinc : n.isIncomplete = true) (hfind : g.findCoverer M.leq id = .ok (some coverer))
    (hcov : g.cover id coverer = .ok g') : M.Disciplined g' := by
  obtain ⟨k, hk, hkey, hne, hkc, hkcan, hleq⟩ := hg.wellFormed.coverer_of_findCoverer hn hfind
  have hext := Graph.extends_cover hn hinc hcov
  obtain ⟨he, hc, ht⟩ := Node.isIncomplete_iff.1 hinc
  obtain ⟨hrw, -⟩ := Graph.rewrites_cover hn hcov
  rw [hc] at hrw
  refine ⟨hg.wellFormed.cover hcov, fun {i m'} hm' ↦ ?_, fun {i m' j l'} hm' hj hl' ↦ ?_,
    fun {i m'} hm' ↦ ?_, fun {i m' c l c' l'} hm' hc hc' hl hl' hact hst ↦ ?_⟩
  · obtain ⟨m, hm, rfl⟩ := hrw.exists_node? hm'
    have hsane := hg.sane hm
    refine ⟨hsane.target_eq, hsane.key_eq, fun htm ↦ ?_, fun hem ↦ ?_, fun hrm ↦ ?_⟩
    · -- the node that is covered is no target
      have hi : i ≠ id := by
        rintro rfl
        rw [Option.some.inj (hm.symm.trans hn)] at htm
        cases ht.symm.trans htm
      simp only [Graph.relink, if_neg hi]
      exact hsane.idle htm
    · have hi : i ≠ id := by
        rintro rfl
        rw [Option.some.inj (hm.symm.trans hn)] at hem
        cases he.symm.trans hem
      simp only [Graph.relink, if_neg hi]
      exact hsane.single hem
    · -- the coverer may cover
      have hi : i ≠ coverer := by
        rintro rfl
        rw [Option.some.inj (hm.symm.trans hk)] at hrm
        cases hkcan.symm.trans hrm
      simp [Graph.relink, hi, hsane.retired hrm]
  · obtain ⟨m, hm, rfl⟩ := hrw.exists_node? hm'
    obtain ⟨l, hl, rfl⟩ := hrw.exists_node? hl'
    by_cases hi : i = id
    · simp only [Graph.relink, if_pos hi, Option.some.injEq] at hj
      subst hi hj
      obtain rfl := Option.some.inj (hm.symm.trans hn)
      obtain rfl := Option.some.inj (hl.symm.trans hk)
      exact ⟨hleq, hkey⟩
    · simp only [Graph.relink, if_neg hi] at hj
      have h := hg.leq hm hj hl
      exact h
  · obtain ⟨m, hm, -⟩ := hrw.exists_node? hm'
    exact (hg.grounded hm).cover hn hk hkc hcov
  · obtain ⟨m, hm, rfl⟩ := hrw.exists_node? hm'
    exact hg.siblings_of_extends hext hm hc hc' hl hl' hact hst

variable [DecidableEq S] [DecidableEq A]

theorem addChild (hg : M.Disciplined g) {a : A} {st : S} (hn : g.node? id = some n)
    (hinc : n.isIncomplete = true) (hnew : Explorer.hasChild g id a st = .ok false)
    (hadd : g.addChild id a st (M.key st) (M.isTarget st) = .ok g') : M.Disciplined g' := by
  have hext := Graph.extends_addChild hadd
  have hcreated : g'.node? g.created = some (Graph.freshNode g.created st (M.key st)
      (some ⟨id, a⟩) (M.isTarget st) (n.depth + 1)) := by
    rw [Graph.node?_addChild hn hadd, if_pos rfl]
  -- a position holds the new child, the parent with it, or what it held
  have hcases : ∀ {i m}, g'.node? i = some m →
      i = g.created ∧ m = Graph.freshNode g.created st (M.key st) (some ⟨id, a⟩) (M.isTarget st)
        (n.depth + 1) ∨
      i = id ∧ m = { n with children := n.children ++ [g.created] } ∨ g.node? i = some m := by
    intro i m hm
    rw [Graph.node?_addChild hn hadd] at hm
    split at hm
    · rename_i hi
      subst hi
      exact .inl ⟨rfl, (Option.some.inj hm).symm⟩
    · split at hm
      · exact .inr (.inl ⟨‹_›, (Option.some.inj hm).symm⟩)
      · exact .inr (.inr hm)
  -- the new child differs from its older siblings
  have hfresh : ∀ {c k}, c ∈ n.children → g'.node? c = some k → k.action? = some a →
      k.state ≠ st := by
    intro c k hc hk hact hst
    obtain ⟨l, hl, -⟩ := (hg.wellFormed.forest.mem_children hn).1 hc
    obtain ⟨k', hk', hlk⟩ := hext.node? hl
    obtain rfl := Option.some.inj (hk.symm.trans hk')
    rw [Node.action?, hlk.incoming] at hact
    exact Explorer.not_of_hasChild hn hnew hc hl ⟨hact, hlk.state ▸ hst⟩
  refine hg.of_extends (hg.wellFormed.addChild hadd) hext (fun {i k m} hk hm ↦ ?_)
    (fun hle hm ↦ ?_) (fun hm ↦ ?_) fun {i m c k c' k'} hm hc hc' hk hk' hact hst ↦ ?_
  · rcases hcases hm with ⟨rfl, -⟩ | ⟨rfl, rfl⟩ | hm
    · exact absurd (Graph.lt_created hk) (Nat.lt_irrefl _)
    · rw [Option.some.inj (hk.symm.trans hn)]
    · rw [Option.some.inj (hk.symm.trans hm)]
  · rcases hcases hm with ⟨-, rfl⟩ | ⟨rfl, -⟩ | hm
    · rfl
    · exact absurd (Graph.lt_created hn) (Nat.not_lt.2 hle)
    · exact absurd (Graph.lt_created hm) (Nat.not_lt.2 hle)
  · rcases hcases hm with ⟨-, rfl⟩ | ⟨-, rfl⟩ | hm
    · exact .freshNode
    · exact (hg.sane hn).addChild hinc
    · exact hg.sane hm
  · rcases hcases hm with ⟨-, rfl⟩ | ⟨-, rfl⟩ | hm
    · exact (List.not_mem_nil hc).elim
    · rcases List.mem_append.1 hc with hc | hc
      · rcases List.mem_append.1 hc' with hc' | hc'
        · exact hg.siblings_of_extends hext hn hc hc' hk hk' hact hst
        · rw [List.mem_singleton.1 hc', hcreated] at hk'
          obtain rfl := Option.some.inj hk'
          exact absurd hst (hfresh hc hk hact)
      · rw [List.mem_singleton.1 hc, hcreated] at hk
        obtain rfl := Option.some.inj hk
        rcases List.mem_append.1 hc' with hc' | hc'
        · exact absurd hst.symm (hfresh hc' hk' hact.symm)
        · rw [List.mem_singleton.1 hc, List.mem_singleton.1 hc']
    · exact hg.siblings_of_extends hext hm hc hc' hk hk' hact hst

variable [Described S] {x : Explorer S A P} {prec : P} {s t : Session S A}

/-- **Every step of an exploration keeps a graph disciplined.** -/
theorem grows (hs : x.model.Disciplined s.graph) (h : x.Grows prec s t) :
    x.model.Disciplined t.graph := by
  cases h with
  | root => exact hs.addRoot
  | ready => exact hs.setInitialized
  | child hn hinc _ _ hnew hadd => exact hs.addChild hn hinc hnew hadd
  | expanded hn hinc _ _ hset => exact hs.setExpanded hn hinc hset
  | cover hn hinc hfind hcov => exact hs.cover hn hinc hfind hcov

/-- **Explorations keep the discipline**, however far they come. -/
theorem of_grows (hs : x.model.Disciplined s.graph)
    (h : Relation.ReflTransGen (x.Grows prec) s t) : x.model.Disciplined t.graph := by
  induction h with
  | refl => exact hs
  | tail _ hstep ih => exact ih.grows hstep

omit [DecidableEq S] [DecidableEq A] [Described S] in
/-- **Refinements keep the discipline**, however far they come. -/
theorem of_cuts (hs : M.Disciplined s.graph) (h : Relation.ReflTransGen Refuter.Cuts s t) :
    M.Disciplined t.graph :=
  hs.shrinks (Refuter.shrinks_of_cuts h hs.wellFormed) (Refuter.wellFormed_of_cuts h hs.wellFormed)

omit [DecidableEq S] [DecidableEq A] [Described S] in
/-- The path to a counterexample ends in a state that violates the property. -/
theorem exists_target_of_pathTo (hg : M.Disciplined g) {id : NodeId}
    (hid : id ∈ g.counterexamples) {path : Path S A} (h : g.pathTo id = .ok path) :
    g.IsPath path ∧ path.target = id ∧
      ∃ n, g.node? id = some n ∧ n.state = path.trace.last ∧ M.isTarget n.state = true := by
  obtain ⟨hpath, rfl⟩ := Graph.isPath_of_pathTo h
  obtain ⟨n, hn, hstate⟩ := hpath.exists_target
  obtain ⟨n', hn', hcex⟩ := (Graph.mem_counterexamples hg.wellFormed.indexed).1 hid
  obtain rfl := Option.some.inj (hn.symm.trans hn')
  refine ⟨hpath, rfl, n, hn, hstate, ?_⟩
  rw [← (hg.sane hn).target_eq]
  exact (Bool.and_eq_true_iff.1 hcex).1

end Model.Disciplined

end AbstractionRefinement
