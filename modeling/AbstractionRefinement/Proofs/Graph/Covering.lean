import AbstractionRefinement.Proofs.Graph.WellFormed
import AbstractionRefinement.Refinement
import Mathlib.Data.List.Nodup
import Mathlib.Tactic.SplitIfs

/-!
# Covering links

What the operations on covering links do to each node, and that they keep a graph well formed. All
of them rewrite nodes in place, each node by itself (`Graph.Rewrites`), so the tree is not touched
and the links need one argument.

Following coverers from a node must end somewhere. `Grounded` says that it does, at a node that is
not covered. Links that are dropped keep it, and a new link keeps it because a coverer is uncovered
at the moment it is chosen; nothing prevents it from being covered later.

A rewriting is a function of the position and the node, and keeps everything that belongs to the
tree. Composition of rewritings is composition of functions, so an operation made of several
updates, such as covering a node that was covered before, is described by one function (`relink`),
and whether it keeps the links in agreement is a question about that function.

The search for a coverer is described here as well (`findCoverer_eq_ok`). It looks among the nodes
of the same key, oldest first, at those that may cover, are not covered themselves and are above the
state.
-/

namespace AbstractionRefinement.Graph

variable {S A : Type} {g g' : Graph S A} {i id coverer : NodeId} {n : Node S A}

/-! ### Rewriting nodes in place -/

/-- The second graph is the first with every node rewritten by itself. -/
structure Rewrites (f : NodeId → Node S A → Node S A) (g g' : Graph S A) : Prop where
  /-- What a position holds. -/
  node? : ∀ i, g'.node? i = (g.node? i).map (f i)
  /-- Only marks and links are rewritten. -/
  bare : ∀ i n, (f i n).bare = n.bare
  /-- The same positions have been used. -/
  created : g'.created = g.created
  /-- The roots are the same. -/
  roots : g'.roots = g.roots
  /-- The partitions are the same. -/
  partitions : g'.partitions = g.partitions
  /-- As many nodes are live. -/
  live : g'.live = g.live
  /-- The roots are as complete as before. -/
  initialized : g'.initialized = g.initialized

namespace Rewrites

variable {f f' : NodeId → Node S A → Node S A}

theorem refl (g : Graph S A) : Rewrites (fun _ n ↦ n) g g :=
  ⟨fun i ↦ by simp, fun _ _ ↦ rfl, rfl, rfl, rfl, rfl, rfl⟩

/-- An update of coverings and marks is a rewriting of one node. -/
theorem update (f : Node S A → Node S A) (hf : ∀ n, (f n).bare = n.bare) :
    Rewrites (fun i n ↦ if i = id then f n else n) g (g.update id f) where
  node? i := by
    rw [node?_update]
    split
    · rfl
    · simp
  bare i n := by
    split
    · exact hf n
    · rfl
  created := created_update
  roots := rfl
  partitions := rfl
  live := rfl
  initialized := rfl

/-- Rewritings in turn are one rewriting. -/
theorem trans {g'' : Graph S A} (h : Rewrites f g g') (h' : Rewrites f' g' g'') :
    Rewrites (fun i n ↦ f' i (f i n)) g g'' where
  node? i := by rw [h'.node?, h.node?, Option.map_map]; rfl
  bare i n := (h'.bare i _).trans (h.bare i n)
  created := h'.created.trans h.created
  roots := h'.roots.trans h.roots
  partitions := h'.partitions.trans h.partitions
  live := h'.live.trans h.live
  initialized := h'.initialized.trans h.initialized

/-- Only what a rewriting does to live nodes matters. -/
theorem congr (h : Rewrites f g g') (hbare : ∀ i n, (f' i n).bare = n.bare)
    (heq : ∀ {i n}, g.node? i = some n → f i n = f' i n) : Rewrites f' g g' where
  node? i := by
    rw [h.node?]
    cases hn : g.node? i with
    | none => rfl
    | some n => exact congrArg some (heq hn)
  bare := hbare
  created := h.created
  roots := h.roots
  partitions := h.partitions
  live := h.live
  initialized := h.initialized

/-- A rewriting keeps the tree. -/
theorem sameTree (h : Rewrites f g g') : SameTree g g' where
  bare i := by
    rw [h.node?, Option.map_map]
    cases g.node? i with
    | none => rfl
    | some n => exact congrArg some (h.bare i n)
  created := h.created
  roots := h.roots
  partitions := h.partitions
  live := h.live

/-- Every node of the rewritten graph comes from one that was there before. -/
theorem exists_node? (h : Rewrites f g g') (hn : g'.node? i = some n) :
    ∃ m, g.node? i = some m ∧ n = f i m := by
  rw [h.node?, Option.map_eq_some_iff] at hn
  obtain ⟨m, hm, he⟩ := hn
  exact ⟨m, hm, he.symm⟩

/-- Links are consistent after a rewriting if the rewritten links are. -/
theorem wellFormed (h : Rewrites f g g') (hg : g.WellFormed)
    (hmem : ∀ {i n}, g.node? i = some n → ∀ {c},
      c ∈ (f i n).covers ↔ ∃ m, g.node? c = some m ∧ (f c m).coveredBy = some i)
    (hnodup : ∀ {i n}, g.node? i = some n → (f i n).covers.Nodup)
    (hcov : ∀ {i n j}, g.node? i = some n → (f i n).coveredBy = some j →
      j ≠ i ∧ ∃ m, g.node? j = some m) : g'.WellFormed := by
  refine ⟨h.sameTree.indexed hg.indexed, h.sameTree.forest hg.forest, ?_, ?_, ?_⟩
  · intro i n hn c
    obtain ⟨m, hm, rfl⟩ := h.exists_node? hn
    rw [hmem hm]
    constructor
    · rintro ⟨k, hk, hb⟩
      exact ⟨f c k, by rw [h.node?, hk]; rfl, hb⟩
    · rintro ⟨k, hk, hb⟩
      obtain ⟨l, hl, rfl⟩ := h.exists_node? hk
      exact ⟨l, hl, hb⟩
  · intro i n hn
    obtain ⟨m, hm, rfl⟩ := h.exists_node? hn
    exact hnodup hm
  · intro i n j hn hj
    obtain ⟨m, hm, rfl⟩ := h.exists_node? hn
    obtain ⟨hne, k, hk⟩ := hcov hm hj
    exact ⟨hne, f j k, by rw [h.node?, hk]; rfl⟩

end Rewrites

/-! ### Uncovering -/

/-- What uncovering `id`, whose coverer is `c`, makes of the node at a position. -/
def unlink (id : NodeId) (c : Option NodeId) (i : NodeId) (m : Node S A) : Node S A :=
  { m with
    coveredBy := if i = id then none else m.coveredBy
    covers := if c = some i then m.covers.filter (· != id) else m.covers }

/-- Uncovering a node takes away its link and the link back, and nothing else. -/
theorem rewrites_uncover (hn : g.node? id = some n) (h : g.uncover id = .ok g') :
    Rewrites (unlink id n.coveredBy) g g' := by
  rw [uncover, node_eq_ok.2 hn] at h
  cases hc : n.coveredBy with
  | none =>
    simp only [bind, Except.bind, hc] at h
    obtain rfl := Except.ok.inj h
    refine (Rewrites.refl g).congr (fun _ _ ↦ rfl) fun {i m} hm ↦ ?_
    by_cases hi : i = id
    · rw [hi, hn] at hm
      rw [unlink, if_pos hi, if_neg (fun h ↦ by cases h), ← Option.some.inj hm, ← hc]
    · rw [unlink, if_neg hi, if_neg (fun h ↦ by cases h)]
  | some c =>
    simp only [bind, Except.bind, hc] at h
    obtain rfl := Except.ok.inj h
    refine ((Rewrites.update _ ?_).trans (Rewrites.update _ ?_)).congr
      (fun _ _ ↦ rfl) fun {i m} _ ↦ ?_
    · exact fun _ ↦ rfl
    · exact fun _ ↦ rfl
    simp only [unlink, Option.some.injEq, eq_comm (a := c)]
    split_ifs <;> rfl

/-- **Uncovering keeps a graph well formed.** -/
theorem WellFormed.uncover (hg : g.WellFormed) (h : g.uncover id = .ok g') : g'.WellFormed := by
  cases hn : g.node? id with
  | none =>
    rw [Graph.uncover, node_eq_error hn] at h
    cases h
  | some n =>
    refine (rewrites_uncover hn h).wellFormed hg ?_ ?_ ?_
    · intro i m hm c
      have hmem := hg.linked.mem_covers hm (c := c)
      by_cases hci : n.coveredBy = some i
      · simp only [unlink, if_pos hci, List.mem_filter, hmem, bne_iff_ne, ne_eq]
        grind
      · simp only [unlink, if_neg hci, hmem]
        grind
    · intro i m hm
      simp only [unlink]
      split
      · exact (hg.linked.covers_nodup hm).filter _
      · exact hg.linked.covers_nodup hm
    · intro i m j hm hj
      simp only [unlink] at hj
      split at hj
      · cases hj
      · exact hg.linked.coverer hm hj

/-! ### Covering -/

/-- What covering `id`, formerly covered by `c`, by `coverer` makes of the node at a position. -/
def relink (id coverer : NodeId) (c : Option NodeId) (i : NodeId) (m : Node S A) : Node S A :=
  { m with
    coveredBy := if i = id then some coverer else m.coveredBy
    covers := (if c = some i then m.covers.filter (· != id) else m.covers) ++
      if i = coverer then [id] else [] }

/-- No node is covered by itself. -/
theorem ne_of_cover (h : g.cover id coverer = .ok g') : id ≠ coverer := by
  intro he
  rw [cover, if_pos he] at h
  cases h

/-- Covering a node takes away the links of its previous covering and makes two new ones. -/
theorem rewrites_cover (hn : g.node? id = some n) (h : g.cover id coverer = .ok g') :
    Rewrites (relink id coverer n.coveredBy) g g' ∧ ∃ m, g.node? coverer = some m := by
  have hne := ne_of_cover h
  rw [cover, if_neg hne] at h
  cases hu : g.uncover id with
  | error e =>
    rw [hu] at h
    cases h
  | ok g₁ =>
    have hrw := rewrites_uncover hn hu
    rw [hu] at h
    cases hc : g₁.node? coverer with
    | none =>
      simp only [bind, Except.bind, node_eq_error hc] at h
      cases h
    | some m =>
      simp only [bind, Except.bind, pure, Except.pure, node_eq_ok.2 hc] at h
      obtain rfl := Except.ok.inj h
      obtain ⟨k, hk, -⟩ := hrw.exists_node? hc
      refine ⟨?_, k, hk⟩
      refine (hrw.trans ((Rewrites.update _ ?_).trans
        (Rewrites.update _ ?_))).congr (fun _ _ ↦ rfl) fun {i m} _ ↦ ?_
      · exact fun _ ↦ rfl
      · exact fun _ ↦ rfl
      by_cases hi : i = id
      · have hic : i ≠ coverer := hi ▸ hne
        simp [unlink, relink, hi, hne]
      · by_cases hic : i = coverer
        · simp [unlink, relink, hic, Ne.symm hne]
        · simp [unlink, relink, hi, hic]

/-- **Covering keeps a graph well formed.** -/
theorem WellFormed.cover (hg : g.WellFormed) (h : g.cover id coverer = .ok g') :
    g'.WellFormed := by
  have hne := ne_of_cover h
  cases hn : g.node? id with
  | none =>
    rw [Graph.cover, if_neg hne] at h
    simp only [bind, Except.bind, Graph.uncover, node_eq_error hn] at h
    cases h
  | some n =>
    obtain ⟨hrw, k, hk⟩ := rewrites_cover hn h
    refine hrw.wellFormed hg ?_ ?_ ?_
    · intro i m hm c
      have hmem := hg.linked.mem_covers hm (c := c)
      have hid : id ∈ m.covers ↔ n.coveredBy = some i := by
        rw [hg.linked.mem_covers hm, hn]
        simp
      by_cases hci : n.coveredBy = some i <;> by_cases hic : i = coverer <;>
        simp only [relink, hci, hic, if_true, if_false, List.append_nil, List.mem_append,
          List.mem_filter, List.mem_singleton, bne_iff_ne, ne_eq] <;> grind
    · intro i m hm
      have hid : id ∈ m.covers ↔ n.coveredBy = some i := by
        rw [hg.linked.mem_covers hm, hn]
        simp
      have hnd := hg.linked.covers_nodup hm
      by_cases hci : n.coveredBy = some i
      · rw [relink, if_pos hci]
        refine List.Nodup.append (hnd.filter _) (by split <;> simp) ?_
        intro c hc hc'
        rw [List.mem_filter, bne_iff_ne] at hc
        split at hc'
        · exact hc.2 (List.mem_singleton.1 hc')
        · exact List.not_mem_nil hc'
      · rw [relink, if_neg hci]
        refine List.Nodup.append hnd (by split <;> simp) ?_
        intro c hc hc'
        split at hc'
        · exact hci (hid.1 (List.mem_singleton.1 hc' ▸ hc))
        · exact List.not_mem_nil hc'
    · intro i m j hm hj
      simp only [relink] at hj
      split at hj
      · rename_i hi
        obtain rfl := Option.some.inj hj
        exact ⟨hi ▸ Ne.symm hne, k, hk⟩
      · exact hg.linked.coverer hm hj

/-! ### Releasing -/

/-- What releasing everything in `cs`, which `id` covers, makes of the node at a position. -/
def release (id : NodeId) (cs : List NodeId) (i : NodeId) (m : Node S A) : Node S A :=
  { m with
    coveredBy := if i ∈ cs then none else m.coveredBy
    covers := if i = id then [] else m.covers }

/-- Releasing several nodes takes away the link of each. -/
theorem rewrites_foldl_release {cs : List NodeId} :
    Rewrites (fun i m ↦ { m with coveredBy := if i ∈ cs then none else m.coveredBy }) g
      (cs.foldl (fun g c ↦ g.update c fun m ↦ { m with coveredBy := none }) g) := by
  induction cs generalizing g with
  | nil => exact (Rewrites.refl g).congr (fun _ _ ↦ rfl) fun _ ↦ by simp
  | cons c cs ih =>
    refine ((Rewrites.update _ ?_).trans ih).congr (fun _ _ ↦ rfl) fun {i m} _ ↦ ?_
    · exact fun _ ↦ rfl
    by_cases hi : i = c
    · simp [hi]
    · simp [hi]

/-- Releasing what a node covers empties its list and takes away the links to it. -/
theorem rewrites_releaseCovered (hn : g.node? id = some n) (h : g.releaseCovered id = .ok g') :
    Rewrites (release id n.covers) g g' := by
  rw [releaseCovered, node_eq_ok.2 hn] at h
  obtain rfl := Except.ok.inj h
  refine ((Rewrites.update _ ?_).trans rewrites_foldl_release).congr
    (fun _ _ ↦ rfl) fun {i m} _ ↦ ?_
  · exact fun _ ↦ rfl
  simp only [release]
  split_ifs <;> rfl

/-- **Releasing keeps a graph well formed.** -/
theorem WellFormed.releaseCovered (hg : g.WellFormed) (h : g.releaseCovered id = .ok g') :
    g'.WellFormed := by
  cases hn : g.node? id with
  | none =>
    rw [Graph.releaseCovered, node_eq_error hn] at h
    cases h
  | some n =>
    have hcs : ∀ c, c ∈ n.covers ↔ ∃ m, g.node? c = some m ∧ m.coveredBy = some id :=
      fun c ↦ hg.linked.mem_covers hn
    refine (rewrites_releaseCovered hn h).wellFormed hg ?_ ?_ ?_
    · intro i m hm c
      have hmem := hg.linked.mem_covers hm (c := c)
      by_cases hi : i = id <;> simp only [release, hi, if_true, if_false] <;> grind
    · intro i m hm
      simp only [release]
      split
      · exact List.nodup_nil
      · exact hg.linked.covers_nodup hm
    · intro i m j hm hj
      simp only [release] at hj
      split at hj
      · cases hj
      · exact hg.linked.coverer hm hj

/-- **Retiring a coverer keeps a graph well formed.** -/
theorem WellFormed.retireCoverer (hg : g.WellFormed) : (g.retireCoverer id).WellFormed := by
  unfold Graph.retireCoverer
  cases hr : g.releaseCovered id with
  | error e => exact hg
  | ok g₁ =>
    have hg₁ := hg.releaseCovered hr
    show ((g₁.disableCovering id).toOption.getD g₁).WellFormed
    cases hd : g₁.disableCovering id with
    | error e => exact hg₁
    | ok g₂ => exact hg₁.disableCovering hd

/-- Retiring a coverer rewrites nodes in place: what it covered is released, and it may not cover.
-/
theorem rewrites_retireCoverer (hn : g.node? id = some n) :
    Rewrites (fun i m ↦ { release id n.covers i m with
      canCover := if i = id then false else m.canCover }) g (g.retireCoverer id) := by
  obtain ⟨g₁, hr⟩ : ∃ g₁, g.releaseCovered id = .ok g₁ := by
    rw [releaseCovered, node_eq_ok.2 hn]
    exact ⟨_, rfl⟩
  have hrw := rewrites_releaseCovered hn hr
  have hn₁ : g₁.node? id = some (release id n.covers id n) := by rw [hrw.node?, hn]; rfl
  have hd : g₁.disableCovering id = .ok (g₁.update id fun n ↦ { n with canCover := false }) := by
    rw [disableCovering, node_eq_ok.2 hn₁]
    rfl
  have heq : g.retireCoverer id = g₁.update id fun n ↦ { n with canCover := false } := by
    simp only [retireCoverer, hr, hd]
    rfl
  rw [heq]
  refine (hrw.trans (Rewrites.update _ ?_)).congr (fun _ _ ↦ rfl) fun {i m} _ ↦ ?_
  · exact fun _ ↦ rfl
  · simp only [release]
    split_ifs <;> rfl

/-- Retiring a node that is not there does nothing. -/
theorem retireCoverer_of_none (hn : g.node? id = none) : g.retireCoverer id = g := by
  rw [retireCoverer, releaseCovered, node_eq_error hn]
  rfl

/-! ### Chains of coverers -/

/-- Following coverers from the node ends at one that is not covered. -/
inductive Grounded (g : Graph S A) : NodeId → Prop
  /-- An uncovered node is the end of its chain. -/
  | uncovered {i : NodeId} {n : Node S A} (hn : g.node? i = some n) (hc : n.coveredBy = none) :
    Grounded g i
  /-- A covered node's chain goes on from its coverer. -/
  | covered {i j : NodeId} {n : Node S A} (hn : g.node? i = some n) (hc : n.coveredBy = some j)
    (hj : Grounded g j) : Grounded g i

/-- **Where the chain ends.** A relation that holds along links and is reflexive and transitive
holds between a grounded node and some uncovered one. -/
theorem Grounded.exists_uncovered (h : g.Grounded i) (R : S → S → Prop)
    (hR : ∀ {i n j m}, g.node? i = some n → n.coveredBy = some j → g.node? j = some m →
      R n.state m.state)
    (hrefl : ∀ s, R s s) (htrans : ∀ {s t u}, R s t → R t u → R s u) (hn : g.node? i = some n) :
    ∃ j m, g.node? j = some m ∧ m.coveredBy = none ∧ R n.state m.state := by
  induction h generalizing n with
  | @uncovered i m hm hc =>
    obtain rfl := Option.some.inj (hn.symm.trans hm)
    exact ⟨i, n, hn, hc, hrefl _⟩
  | @covered i j m hm hc hj ih =>
    obtain rfl := Option.some.inj (hn.symm.trans hm)
    obtain ⟨k, hk⟩ : ∃ k, g.node? j = some k := by
      cases hj with
      | uncovered h _ => exact ⟨_, h⟩
      | covered h _ _ => exact ⟨_, h⟩
    obtain ⟨l, m', hl, hlc, hr⟩ := ih hk
    exact ⟨l, m', hl, hlc, htrans (hR hn hc hk) hr⟩

/-- **Dropping links keeps chains finite**: live nodes keep their coverer or lose it. -/
theorem Grounded.of_dropped (h : g.Grounded i)
    (hdrop : ∀ {i n}, g'.node? i = some n → ∃ m, g.node? i = some m ∧
      (n.coveredBy = none ∨ n.coveredBy = m.coveredBy))
    (hlive : ∀ {i n j}, g'.node? i = some n → n.coveredBy = some j → ∃ m, g'.node? j = some m)
    (hn : g'.node? i = some n) : g'.Grounded i := by
  induction h generalizing n with
  | @uncovered i m hm hc =>
    obtain ⟨m', hm', hor⟩ := hdrop hn
    obtain rfl := Option.some.inj (hm.symm.trans hm')
    exact .uncovered hn (hor.elim id fun h ↦ h.trans hc)
  | @covered i j m hm hc hj ih =>
    obtain ⟨m', hm', hor⟩ := hdrop hn
    obtain rfl := Option.some.inj (hm.symm.trans hm')
    cases hb : n.coveredBy with
    | none => exact .uncovered hn hb
    | some k =>
      have hjk : j = k := by
        rw [hb, hc] at hor
        exact (Option.some.inj (hor.resolve_left (fun h ↦ by cases h))).symm
      obtain ⟨l, hl⟩ := hlive hn hb
      exact .covered hn hb (hjk ▸ ih (hjk ▸ hl))

/-- **A new link keeps chains finite** if the chosen coverer is uncovered. -/
theorem Grounded.cover {k : Node S A} (h : g.Grounded i) (hid : g.node? id = some n)
    (hk : g.node? coverer = some k) (hkc : k.coveredBy = none)
    (hc : g.cover id coverer = .ok g') : g'.Grounded i := by
  obtain ⟨hrw, -⟩ := rewrites_cover hid hc
  have hcov : g'.Grounded coverer := by
    refine .uncovered (n := relink id coverer n.coveredBy coverer k)
      (by rw [hrw.node?, hk]; rfl) ?_
    simp only [relink, if_neg (Ne.symm (ne_of_cover hc)), hkc]
  induction h with
  | @uncovered i m hm hb =>
    have hm' : g'.node? i = some (relink id coverer n.coveredBy i m) := by
      rw [hrw.node?, hm]
      rfl
    by_cases hi : i = id
    · exact .covered hm' (by simp only [relink, if_pos hi]) hcov
    · exact .uncovered hm' (by simp only [relink, if_neg hi, hb])
  | @covered i j m hm hb hj ih =>
    have hm' : g'.node? i = some (relink id coverer n.coveredBy i m) := by
      rw [hrw.node?, hm]
      rfl
    by_cases hi : i = id
    · exact .covered hm' (by simp only [relink, if_pos hi]) hcov
    · exact .covered hm' (by simp only [relink, if_neg hi, hb]) ih

/-! ### Choosing a coverer -/

/-- A coverer is looked for among the nodes of the same key, in the order they were made. -/
theorem findCoverer_eq_ok {leq : S → S → Bool} {c : Option NodeId}
    (h : g.findCoverer leq id = .ok c) : ∃ n, g.node? id = some n ∧
      c = (g.partition n.key).find? fun m ↦ (g.node? m).any (mayCover leq id n.state) := by
  unfold findCoverer at h
  cases hn : g.node? id with
  | none =>
    rw [node_eq_error hn] at h
    cases h
  | some n =>
    rw [node_eq_ok.2 hn] at h
    exact ⟨n, rfl, (Except.ok.inj h).symm⟩

/-- The coverer chosen may cover, and has the same key. -/
theorem WellFormed.coverer_of_findCoverer (hg : g.WellFormed) {leq : S → S → Bool}
    (hn : g.node? id = some n) (h : g.findCoverer leq id = .ok (some coverer)) :
    ∃ m, g.node? coverer = some m ∧ m.key = n.key ∧ coverer ≠ id ∧ m.coveredBy = none ∧
      m.canCover = true ∧ leq n.state m.state = true := by
  obtain ⟨n', hn', hfind⟩ := findCoverer_eq_ok h
  obtain rfl := Option.some.inj (hn.symm.trans hn')
  have hmem := List.mem_of_find?_eq_some hfind.symm
  have hmay := List.find?_some hfind.symm
  obtain ⟨m, hm, hkey⟩ := hg.indexed.mem_partition.1 hmem
  rw [hm] at hmay
  simp only [Option.any_some, mayCover, Bool.and_eq_true, bne_iff_ne, Node.isCovered,
    Bool.not_eq_true', Option.isSome_eq_false_iff, Option.isNone_iff_eq_none] at hmay
  obtain ⟨⟨⟨hne, hunc⟩, hcan⟩, hleq⟩ := hmay
  exact ⟨m, hm, hkey, hg.indexed.id_eq hm ▸ hne, hunc, hcan, hleq⟩

/-- If no coverer is found, no node of the same key may cover. -/
theorem WellFormed.not_mayCover_of_findCoverer (hg : g.WellFormed) {leq : S → S → Bool}
    (hn : g.node? id = some n) (h : g.findCoverer leq id = .ok none) {j : NodeId} {m : Node S A}
    (hm : g.node? j = some m) (hkey : m.key = n.key) : mayCover leq id n.state m = false := by
  obtain ⟨n', hn', hfind⟩ := findCoverer_eq_ok h
  obtain rfl := Option.some.inj (hn.symm.trans hn')
  have hmem : j ∈ g.partition n.key := hg.indexed.mem_partition.2 ⟨m, hm, hkey⟩
  have hno := List.find?_eq_none.1 hfind.symm j hmem
  rw [hm] at hno
  simpa using hno

/-- Covering a live node by another live node succeeds. -/
theorem cover_isOk {m : Node S A} (hn : g.node? id = some n) (hm : g.node? coverer = some m)
    (hne : id ≠ coverer) : ∃ g', g.cover id coverer = .ok g' := by
  obtain ⟨g₁, hu⟩ : ∃ g₁, g.uncover id = .ok g₁ := by
    rw [uncover, node_eq_ok.2 hn]
    cases hc : n.coveredBy <;> simp [bind, Except.bind, pure, Except.pure, hc]
  have hm₁ : g₁.node? coverer = some (unlink id n.coveredBy coverer m) := by
    rw [(rewrites_uncover hn hu).node?, hm]
    rfl
  rw [cover, if_neg hne, hu]
  simp only [bind, Except.bind, pure, Except.pure, node_eq_ok.2 hm₁]
  exact ⟨_, rfl⟩

end AbstractionRefinement.Graph
