import AbstractionRefinement.Proofs.Exploration.Growth
import Mathlib.Data.List.Range

/-!
# Exploration, function by function

One judgement for each function of the exploration, in the order of the code: which steps it takes,
why it stops early, and what holds when it gives a value. Later modules cite these and do not look
at the functions again.

The judgement is `Does`. Its first part is the relation of single steps, `Explorer.Grows`, of which
any number may be taken; its second part says of every abort that it is one of the reasons listed in
`Explorer.Stops`, at the state where it happened; its third part holds of the value and the final
state. A function that only calls others is proved by the rule for sequencing, so each proof follows
the text of its function.

What is promised of a value grows with the function: a root accounts for an initial state, a child
for a successor, and an expansion for all successors of a node (`Expands`). What is promised in case
of an abort is only that the steps up to there were such steps. No function comes to a missing node,
because the positions it looks up were live when they were handed to it, and exploration removes
nothing.
-/

namespace AbstractionRefinement

open Work Session

namespace Explorer

variable {S A P : Type} {x : Explorer S A P} {prec : P} {deadline : Option Nat}
  {s t : Session S A} {id : NodeId} {n : Node S A} {a : A} {st : S} {succ : List (A × List S)}

/-- A state that is subsumed by a root is accounted for. -/
theorem rooted_of_subsumed {g : Graph S A} (h : x.subsumedByRoot g st = .ok true) :
    x.Rooted g st := by
  obtain ⟨r, hr, htest⟩ := exists_of_anyM_eq_ok_true h
  obtain ⟨n, hn, hleq⟩ := bind_eq_ok.1 htest
  exact ⟨r, hr, n, Graph.node_eq_ok.1 hn, .inr (Except.ok.inj hleq)⟩

/-- Without a hit, no root is above the state. -/
theorem not_leq_of_not_subsumed {g : Graph S A} {r : NodeId}
    (h : x.subsumedByRoot g st = .ok false) (hr : r ∈ g.roots) (hn : g.node? r = some n) :
    x.model.leq st n.state = false := by
  have htest := anyM_eq_ok_false.1 h r hr
  rw [Graph.node_eq_ok.2 hn] at htest
  exact Except.ok.inj htest

/-- In a well-formed graph all roots are live, so the search comes to an answer. -/
theorem exists_subsumedByRoot_eq_ok {g : Graph S A} (hg : g.WellFormed) (st : S) :
    ∃ b, x.subsumedByRoot g st = .ok b := by
  refine exists_anyM_eq_ok fun r hr ↦ ?_
  obtain ⟨n, hn, -⟩ := hg.indexed.mem_roots.1 hr
  rw [Graph.node_eq_ok.2 hn]
  exact ⟨_, rfl⟩

/-- A state that is made a root is accounted for. -/
theorem rooted_addRoot {g : Graph S A} {key : Nat} {target : Bool} :
    x.Rooted (g.addRoot st key target) st := by
  refine ⟨g.created, List.mem_append_right _ (List.mem_singleton.2 rfl),
    Graph.freshNode g.created st key none target 0, ?_, .inl rfl⟩
  rw [Graph.node?_addRoot, if_pos rfl]

/-! ### What the parts come to -/

section Gather

variable {α : Type} {noticed : List Abort → Nat} {results : List (Except Abort α)}

theorem gather_cons_ok {v : α} :
    gather noticed (.ok v :: results) = (gather noticed results).map (v :: ·) := by
  simp only [gather, List.filterMap_cons, Except.toOption]
  split <;> rfl

/-- Computations that ran side by side come to all their values, whatever would be noticed, if none
of them fails. -/
theorem gather_eq_ok {values : List α} :
    gather noticed results = .ok values ↔ List.Forall₂ (fun r v ↦ r = .ok v) results values := by
  induction results generalizing values with
  | nil =>
    rw [List.forall₂_nil_left_iff]
    exact ⟨fun h ↦ (Except.ok.inj h).symm, fun h ↦ h ▸ rfl⟩
  | cons r results ih =>
    rw [List.forall₂_cons_left_iff]
    cases r with
    | error e => simp [gather]
    | ok v =>
      rw [gather_cons_ok, map_eq_ok]
      constructor
      · rintro ⟨rest, hrest, rfl⟩
        exact ⟨v, rest, rfl, ih.1 hrest, rfl⟩
      · rintro ⟨w, rest, hw, hrest, rfl⟩
        obtain rfl := Except.ok.inj hw
        exact ⟨rest, ih.2 hrest, rfl⟩

/-- A failure of the whole is the failure of one of them. -/
theorem mem_of_gather_eq_error {e : Abort} (h : gather noticed results = .error e) :
    .error e ∈ results := by
  rw [gather] at h
  split at h
  · cases h
  · rename_i first others herrors
    have hmem : e ∈ first :: others := by
      rw [← Except.error.inj h, List.getD_eq_getElem?_getD]
      cases hget : (first :: others)[noticed (first :: others)]? with
      | none => exact List.mem_cons_self
      | some e' => exact List.mem_of_getElem? hget
    rw [← herrors, List.mem_filterMap] at hmem
    obtain ⟨r, hr, hre⟩ := hmem
    cases r with
    | ok v => cases hre
    | error e' => exact Option.some.inj hre ▸ hr

end Gather

/-- What the successors of a state are, action by action, however they are computed. -/
theorem successorsOf_eq_ok : x.successorsOf st prec = .ok succ ↔
    ∃ actions, x.model.enabled st = .ok actions ∧
      List.Forall₂ (fun a r ↦ r.1 = a ∧ x.model.successors st a prec = .ok r.2) actions succ := by
  have halong : ∀ {a : A} {r : A × List S},
      (do return (a, ← x.model.successors st a prec)) = Except.ok (ε := Abort) r ↔
        r.1 = a ∧ x.model.successors st a prec = .ok r.2 := by
    intro a r
    rw [bind_eq_ok]
    constructor
    · rintro ⟨states, hs, heq⟩
      obtain rfl := Except.ok.inj heq
      exact ⟨rfl, hs⟩
    · rintro ⟨rfl, hs⟩
      exact ⟨r.2, hs, rfl⟩
  rw [successorsOf, bind_eq_ok]
  simp only [orFault_eq_ok]
  refine exists_congr fun actions ↦ and_congr_right fun _ ↦ ?_
  split
  · rw [gather_eq_ok, List.forall₂_map_left_iff]
    simp only [halong]
  · rw [mapM_eq_ok]
    simp only [halong]

/-- A failure comes from the enabled actions or from the successors along one of them. -/
theorem exists_of_successorsOf_eq_error {e : Abort} (h : x.successorsOf st prec = .error e) :
    (∃ f, x.model.enabled st = .error f ∧ e = .fault f) ∨
      ∃ actions, x.model.enabled st = .ok actions ∧
        ∃ a ∈ actions, x.model.successors st a prec = .error e := by
  rcases bind_eq_error.1 h with h | ⟨actions, hen, h⟩
  · exact .inl (orFault_eq_error.1 h)
  refine .inr ⟨actions, orFault_eq_ok.1 hen, ?_⟩
  have hsome : ∃ a ∈ actions,
      (do return (a, ← x.model.successors st a prec)) = Except.error (α := A × List S) e := by
    split at h
    · obtain ⟨a, ha, he⟩ := List.mem_map.1 (mem_of_gather_eq_error h)
      exact ⟨a, ha, he⟩
    · exact exists_of_mapM_eq_error h
  obtain ⟨a, ha, he⟩ := hsome
  rcases bind_eq_error.1 he with he | ⟨_, -, he⟩
  · exact ⟨a, ha, he⟩
  · cases he

/-- Nothing is made but roots. -/
def AddsRoots (s t : Session S A) : Prop :=
  ∀ i m, s.graph.created ≤ i → t.graph.node? i = some m → m.incoming = none

theorem AddsRoots.refl (s : Session S A) : AddsRoots s s := fun _ _ hi hm ↦
  absurd (Graph.lt_created hm) (Nat.not_lt.2 hi)

/-- Work that adds only roots, in two parts, adds only roots. -/
theorem AddsRoots.trans {u : Session S A} (h : AddsRoots s t) (h' : AddsRoots t u)
    (htu : t.graph.Extends u.graph) : AddsRoots s u := by
  intro i m hi hm
  by_cases hlt : i < t.graph.created
  · obtain ⟨n, hn, hnm⟩ := htu.exists_node? hlt hm
    exact hnm.incoming.trans (h i n hi hn)
  · exact h' i m (Nat.not_lt.1 hlt) hm

/-- What making children of a node adds: fresh nodes behind all others, and nothing to the marks. -/
structure Adds (id : NodeId) (s t : Session S A) (made : List NodeId) : Prop where
  /-- The nodes made are the next positions. -/
  made_eq : made = List.range' s.graph.created made.length
  /-- Nothing else is made. -/
  created_eq : t.graph.created = s.graph.created + made.length
  /-- The nodes made are there. -/
  live : ∀ i ∈ made, ∃ m, t.graph.node? i = some m
  /-- They are neither expanded nor covered. -/
  fresh : ∀ {i m}, s.graph.created ≤ i → t.graph.node? i = some m →
    m.expanded = false ∧ m.coveredBy = none
  /-- They are children of the node. -/
  parent : ∀ {i m}, s.graph.created ≤ i → t.graph.node? i = some m → m.parent? = some id
  /-- Old nodes keep their marks. -/
  marks : ∀ {i n m}, s.graph.node? i = some n → t.graph.node? i = some m →
    m.expanded = n.expanded ∧ m.coveredBy = n.coveredBy

namespace Adds

theorem refl (s : Session S A) : Adds id s s [] where
  made_eq := rfl
  created_eq := rfl
  live i hi := (List.not_mem_nil hi).elim
  fresh hi hm := absurd (Graph.lt_created hm) (Nat.not_lt.2 hi)
  parent hi hm := absurd (Graph.lt_created hm) (Nat.not_lt.2 hi)
  marks hn hm := by
    obtain rfl := Option.some.inj (hn.symm.trans hm)
    exact ⟨rfl, rfl⟩

/-- What two parts of an expansion make is what the first makes, followed by what the second makes.
-/
theorem trans {u : Session S A} {made others : List NodeId} (h : Adds id s t made)
    (h' : Adds id t u others) (hst : s.graph.Extends t.graph) (htu : t.graph.Extends u.graph) :
    Adds id s u (made ++ others) where
  made_eq := by
    rw [List.length_append, ← List.range'_append_1, ← h.made_eq, ← h.created_eq, ← h'.made_eq]
  created_eq := by
    rw [h'.created_eq, h.created_eq, List.length_append, Nat.add_assoc]
  live i hi := by
    rcases List.mem_append.1 hi with hi | hi
    · obtain ⟨m, hm⟩ := h.live i hi
      obtain ⟨k, hk, -⟩ := htu.node? hm
      exact ⟨k, hk⟩
    · exact h'.live i hi
  fresh {i m} hi hm := by
    by_cases hlt : i < t.graph.created
    · obtain ⟨n, hn, -⟩ := htu.exists_node? hlt hm
      obtain ⟨he, hc⟩ := h'.marks hn hm
      obtain ⟨he', hc'⟩ := h.fresh hi hn
      exact ⟨he.trans he', hc.trans hc'⟩
    · exact h'.fresh (Nat.not_lt.1 hlt) hm
  parent {i m} hi hm := by
    by_cases hlt : i < t.graph.created
    · obtain ⟨n, hn, hnm⟩ := htu.exists_node? hlt hm
      rw [Node.parent?, hnm.incoming]
      exact h.parent hi hn
    · exact h'.parent (Nat.not_lt.1 hlt) hm
  marks {i n m} hn hm := by
    obtain ⟨k, hk, -⟩ := hst.node? hn
    obtain ⟨he, hc⟩ := h.marks hn hk
    obtain ⟨he', hc'⟩ := h'.marks hk hm
    exact ⟨he'.trans he, hc'.trans hc⟩

/-- Adding one child makes one node, at the next position. -/
theorem child {g' : Graph S A} {key : Nat} {target : Bool}
    (hadd : s.graph.addChild id a st key target = .ok g') (ht : t.graph = g') :
    Adds id s t [s.graph.created] := by
  obtain ⟨p, hp, -⟩ := Graph.eq_of_addChild hadd
  have hnode := fun i ↦ Graph.node?_addChild (i := i) hp hadd
  have hnew : g'.node? s.graph.created =
      some (Graph.freshNode s.graph.created st key (some ⟨id, a⟩) target (p.depth + 1)) := by
    rw [hnode, if_pos rfl]
  subst ht
  -- the only new node is the child
  have heq : ∀ {i m}, s.graph.created ≤ i → t.graph.node? i = some m →
      m = Graph.freshNode s.graph.created st key (some ⟨id, a⟩) target (p.depth + 1) := by
    intro i m hi hm
    obtain rfl : i = s.graph.created := by
      have hlt := Graph.lt_created hm
      rw [Graph.created_addChild hadd] at hlt
      exact Nat.le_antisymm (Nat.le_of_lt_succ hlt) hi
    exact Option.some.inj (hm.symm.trans hnew)
  refine ⟨rfl, Graph.created_addChild hadd, fun i hi ↦ ?_, fun {i m} hi hm ↦ ?_,
    fun {i m} hi hm ↦ ?_, fun {i n m} hn hm ↦ ?_⟩
  · rw [List.mem_singleton.1 hi]
    exact ⟨_, hnew⟩
  · rw [heq hi hm]
    exact ⟨rfl, rfl⟩
  · rw [heq hi hm]
    rfl
  · obtain ⟨k, hk, rfl⟩ := Graph.old_of_addChild hp hadd (Nat.ne_of_lt (Graph.lt_created hn)) hm
    obtain rfl := Option.some.inj (hn.symm.trans hk)
    exact ⟨rfl, rfl⟩

/-- An incomplete node stays incomplete, with the state it has. -/
theorem incomplete {made : List NodeId} (h : Adds id s t made) (hst : s.graph.Extends t.graph)
    (hn : s.graph.node? id = some n) (hinc : n.isIncomplete = true) :
    ∃ m, t.graph.node? id = some m ∧ m.isIncomplete = true ∧ m.state = n.state := by
  obtain ⟨m, hm, hnm⟩ := hst.node? hn
  obtain ⟨he, hc⟩ := h.marks hn hm
  refine ⟨m, hm, ?_, hnm.state⟩
  rw [Node.isIncomplete, Node.isCovered, he, hc, hnm.target]
  exact hinc

end Adds

/-- What expanding a node does: it makes children, and the node counts as expanded. -/
structure Expands (id : NodeId) (s t : Session S A) (made : List NodeId) : Prop where
  /-- The nodes made are the next positions. -/
  made_eq : made = List.range' s.graph.created made.length
  /-- Nothing else is made. -/
  created_eq : t.graph.created = s.graph.created + made.length
  /-- The nodes made are there, neither expanded nor covered. -/
  fresh : ∀ i ∈ made, ∃ m, t.graph.node? i = some m ∧ m.expanded = false ∧ m.coveredBy = none
  /-- They are its children. -/
  parent : ∀ {i m}, s.graph.created ≤ i → t.graph.node? i = some m → m.parent? = some id
  /-- The node is expanded. -/
  self : ∃ m, t.graph.node? id = some m ∧ m.expanded = true

/-- The search for a coverer of a node that is there does not fail. -/
theorem findCoverer_isOk (hn : s.graph.node? id = some n) :
    ∃ c, s.graph.findCoverer x.model.leq id = .ok c := by
  rw [Graph.findCoverer, Graph.node_eq_ok.2 hn]
  exact ⟨_, rfl⟩

/-- What an attempt to cover a node does: it makes nothing, and touches the marks of this node
only. -/
structure Covers (x : Explorer S A P) (id : NodeId) (s t : Session S A) (covered : Bool) :
    Prop where
  /-- Nothing is made. -/
  created_eq : t.graph.created = s.graph.created
  /-- Other nodes keep their marks. -/
  marks : ∀ {i n m}, i ≠ id → s.graph.node? i = some n → t.graph.node? i = some m →
    m.expanded = n.expanded ∧ m.coveredBy = n.coveredBy
  /-- After success the node is covered. -/
  self : covered = true → ∃ m, t.graph.node? id = some m ∧ m.isCovered = true
  /-- Failure says that no node may cover it. -/
  failed : covered = false → t = s ∧ s.graph.findCoverer x.model.leq id = .ok none

variable [DecidableEq S] [DecidableEq A]

/-- A child that has just been added is found. -/
theorem hasChild_addChild {g g' : Graph S A} {key : Nat} {target : Bool} (hg : g.WellFormed)
    (hadd : g.addChild id a st key target = .ok g') : hasChild g' id a st = .ok true := by
  obtain ⟨p, hp, -⟩ := Graph.eq_of_addChild hadd
  have hid : g'.node? id = some { p with children := p.children ++ [g.created] } := by
    rw [Graph.node?_addChild hp hadd, if_neg (Nat.ne_of_lt (Graph.lt_created hp)), if_pos rfl]
  have hnew : g'.node? g.created =
      some (Graph.freshNode g.created st key (some ⟨id, a⟩) target (p.depth + 1)) := by
    rw [Graph.node?_addChild hp hadd, if_pos rfl]
  exact hasChild_of_mem (hg.addChild hadd) hid (List.mem_append_right _ (List.mem_singleton.2 rfl))
    hnew rfl rfl

variable [Described S]

/-! ### Roots -/

/-- **One initial state** is accounted for by a root, and nothing but a root is added. -/
theorem does_addInitial {states : List S} (hs : s.graph.WellFormed)
    (hinit : x.model.initial prec = .ok states) (hst : st ∈ states) :
    Does (x.Grows prec) (x.Stops prec deadline) (x.addInitial st) s
      fun _ t ↦ (x.model.isBottom st = false → x.Rooted t.graph st) ∧ AddsRoots s t := by
  refine does_demand_bind (fun e he ↦ .reflexive he) fun _ _ ↦ ?_
  split
  · rename_i hbot
    exact .pure ⟨(fun h ↦ by cases hbot.symm.trans h), .refl s⟩
  · rename_i hbot
    obtain ⟨subsumed, hsub⟩ := exists_subsumedByRoot_eq_ok (x := x) hs st
    refine does_currentGraph_bind (does_demand_bind_of_ok (orFault_eq_ok.2 hsub) ?_)
    cases subsumed with
    | true => exact .pure ⟨fun _ ↦ rooted_of_subsumed hsub, .refl s⟩
    | false =>
      refine does_demand_bind (fun e he ↦ .room he) fun _ _ ↦ ?_
      refine .of_eq (editGraph_bind rfl) ?_ ⟨fun _ ↦ rooted_addRoot, fun i m hi hm ↦ ?_⟩
      · exact .single (.root hinit hst (eq_false_of_ne_true hbot) hsub)
      · replace hm : (s.graph.addRoot st (x.model.key st) (x.model.isTarget st)).node? i = some m :=
          hm
        rw [Graph.node?_addRoot] at hm
        split at hm
        · obtain rfl := Option.some.inj hm
          rfl
        · exact absurd (Graph.lt_created hm) (Nat.not_lt.2 hi)

/-- All initial states are accounted for by roots, and nothing but roots is added. -/
theorem does_addInitials {states rest : List S} (hs : s.graph.WellFormed)
    (hinit : x.model.initial prec = .ok states) (hrest : ∀ st ∈ rest, st ∈ states) :
    Does (x.Grows prec) (x.Stops prec deadline) (x.addInitials rest) s
      fun _ t ↦ (∀ st ∈ rest, x.model.isBottom st = false → x.Rooted t.graph st) ∧
        AddsRoots s t := by
  induction rest generalizing s with
  | nil => exact .pure ⟨fun st h ↦ (List.not_mem_nil h).elim, .refl s⟩
  | cons st rest ih =>
    refine (does_addInitial hs hinit (hrest st List.mem_cons_self)).bind ?_
    rintro _ t hst ⟨hroot, hadds⟩
    refine (ih (wellFormed_of_grows hst hs) fun st' h ↦
      hrest st' (List.mem_cons_of_mem _ h)).imp ?_
    rintro _ u hu ⟨hall, hadds'⟩
    refine ⟨fun st' hmem hbot ↦ ?_, hadds.trans hadds' (extends_of_grows hu)⟩
    rcases List.mem_cons.1 hmem with rfl | hmem
    · exact (hroot hbot).extends (extends_of_grows hu)
    · exact hall st' hmem hbot

/-- **The roots are added**, and the graph is marked as initialised. -/
theorem does_addRoots (hs : s.graph.WellFormed) :
    Does (x.Grows prec) (x.Stops prec deadline) (x.addRoots prec) s fun _ t ↦
      t.graph.initialized = true ∧ AddsRoots s t := by
  refine does_demand_bind (fun e he ↦ .initial he) fun states hinit ↦ ?_
  refine (does_addInitials hs hinit fun _ h ↦ h).bind ?_
  rintro _ t - ⟨hall, hadds⟩
  exact .of_eq (editGraph_eq rfl) (.single (.ready hinit hall)) ⟨rfl, hadds⟩

/-! ### Successors -/

section Siblings

variable {Q : S → Prop} (hmerge : ∀ {st st' u}, x.model.merge st st' = some u → Q st → Q st' → Q u)
include hmerge

omit [DecidableEq A] in
/-- What holds of states and is kept by merging holds of those kept once one more is absorbed. -/
theorem forall_absorb {kept kept' : List S} (h : x.absorb kept st = .ok kept') (hst : Q st)
    (hkept : ∀ k ∈ kept, Q k) : ∀ k ∈ kept', Q k := by
  induction kept generalizing kept' with
  | nil =>
    obtain rfl := Except.ok.inj h
    exact List.forall_mem_singleton.2 hst
  | cons k kept ih =>
    obtain ⟨hk, hrest⟩ := List.forall_mem_cons.1 hkept
    rw [absorb] at h
    split at h
    · obtain rfl := Except.ok.inj h
      exact hkept
    · split at h
      · rename_i u hu
        obtain ⟨_, -, h⟩ := bind_eq_ok.1 h
        obtain rfl := Except.ok.inj h
        exact List.forall_mem_cons.2 ⟨hmerge hu hk hst, hrest⟩
      · obtain ⟨rest, hr, h⟩ := bind_eq_ok.1 h
        obtain rfl := Except.ok.inj h
        exact List.forall_mem_cons.2 ⟨hk, ih hr hrest⟩

omit [DecidableEq A] in
/-- What holds of states and is kept by merging holds of the siblings that are left. -/
theorem forall_absorbAll {kept kept' states : List S} (h : x.absorbAll kept states = .ok kept')
    (hst : ∀ st ∈ states, Q st) (hkept : ∀ k ∈ kept, Q k) : ∀ k ∈ kept', Q k := by
  induction states generalizing kept with
  | nil =>
    obtain rfl := Except.ok.inj h
    exact hkept
  | cons st states ih =>
    obtain ⟨hhead, hrest⟩ := List.forall_mem_cons.1 hst
    rw [absorbAll] at h
    obtain ⟨_, -, h⟩ := bind_eq_ok.1 h
    split at h
    · exact ih h hrest hkept
    · obtain ⟨next, hnext, h⟩ := bind_eq_ok.1 h
      exact ih h hrest (forall_absorb hmerge hnext hhead hkept)

omit [DecidableEq A] in
/-- A sibling that is left has what every successor has. -/
theorem forall_of_kept {st : S} {succ : List (A × List S)} {a : A} {u : S}
    (hsucc : x.successorsOf st prec = .ok succ) (hkept : x.Kept succ a u)
    (hst : ∀ {states}, x.model.successors st a prec = .ok states → ∀ u ∈ states, Q u) : Q u := by
  obtain ⟨states, kept, hmem, habs, hu⟩ := hkept
  obtain ⟨actions, -, hforall⟩ := successorsOf_eq_ok.1 hsucc
  obtain ⟨b, -, hb, hstates⟩ := exists_of_forall₂_of_mem_right hforall hmem
  obtain rfl : a = b := hb
  exact forall_absorbAll hmerge habs (hst hstates) (List.forall_mem_nil _) u hu

end Siblings

omit [DecidableEq A] in
/-- A state cannot be absorbed only if it is merged with one kept, and the merge is refused. -/
theorem exists_of_absorb_eq_error {kept : List S} {e : Abort} (h : x.absorb kept st = .error e) :
    ∃ k u, x.model.merge k st = some u ∧ x.checkMerged k st u = .error e := by
  induction kept with
  | nil => cases h
  | cons k kept ih =>
    rw [absorb] at h
    split at h
    · cases h
    · split at h
      · rename_i u hu
        rcases bind_eq_error.1 h with h | ⟨_, -, h⟩
        · exact ⟨k, u, hu, h⟩
        · cases h
      · rcases bind_eq_error.1 h with h | ⟨_, -, h⟩
        · exact ih h
        · cases h

omit [DecidableEq A] in
/-- If states cannot be absorbed, this is a reason for an exploration to stop. -/
theorem stops_of_absorbAll {states kept : List S} {e : Abort}
    (h : x.absorbAll kept states = .error e) : x.Stops prec deadline e s := by
  induction states generalizing kept with
  | nil => cases h
  | cons st states ih =>
    rw [absorbAll] at h
    rcases bind_eq_error.1 h with h | ⟨_, -, h⟩
    · exact .reflexive h
    · split at h
      · exact ih h
      · rcases bind_eq_error.1 h with h | ⟨kept', -, h⟩
        · obtain ⟨k, u, hu, hc⟩ := exists_of_absorb_eq_error h
          exact .merged hu hc
        · exact ih h

omit [DecidableEq S] [DecidableEq A] in
/-- If the successors of a node cannot be computed, this is a reason for an exploration to stop. -/
theorem stops_of_successorsOf {e : Abort} (hn : s.graph.node? id = some n)
    (h : x.successorsOf n.state prec = .error e) : x.Stops prec deadline e s := by
  obtain ⟨f, hf, rfl⟩ | ⟨actions, hen, a, ha, he⟩ := exists_of_successorsOf_eq_error h
  · exact .enabled hn hf
  · exact .successors hn hen ha he

omit [DecidableEq S] [DecidableEq A] [Described S] in
/-- A live node can get a child, which is counted with its depth. -/
theorem exists_makeChild (hn : s.graph.node? id = some n) (a : A) (st : S) (key : Nat)
    (target : Bool) : ∃ g', s.graph.addChild id a st key target = .ok g' ∧
      (do
        editGraph fun g ↦ g.addChild id a st key target
        let child ← demand (orFault ((← currentGraph).node s.graph.created))
        count fun c ↦
          { c with created := c.created + 1, maxDepth := max c.maxDepth child.depth }
        return [s.graph.created] : Work (Session S A) (List NodeId)) s =
      (.ok [s.graph.created], { s with
        graph := g'
        counters := { s.counters with
          created := s.counters.created + 1
          maxDepth := max s.counters.maxDepth (n.depth + 1) } }) := by
  obtain ⟨g', hadd⟩ : ∃ g', s.graph.addChild id a st key target = .ok g' := by
    rw [Graph.addChild, Graph.node_eq_ok.2 hn]
    exact ⟨_, rfl⟩
  have hnew : g'.node? s.graph.created = some (Graph.freshNode s.graph.created st key
      (some ⟨id, a⟩) target (n.depth + 1)) := by
    rw [Graph.node?_addChild hn hadd, if_pos rfl]
  refine ⟨g', hadd, ?_⟩
  rw [editGraph_bind hadd, currentGraph_bind,
    demand_bind (orFault_eq_ok.2 (Graph.node_eq_ok.2 hnew))]
  rfl

/-- **One successor** becomes a child of the node, unless it is one, and nothing else changes. -/
theorem does_addSuccessor (hs : s.graph.WellFormed) (hn : s.graph.node? id = some n)
    (hinc : n.isIncomplete = true) (hsucc : x.successorsOf n.state prec = .ok succ)
    (hkept : x.Kept succ a st) :
    Does (x.Grows prec) (x.Stops prec deadline) (x.addSuccessor id a st) s
      fun made t ↦ Adds id s t made ∧ hasChild t.graph id a st = .ok true := by
  obtain ⟨has, hhas⟩ := exists_hasChild_eq_ok hs hn a st
  refine does_currentGraph_bind (does_demand_bind_of_ok (orFault_eq_ok.2 hhas) ?_)
  cases has with
  | true => exact .pure ⟨.refl s, hhas⟩
  | false =>
    refine does_demand_bind (fun e he ↦ .room he) fun _ _ ↦ ?_
    obtain ⟨g', hadd, heq⟩ := exists_makeChild hn a st (x.model.key st) (x.model.isTarget st)
    have hstep := Grows.child hn hinc hsucc hkept hhas hadd
    exact .of_eq heq (.single hstep) ⟨.child hadd rfl, hasChild_addChild hs hadd⟩

/-- The successors along one action become children of the node. -/
theorem does_addSuccessors {rest : List S} (hs : s.graph.WellFormed)
    (hn : s.graph.node? id = some n) (hinc : n.isIncomplete = true)
    (hsucc : x.successorsOf n.state prec = .ok succ)
    (hkept : ∀ st ∈ rest, x.Kept succ a st) :
    Does (x.Grows prec) (x.Stops prec deadline) (x.addSuccessors id a rest) s
      fun made t ↦ Adds id s t made ∧ ∀ st ∈ rest, hasChild t.graph id a st = .ok true := by
  induction rest generalizing s n with
  | nil => exact .pure ⟨.refl s, fun st h ↦ (List.not_mem_nil h).elim⟩
  | cons st rest ih =>
    refine (does_addSuccessor hs hn hinc hsucc (hkept st List.mem_cons_self)).bind ?_
    rintro made t hst ⟨hadds, hhas⟩
    have ht := wellFormed_of_grows hst hs
    obtain ⟨m, hm, hminc, hstate⟩ := hadds.incomplete (extends_of_grows hst) hn hinc
    refine (ih ht hm hminc (hstate ▸ hsucc) fun st' h ↦
      hkept st' (List.mem_cons_of_mem _ h)).bind ?_
    rintro others u htu ⟨hadds', hall⟩
    refine .pure ⟨hadds.trans hadds' (extends_of_grows hst) (extends_of_grows htu), ?_⟩
    intro st' hmem
    rcases List.mem_cons.1 hmem with rfl | hmem
    · exact hasChild_extends (wellFormed_of_grows htu ht) hm hhas (extends_of_grows htu)
    · exact hall st' hmem

/-- The successors along all actions become children of the node. -/
theorem does_addAll {rest : List (A × List S)} (hs : s.graph.WellFormed)
    (hn : s.graph.node? id = some n) (hinc : n.isIncomplete = true)
    (hsucc : x.successorsOf n.state prec = .ok succ)
    (hrest : ∀ r ∈ rest, r ∈ succ) :
    Does (x.Grows prec) (x.Stops prec deadline) (x.addAll id rest) s
      fun made t ↦ Adds id s t made ∧ x.Covered t.graph id rest := by
  induction rest generalizing s n with
  | nil => exact .pure ⟨.refl s, fun a states h ↦ (List.not_mem_nil h).elim⟩
  | cons r rest ih =>
    obtain ⟨a, states⟩ := r
    refine does_demand_bind (fun e he ↦ stops_of_absorbAll he) fun kept hkept ↦ ?_
    refine (does_addSuccessors hs hn hinc hsucc fun st hst ↦
      ⟨states, kept, hrest _ List.mem_cons_self, hkept, hst⟩).bind ?_
    rintro made t hst ⟨hadds, hhas⟩
    have ht := wellFormed_of_grows hst hs
    obtain ⟨m, hm, hminc, hstate⟩ := hadds.incomplete (extends_of_grows hst) hn hinc
    refine (ih ht hm hminc (hstate ▸ hsucc) fun r h ↦ hrest r (List.mem_cons_of_mem _ h)).bind ?_
    rintro others u htu ⟨hadds', hall⟩
    refine .pure ⟨hadds.trans hadds' (extends_of_grows hst) (extends_of_grows htu), ?_⟩
    intro a' states' hmem
    rcases List.mem_cons.1 hmem with heq | hmem
    · obtain ⟨rfl, rfl⟩ := Prod.mk.inj heq
      exact ⟨kept, hkept, fun st hst' ↦
        hasChild_extends (wellFormed_of_grows htu ht) hm (hhas st hst') (extends_of_grows htu)⟩
    · exact hall a' states' hmem

/-- **One expansion**: the successors become children, and the node counts as expanded. -/
theorem does_expand (hs : s.graph.WellFormed) (hn : s.graph.node? id = some n)
    (hinc : n.isIncomplete = true) :
    Does (x.Grows prec) (x.Stops prec deadline) (x.expand id prec) s
      fun made t ↦ Expands id s t made := by
  have hnode : orFault (s.graph.node id) = .ok n := orFault_eq_ok.2 (Graph.node_eq_ok.2 hn)
  refine does_currentGraph_bind (does_demand_bind_of_ok hnode ?_)
  refine does_demand_bind (fun e he ↦ stops_of_successorsOf hn he) fun succ hsucc ↦ ?_
  refine (does_addAll hs hn hinc hsucc fun _ h ↦ h).bind ?_
  rintro made t hst ⟨hadds, hall⟩
  obtain ⟨m, hm, hminc, hstate⟩ := hadds.incomplete (extends_of_grows hst) hn hinc
  obtain ⟨g', hset⟩ : ∃ g', t.graph.setExpanded id true = .ok g' := by
    rw [Graph.setExpanded, Graph.node_eq_ok.2 hm]
    exact ⟨_, rfl⟩
  have heq := Graph.eq_update_of_setExpanded hset
  refine .of_eq (editGraph_bind hset) (.single (.expanded hm hminc (hstate ▸ hsucc) hall hset)) ?_
  -- the node itself is older than the nodes it makes
  have hnew : ∀ {i}, s.graph.created ≤ i → g'.node? i = t.graph.node? i := by
    intro i hi
    have hne : i ≠ id := by
      rintro rfl
      exact absurd (Graph.lt_created hn) (Nat.not_lt.2 hi)
    rw [heq, Graph.node?_update, if_neg hne]
  refine ⟨hadds.made_eq, ?_, fun i hi ↦ ?_, fun {i k} hi hk ↦ hadds.parent hi (hnew hi ▸ hk),
    ⟨{ m with expanded := true }, ?_, rfl⟩⟩
  · show g'.created = _
    rw [heq, Graph.created_update, hadds.created_eq]
  · obtain ⟨k, hk⟩ := hadds.live i hi
    have hle : s.graph.created ≤ i := by
      rw [hadds.made_eq] at hi
      exact (List.mem_range'_1.1 hi).1
    exact ⟨k, (hnew hle).trans hk, hadds.fresh hle hk⟩
  · show g'.node? id = _
    rw [heq, Graph.node?_update, if_pos rfl, hm]
    rfl

/-! ### Covering -/

/-- **One attempt to cover**: the node is covered, or nothing changes and no node may cover it. -/
theorem does_tryCover (hs : s.graph.WellFormed) (hn : s.graph.node? id = some n)
    (hinc : n.isIncomplete = true) :
    Does (x.Grows prec) (x.Stops prec deadline) (x.tryCover id) s
      fun covered t ↦ Covers x id s t covered := by
  obtain ⟨c, hc⟩ := findCoverer_isOk (x := x) hn
  refine does_currentGraph_bind (does_demand_bind_of_ok (orFault_eq_ok.2 hc) ?_)
  cases c with
  | none =>
    refine .pure ⟨rfl, fun _ hn hm ↦ ?_, (fun h ↦ by cases h), fun _ ↦ ⟨rfl, hc⟩⟩
    obtain rfl := Option.some.inj (hn.symm.trans hm)
    exact ⟨rfl, rfl⟩
  | some coverer =>
    obtain ⟨m, hm, -, hne, -⟩ := hs.coverer_of_findCoverer hn hc
    obtain ⟨g', hcov⟩ := Graph.cover_isOk hn hm hne.symm
    refine .of_eq (editGraph_bind hcov) (.single (.cover hn hinc hc hcov)) ?_
    obtain ⟨hrw, -⟩ := Graph.rewrites_cover hn hcov
    refine ⟨hrw.created, fun {i k l} hi hk hl ↦ ?_, fun _ ↦ ?_, (fun h ↦ by cases h)⟩
    · replace hl : g'.node? i = some l := hl
      rw [hrw.node?, hk] at hl
      obtain rfl := Option.some.inj hl
      exact ⟨rfl, if_neg hi⟩
    · refine ⟨Graph.relink id coverer n.coveredBy id n, ?_, ?_⟩
      · show g'.node? id = _
        rw [hrw.node?, hn]
        rfl
      · simp [Graph.relink, Node.isCovered]

end Explorer

end AbstractionRefinement
