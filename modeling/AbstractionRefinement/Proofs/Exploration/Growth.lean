import AbstractionRefinement.Exploration
import AbstractionRefinement.Proofs.Graph.Covering
import AbstractionRefinement.Proofs.Work

/-!
# What an exploration can change

An exploration makes five kinds of changes, each under conditions that hold at the moment it is
made. `Explorer.Grows` lists them; every computation of the exploration is a sequence of such steps
whether it succeeds or stops early, and nothing else about the code is needed to see what an
exploration keeps. `Explorer.Stops` lists why it may stop early.

Steps only add. A node that is there stays, and of what is said about it only the children and,
while it is incomplete, the marks change (`Node.Extends`). What is kept of every node is shown
node by node: a step leaves at each position a new node, or what was there with at most one new mark
(`Explorer.Grows.leaves`).

The conditions are recorded in the constructors: a child is made for a successor that was kept, from
a node that is incomplete, and only if no such child is there; a node is covered by what the search
for a coverer gave; a node counts as expanded only when all its successors have their children.
Soundness, discipline, termination and the counters are each an induction over these steps, and none
of them opens the code.

The reasons to stop are recorded in the same way, with the equation that says which computation of
the domain gave them, or which budget was used up.
-/

namespace AbstractionRefinement

variable {S A P : Type}

/-! ### Nodes only grow -/

/-- A node is incomplete if it is neither expanded nor covered nor a target. -/
theorem Node.isIncomplete_iff {n : Node S A} : n.isIncomplete = true ↔
    n.expanded = false ∧ n.coveredBy = none ∧ n.target = false := by
  simp [isIncomplete, isCovered, and_assoc]

/-- The second node is the first after some growth: only the children and the marks of an incomplete
node change, and the list of what it covers. -/
structure Node.Extends (n m : Node S A) : Prop where
  /-- Same position. -/
  id : m.id = n.id
  /-- Same state. -/
  state : m.state = n.state
  /-- Same key. -/
  key : m.key = n.key
  /-- Reached in the same way. -/
  incoming : m.incoming = n.incoming
  /-- Same depth. -/
  depth : m.depth = n.depth
  /-- Still a target, or still none. -/
  target : m.target = n.target
  /-- Covering is allowed as before. -/
  canCover : m.canCover = n.canCover
  /-- Children are added at the end. -/
  children : n.children <+: m.children
  /-- A node that is complete keeps its marks. -/
  settled : n.isIncomplete = false → m.coveredBy = n.coveredBy ∧ m.expanded = n.expanded

namespace Node.Extends

theorem refl (n : Node S A) : n.Extends n :=
  ⟨rfl, rfl, rfl, rfl, rfl, rfl, rfl, List.prefix_refl _, fun _ ↦ ⟨rfl, rfl⟩⟩

/-- A node that is complete stays complete. -/
theorem isIncomplete_eq_false {n m : Node S A} (h : n.Extends m) (hn : n.isIncomplete = false) :
    m.isIncomplete = false := by
  obtain ⟨hc, he⟩ := h.settled hn
  rw [Node.isIncomplete, Node.isCovered, hc, he, h.target]
  exact hn

/-- A node that is extended twice is extended. -/
theorem trans {n m k : Node S A} (h : n.Extends m) (h' : m.Extends k) : n.Extends k where
  id := h'.id.trans h.id
  state := h'.state.trans h.state
  key := h'.key.trans h.key
  incoming := h'.incoming.trans h.incoming
  depth := h'.depth.trans h.depth
  target := h'.target.trans h.target
  canCover := h'.canCover.trans h.canCover
  children := h.children.trans h'.children
  settled := fun hn ↦ by
    obtain ⟨hc, he⟩ := h.settled hn
    obtain ⟨hc', he'⟩ := h'.settled (h.isIncomplete_eq_false hn)
    exact ⟨hc'.trans hc, he'.trans he⟩

/-- A node that is expanded stays expanded. -/
theorem expanded {n m : Node S A} (h : n.Extends m) (hn : n.expanded = true) :
    m.expanded = true := by
  have hcomplete : n.isIncomplete = false := by simp [Node.isIncomplete, hn]
  exact (h.settled hcomplete).2.trans hn

/-- A counterexample stays one, and a node that is none does not become one. -/
theorem isCounterexample {n m : Node S A} (h : n.Extends m) :
    m.isCounterexample = n.isCounterexample := by
  rw [Node.isCounterexample, Node.isCounterexample, h.target]
  cases ht : n.target with
  | false => rfl
  | true =>
    have hn : n.isIncomplete = false := by simp [Node.isIncomplete, ht]
    rw [Node.isCovered, Node.isCovered, (h.settled hn).1]

end Node.Extends

/-- Every node is still there, grown. -/
structure Graph.Extends (g g' : Graph S A) : Prop where
  /-- Each node has grown. -/
  node? : ∀ {i n}, g.node? i = some n → ∃ m, g'.node? i = some m ∧ n.Extends m
  /-- Positions are used in order. -/
  created : g.created ≤ g'.created
  /-- A position is not used again. -/
  old : ∀ {i m}, i < g.created → g'.node? i = some m → ∃ n, g.node? i = some n
  /-- Roots stay roots. -/
  roots : ∀ i ∈ g.roots, i ∈ g'.roots
  /-- Once all roots are there, this stays so. -/
  initialized : g.initialized = true → g'.initialized = true

namespace Graph.Extends

theorem refl (g : Graph S A) : g.Extends g :=
  ⟨fun h ↦ ⟨_, h, .refl _⟩, Nat.le_refl _, fun _ h ↦ ⟨_, h⟩, fun _ h ↦ h, fun h ↦ h⟩

/-- A graph that is extended twice is extended. -/
theorem trans {g g' g'' : Graph S A} (h : g.Extends g') (h' : g'.Extends g'') : g.Extends g'' where
  node? hn := by
    obtain ⟨m, hm, hnm⟩ := h.node? hn
    obtain ⟨k, hk, hmk⟩ := h'.node? hm
    exact ⟨k, hk, hnm.trans hmk⟩
  created := Nat.le_trans h.created h'.created
  old hi hm := by
    obtain ⟨k, hk⟩ := h'.old (Nat.lt_of_lt_of_le hi h.created) hm
    exact h.old hi hk
  roots i hi := h'.roots i (h.roots i hi)
  initialized hg := h'.initialized (h.initialized hg)

/-- An old position holds what it held, grown. -/
theorem exists_node? {g g' : Graph S A} (h : g.Extends g') {i : NodeId} {m : Node S A}
    (hi : i < g.created) (hm : g'.node? i = some m) : ∃ n, g.node? i = some n ∧ n.Extends m := by
  obtain ⟨n, hn⟩ := h.old hi hm
  obtain ⟨k, hk, hnk⟩ := h.node? hn
  obtain rfl := Option.some.inj (hm.symm.trans hk)
  exact ⟨n, hn, hnk⟩

end Graph.Extends

namespace Graph

/-- Adding a root extends a graph. -/
theorem extends_addRoot {g : Graph S A} {st : S} {key : Nat} {target : Bool} :
    g.Extends (g.addRoot st key target) where
  node? {i n} hn := by
    refine ⟨n, ?_, .refl n⟩
    rw [node?_addRoot, if_neg (Nat.ne_of_lt (lt_created hn)), hn]
  created := by simp
  old {i m} hi hm := by
    rw [node?_addRoot, if_neg (Nat.ne_of_lt hi)] at hm
    exact ⟨m, hm⟩
  roots i hi := List.mem_append_left _ hi
  initialized h := h

theorem extends_setInitialized {g : Graph S A} : g.Extends (g.setInitialized true) :=
  ⟨fun h ↦ ⟨_, h, .refl _⟩, Nat.le_refl _, fun _ h ↦ ⟨_, h⟩, fun _ hi ↦ hi, fun _ ↦ rfl⟩

/-- Adding a child extends a graph: the parent gains a child, and nothing else changes. -/
theorem extends_addChild {g g' : Graph S A} {id : NodeId} {a : A} {st : S} {key : Nat}
    {target : Bool} (hadd : g.addChild id a st key target = .ok g') : g.Extends g' where
  node? {i n} hn := by
    obtain ⟨p, hp, -⟩ := eq_of_addChild hadd
    rw [node?_addChild hp hadd, if_neg (Nat.ne_of_lt (lt_created hn))]
    split
    · rename_i hi
      rw [hi, hp] at hn
      obtain rfl := Option.some.inj hn
      exact ⟨_, rfl, { Node.Extends.refl p with children := List.prefix_append _ _ }⟩
    · exact ⟨n, hn, .refl n⟩
  created := by rw [created_addChild hadd]; exact Nat.le_succ _
  old {i m} hi hm := by
    obtain ⟨p, hp, -⟩ := eq_of_addChild hadd
    obtain ⟨n, hn, -⟩ := old_of_addChild hp hadd (Nat.ne_of_lt hi) hm
    exact ⟨n, hn⟩
  roots i hi := by
    obtain ⟨p, -, rfl⟩ := eq_of_addChild hadd
    exact hi
  initialized h := by
    obtain ⟨p, -, rfl⟩ := eq_of_addChild hadd
    exact h

/-- Marking an incomplete node as expanded extends a graph. -/
theorem extends_setExpanded {g g' : Graph S A} {id : NodeId} {n : Node S A}
    (hn : g.node? id = some n) (hinc : n.isIncomplete = true)
    (hset : g.setExpanded id true = .ok g') : g.Extends g' := by
  rw [eq_update_of_setExpanded hset]
  refine ⟨fun {i m} hm ↦ ?_, by simp, fun {i m} _ hm ↦ ?_, fun _ hi ↦ hi, fun h ↦ h⟩
  · rw [node?_update]
    split
    · rename_i hi
      rw [hi, hn] at hm
      obtain rfl := Option.some.inj hm
      refine ⟨{ n with expanded := true }, by rw [hi, hn]; rfl, ?_⟩
      exact { Node.Extends.refl n with settled := fun h ↦ by cases hinc.symm.trans h }
    · exact ⟨m, hm, .refl m⟩
  · rw [node?_update] at hm
    split at hm
    · rename_i hi
      exact ⟨n, hi ▸ hn⟩
    · exact ⟨m, hm⟩

/-- Covering an incomplete node extends a graph. -/
theorem extends_cover {g g' : Graph S A} {id coverer : NodeId} {n : Node S A}
    (hn : g.node? id = some n) (hinc : n.isIncomplete = true)
    (hcov : g.cover id coverer = .ok g') : g.Extends g' := by
  obtain ⟨hrw, -⟩ := rewrites_cover hn hcov
  refine ⟨fun {i m} hm ↦ ?_, Nat.le_of_eq hrw.created.symm, fun _ hm ↦ ?_,
    fun i hi ↦ hrw.roots ▸ hi, fun h ↦ hrw.initialized.trans h⟩
  swap
  · obtain ⟨k, hk, -⟩ := hrw.exists_node? hm
    exact ⟨k, hk⟩
  refine ⟨_, by rw [hrw.node?, hm]; rfl, ?_⟩
  refine { Node.Extends.refl m with settled := fun h ↦ ⟨?_, rfl⟩ }
  -- an incomplete node is not settled, so the node at hand is another one
  have hi : i ≠ id := by
    rintro rfl
    obtain rfl := Option.some.inj (hn.symm.trans hm)
    cases hinc.symm.trans h
  simp only [relink, if_neg hi]

end Graph

/-! ### Steps -/

namespace Explorer

variable (x : Explorer S A P) (prec : P)

/-- A root stands for the state: one with this state, or one above it. -/
def Rooted (g : Graph S A) (st : S) : Prop :=
  ∃ r ∈ g.roots, ∃ n, g.node? r = some n ∧ (n.state = st ∨ x.model.leq st n.state = true)

/-- A state that a root accounts for goes on being accounted for. -/
theorem Rooted.extends {x : Explorer S A P} {g g' : Graph S A} {st : S} (h : x.Rooted g st)
    (hg : g.Extends g') : x.Rooted g' st := by
  obtain ⟨r, hr, n, hn, hor⟩ := h
  obtain ⟨m, hm, hnm⟩ := hg.node? hn
  exact ⟨r, hg.roots r hr, m, hm, hnm.state ▸ hor⟩

variable [DecidableEq S] [DecidableEq A]

section Children

variable {g g' : Graph S A} {id : NodeId} {n : Node S A} {a : A} {st : S}

/-- The children of a live node are looked at one by one. -/
theorem hasChild_eq (hn : g.node? id = some n) : hasChild g id a st =
    n.children.anyM fun c ↦ do
      let child ← g.node c
      return child.action? = some a && child.state = st := by
  rw [hasChild, Graph.node_eq_ok.2 hn]
  rfl

/-- A hit is a live child with this state along this action. -/
theorem exists_of_hasChild (hn : g.node? id = some n) (h : hasChild g id a st = .ok true) :
    ∃ c ∈ n.children, ∃ m, g.node? c = some m ∧ m.action? = some a ∧ m.state = st := by
  rw [hasChild_eq hn] at h
  obtain ⟨c, hc, htest⟩ := exists_of_anyM_eq_ok_true h
  obtain ⟨m, hm, heq⟩ := bind_eq_ok.1 htest
  have hboth := Except.ok.inj heq
  rw [Bool.and_eq_true, decide_eq_true_iff, decide_eq_true_iff] at hboth
  exact ⟨c, hc, m, Graph.node_eq_ok.1 hm, hboth⟩

/-- Without a hit, no live child has this state along this action. -/
theorem not_of_hasChild (hn : g.node? id = some n) (h : hasChild g id a st = .ok false)
    {c : NodeId} {m : Node S A} (hc : c ∈ n.children) (hm : g.node? c = some m) :
    ¬(m.action? = some a ∧ m.state = st) := by
  rw [hasChild_eq hn, anyM_eq_ok_false] at h
  have htest := h c hc
  rw [Graph.node_eq_ok.2 hm] at htest
  simpa using Except.ok.inj htest

/-- In a well-formed graph all children are live, so the search comes to an answer. -/
theorem exists_hasChild_eq_ok (hg : g.WellFormed) (hn : g.node? id = some n) (a : A) (st : S) :
    ∃ b, hasChild g id a st = .ok b := by
  rw [hasChild_eq hn]
  refine exists_anyM_eq_ok fun c hc ↦ ?_
  obtain ⟨m, hm, -⟩ := (hg.forest.mem_children hn).1 hc
  rw [Graph.node_eq_ok.2 hm]
  exact ⟨_, rfl⟩

/-- In a well-formed graph a child with this state along this action is found. -/
theorem hasChild_of_mem (hg : g.WellFormed) (hn : g.node? id = some n) {c : NodeId} {m : Node S A}
    (hc : c ∈ n.children) (hm : g.node? c = some m) (hact : m.action? = some a)
    (hst : m.state = st) : hasChild g id a st = .ok true := by
  obtain ⟨b, hb⟩ := exists_hasChild_eq_ok hg hn a st
  cases b with
  | true => exact hb
  | false => exact absurd ⟨hact, hst⟩ (not_of_hasChild hn hb hc hm)

/-- A child that is there stays. -/
theorem hasChild_extends (hg' : g'.WellFormed) (hn : g.node? id = some n)
    (h : hasChild g id a st = .ok true) (hg : g.Extends g') : hasChild g' id a st = .ok true := by
  obtain ⟨m, hm, hnm⟩ := hg.node? hn
  obtain ⟨c, hc, k, hk, hact, hst⟩ := exists_of_hasChild hn h
  obtain ⟨l, hl, hkl⟩ := hg.node? hk
  refine hasChild_of_mem hg' hm (hnm.children.subset hc) hl ?_ (hkl.state.trans hst)
  rw [Node.action?, hkl.incoming]
  exact hact

end Children

variable [Described S]

/-- A sibling that is left of the successors along an action. -/
def Kept (succ : List (A × List S)) (a : A) (st : S) : Prop :=
  ∃ states kept, (a, states) ∈ succ ∧ x.absorbAll [] states = .ok kept ∧ st ∈ kept

/-- Every sibling that is left along every action has its node below `id`. -/
def Covered (g : Graph S A) (id : NodeId) (succ : List (A × List S)) : Prop :=
  ∀ a states, (a, states) ∈ succ →
    ∃ kept, x.absorbAll [] states = .ok kept ∧ ∀ st ∈ kept, hasChild g id a st = .ok true

/-- One change that an exploration under a precision makes. -/
inductive Grows : Session S A → Session S A → Prop
  /-- A root for an initial state that is not bottom and that no root stands for. -/
  | root {s : Session S A} {states : List S} {st : S} (hinit : x.model.initial prec = .ok states)
      (hst : st ∈ states) (hbot : x.model.isBottom st = false)
      (hsub : x.subsumedByRoot s.graph st = .ok false) :
    Grows s { s with
      graph := s.graph.addRoot st (x.model.key st) (x.model.isTarget st)
      counters := { s.counters with created := s.counters.created + 1 } }
  /-- All initial states are there. -/
  | ready {s : Session S A} {states : List S} (hinit : x.model.initial prec = .ok states)
      (hall : ∀ st ∈ states, x.model.isBottom st = false → x.Rooted s.graph st) :
    Grows s { s with graph := s.graph.setInitialized true }
  /-- A child of an incomplete node, for a sibling that has no node yet. -/
  | child {s : Session S A} {id : NodeId} {n : Node S A} {succ : List (A × List S)} {a : A}
      {st : S} {g' : Graph S A} (hn : s.graph.node? id = some n) (hinc : n.isIncomplete = true)
      (hsucc : x.successorsOf n.state prec = .ok succ) (hkept : x.Kept succ a st)
      (hnew : hasChild s.graph id a st = .ok false)
      (hadd : s.graph.addChild id a st (x.model.key st) (x.model.isTarget st) = .ok g') :
    Grows s { s with
      graph := g'
      counters := { s.counters with
        created := s.counters.created + 1
        maxDepth := max s.counters.maxDepth (n.depth + 1) } }
  /-- An incomplete node whose siblings all have their nodes counts as expanded. -/
  | expanded {s : Session S A} {id : NodeId} {n : Node S A} {succ : List (A × List S)}
      {g' : Graph S A} (hn : s.graph.node? id = some n) (hinc : n.isIncomplete = true)
      (hsucc : x.successorsOf n.state prec = .ok succ) (hall : x.Covered s.graph id succ)
      (hset : s.graph.setExpanded id true = .ok g') :
    Grows s { s with
      graph := g'
      counters := { s.counters with expansions := s.counters.expansions + 1 } }
  /-- An incomplete node is covered by the first node that may cover it. -/
  | cover {s : Session S A} {id coverer : NodeId} {n : Node S A} {g' : Graph S A}
      (hn : s.graph.node? id = some n) (hinc : n.isIncomplete = true)
      (hfind : s.graph.findCoverer x.model.leq id = .ok (some coverer))
      (hcov : s.graph.cover id coverer = .ok g') :
    Grows s { s with
      graph := g'
      counters := { s.counters with covered := s.counters.covered + 1 } }

/-- Why an exploration may stop early, and what its session is like then. -/
inductive Stops (deadline : Option Nat) : Abort → Session S A → Prop
  /-- The clock cannot tell the deadline. -/
  | limit {f : Fault} {s : Session S A}
      (h : x.meter.checkLimit x.options.timeLimit = .error f) : Stops deadline (.fault f) s
  /-- The domain has no initial states to tell. -/
  | initial {e : Abort} {s : Session S A} (h : x.model.initial prec = .error e) :
    Stops deadline e s
  /-- The order is not reflexive on a new state. -/
  | reflexive {st : S} {e : Abort} {s : Session S A} (h : x.checkReflexive st = .error e) :
    Stops deadline e s
  /-- A merged state is not above its operands. -/
  | merged {k st u : S} {e : Abort} {s : Session S A} (hmerge : x.model.merge k st = some u)
      (h : x.checkMerged k st u = .error e) : Stops deadline e s
  /-- There is no room for another node. -/
  | room {e : Abort} {s : Session S A} (h : x.checkRoom s.graph = .error e) : Stops deadline e s
  /-- The domain cannot tell the actions that a node enables. -/
  | enabled {id : NodeId} {n : Node S A} {f : Fault} {s : Session S A}
      (hn : s.graph.node? id = some n) (h : x.model.enabled n.state = .error f) :
    Stops deadline (.fault f) s
  /-- The domain cannot tell the successors of a node along an action that it enables. -/
  | successors {id : NodeId} {n : Node S A} {actions : List A} {a : A} {e : Abort}
      {s : Session S A} (hn : s.graph.node? id = some n)
      (hen : x.model.enabled n.state = .ok actions) (ha : a ∈ actions)
      (h : x.model.successors n.state a prec = .error e) : Stops deadline e s
  /-- Time or memory is used up. -/
  | budget {turn : Nat} {e : Abort} {s : Session S A}
      (h : x.checkBudgets deadline turn = .error e) : Stops deadline e s

variable {x prec} {s t : Session S A}

/-- One step of an exploration keeps a graph well formed. -/
theorem Grows.wellFormed (h : x.Grows prec s t) (hs : s.graph.WellFormed) :
    t.graph.WellFormed := by
  cases h with
  | root => exact hs.addRoot
  | ready => exact hs.setInitialized true
  | child _ _ _ _ _ hadd => exact hs.addChild hadd
  | expanded _ _ _ _ hset => exact hs.setExpanded hset
  | cover _ _ _ hcov => exact hs.cover hcov

/-- **Steps only add.** -/
theorem Grows.extends (h : x.Grows prec s t) : s.graph.Extends t.graph := by
  cases h with
  | root => exact Graph.extends_addRoot
  | ready => exact Graph.extends_setInitialized
  | child _ _ _ _ _ hadd => exact Graph.extends_addChild hadd
  | expanded hn hinc _ _ hset => exact Graph.extends_setExpanded hn hinc hset
  | cover hn hinc _ hcov => exact Graph.extends_cover hn hinc hcov

/-! ### One step, node by node -/

/-- What a step leaves at a position: a new node, or what was there with new marks. -/
inductive Leaves (x : Explorer S A P) (prec : P) (s : Session S A) (i : NodeId) (m : Node S A) :
    Prop
  /-- A new root. -/
  | root {states : List S} {st : S} (hi : i = s.graph.created)
      (hinit : x.model.initial prec = .ok states) (hst : st ∈ states)
      (hm : m = Graph.freshNode i st (x.model.key st) none (x.model.isTarget st) 0) :
    Leaves x prec s i m
  /-- A new child. -/
  | child {id : NodeId} {n : Node S A} {succ : List (A × List S)} {a : A} {st : S}
      (hi : i = s.graph.created) (hn : s.graph.node? id = some n)
      (hsucc : x.successorsOf n.state prec = .ok succ) (hkept : x.Kept succ a st)
      (hm : m = Graph.freshNode i st (x.model.key st) (some ⟨id, a⟩) (x.model.isTarget st)
        (n.depth + 1)) : Leaves x prec s i m
  /-- A node with the marks it had. -/
  | kept {n : Node S A} (hn : s.graph.node? i = some n) (hnm : n.Extends m)
      (he : m.expanded = n.expanded) (hc : m.coveredBy = n.coveredBy) : Leaves x prec s i m
  /-- A node that now counts as expanded. -/
  | expanded {n : Node S A} {succ : List (A × List S)} (hn : s.graph.node? i = some n)
      (hinc : n.isIncomplete = true) (hsucc : x.successorsOf n.state prec = .ok succ)
      (hall : x.Covered s.graph i succ) (hnm : n.Extends m) (hc : m.coveredBy = none) :
    Leaves x prec s i m
  /-- A node that is now covered. -/
  | covered {n : Node S A} (hn : s.graph.node? i = some n) (hinc : n.isIncomplete = true)
      (hnm : n.Extends m) (he : m.expanded = false) : Leaves x prec s i m

/-- **What a step does to each node.** -/
theorem Grows.leaves (h : x.Grows prec s t) {i : NodeId} {m : Node S A}
    (hm : t.graph.node? i = some m) : Leaves x prec s i m := by
  have hext := h.extends
  -- a position that holds what it held
  have hsame : ∀ {n}, s.graph.node? i = some n → m.expanded = n.expanded →
      m.coveredBy = n.coveredBy → Leaves x prec s i m := by
    intro n hn he hc
    obtain ⟨m', hm', hnm⟩ := hext.node? hn
    obtain rfl := Option.some.inj (hm.symm.trans hm')
    exact .kept hn hnm he hc
  cases h with
  | root hinit hst =>
    have hnode := hm
    rw [Graph.node?_addRoot] at hnode
    split at hnode
    · exact .root ‹_› hinit hst (Option.some.inj hnode).symm
    · exact hsame hnode rfl rfl
  | ready => exact hsame hm rfl rfl
  | child hn _ hsucc hkept _ hadd =>
    have hnode := hm
    rw [Graph.node?_addChild hn hadd] at hnode
    split at hnode
    · exact .child ‹_› hn hsucc hkept (Option.some.inj hnode).symm
    · split at hnode
      · rename_i hid
        subst hid
        obtain rfl := Option.some.inj hnode
        exact hsame hn rfl rfl
      · exact hsame hnode rfl rfl
  | expanded hn hinc hsucc hall hset =>
    have hnode := hm
    rw [Graph.eq_update_of_setExpanded hset, Graph.node?_update] at hnode
    split at hnode
    · rename_i hid
      subst hid
      obtain ⟨m', hm', hnm⟩ := hext.node? hn
      obtain rfl := Option.some.inj (hm.symm.trans hm')
      rw [hn] at hnode
      obtain rfl := Option.some.inj hnode
      exact .expanded hn hinc hsucc hall hnm (Node.isIncomplete_iff.1 hinc).2.1
    · exact hsame hnode rfl rfl
  | @cover id coverer n g' hn hinc hfind hcov =>
    obtain ⟨hrw, -⟩ := Graph.rewrites_cover hn hcov
    obtain ⟨k, hk, hmk⟩ := hrw.exists_node? hm
    by_cases hi : i = id
    · subst hi
      obtain ⟨m', hm', hnm⟩ := hext.node? hn
      obtain rfl := Option.some.inj (hm.symm.trans hm')
      obtain rfl := Option.some.inj (hn.symm.trans hk)
      exact .covered hn hinc hnm (hmk ▸ (Node.isIncomplete_iff.1 hinc).1)
    · exact hsame hk (hmk ▸ rfl) (hmk ▸ if_neg hi)

/-- A step makes at most one node. -/
theorem Grows.eq_created (h : x.Grows prec s t) {i : NodeId} {m : Node S A}
    (hi : s.graph.created ≤ i) (hm : t.graph.node? i = some m) : i = s.graph.created := by
  cases h.leaves hm with
  | root hcreated | child hcreated => exact hcreated
  | kept hn | expanded hn | covered hn => exact absurd (Graph.lt_created hn) (Nat.not_lt.2 hi)

/-- A new root is for a state that no root stood for. -/
theorem Grows.not_subsumed (h : x.Grows prec s t) {i : NodeId} {m : Node S A}
    (hi : s.graph.created ≤ i) (hm : t.graph.node? i = some m) (hroot : m.incoming = none) :
    x.subsumedByRoot s.graph m.state = .ok false := by
  -- no other step makes a root
  have hold : ∀ {n}, s.graph.node? i ≠ some n := fun hn ↦
    absurd (Graph.lt_created hn) (Nat.not_lt.2 hi)
  cases h with
  | root _ _ _ hsub =>
    rw [Graph.node?_addRoot] at hm
    split at hm
    · obtain rfl := Option.some.inj hm
      exact hsub
    · exact absurd hm hold
  | ready => exact absurd hm hold
  | child hn _ _ _ _ hadd =>
    rw [Graph.node?_addChild hn hadd] at hm
    split at hm
    · obtain rfl := Option.some.inj hm
      cases hroot
    · split at hm
      · rename_i hid
        exact absurd (hid ▸ hn) hold
      · exact absurd hm hold
  | expanded _ _ _ _ hset =>
    obtain rfl := Graph.eq_update_of_setExpanded hset
    exact absurd (Graph.created_update ▸ Graph.lt_created hm) (Nat.not_lt.2 hi)
  | cover hn _ _ hcov =>
    obtain ⟨k, hk, -⟩ := (Graph.rewrites_cover hn hcov).1.exists_node? hm
    exact absurd hk hold

/-- All roots count as there after a step that found them to be. -/
theorem Grows.initialized (h : x.Grows prec s t) (ht : t.graph.initialized = true) :
    s.graph.initialized = true ∨ ∃ states, x.model.initial prec = .ok states ∧
      ∀ st ∈ states, x.model.isBottom st = false → x.Rooted t.graph st := by
  cases h with
  | root => exact .inl ht
  | ready hinit hall => exact .inr ⟨_, hinit, hall⟩
  | child _ _ _ _ _ hadd =>
    obtain ⟨p, -, rfl⟩ := Graph.eq_of_addChild hadd
    exact .inl ht
  | expanded _ _ _ _ hset =>
    obtain rfl := Graph.eq_update_of_setExpanded hset
    exact .inl ht
  | cover hn _ _ hcov => exact .inl ((Graph.rewrites_cover hn hcov).1.initialized ▸ ht)

/-! ### Sequences of steps -/

/-- **Every step of an exploration keeps a graph well formed.** -/
theorem wellFormed_of_grows (h : Relation.ReflTransGen (x.Grows prec) s t)
    (hs : s.graph.WellFormed) : t.graph.WellFormed := by
  induction h with
  | refl => exact hs
  | tail _ hstep ih => exact hstep.wellFormed ih

/-- Explorations do not touch what is remembered. -/
theorem refuted_of_grows (h : Relation.ReflTransGen (x.Grows prec) s t) :
    t.refuted = s.refuted := by
  induction h with
  | refl => rfl
  | tail _ hstep ih =>
    rw [← ih]
    cases hstep <;> rfl

/-- **An exploration extends the graph**: nodes stay, with their states, edges and children. -/
theorem extends_of_grows (h : Relation.ReflTransGen (x.Grows prec) s t) :
    s.graph.Extends t.graph := by
  induction h with
  | refl => exact .refl _
  | tail _ hstep ih => exact ih.trans hstep.extends

end Explorer

end AbstractionRefinement
