import AbstractionRefinement.Proofs.Graph.Paths
import AbstractionRefinement.Proofs.Graph.Pruning

/-!
# What a refinement can change

A refinement examines counterexamples without touching the graph. Then it remembers the refuted
traces, lets nodes retire as coverers, and prunes (`Refuter.Cuts`). All of this only takes away:
nodes disappear, links and children go, and a node that still counts as expanded has kept every
child (`Graph.Shrinks`). `Refuter.does_run` says what a refinement has found out when it gives an
answer, and why it may give none.

`Refuter.Cuts` is the relation of single steps, as `Explorer.Grows` is for explorations: a trace is
remembered, a node is retired as a coverer, or a node is pruned. Invariants of sessions are carried
through a refinement by induction on these steps, and each of them is kept by the steps for the same
reason: it is about nodes and links that are there, and a cut only makes fewer of them.

An examination is described by its outcome (`Refuter.Finds`). All counterexamples that were asked
about are refuted, one refutation for each and in their order; or one of them is genuine; or one
could not be settled, and then the session is as it was.
-/

namespace AbstractionRefinement

open Work Session

variable {S A : Type}

/-! ### Graphs only shrink -/

/-- The second node is what is left of the first. -/
structure Node.Shrinks (n m : Node S A) : Prop where
  /-- Same position. -/
  id : m.id = n.id
  /-- Same state. -/
  state : m.state = n.state
  /-- Same key. -/
  key : m.key = n.key
  /-- Reached in the same way. -/
  incoming : m.incoming = n.incoming
  /-- Same depth. -/
  depth : m.depth = n.depth
  /-- Still a target, or still none. -/
  target : m.target = n.target
  /-- Children may be gone. -/
  children : m.children.Sublist n.children
  /-- The coverer may be gone. -/
  coveredBy : m.coveredBy = none ∨ m.coveredBy = n.coveredBy
  /-- A node that counts as expanded has kept all children. -/
  expanded : m.expanded = true → n.expanded = true ∧ m.children = n.children
  /-- What it covered may be released. -/
  covers : m.covers.Sublist n.covers
  /-- A node that stops covering releases everything. -/
  canCover : m.canCover = false → n.canCover = false ∨ m.covers = []

theorem Node.Shrinks.refl (n : Node S A) : n.Shrinks n :=
  ⟨rfl, rfl, rfl, rfl, rfl, rfl, .refl _, .inr rfl, fun h ↦ ⟨h, rfl⟩, .refl _, .inl⟩

/-- A node that shrinks twice has shrunk. -/
theorem Node.Shrinks.trans {n m k : Node S A} (h : n.Shrinks m) (h' : m.Shrinks k) :
    n.Shrinks k where
  id := h'.id.trans h.id
  state := h'.state.trans h.state
  key := h'.key.trans h.key
  incoming := h'.incoming.trans h.incoming
  depth := h'.depth.trans h.depth
  target := h'.target.trans h.target
  children := h'.children.trans h.children
  coveredBy := h'.coveredBy.elim .inl fun hk ↦ hk ▸ h.coveredBy
  expanded hk := by
    obtain ⟨hm, hchildren⟩ := h'.expanded hk
    obtain ⟨hn, hchildren'⟩ := h.expanded hm
    exact ⟨hn, hchildren.trans hchildren'⟩
  covers := h'.covers.trans h.covers
  canCover hk := by
    rcases h'.canCover hk with hm | hnil
    · refine (h.canCover hm).imp_right fun hnil ↦ ?_
      exact List.sublist_nil.1 (hnil ▸ h'.covers)
    · exact .inr hnil

/-- Every node that is left was there before. -/
structure Graph.Shrinks (g g' : Graph S A) : Prop where
  /-- Each node is what is left of one. -/
  node? : ∀ {i m}, g'.node? i = some m → ∃ n, g.node? i = some n ∧ n.Shrinks m
  /-- No position is given back. -/
  created : g'.created = g.created
  /-- As long as all roots count as there, none has gone. -/
  initialized : g'.initialized = true → g.initialized = true ∧ g'.roots = g.roots

theorem Graph.Shrinks.refl (g : Graph S A) : g.Shrinks g :=
  ⟨fun h ↦ ⟨_, h, .refl _⟩, rfl, fun h ↦ ⟨h, rfl⟩⟩

/-- A graph that shrinks twice has shrunk. -/
theorem Graph.Shrinks.trans {g g' g'' : Graph S A} (h : g.Shrinks g') (h' : g'.Shrinks g'') :
    g.Shrinks g'' where
  node? hk := by
    obtain ⟨m, hm, hmk⟩ := h'.node? hk
    obtain ⟨n, hn, hnm⟩ := h.node? hm
    exact ⟨n, hn, hnm.trans hmk⟩
  created := h'.created.trans h.created
  initialized hg := by
    obtain ⟨hg', hroots⟩ := h'.initialized hg
    obtain ⟨hg'', hroots'⟩ := h.initialized hg'
    exact ⟨hg'', hroots.trans hroots'⟩

namespace Graph

variable {g : Graph S A}

/-- Retiring a coverer makes a graph smaller: it takes coverings away and adds nothing. -/
theorem shrinks_retireCoverer {id : NodeId} : g.Shrinks (g.retireCoverer id) := by
  cases hn : g.node? id with
  | none =>
    rw [retireCoverer_of_none hn]
    exact .refl g
  | some n =>
    have hrw := rewrites_retireCoverer hn
    refine ⟨fun {i m} hm ↦ ?_, hrw.created, fun h ↦ ⟨hrw.initialized ▸ h, hrw.roots⟩⟩
    obtain ⟨k, hk, rfl⟩ := hrw.exists_node? hm
    refine ⟨k, hk, ?_⟩
    refine { Node.Shrinks.refl k with coveredBy := ?_, covers := ?_, canCover := ?_ }
    · simp only [release]
      split
      · exact .inl rfl
      · exact .inr rfl
    · simp only [release]
      split
      · exact List.nil_sublist _
      · exact .refl _
    · simp only [release]
      split
      · exact fun _ ↦ .inr rfl
      · exact .inl

/-- **Pruning makes a graph smaller**: it removes nodes and coverings, and changes nothing else
about those that stay. -/
theorem WellFormed.shrinks_prune (hg : g.WellFormed) {id : NodeId} : g.Shrinks (g.prune id) where
  node? {i m} hm := by
    obtain ⟨n, hn, ⟨rfl, -⟩ | ⟨-, rfl, -⟩⟩ := hg.node?_prune hm
    · exact ⟨m, hn, .refl m⟩
    · refine ⟨n, hn, { Node.Shrinks.refl n with
        children := List.filter_sublist, coveredBy := ?_, expanded := fun h ↦ ?_,
        covers := List.filter_sublist, canCover := .inl }⟩
      · rw [detach]
        cases n.coveredBy with
        | none => exact .inl rfl
        | some j =>
          rw [Option.filter_some]
          split
          · exact .inr rfl
          · exact .inl rfl
      · rw [detach, Bool.and_eq_true, Bool.not_eq_true'] at h
        refine ⟨h.1, List.filter_eq_self.2 fun c hc ↦ ?_⟩
        rw [bne_iff_ne]
        rintro rfl
        rw [List.contains_iff_mem.2 hc] at h
        cases h.2
  created := created_prune
  initialized h := by
    rw [Graph.prune] at h ⊢
    split
    · rename_i hc
      rw [if_pos hc, remove, Bool.and_eq_true, Bool.not_eq_true'] at h
      refine ⟨h.1, List.filter_eq_self.2 fun r hr ↦ ?_⟩
      rw [bne_iff_ne]
      rintro rfl
      rw [List.contains_iff_mem.2 hr] at h
      cases h.2
    · rename_i hc
      rw [if_neg hc] at h
      exact ⟨h, rfl⟩

/-- So does removing everything. -/
theorem shrinks_pruneAll : g.Shrinks g.pruneAll where
  node? h := by simp at h
  created := created_pruneAll
  initialized h := by cases h

end Graph

/-! ### Steps -/

/-- One change that a refinement makes. -/
inductive Refuter.Cuts : Session S A → Session S A → Prop
  /-- Remember traces. -/
  | remember {s : Session S A} {refuted : List Fingerprint} : Cuts s { s with refuted }
  /-- Let a node release what it covers, and cover no more. -/
  | retire {s : Session S A} {id : NodeId} : Cuts s { s with graph := s.graph.retireCoverer id }
  /-- Prune below a node. -/
  | prune {s : Session S A} {id : NodeId} : Cuts s { s with graph := s.graph.prune id }
  /-- Prune everything. -/
  | pruneAll {s : Session S A} : Cuts s { s with graph := s.graph.pruneAll }

/-- One cut keeps a graph well formed. -/
theorem Refuter.Cuts.wellFormed {s t : Session S A} (h : Refuter.Cuts s t)
    (hs : s.graph.WellFormed) : t.graph.WellFormed := by
  cases h with
  | remember => exact hs
  | retire => exact hs.retireCoverer
  | prune => exact hs.prune
  | pruneAll => exact Graph.wellFormed_pruneAll

/-- **Refinement only takes away.** -/
theorem Refuter.Cuts.shrinks {s t : Session S A} (h : Refuter.Cuts s t)
    (hs : s.graph.WellFormed) : s.graph.Shrinks t.graph := by
  cases h with
  | remember => exact .refl _
  | retire => exact Graph.shrinks_retireCoverer
  | prune => exact hs.shrinks_prune
  | pruneAll => exact Graph.shrinks_pruneAll

/-- All cuts of a refinement keep a graph well formed. -/
theorem Refuter.wellFormed_of_cuts {s t : Session S A} (h : Relation.ReflTransGen Refuter.Cuts s t)
    (hs : s.graph.WellFormed) : t.graph.WellFormed := by
  induction h with
  | refl => exact hs
  | tail _ hstep ih => exact hstep.wellFormed ih

/-- **So do all the changes of a refinement together.** -/
theorem Refuter.shrinks_of_cuts {s t : Session S A} (h : Relation.ReflTransGen Refuter.Cuts s t)
    (hs : s.graph.WellFormed) : s.graph.Shrinks t.graph := by
  induction h with
  | refl => exact .refl _
  | tail hcuts hstep ih => exact ih.trans (hstep.shrinks (wellFormed_of_cuts hcuts hs))

/-- What is left after cuts was there, in the same place of the forest. -/
theorem Refuter.exists_node?_of_cuts {s t : Session S A}
    (h : Relation.ReflTransGen Refuter.Cuts s t) (hs : s.graph.WellFormed) {i : NodeId}
    {m : Node S A} (hm : t.graph.node? i = some m) :
    ∃ n, s.graph.node? i = some n ∧ m.state = n.state ∧ m.incoming = n.incoming := by
  obtain ⟨n, hn, hnm⟩ := (shrinks_of_cuts h hs).node? hm
  exact ⟨n, hn, hnm.state, hnm.incoming⟩

/-! ### Examining counterexamples -/

/-- A scope selects among the counterexamples it is given. -/
theorem Scope.mem_of_mem_select {scope : Scope} {ids : List NodeId} {id : NodeId}
    (h : id ∈ scope.select ids) : id ∈ ids := by
  cases scope with
  | shortest => exact List.mem_of_mem_take h
  | every => exact h

/-- What joins keep, the new precision has. -/
theorem Scope.combine_induct {P : Type} [Precision P] {scope : Scope} {prec : P} {refined : List P}
    {Q : P → Prop} (hprec : Q prec) (hrefined : ∀ q ∈ refined, Q q)
    (hjoin : ∀ {q q'}, Q q → Q q' → Q (Precision.join q q')) : Q (scope.combine prec refined) := by
  cases scope with
  | shortest =>
    cases refined with
    | nil => exact hprec
    | cons q refined => exact hrefined q List.mem_cons_self
  | every =>
    show Q (refined.foldl Precision.join prec)
    induction refined generalizing prec with
    | nil => exact hprec
    | cons q refined ih =>
      obtain ⟨hq, hrest⟩ := List.forall_mem_cons.1 hrefined
      exact ih (hjoin hprec hq) hrest

namespace Refuter

variable {P W R : Type} {r : Refuter S A P W R} {g : Graph S A} {prec : P} {ids : List NodeId}

/-- What is known about a refuted counterexample. -/
def Refutes (r : Refuter S A P W R) (g : Graph S A) (prec : P) (id : NodeId)
    (t : Refuted S A P) : Prop :=
  g.pathTo id = .ok t.path ∧ ∃ refutation, r.check t.path.trace = .ok (.infeasible refutation) ∧
    t.cut = r.cutIndex refutation ∧ r.refine prec t.path.trace refutation = .ok t.refined

/-- Why an examination may give no answer. -/
inductive Unsettled (r : Refuter S A P W R) (g : Graph S A) (prec : P) (ids : List NodeId) :
    Abort → Prop
  /-- A counterexample is not there. -/
  | path {id : NodeId} {f : Fault} (hid : id ∈ ids) (h : g.pathTo id = .error f) :
    Unsettled r g prec ids (.fault f)
  /-- A trace cannot be examined. -/
  | check {id : NodeId} {path : Path S A} {e : Abort} (hid : id ∈ ids)
      (hpath : g.pathTo id = .ok path) (h : r.check path.trace = .error e) :
    Unsettled r g prec ids e
  /-- A refutation does not give a precision. -/
  | refine {id : NodeId} {path : Path S A} {refutation : R} {e : Abort} (hid : id ∈ ids)
      (hpath : g.pathTo id = .ok path) (hcheck : r.check path.trace = .ok (.infeasible refutation))
      (h : r.refine prec path.trace refutation = .error e) : Unsettled r g prec ids e

/-- A reason why some counterexamples are unsettled is one for a longer list. -/
theorem Unsettled.cons {e : Abort} {id : NodeId} (h : r.Unsettled g prec ids e) :
    r.Unsettled g prec (id :: ids) e := by
  cases h with
  | path hid h => exact .path (List.mem_cons_of_mem _ hid) h
  | check hid hpath h => exact .check (List.mem_cons_of_mem _ hid) hpath h
  | refine hid hpath hcheck h => exact .refine (List.mem_cons_of_mem _ hid) hpath hcheck h

/-- What an examination has found out. -/
def Finds (r : Refuter S A P W R) (g : Graph S A) (prec : P) (ids : List NodeId) :
    Except Abort (Examination S A P W) → Prop
  | .ok (.refuted traces) => List.Forall₂ (r.Refutes g prec) ids traces
  | .ok (.genuine path witness) => ∃ id ∈ ids, g.pathTo id = .ok path ∧
      r.check path.trace = .ok (.feasible witness)
  | .error e => r.Unsettled g prec ids e

/-- **An examination finds out** that all counterexamples are refuted, or that one is genuine, or
why neither can be said. -/
theorem finds_examine : r.Finds g prec ids (r.examine g prec ids) := by
  induction ids with
  | nil => exact .nil
  | cons id ids ih =>
    rw [examine]
    cases hpath : g.pathTo id with
    | error f => exact .path List.mem_cons_self hpath
    | ok path =>
      show r.Finds g prec (id :: ids) (r.check path.trace >>= _)
      cases hcheck : r.check path.trace with
      | error e => exact .check List.mem_cons_self hpath hcheck
      | ok answer =>
        cases answer with
        | feasible witness => exact ⟨id, List.mem_cons_self, hpath, hcheck⟩
        | infeasible refutation =>
          show r.Finds g prec (id :: ids) (r.refine prec path.trace refutation >>= _)
          cases hrefine : r.refine prec path.trace refutation with
          | error e => exact .refine List.mem_cons_self hpath hcheck hrefine
          | ok refined =>
            show r.Finds g prec (id :: ids) (r.examine g prec ids >>= _)
            cases hrest : r.examine g prec ids with
            | error e =>
              rw [hrest] at ih
              exact Unsettled.cons ih
            | ok others =>
              rw [hrest] at ih
              cases others with
              | genuine path' witness =>
                obtain ⟨id', hid', h⟩ := ih
                exact ⟨id', List.mem_cons_of_mem _ hid', h⟩
              | refuted traces =>
                exact .cons ⟨hpath, refutation, hcheck, rfl, hrefine⟩ ih

/-! ### Remembering and pruning -/

/-- Retiring several coverers is a sequence of cuts. -/
theorem cuts_foldl_retire {s : Session S A} {nodes : List NodeId} :
    Relation.ReflTransGen Cuts s
      { s with graph := nodes.foldl Graph.retireCoverer s.graph } := by
  induction nodes generalizing s with
  | nil => exact .refl
  | cons id nodes ih => exact .head .retire (ih (s := { s with graph := s.graph.retireCoverer id }))

/-- Pruning below several nodes is a sequence of cuts. -/
theorem cuts_foldl_prune {s : Session S A} {traces : List (Refuted S A P)} :
    Relation.ReflTransGen Cuts s
      { s with graph := traces.foldl (fun g t ↦ g.prune (cutNode t)) s.graph } := by
  induction traces generalizing s with
  | nil => exact .refl
  | cons t traces ih =>
    exact .head .prune (ih (s := { s with graph := s.graph.prune (cutNode t) }))

/-- **Pruning what has been refuted**, under any regime, is a sequence of cuts. -/
theorem cuts_pruneRefuted {s : Session S A} {pruning : Pruning} {traces : List (Refuted S A P)} :
    Relation.ReflTransGen Cuts s { s with graph := pruneRefuted pruning s.graph traces } := by
  cases pruning with
  | everything => exact .single .pruneAll
  | subtree => exact cuts_foldl_prune

/-- A trace is cut at the node that its path visits at the cut. -/
theorem cutNode_eq {t : Refuted S A P} {u : Visit S} (h : t.path.states[t.cut]? = some u) :
    cutNode t = u.node := by
  rw [cutNode, List.getD_eq_getElem?_getD, Path.nodes, List.getElem?_map, h]
  rfl

/-- A trace that is cut at its end is cut at the node it leads to. -/
theorem cutNode_of_cut_eq {t : Refuted S A P} (h : t.cut = t.path.length) :
    cutNode t = t.path.target := by
  refine cutNode_eq (u := t.path.last) ?_
  rw [h]
  exact Trace.getElem?_states_length

/-- Of the nodes at which traces are cut, none is left. -/
theorem ne_cutNode_of_pruneRefuted (hg : g.WellFormed) {traces : List (Refuted S A P)} {i : NodeId}
    {n : Node S A} (hn : (pruneRefuted .subtree g traces).node? i = some n) {t : Refuted S A P}
    (ht : t ∈ traces) : i ≠ cutNode t := by
  induction traces generalizing g with
  | nil => exact (List.not_mem_nil ht).elim
  | cons t' traces ih =>
    rcases List.mem_cons.1 ht with rfl | ht
    · rintro rfl
      obtain ⟨m, hm, -⟩ := exists_node?_of_cuts
        (s := { graph := g.prune (cutNode t) }) cuts_foldl_prune hg.prune hn
      exact absurd (hg.node?_prune_self.symm.trans hm) (by simp)
    · exact ih hg.prune hn ht

/-- What remembering traces comes to, given the memory before and after. -/
structure Recalls (r : Refuter S A P W R) (seen : List Fingerprint)
    (traces : List (Refuted S A P)) (repeated : Option Fingerprint) (seen' : List Fingerprint) :
    Prop where
  /-- Nothing is remembered in addition but these traces. -/
  memory : ∀ f ∈ seen', f ∈ seen ∨ ∃ t ∈ traces, r.fingerprint t.path.actions = f
  /-- A trace is repeated if it is remembered, or if an earlier one of them has its fingerprint. -/
  again : ∀ f, repeated = some f → ∃ before t after, traces = before ++ t :: after ∧
    r.fingerprint t.path.actions = f ∧
    (f ∈ seen ∨ ∃ t' ∈ before, r.fingerprint t'.path.actions = f)

/-- What remembering one trace comes to, and then remembering others, put together. -/
theorem Recalls.cons {seen seen' seen'' : List Fingerprint} {t : Refuted S A P}
    {traces : List (Refuted S A P)} {repeated : Bool} {later : Option Fingerprint}
    (hmemory : ∀ f ∈ seen', f ∈ seen ∨ f = r.fingerprint t.path.actions)
    (hrepeated : repeated = true → r.fingerprint t.path.actions ∈ seen)
    (h : r.Recalls seen' traces later seen'') :
    r.Recalls seen (t :: traces) (if repeated then some (r.fingerprint t.path.actions) else later)
      seen'' where
  memory f hf := by
    rcases h.memory f hf with hf | ⟨t', ht', rfl⟩
    · exact (hmemory f hf).imp_right fun heq ↦ ⟨t, List.mem_cons_self, heq.symm⟩
    · exact .inr ⟨t', List.mem_cons_of_mem _ ht', rfl⟩
  again f hf := by
    cases repeated with
    | true =>
      obtain rfl := Option.some.inj hf
      exact ⟨[], t, traces, rfl, rfl, .inl (hrepeated rfl)⟩
    | false =>
      obtain ⟨before, t', after, rfl, hfp, hor⟩ := h.again f hf
      refine ⟨t :: before, t', after, rfl, hfp, ?_⟩
      rcases hor with hf | ⟨t'', ht'', hfp'⟩
      · exact (hmemory f hf).imp_right fun heq ↦ ⟨t, List.mem_cons_self, heq.symm⟩
      · exact .inr ⟨t'', List.mem_cons_of_mem _ ht'', hfp'⟩

/-- Remembering one trace changes the memory by this trace only, and says that it is repeated only
if it is. -/
theorem does_observeRefuted {E : Abort → Session S A → Prop} {s : Session S A}
    {trace : Fingerprint} {nodes : List NodeId} :
    Does Cuts E (observeRefuted trace nodes) s fun repeated t ↦
      (∀ f ∈ t.refuted, f ∈ s.refuted ∨ f = trace) ∧ (repeated = true → trace ∈ s.refuted) := by
  by_cases hseen : trace ∈ s.refuted
  · have heq : observeRefuted trace nodes s = (.ok true,
        { s with graph := nodes.foldl Graph.retireCoverer s.graph }) := by
      simp only [observeRefuted, observe, if_pos hseen]
    exact .of_eq heq cuts_foldl_retire ⟨fun f hf ↦ .inl hf, fun _ ↦ hseen⟩
  · have heq : observeRefuted trace nodes s = (.ok false,
        { s with refuted := s.refuted ++ [trace] }) := by
      simp only [observeRefuted, observe, if_neg hseen]
    refine .of_eq heq (.single .remember) ⟨fun f hf ↦ ?_, fun h ↦ by cases h⟩
    exact (List.mem_append.1 hf).imp_right List.mem_singleton.1

/-- **Remembering all traces** of a refinement adds them to the memory, and says which is repeated.
-/
theorem does_observeAll {E : Abort → Session S A → Prop} {s : Session S A}
    {traces : List (Refuted S A P)} : Does Cuts E (r.observeAll traces) s fun repeated t ↦
      r.Recalls s.refuted traces repeated t.refuted := by
  induction traces generalizing s with
  | nil => exact .pure ⟨fun f hf ↦ .inl hf, fun f hf ↦ by cases hf⟩
  | cons t traces ih =>
    refine does_observeRefuted.bind fun repeated u _ hfirst ↦ ih.bind fun later w _ hrest ↦ ?_
    exact .pure (hrest.cons hfirst.1 hfirst.2)

/-! ### A whole refinement -/

variable [DecidableEq P] [Precision P] {scope : Scope} {pruning : Pruning} {s : Session S A}

/-- What the answer of a refinement says, given the session it began in. -/
def Answers (r : Refuter S A P W R) (scope : Scope) (pruning : Pruning) (prec : P)
    (s : Session S A) : Refinement S A P W → Session S A → Prop
  | .genuine path witness, t => t = s ∧ ∃ id ∈ s.graph.counterexamples,
      s.graph.pathTo id = .ok path ∧ r.check path.trace = .ok (.feasible witness)
  | .spurious refined, t => ∃ traces u, traces ≠ [] ∧ Relation.ReflTransGen Cuts s u ∧
      (∃ repeated, r.Recalls s.refuted traces repeated u.refuted) ∧
      List.Forall₂ (r.Refutes s.graph prec) (scope.select s.graph.counterexamples) traces ∧
      refined = scope.combine prec (traces.map Refuted.refined) ∧
      t = { u with graph := pruneRefuted pruning u.graph traces }

/-- Why a refinement may give no answer, given the session it began in. -/
inductive Fails (r : Refuter S A P W R) (scope : Scope) (prec : P) (s : Session S A) :
    Abort → Prop
  /-- There is nothing to examine. -/
  | idle (h : s.graph.counterexamples = []) :
    Fails r scope prec s (.failure (.violation .noCounterexample))
  /-- A counterexample is not settled. -/
  | unsettled {e : Abort}
      (h : r.Unsettled s.graph prec (scope.select s.graph.counterexamples) e) :
    Fails r scope prec s e
  /-- Refutations, one of them repeated, that do not change the precision. -/
  | diverges {traces : List (Refuted S A P)} {fingerprint : Fingerprint}
      {seen : List Fingerprint} (hne : traces ≠ [])
      (hrecalls : r.Recalls s.refuted traces (some fingerprint) seen)
      (htraces : List.Forall₂ (r.Refutes s.graph prec) (scope.select s.graph.counterexamples)
        traces)
      (hprec : scope.combine prec (traces.map Refuted.refined) = prec) :
    Fails r scope prec s (.failure (.divergence fingerprint))

/-- **Outcome of a refinement.** -/
theorem does_run : Does Cuts (fun e _ ↦ r.Fails scope prec s e) (r.run scope pruning prec) s
    fun answer t ↦ r.Answers scope pruning prec s answer t := by
  refine does_currentGraph_bind ?_
  dsimp only
  split
  · rename_i hempty
    refine .throw (.idle ?_)
    rw [List.isEmpty_iff] at hempty
    cases scope with
    | shortest => exact (List.take_eq_nil_iff.1 hempty).resolve_left (by decide)
    | every => exact hempty
  rename_i hne
  have hfinds : r.Finds s.graph prec (scope.select s.graph.counterexamples)
    (r.examine s.graph prec (scope.select s.graph.counterexamples)) := finds_examine
  refine does_demand_bind (fun e he ↦ ?_) fun exam hexam ↦ ?_
  · rw [he] at hfinds
    exact .unsettled hfinds
  rw [hexam] at hfinds
  cases exam with
  | genuine path witness =>
    obtain ⟨id, hid, h⟩ := hfinds
    exact .pure ⟨rfl, id, Scope.mem_of_mem_select hid, h⟩
  | refuted traces =>
    have hnil : traces ≠ [] := by
      rintro rfl
      rw [List.forall₂_nil_right_iff.1 hfinds] at hne
      exact hne rfl
    refine does_observeAll.bind fun repeated u hsu hrecalls ↦ ?_
    have hfinish : Does Cuts (fun e _ ↦ r.Fails scope prec s e) (do
        editGraph fun g ↦ .ok (pruneRefuted pruning g traces)
        return .spurious (scope.combine prec (traces.map Refuted.refined))) u
        fun answer t ↦ r.Answers scope pruning prec s answer t :=
      .of_eq (editGraph_bind rfl) cuts_pruneRefuted
        ⟨traces, u, hnil, hsu, ⟨repeated, hrecalls⟩, hfinds, rfl, rfl⟩
    cases repeated with
    | none => exact hfinish
    | some fingerprint =>
      dsimp only
      split
      · rename_i hprec
        exact .throw (.diverges hnil hrecalls hfinds hprec)
      · exact hfinish

end Refuter

end AbstractionRefinement
