import AbstractionRefinement.Proofs.Graph.Paths
import AbstractionRefinement.Proofs.Safety

/-!
# Labels along paths

Roots are made of initial states and children of successors, so a property of initial states and a
relation between a state, an action and a successor hold all over the graph (`Graph.Labelled`):
steps of an exploration add such nodes only, and refinement takes nodes away. Along a path of the
graph they hold in turn (`Graph.Labelled.along`).

The property and the relation are parameters. For digraphs they say that links fit together, for
programs that states are proper and moves join their locations, and for audits that a trace can be
replayed; what these have in common is proved here once, for explorations
(`Graph.Labelled.of_grows`), for refinements (`Graph.Labelled.of_cuts`) and for whole runs
(`Checker.Reaches.labelled`). The precision changes in the course of a run, so what is to hold
throughout has to hold of initial states and successors at every precision.

A report of a violation rests on such a path: it ends in a counterexample of the graph reported, and
its trace was found feasible (`Checker.exists_path_of_violated`).
-/

namespace AbstractionRefinement

variable {S A P : Type}

/-- The relation holds along the steps from a state. -/
inductive Along (E : S → A → S → Prop) : S → List (A × S) → Prop
  /-- No step. -/
  | nil {st : S} : Along E st []
  /-- One step, then the others. -/
  | cons {st st' : S} {a : A} {steps : List (A × S)} (h : E st a st') (hrest : Along E st' steps) :
    Along E st ((a, st') :: steps)

/-- What the relation says about an action holds of all of them. -/
theorem Along.forall_action {E : S → A → S → Prop} {Q : A → Prop} {st : S} {steps : List (A × S)}
    (h : Along E st steps) (hE : ∀ {st a st'}, E st a st' → Q a) :
    ∀ a ∈ steps.map Prod.fst, Q a := by
  induction h with
  | nil => exact List.forall_mem_nil _
  | cons hstep _ ih => exact List.forall_mem_cons.2 ⟨hE hstep, ih⟩

/-- What the relation says about where a step leads holds of all states. -/
theorem Along.forall_state {E : S → A → S → Prop} {Q : S → Prop} {st : S} {steps : List (A × S)}
    (h : Along E st steps) (hE : ∀ {st a st'}, E st a st' → Q st') :
    ∀ st' ∈ steps.map Prod.snd, Q st' := by
  induction h with
  | nil => exact List.forall_mem_nil _
  | cons hstep _ ih => exact List.forall_mem_cons.2 ⟨hE hstep, ih⟩

theorem Along.imp {E E' : S → A → S → Prop} {st : S} {steps : List (A × S)} (h : Along E st steps)
    (hE : ∀ {st a st'}, E st a st' → E' st a st') : Along E' st steps := by
  induction h with
  | nil => exact .nil
  | cons hstep _ ih => exact .cons (hE hstep) ih

namespace Graph

variable {R : S → Prop} {E : S → A → S → Prop} {g g' : Graph S A}

/-- Roots satisfy `R`, and children are related by `E` to their parents. -/
structure Labelled (R : S → Prop) (E : S → A → S → Prop) (g : Graph S A) : Prop where
  /-- Roots satisfy `R`. -/
  root : ∀ {i n}, g.node? i = some n → n.incoming = none → R n.state
  /-- Children are related to their parents. -/
  edge : ∀ {i n e p}, g.node? i = some n → n.incoming = some e → g.node? e.parent = some p →
    E p.state e.action n.state

namespace Labelled

theorem empty : (empty : Graph S A).Labelled R E where
  root h := by simp at h
  edge h := by simp at h

theorem imp {R' : S → Prop} {E' : S → A → S → Prop} (hg : g.Labelled R E)
    (hR : ∀ {st}, R st → R' st) (hE : ∀ {st a st'}, E st a st' → E' st a st') :
    g.Labelled R' E' where
  root hn hin := hR (hg.root hn hin)
  edge hn hin hp := hE (hg.edge hn hin hp)

/-- What only takes away keeps the labels. -/
theorem shrinks (hg : g.Labelled R E) (h : g.Shrinks g') : g'.Labelled R E where
  root hm hin := by
    obtain ⟨n, hn, hnm⟩ := h.node? hm
    rw [hnm.state]
    exact hg.root hn (hnm.incoming ▸ hin)
  edge hm hin hp := by
    obtain ⟨n, hn, hnm⟩ := h.node? hm
    obtain ⟨q, hq, hqp⟩ := h.node? hp
    rw [hnm.state, hqp.state]
    exact hg.edge hn (hnm.incoming ▸ hin) hq

theorem of_cuts {s t : Session S A} (hs : s.graph.Labelled R E) (hwf : s.graph.WellFormed)
    (h : Relation.ReflTransGen Refuter.Cuts s t) : t.graph.Labelled R E :=
  hs.shrinks (Refuter.shrinks_of_cuts h hwf)

/-- Growth keeps the labels if new nodes have them. -/
theorem of_extends (hg : g.Labelled R E) (hext : g.Extends g') (hfor : g'.Forest)
    (hroot : ∀ {i m}, g.created ≤ i → g'.node? i = some m → m.incoming = none → R m.state)
    (hedge : ∀ {i m e p}, g.created ≤ i → g'.node? i = some m → m.incoming = some e →
      g'.node? e.parent = some p → E p.state e.action m.state) : g'.Labelled R E where
  root {i m} hm hin := by
    by_cases hi : i < g.created
    · obtain ⟨n, hn, hnm⟩ := hext.exists_node? hi hm
      rw [hnm.state]
      exact hg.root hn (hnm.incoming ▸ hin)
    · exact hroot (Nat.not_lt.1 hi) hm hin
  edge {i m e p} hm hin hp := by
    by_cases hi : i < g.created
    · obtain ⟨n, hn, hnm⟩ := hext.exists_node? hi hm
      obtain ⟨hlt, -⟩ := hfor.parent hm hin
      obtain ⟨q, hq, hqp⟩ := hext.exists_node? (Nat.lt_trans hlt hi) hp
      rw [hnm.state, hqp.state]
      exact hg.edge hn (hnm.incoming ▸ hin) hq
    · exact hedge (Nat.not_lt.1 hi) hm hin hp

/-- **Labels hold along every path.** -/
theorem along (hg : g.Labelled R E) {t : Path S A} (ht : g.IsPath t) :
    R t.trace.start ∧ Along E t.trace.start t.trace.steps := by
  obtain ⟨n, hn, hstate, hin⟩ := ht.root
  have hroot := hg.root hn hin
  rw [hstate] at hroot
  refine ⟨hroot, ?_⟩
  have hdesc := ht.descends
  show Along E t.start.state (t.steps.map fun step ↦ (step.1, step.2.state))
  clear hin ht hroot
  generalize t.start = u at hn hstate hdesc
  generalize t.steps = steps at hdesc
  induction hdesc generalizing n with
  | nil => exact .nil
  | cons hm hmstate hmin _ ih =>
    refine .cons ?_ (ih _ hm hmstate)
    rw [← hstate, ← hmstate]
    exact hg.edge hm hmin hn

/-- What holds of roots, and passes from parents to children, holds of every node. -/
theorem forall_state {Q : S → Prop} (hg : g.Labelled R E) (hfor : g.Forest)
    (hroot : ∀ {st}, R st → Q st) (hedge : ∀ {st a st'}, E st a st' → Q st → Q st') {i : NodeId}
    {n : Node S A} (hn : g.node? i = some n) : Q n.state := by
  induction i using Nat.strong_induction_on generalizing n with
  | _ i ih =>
    cases hin : n.incoming with
    | none => exact hroot (hg.root hn hin)
    | some e =>
      obtain ⟨hlt, p, hp, -⟩ := hfor.parent hn hin
      exact hedge (hg.edge hn hin hp) (ih e.parent hlt hp)

/-- Inner nodes are no targets, since a target has no children. -/
theorem inner {M : Model S A P} (hg : g.Labelled R E) (hdisc : M.Disciplined g) :
    g.Labelled R fun st a st' ↦ E st a st' ∧ M.isTarget st = false where
  root := hg.root
  edge {i n e p} hn hin hp := by
    refine ⟨hg.edge hn hin hp, eq_false_of_ne_true fun htarget ↦ ?_⟩
    have hchild : i ∈ p.children :=
      (hdisc.wellFormed.forest.mem_children hp).2 ⟨n, hn, by rw [Node.parent?, hin]; rfl⟩
    have hsane := hdisc.sane hp
    rw [(hsane.idle (hsane.target_eq.trans htarget)).2.2] at hchild
    exact List.not_mem_nil hchild

/-! ### What keeps the labels -/

variable [DecidableEq S] [DecidableEq A] [Described S] {x : Explorer S A P} {prec : P}
  {s t : Session S A}

/-- **Explorations keep the labels** that initial states and successors have. -/
theorem grows (hs : s.graph.Labelled R E) (hwf : s.graph.WellFormed)
    (hroot : ∀ {states}, x.model.initial prec = .ok states → ∀ st ∈ states, R st)
    (hedge : ∀ {st succ a u}, x.successorsOf st prec = .ok succ → x.Kept succ a u → E st a u)
    (hstep : x.Grows prec s t) : t.graph.Labelled R E := by
  have hext := hstep.extends
  refine hs.of_extends hext (hstep.wellFormed hwf).forest (fun {i m} hi hm hin ↦ ?_)
    fun {i m e p} hi hm hin hp ↦ ?_
  · cases hstep.leaves hm with
    | root _ hinit hst hm => exact hm ▸ hroot hinit _ hst
    | child _ _ _ _ hm =>
      rw [hm] at hin
      cases hin
    | kept hn | expanded hn | covered hn => exact absurd (lt_created hn) (Nat.not_lt.2 hi)
  · cases hstep.leaves hm with
    | root _ _ _ hm =>
      rw [hm] at hin
      cases hin
    | child _ hn hsucc hkept hm =>
      subst hm
      obtain rfl := Option.some.inj hin
      -- the parent has the state that the child was computed from
      obtain ⟨k, hk, hnk⟩ := hext.node? hn
      obtain rfl := Option.some.inj (hp.symm.trans hk)
      rw [hnk.state]
      exact hedge hsucc hkept
    | kept hn | expanded hn | covered hn => exact absurd (lt_created hn) (Nat.not_lt.2 hi)

theorem of_grows (hs : s.graph.Labelled R E) (hwf : s.graph.WellFormed)
    (hroot : ∀ {states}, x.model.initial prec = .ok states → ∀ st ∈ states, R st)
    (hedge : ∀ {st succ a u}, x.successorsOf st prec = .ok succ → x.Kept succ a u → E st a u)
    (hst : Relation.ReflTransGen (x.Grows prec) s t) :
    t.graph.Labelled R E := by
  induction hst with
  | refl => exact hs
  | tail hst hstep ih => exact ih.grows (Explorer.wellFormed_of_grows hst hwf) hroot hedge hstep

end Labelled

end Graph

namespace Checker

variable {W Q : Type} [DecidableEq S] [DecidableEq A] [DecidableEq P] [Described S] [Precision P]
  [Described P] {x : Explorer S A P} {refuter : Refuter S A P W Q} {scope : Scope}
  {pruning : Pruning} {turns : Nat} {o : LoopOptions} {clock : Clock}
  {R : S → Prop} {E : S → A → S → Prop}

/-- **Labels hold throughout a run**, if they hold of initial states and successors at every
precision. -/
theorem Reaches.labelled
    (hroot : ∀ {p states}, x.model.initial p = .ok states → ∀ st ∈ states, R st)
    (hedge : ∀ {p st succ a u}, x.successorsOf st p = .ok succ → x.Kept succ a u → E st a u)
    {prec : P} {s₀ s : Session S A} {r : Round P}
    (h : (ofSession x refuter scope pruning turns).Reaches o clock prec s₀ r s) :
    x.model.Disciplined s.graph ∧ s.graph.Labelled R E := by
  refine h.keeps (I := fun _ g ↦ x.model.Disciplined g ∧ g.Labelled R E) ⟨.empty, .empty⟩
    (fun hg ↦ hg.1.wellFormed) (fun hs hstep ↦ ?_) (fun hs hstep ↦ ?_) fun _ hs ↦ hs
  · exact ⟨hs.1.grows hstep, hs.2.grows hs.1.wellFormed hroot hedge hstep⟩
  · have hshrinks := hstep.shrinks hs.1.wellFormed
    exact ⟨hs.1.shrinks hshrinks (hstep.wellFormed hs.1.wellFormed), hs.2.shrinks hshrinks⟩

/-- **What a report of a violation rests on**: a path to a counterexample of the graph reported,
whose trace the refuter found feasible. -/
theorem exists_path_of_violated
    (hroot : ∀ {p states}, x.model.initial p = .ok states → ∀ st ∈ states, R st)
    (hedge : ∀ {p st succ a u}, x.successorsOf st p = .ok succ → x.Kept succ a u → E st a u)
    {prec : P} {s₀ : Session S A} {report : Report S A P W} {path : Path S A} {witness : W}
    (h : ((ofSession x refuter scope pruning turns).run o clock turns prec s₀).1 =
      some (.ok report)) (hviolated : report.conclusion = .violated path witness) :
    x.model.Disciplined report.graph ∧ report.graph.Labelled R E ∧ report.graph.IsPath path ∧
      (∃ n, report.graph.node? path.target = some n ∧ n.isCounterexample = true) ∧
      refuter.check path.trace = .ok (.feasible witness) := by
  obtain ⟨f, -, hf⟩ | ⟨r, s, hreach, hround⟩ := exists_rounds_of_run _ h
  · cases hf
  · obtain ⟨t, hgraph, hexplore, hrefine⟩ := hround.refine_of_violated hviolated
    obtain ⟨hdisc, hlabel⟩ := hreach.labelled hroot hedge
    have hgrows : Relation.ReflTransGen (x.Grows r.prec) s t :=
      (Explorer.does_explore hdisc.wellFormed).change_of_eq hexplore
    have hlabel := hlabel.of_grows hdisc.wellFormed hroot hedge hgrows
    have hdisc := hdisc.of_grows hgrows
    obtain ⟨rfl, id, hid, hpath, hcheck⟩ := Refuter.does_run.value_of_eq hrefine
    obtain ⟨hispath, rfl⟩ := Graph.isPath_of_pathTo hpath
    rw [hgraph]
    have hcex := (Graph.mem_counterexamples hdisc.wellFormed.indexed).1 hid
    exact ⟨hdisc, hlabel, hispath, hcex, hcheck⟩

end Checker

end AbstractionRefinement
