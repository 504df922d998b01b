import AbstractionRefinement.Proofs.Digraph.Decision

/-!
# Resuming an exploration of a digraph

If a refinement prunes only the subtree at the cut of a refuted trace, the next exploration resumes
on a graph whose states belong to several precisions. A summary that was made before a vertex was
tracked still stands for it, and to refute it once more tracks nothing new.

As long as some target is not tracked (`Digraph.Hides`), every summary is a target and has no
children. Then the edges of a trace fit together, and it can only go wrong at its end
(`Digraph.mismatch_of_infeasible`): it is cut there, and the vertices tracked are those that its
last state stands for. No summary gets old if each refinement examines every counterexample, because
then no summary is left; nor if explorations stop at the first counterexample, because then all
summaries are siblings, and each of them stands for a vertex of its own (`Digraph.Apart`). So every
refinement tracks a new vertex, and runs come to a verdict (`Digraph.resumes_progresses`).
-/

namespace AbstractionRefinement

open Work

namespace Digraph

variable {g : Digraph} {p q : Tracked} {v : Nat} {st st' : Spot} {e : Link}
  {o : ExplorationOptions} {meter : Meter} {scope : Scope} {s t u : Session Spot Link}
  {fp : List Link → Fingerprint} {h : Graph Spot Link} {i id : NodeId} {n : Node Spot Link}

/-! ### Standing for a vertex -/

/-- How a state stands for a vertex at a precision, if it was made at this precision or at one that
tracked less. -/
inductive Stands (p : Tracked) (v : Nat) : Spot → Prop
  /-- A tracked vertex is known. -/
  | known (hv : v ∈ p.vertices) : Stands p v (.known v)
  /-- Another one is in a summary that excludes tracked vertices only. -/
  | other {excluded : IndexSet} (hv : v ∉ p.vertices) (hle : ∀ w ∈ excluded, w ∈ p.vertices) :
    Stands p v (.other excluded)

/-- Some target is not tracked, so every summary may be at it. -/
def Hides (g : Digraph) (p : Tracked) : Prop := ∃ v ∈ g.targets, v ∉ p.vertices

theorem Hides.isTarget_other (hp : g.Hides p) {excluded : IndexSet}
    (hle : ∀ w ∈ excluded, w ∈ p.vertices) : g.model.isTarget (.other excluded) = true := by
  obtain ⟨w, hw, hout⟩ := hp
  exact List.any_eq_true.2 ⟨w, hw, decide_eq_true fun hmem ↦ hout (hle w hmem)⟩

theorem stands_spotOf : Stands p v (p.spotOf v) := by
  rw [Tracked.spotOf]
  split
  · exact .known ‹_›
  · exact .other ‹_› fun _ hw ↦ hw

namespace Stands

/-- Unless the vertex gets tracked, the state goes on standing for it. -/
theorem mono (hst : Stands p v st) (hpq : ∀ w ∈ p.vertices, w ∈ q.vertices)
    (hv : v ∈ q.vertices → v ∈ p.vertices) : Stands q v st := by
  cases hst with
  | known hp => exact .known (hpq v hp)
  | other hp hle => exact .other (fun hq ↦ hp (hv hq)) fun w hw ↦ hpq w (hle w hw)

/-- While a target is hidden, a state that is no target is known. -/
theorem eq_known (hst : Stands p v st) (hp : g.Hides p) (htarget : g.model.isTarget st = false) :
    v ∈ p.vertices ∧ st = .known v := by
  cases hst with
  | known hv => exact ⟨hv, rfl⟩
  | other hv hle => cases htarget.symm.trans (hp.isTarget_other hle)

theorem eq_other (hst : Stands p v st) (hp : v ∉ p.vertices) :
    ∃ excluded, st = .other excluded := by
  cases hst with
  | known hv => exact absurd hv hp
  | other => exact ⟨_, rfl⟩

/-- A target state stands for a target, or for a vertex that is not tracked. -/
theorem not_mem_of_isTarget (hst : Stands p v st) (htarget : g.model.isTarget st = true)
    (hv : v ∉ g.targets) : v ∉ p.vertices := by
  cases hst with
  | known hp =>
    obtain ⟨w, hw, hcovers⟩ := List.any_eq_true.1 htarget
    obtain rfl : v = w := of_decide_eq_true hcovers
    exact absurd hw hv
  | other hp hle => exact hp

end Stands

/-- How an abstract state follows another along an edge at a precision, if it was made at this
precision or at one that tracked less. -/
structure Heads (g : Digraph) (p : Tracked) (st : Spot) (e : Link) (st' : Spot) : Prop where
  /-- The first may be where the edge begins. -/
  covers : st.covers e.source = true
  /-- The edge is one of the graph. -/
  edge : g.hasEdge e.source e.target = true
  /-- The second stands for where the edge ends. -/
  stands : Stands p e.target st'

theorem Follows.heads (hst : g.Follows p st e st') : g.Heads p st e st' :=
  ⟨hst.covers, hst.edge, hst.eq_spotOf ▸ stands_spotOf⟩

/-! ### Traces that go wrong at their end -/

/-- The vertices to track if a trace goes wrong at its end: the one where its last edge ends, or the
initial vertices that a lone state stands for. -/
def dues (g : Digraph) (last : Option Link) (st : Spot) : IndexSet :=
  match last with
  | some e => .ofList [e.target]
  | none => (g.concretize st).filter (· ∈ g.init)

/-- What a state stands for that is reached by this edge, or by none if it is a root. -/
def Arrives (g : Digraph) (last : Option Link) (v : Nat) : Prop :=
  match last with
  | some e => e.target = v ∧ g.hasEdge e.source e.target = true
  | none => v ∈ g.init

theorem mem_dues (hg : g.InRange) {last : Option Link} (hv : g.Arrives last v)
    (hst : Stands p v st) : v ∈ g.dues last st ∧ v < g.order := by
  cases last with
  | some e =>
    obtain ⟨rfl, hedge⟩ := hv
    exact ⟨IndexSet.mem_ofList.2 (List.mem_singleton.2 rfl), (hg.edge hedge).2⟩
  | none =>
    have hlt := hg.init v hv
    refine ⟨IndexSet.mem_filter.2 ⟨(g.mem_concretize).2 ?_, decide_eq_true hv⟩, hlt⟩
    cases hst with
    | known hp => exact decide_eq_true rfl
    | other hp hle =>
      exact Bool.and_eq_true_iff.2
        ⟨decide_eq_true hlt, decide_eq_true fun hmem ↦ hp (hle v hmem)⟩

/-- While a target is hidden, the edges of a trace fit together. -/
theorem firstBreak_eq_none (hp : g.Hides p) {k : Nat} {steps : List (Link × Spot)}
    (hst : Stands p e.target st)
    (halong : Along (fun st e st' ↦ g.Heads p st e st' ∧ g.model.isTarget st = false) st steps) :
    firstBreak k e (steps.map Prod.fst) = none := by
  induction halong generalizing k e with
  | nil => rfl
  | cons hstep _ ih =>
    obtain ⟨hheads, hinner⟩ := hstep
    obtain ⟨-, rfl⟩ := hst.eq_known hp hinner
    rw [List.map_cons, firstBreak, if_pos (of_decide_eq_true hheads.covers)]
    exact ih hheads.stands

/-- **While a target is hidden, a trace goes wrong at its end**, at vertices that are no targets. -/
theorem mismatch_of_infeasible (hp : g.Hides p) {t : Trace Spot Link} {m : Mismatch}
    (hstart : ∃ v ∈ g.init, Stands p v t.start)
    (halong : Along (fun st e st' ↦ g.Heads p st e st' ∧ g.model.isTarget st = false)
      t.start t.steps) (hcheck : g.checkTrace t = .infeasible m) :
    m = ⟨g.dues t.actions.getLast? t.last, t.length⟩ ∧ ∀ v ∈ m.track, v ∉ g.targets := by
  obtain ⟨v, hv, hst⟩ := hstart
  cases misses_of_infeasible hcheck with
  | lone hnone =>
    refine ⟨rfl, fun w hw ↦ ?_⟩
    obtain ⟨hmem, hinit⟩ := IndexSet.mem_filter.1 hw
    exact hnone w hmem (of_decide_eq_true hinit)
  | source hinit =>
    cases halong with
    | cons hstep _ =>
      -- the root is known, so the trace begins at an initial vertex
      obtain ⟨hheads, hinner⟩ := hstep
      obtain ⟨-, rfl⟩ := hst.eq_known hp hinner
      obtain rfl := of_decide_eq_true hheads.covers
      exact absurd hv hinit
  | gap hbreak =>
    cases halong with
    | cons hstep hrest => cases hbreak.symm.trans (firstBreak_eq_none hp hstep.1.stands hrest)
  | @target st st' e steps hgoal =>
    have hactions : (⟨st, (e, st') :: steps⟩ : Trace Spot Link).actions.getLast? =
        some ((steps.map Prod.fst).getLastD e) := by
      rw [Trace.actions, List.map_cons, List.getLast?_cons, List.getLastD_eq_getLast?]
    refine ⟨?_, fun w hw ↦ ?_⟩
    · rw [hactions, dues, Trace.length, List.length_cons]
    · obtain rfl := List.mem_singleton.1 (IndexSet.mem_ofList.1 hw)
      exact hgoal

/-! ### Graphs while a target is hidden -/

/-- The graph is sound, a target is hidden, and every state stands for where its path leads. -/
structure Abides (g : Digraph) (p : Tracked) (h : Graph Spot Link) : Prop where
  /-- The graph is sound. -/
  sound : g.model.Sound g.system (fun st v ↦ st.covers v = true) (fun _ ↦ True) h
  /-- A target is hidden. -/
  hides : g.Hides p
  /-- States stand for where their paths lead. -/
  labelled : h.Labelled (fun st ↦ ∃ v ∈ g.init, Stands p v st) (g.Heads p)

/-- A refuted counterexample is a summary that is cut off, and what it stands for gets tracked. -/
structure Dismisses (g : Digraph) (p : Tracked) (h : Graph Spot Link) (id : NodeId)
    (trace : Refuted Spot Link Tracked) (n : Node Spot Link) : Prop where
  /-- The counterexample. -/
  node : h.node? id = some n
  /-- It is a summary. -/
  summary : ∃ excluded, n.state = .other excluded
  /-- It is cut off. -/
  cut : Refuter.cutNode trace = id
  /-- What it stands for gets tracked, and nothing else. -/
  refined : ∀ v, v ∈ trace.refined.vertices ↔ v ∈ p.vertices ∨ v ∈ g.dues n.action? n.state
  /-- No target gets tracked. -/
  innocent : ∀ v ∈ g.dues n.action? n.state, v ∉ g.targets
  /-- A vertex gets tracked that was not. -/
  fresh : ∃ v ∈ g.dues n.action? n.state, v < g.order ∧ v ∉ p.vertices

theorem Dismisses.gains {trace : Refuted Spot Link Tracked} (hd : g.Dismisses p h id trace n) :
    g.Gains p trace.refined := by
  obtain ⟨v, hv, hlt, hp⟩ := hd.fresh
  exact ⟨fun w hw ↦ (hd.refined w).2 (.inl hw), v, (hd.refined v).2 (.inr hv), hlt, hp⟩

namespace Abides

/-- Every node of such a graph stands for a vertex that its last link arrives at. -/
theorem exists_stands (ha : g.Abides p h) (hn : h.node? i = some n) :
    ∃ v, g.Arrives n.action? v ∧ Stands p v n.state := by
  cases hin : n.incoming with
  | none =>
    obtain ⟨v, hv, hst⟩ := ha.labelled.root hn hin
    rw [Node.action?, hin]
    exact ⟨v, hv, hst⟩
  | some e =>
    obtain ⟨-, k, hk, -⟩ := ha.sound.disciplined.wellFormed.forest.parent hn hin
    obtain ⟨-, hedge, hst⟩ := ha.labelled.edge hn hin hk
    rw [Node.action?, hin]
    exact ⟨e.action.target, ⟨rfl, hedge⟩, hst⟩

/-- Every summary is a counterexample. -/
theorem isCounterexample (ha : g.Abides p h) (hn : h.node? i = some n) {excluded : IndexSet}
    (hst : n.state = .other excluded) : n.isCounterexample = true := by
  obtain ⟨v, -, hstands⟩ := ha.exists_stands hn
  have hsane := ha.sound.disciplined.sane hn
  have htarget : n.target = true := by
    rw [hsane.target_eq]
    rw [hst] at hstands ⊢
    cases hstands with
    | other _ hle => exact ha.hides.isTarget_other hle
  rw [Node.isCounterexample, Node.isCovered, (hsane.idle htarget).1, htarget]
  rfl

/-- A node for vertices that are not tracked is a counterexample. -/
theorem mem_counterexamples (ha : g.Abides p h) (hn : h.node? i = some n) {excluded : IndexSet}
    (hst : n.state = .other excluded) : i ∈ h.counterexamples :=
  (Graph.mem_counterexamples ha.sound.disciplined.wellFormed.indexed).2
    ⟨n, hn, ha.isCounterexample hn hst⟩

/-- **Refuting a counterexample dismisses it.** -/
theorem exists_dismisses (ha : g.Abides p h) (hg : g.InRange) (hid : id ∈ h.counterexamples)
    {trace : Refuted Spot Link Tracked} (hrefutes : (g.refuter fp).Refutes h p id trace) :
    ∃ n, g.Dismisses p h id trace n := by
  have hdisc := ha.sound.disciplined
  obtain ⟨hpath, m, hcheck, hcut, hrefine⟩ := hrefutes
  obtain ⟨hispath, rfl, n, hn, hstate, htarget⟩ := hdisc.exists_target_of_pathTo hid hpath
  obtain ⟨hstart, halong⟩ := (ha.labelled.inner hdisc).along hispath
  obtain ⟨hm, hinnocent⟩ :=
    mismatch_of_infeasible ha.hides hstart halong (Except.ok.inj hcheck)
  have hrefined : trackMismatch p m = trace.refined := Except.ok.inj hrefine
  rw [Path.trace, Trace.actions_mapStates, ← hispath.action?_target hn, ← Path.trace,
    ← hstate] at hm
  subst hm
  obtain ⟨v, harrives, hstands⟩ := ha.exists_stands hn
  obtain ⟨hdue, hlt⟩ := mem_dues hg harrives hstands
  have hfresh := hstands.not_mem_of_isTarget htarget (hinnocent v hdue)
  refine ⟨n, hn, hstands.eq_other hfresh, Refuter.cutNode_of_cut_eq ?_, fun w ↦ ?_, hinnocent, v,
    hdue, hlt, hfresh⟩
  · rw [hcut]
    show (trace.path.mapStates Visit.state).length = _
    rw [Trace.mapStates, Trace.length, List.length_map, Trace.length]
  · rw [← hrefined]
    exact IndexSet.mem_union

/-- Explorations keep this. -/
theorem of_grows (ha : g.Abides p s.graph)
    (hst : Relation.ReflTransGen ((g.explorer o meter).Grows p) s t) : g.Abides p t.graph where
  sound := Model.Sound.of_grows (x := g.explorer o meter) ha.sound (approximates_model.simulates p)
    hst
  hides := ha.hides
  labelled := by
    refine ha.labelled.of_grows ha.sound.disciplined.wellFormed (fun hinit st hst ↦ ?_)
      (fun hsucc hkept ↦ (follows_of_kept hsucc hkept).heads) hst
    obtain rfl := Except.ok.inj hinit
    obtain ⟨v, hv, rfl⟩ := mem_initialSpots.1 hst
    exact ⟨v, hv, stands_spotOf⟩

end Abides

/-! ### Summaries that stand apart -/

/-- Each summary stands for a vertex of its own. -/
structure Apart (g : Digraph) (p : Tracked) (h : Graph Spot Link) : Prop where
  /-- Two summaries are reached by edges that end at different vertices. -/
  differ : ∀ {i j n m excluded excluded'}, h.node? i = some n → h.node? j = some m →
    n.state = .other excluded → m.state = .other excluded' → i ≠ j →
    ∃ e f, n.action? = some e ∧ m.action? = some f ∧ e.target ≠ f.target
  /-- Once a summary is reached by an edge, all initial vertices are tracked. -/
  tracked : ∀ {i n e excluded}, h.node? i = some n → n.state = .other excluded →
    n.action? = some e → ∀ v ∈ g.init, v ∈ p.vertices

/-- At most one root is a summary. -/
def Lone (h : Graph Spot Link) : Prop :=
  ∀ i j n m excluded excluded', h.node? i = some n → h.node? j = some m → n.incoming = none →
    m.incoming = none → n.state = .other excluded → m.state = .other excluded' → i = j

theorem Apart.lone (ha : g.Apart p h) : Lone h := by
  intro i j n m excluded excluded' hn hm hnin hmin hnst hmst
  by_contra hne
  obtain ⟨e, -, he, -⟩ := ha.differ hn hm hnst hmst hne
  rw [Node.action?, hnin] at he
  cases he

/-- A summary made by an exploration excludes what is tracked. -/
theorem eq_of_new_summary (hg : g.InRange)
    (hst : Relation.ReflTransGen ((g.explorer o meter).Grows p) s t) (hi : s.graph.created ≤ i)
    (hn : t.graph.node? i = some n) {excluded : IndexSet} (hstate : n.state = .other excluded) :
    excluded = p.vertices := by
  have hmade : g.model.MadeSince (g.spots p) s.graph.created t.graph :=
    Model.MadeSince.of_grows (x := g.explorer o meter) .created (confined_model hg) hst
  obtain ⟨v, -, hspot⟩ := Finset.mem_image.1 (hmade hi hn).mem
  exact Tracked.eq_of_spotOf_eq_other (hspot.trans hstate)

/-- A summary that is a root stands for all initial vertices that are not tracked, so there is no
second one. -/
theorem Abides.lone_of_grows (ha : g.Abides p s.graph) (hg : g.InRange) (hlone : Lone s.graph)
    (hst : Relation.ReflTransGen ((g.explorer o meter).Grows p) s t) : Lone t.graph := by
  induction hst with
  | refl => exact hlone
  | @tail u t hsu hstep ih =>
    have hu := ha.of_grows hsu
    -- next to a root that is a summary no such root is made
    have hnew : ∀ {i j n m excluded excluded'}, u.graph.created ≤ i → t.graph.node? i = some n →
        n.incoming = none → n.state = .other excluded → u.graph.node? j = some m →
        m.incoming = none → m.state = .other excluded' → False := by
      intro i j n m excluded excluded' hi hn hnin hnst hm hmin hmst
      have hsub := hstep.not_subsumed hi hn hnin
      obtain rfl := eq_of_new_summary hg (.single hstep) hi hn hnst
      obtain ⟨v, -, hstands⟩ := hu.exists_stands hm
      have hroot := hu.sound.disciplined.wellFormed.indexed.mem_roots.2 ⟨m, hm, hmin⟩
      have hleq := Explorer.not_leq_of_not_subsumed hsub hroot hm
      rw [hnst, hmst] at hleq
      rw [hmst] at hstands
      cases hstands with
      | other _ hle => exact absurd (IndexSet.isSubset_iff.2 hle) (ne_true_of_eq_false hleq)
    intro i j n m excluded excluded' hn hm hnin hmin hnst hmst
    rcases Nat.lt_or_ge i u.graph.created with hi | hi
    · obtain ⟨k, hk, hkn⟩ := hstep.extends.exists_node? hi hn
      rcases Nat.lt_or_ge j u.graph.created with hj | hj
      · obtain ⟨l, hl, hlm⟩ := hstep.extends.exists_node? hj hm
        exact ih i j k l _ _ hk hl (hkn.incoming ▸ hnin) (hlm.incoming ▸ hmin) (hkn.state ▸ hnst)
          (hlm.state ▸ hmst)
      · exact (hnew hj hm hmin hmst hk (hkn.incoming ▸ hnin) (hkn.state ▸ hnst)).elim
    · rcases Nat.lt_or_ge j u.graph.created with hj | hj
      · obtain ⟨l, hl, hlm⟩ := hstep.extends.exists_node? hj hm
        exact (hnew hi hn hnin hnst hl (hlm.incoming ▸ hmin) (hlm.state ▸ hmst)).elim
      · rw [hstep.eq_created hi hn, hstep.eq_created hj hm]

/-- If summaries are old or roots, they are still apart: a new one stands for an initial vertex that
is not tracked, so it is the only one. -/
theorem Abides.apart_of_old (ht : g.Abides p t.graph) (hext : s.graph.Extends t.graph)
    (hlone : Lone t.graph) (hapart : g.Apart p s.graph)
    (hold : ∀ i n, t.graph.node? i = some n → n.isCounterexample = true →
      i < s.graph.created ∨ n.incoming = none) : g.Apart p t.graph := by
  have hback : ∀ {i n excluded}, i < s.graph.created → t.graph.node? i = some n →
      n.state = .other excluded → ∃ k, s.graph.node? i = some k ∧ k.state = .other excluded ∧
        k.action? = n.action? := by
    intro i n excluded hi hn hst
    obtain ⟨k, hk, hkn⟩ := hext.exists_node? hi hn
    refine ⟨k, hk, hkn.state ▸ hst, ?_⟩
    rw [Node.action?, Node.action?, hkn.incoming]
  have hsingle : ∀ {i j n m excluded excluded'}, s.graph.created ≤ i → t.graph.node? i = some n →
      t.graph.node? j = some m → n.state = .other excluded → m.state = .other excluded' →
      i = j := by
    intro i j n m excluded excluded' hi hn hm hnst hmst
    have hroot := (hold i n hn (ht.isCounterexample hn hnst)).resolve_left (Nat.not_lt.2 hi)
    cases hmin : m.incoming with
    | none => exact hlone i j n m _ _ hn hm hroot hmin hnst hmst
    | some e =>
      have hj := (hold j m hm (ht.isCounterexample hm hmst)).resolve_right fun hnone ↦ by
        cases hnone.symm.trans hmin
      obtain ⟨k, hk, hkst, hkact⟩ := hback hj hm hmst
      have hact : m.action? = some e.action := by rw [Node.action?, hmin]; rfl
      obtain ⟨v, hv, hstands⟩ := ht.labelled.root hn hroot
      rw [hnst] at hstands
      cases hstands with
      | other hp _ => exact absurd (hapart.tracked hk hkst (hkact.trans hact) v hv) hp
  refine ⟨fun {i j n m _ _} hn hm hnst hmst hne ↦ ?_, fun {i n e _} hn hst hact ↦ ?_⟩
  · rcases Nat.lt_or_ge i s.graph.created with hi | hi
    · rcases Nat.lt_or_ge j s.graph.created with hj | hj
      · obtain ⟨k, hk, hkst, hkact⟩ := hback hi hn hnst
        obtain ⟨l, hl, hlst, hlact⟩ := hback hj hm hmst
        rw [← hkact, ← hlact]
        exact hapart.differ hk hl hkst hlst hne
      · exact absurd (hsingle hj hm hn hmst hnst).symm hne
    · exact absurd (hsingle hi hn hm hnst hmst) hne
  · rcases hold i n hn (ht.isCounterexample hn hst) with hi | hroot
    · obtain ⟨k, hk, hkst, hkact⟩ := hback hi hn hst
      exact hapart.tracked hk hkst (hkact.trans hact)
    · rw [Node.action?, hroot] at hact
      cases hact

/-- If summaries are children of one node and made together, they are apart: the node is known, so
their edges begin at the same vertex. -/
theorem Abides.apart_of_siblings (ha : g.Abides p h) (hinit : h.initialized = true) (id : NodeId)
    (hlink : ∀ {i n excluded}, h.node? i = some n → n.state = .other excluded →
      excluded = p.vertices ∧ ∃ e, n.incoming = some ⟨id, e⟩) : g.Apart p h := by
  have hdisc := ha.sound.disciplined
  have hwf := hdisc.wellFormed
  refine ⟨fun {i j n m _ _} hn hm hnst hmst hne ↦ ?_, fun {i n e _} hn hst _ v hv ↦ ?_⟩
  · obtain ⟨rfl, e, hnin⟩ := hlink hn hnst
    obtain ⟨rfl, f, hmin⟩ := hlink hm hmst
    refine ⟨e, f, by rw [Node.action?, hnin]; rfl, by rw [Node.action?, hmin]; rfl, fun heq ↦ ?_⟩
    obtain ⟨-, k, hk, -⟩ := hwf.forest.parent hn hnin
    obtain ⟨hheads, hinner⟩ := (ha.labelled.inner hdisc).edge hn hnin hk
    obtain ⟨w, -, hstands⟩ := ha.exists_stands hk
    obtain ⟨-, hkst⟩ := hstands.eq_known ha.hides hinner
    have hsource : ∀ {l k' a}, h.node? l = some k' → k'.incoming = some ⟨id, a⟩ → w = a.source := by
      intro l k' a hl hlin
      have hcovers := (ha.labelled.edge hl hlin hk).covers
      rw [hkst] at hcovers
      exact of_decide_eq_true hcovers
    obtain rfl : e = f := by
      obtain ⟨a, b⟩ := e
      obtain ⟨c, d⟩ := f
      obtain rfl : a = c := (hsource hn hnin).symm.trans (hsource hm hmin)
      obtain rfl : b = d := heq
      rfl
    have hchild : ∀ {l k'}, h.node? l = some k' → k'.incoming = some ⟨id, e⟩ →
        l ∈ k.children := fun hl hlin ↦
      (hwf.forest.mem_children hk).2 ⟨_, hl, by rw [Node.parent?, hlin]; rfl⟩
    refine hne (hdisc.siblings hk (hchild hn hnin) (hchild hm hmin) hn hm ?_ (hnst.trans hmst.symm))
    rw [Node.action?, Node.action?, hnin, hmin]
  · -- every initial vertex has its root, and no root is a summary
    obtain ⟨r, hr, m, hm, hcovers⟩ := ha.sound.initialized hinit hv
    obtain ⟨m', hm', hroot⟩ := hwf.indexed.mem_roots.1 hr
    obtain rfl := Option.some.inj (hm.symm.trans hm')
    obtain ⟨w, -, hstands⟩ := ha.labelled.root hm hroot
    cases hmst : m.state with
    | known w' =>
      rw [hmst] at hstands hcovers
      cases hstands with
      | known hw =>
        obtain rfl : w = v := of_decide_eq_true hcovers
        exact hw
    | other excluded =>
      obtain ⟨-, e, hin⟩ := hlink hm hmst
      cases hroot.symm.trans hin

/-- **Explorations that are content with one counterexample keep summaries apart.** -/
theorem Abides.apart_of_explore (ha : g.Abides p s.graph) (hapart : g.Apart p s.graph)
    (hg : g.InRange) (hone : o.stop.reached 1 = true) {turns : Nat} {verdict : Verdict}
    (hexplore : (g.explorer o meter).explore turns none p s = (.ok (some verdict), t)) :
    g.Apart p t.graph := by
  have hwf := ha.sound.disciplined.wellFormed
  have hdoes : Does ((g.explorer o meter).Grows p) ((g.explorer o meter).Stops p none)
      ((g.explorer o meter).explore turns none p) s _ := Explorer.does_explore hwf
  have hgrows := hdoes.change_of_eq hexplore
  have ht := ha.of_grows hgrows
  rcases Explorer.gathers_of_explore hone hwf hexplore with hold | ⟨id, hnew⟩
  · have hlone := ha.lone_of_grows hg hapart.lone hgrows
    exact ht.apart_of_old (Explorer.extends_of_grows hgrows) hlone hapart hold
  · refine ht.apart_of_siblings (hdoes.value_of_eq hexplore _ rfl).initialized id
      fun {i n excluded} hn hst ↦ ?_
    obtain ⟨hi, hparent⟩ := hnew i n hn (ht.isCounterexample hn hst)
    obtain ⟨⟨_, e⟩, hin, rfl⟩ := Option.map_eq_some_iff.1 hparent
    exact ⟨eq_of_new_summary hg hgrows hi hn hst, e, hin⟩

/-! ### Refinements -/

/-- A combined precision tracks nothing but what is tracked in one of its parts. -/
theorem mem_of_mem_combine {precs : List Tracked} (hv : v ∈ (scope.combine p precs).vertices) :
    v ∈ p.vertices ∨ ∃ q ∈ precs, v ∈ q.vertices := by
  cases scope with
  | shortest =>
    cases precs with
    | nil => exact .inl hv
    | cons q precs => exact .inr ⟨q, List.mem_cons_self, hv⟩
  | every => exact mem_foldl_join.1 hv

/-- What an exploration resumes from. -/
structure Resumes (g : Digraph) (p : Tracked) (s : Session Spot Link) : Prop where
  /-- States stand for where their paths lead, and a target is hidden. -/
  abides : g.Abides p s.graph
  /-- Each summary stands for a vertex of its own. -/
  apart : g.Apart p s.graph

namespace Abides

variable {traces : List (Refuted Spot Link Tracked)}

/-- Refuting counterexamples gains a vertex. -/
theorem gains (ha : g.Abides p t.graph) (hg : g.InRange) (hne : traces ≠ [])
    (htraces : List.Forall₂ ((g.refuter fp).Refutes t.graph p)
      (scope.select t.graph.counterexamples) traces) :
    g.Gains p (scope.combine p (traces.map Refuted.refined)) := by
  refine gains_combine_refined hne htraces fun id hid trace hrefutes ↦ ?_
  obtain ⟨n, hd⟩ := ha.exists_dismisses hg hid hrefutes
  exact hd.gains

/-- A vertex that gets tracked is one that a dismissed counterexample stands for. -/
theorem exists_dismisses_of_mem (ha : g.Abides p t.graph) (hg : g.InRange)
    (htraces : List.Forall₂ ((g.refuter fp).Refutes t.graph p)
      (scope.select t.graph.counterexamples) traces)
    (hv : v ∈ (scope.combine p (traces.map Refuted.refined)).vertices) (hp : v ∉ p.vertices) :
    ∃ trace ∈ traces, ∃ id n, g.Dismisses p t.graph id trace n ∧ v ∈ g.dues n.action? n.state := by
  obtain ⟨q, hq, hvq⟩ := (mem_of_mem_combine hv).resolve_left hp
  obtain ⟨trace, htrace, rfl⟩ := List.mem_map.1 hq
  obtain ⟨id, hid, hrefutes⟩ := exists_of_forall₂_of_mem_right htraces htrace
  obtain ⟨n, hd⟩ := ha.exists_dismisses hg (Scope.mem_of_mem_select hid) hrefutes
  exact ⟨trace, htrace, id, n, hd, ((hd.refined v).1 hvq).resolve_left hp⟩

/-- A refinement does not track the hidden target. -/
theorem hides_combine (ha : g.Abides p t.graph) (hg : g.InRange)
    (htraces : List.Forall₂ ((g.refuter fp).Refutes t.graph p)
      (scope.select t.graph.counterexamples) traces) :
    g.Hides (scope.combine p (traces.map Refuted.refined)) := by
  obtain ⟨w, hw, hp⟩ := ha.hides
  refine ⟨w, hw, fun hmem ↦ ?_⟩
  obtain ⟨trace, -, id, m, hd, hdue⟩ := ha.exists_dismisses_of_mem hg htraces hmem hp
  exact hd.innocent w hdue hw

/-- A summary is left only if summaries were apart. -/
theorem apart_of_left (ha : g.Abides p t.graph) (hg : g.InRange)
    (hapart : scope = .every ∨ g.Apart p t.graph)
    (htraces : List.Forall₂ ((g.refuter fp).Refutes t.graph p)
      (scope.select t.graph.counterexamples) traces) {i : NodeId} {excluded : IndexSet}
    (hleft : ∀ trace ∈ traces, i ≠ Refuter.cutNode trace) (hn : t.graph.node? i = some n)
    (hst : n.state = .other excluded) : g.Apart p t.graph := by
  refine hapart.resolve_left ?_
  rintro rfl
  have hcex := ha.mem_counterexamples hn hst
  obtain ⟨trace, htrace, hrefutes⟩ := exists_of_forall₂_of_mem_left htraces hcex
  obtain ⟨m, hd⟩ := ha.exists_dismisses hg hcex hrefutes
  exact hleft trace htrace hd.cut.symm

/-- What is left goes on standing for where it was reached. -/
theorem stands_of_left (ha : g.Abides p t.graph) (hg : g.InRange)
    (hapart : scope = .every ∨ g.Apart p t.graph) (hne : traces ≠ [])
    (htraces : List.Forall₂ ((g.refuter fp).Refutes t.graph p)
      (scope.select t.graph.counterexamples) traces) {i : NodeId}
    (hleft : ∀ trace ∈ traces, i ≠ Refuter.cutNode trace) (hn : t.graph.node? i = some n)
    (hst : Stands p v n.state) (hv : ∀ e, n.action? = some e → e.target = v) :
    Stands (scope.combine p (traces.map Refuted.refined)) v n.state := by
  refine hst.mono (ha.gains hg hne htraces).kept fun hmem ↦ ?_
  by_contra hp
  obtain ⟨trace, htrace, id, m, hd, hdue⟩ := ha.exists_dismisses_of_mem hg htraces hmem hp
  obtain ⟨excluded, hmst⟩ := hd.summary
  obtain ⟨excluded', hnst⟩ := hst.eq_other hp
  have hid : i ≠ id := fun heq ↦ hleft trace htrace (heq.trans hd.cut.symm)
  -- another summary of the vertex would be reached along another edge
  obtain ⟨e, f, he, hf, hdiffer⟩ :=
    (ha.apart_of_left hg hapart htraces hleft hn hnst).differ hn hd.node hnst hmst hid
  rw [hf] at hdue
  refine hdiffer ((hv e he).trans ?_)
  exact List.mem_singleton.1 (IndexSet.mem_ofList.1 hdue)

/-- **What is left after a refinement can be resumed from**, if every counterexample was examined
or summaries were apart. -/
theorem resumes_of_cuts (ha : g.Abides p t.graph) (hg : g.InRange)
    (hapart : scope = .every ∨ g.Apart p t.graph) (hne : traces ≠ [])
    (htraces : List.Forall₂ ((g.refuter fp).Refutes t.graph p)
      (scope.select t.graph.counterexamples) traces)
    (hcuts : Relation.ReflTransGen Refuter.Cuts t u)
    (hgone : ∀ {i n}, u.graph.node? i = some n → ∀ trace ∈ traces, i ≠ Refuter.cutNode trace) :
    g.Resumes (scope.combine p (traces.map Refuted.refined)) u := by
  have hgains := ha.gains hg hne htraces
  have hwf := ha.sound.disciplined.wellFormed
  refine ⟨⟨ha.sound.of_cuts hcuts, ha.hides_combine hg htraces, ?_, ?_⟩, ?_, ?_⟩
  · intro i n hn hin
    obtain ⟨k, hk, hstate, hincoming⟩ := Refuter.exists_node?_of_cuts hcuts hwf hn
    obtain ⟨w, hw, hst⟩ := ha.labelled.root hk (hincoming ▸ hin)
    refine ⟨w, hw, hstate ▸ ha.stands_of_left hg hapart hne htraces (hgone hn) hk hst fun e he ↦ ?_⟩
    rw [Node.action?, ← hincoming, hin] at he
    cases he
  · intro i n e k hn hin hk
    obtain ⟨n', hn', hstate, hincoming⟩ := Refuter.exists_node?_of_cuts hcuts hwf hn
    obtain ⟨k', hk', hkstate, -⟩ := Refuter.exists_node?_of_cuts hcuts hwf hk
    obtain ⟨hcovers, hedge, hst⟩ := ha.labelled.edge hn' (hincoming ▸ hin) hk'
    rw [hstate, hkstate]
    refine ⟨hcovers, hedge,
      ha.stands_of_left hg hapart hne htraces (hgone hn) hn' hst fun f hf ↦ ?_⟩
    rw [Node.action?, ← hincoming, hin] at hf
    rw [← Option.some.inj hf]
  · intro i j n m _ _ hn hm hnst hmst hij
    obtain ⟨n', hn', hstate, hincoming⟩ := Refuter.exists_node?_of_cuts hcuts hwf hn
    obtain ⟨m', hm', hmstate, hmincoming⟩ := Refuter.exists_node?_of_cuts hcuts hwf hm
    rw [hstate] at hnst
    rw [hmstate] at hmst
    rw [Node.action?, Node.action?, hincoming, hmincoming]
    exact (ha.apart_of_left hg hapart htraces (hgone hn) hn' hnst).differ hn' hm' hnst hmst hij
  · intro i n e _ hn hst hact w hw
    obtain ⟨n', hn', hstate, hincoming⟩ := Refuter.exists_node?_of_cuts hcuts hwf hn
    rw [hstate] at hst
    rw [Node.action?, hincoming] at hact
    have hapart := ha.apart_of_left hg hapart htraces (hgone hn) hn' hst
    exact hgains.kept w (hapart.tracked hn' hst hact w hw)

end Abides

/-! ### Runs -/

/-- Explorations and refinements keep summaries from getting old: every counterexample is examined,
or explorations stop at the first. -/
def Prompt (scope : Scope) (o : ExplorationOptions) : Prop :=
  scope = .every ∨ o.stop.reached 1 = true

/-- **Runs progress while a target is hidden**, by the number of untracked vertices. -/
theorem resumes_progresses (hg : g.InRange) (ho : o.Unlimited) (hprompt : Prompt scope o) :
    Checker.Progresses (g.explorer o meter) (g.refuter fp) scope .subtree g.Resumes
      (fun p ↦ (p.vertices.gaps g.order).card) where
  explore {p s} hs := Explorer.exists_verdict (x := g.explorer o meter) ho answers_model
    (confined_model hg) hs.abides.sound.disciplined.wellFormed
  refine {p s t turns} hs hexplore := by
    have hdoes : Does ((g.explorer o meter).Grows p) ((g.explorer o meter).Stops p none)
        ((g.explorer o meter).explore turns none p) s _ :=
      Explorer.does_explore hs.abides.sound.disciplined.wellFormed
    have ht := hs.abides.of_grows (hdoes.change_of_eq hexplore)
    have hcex := (hdoes.value_of_eq hexplore _ rfl).suspect
    have hrun : Does Refuter.Cuts (fun e _ ↦ (g.refuter fp).Fails scope p t e)
      ((g.refuter fp).run scope .subtree p) t _ := Refuter.does_run
    rcases hanswer : (g.refuter fp).run scope .subtree p t with ⟨e | ⟨refined⟩ | ⟨path, witness⟩, u⟩
    · obtain ⟨-, -, traces, hne, -, -, htraces, hprec⟩ :=
        diverges_of_fails ht.sound.disciplined hcex (hrun.stop_of_eq hanswer)
      exact absurd hprec (ht.gains hg hne htraces).ne
    · obtain ⟨traces, w, hne, hcuts, -, htraces, rfl, rfl⟩ := hrun.value_of_eq hanswer
      have hgains := ht.gains hg hne htraces
      refine .inr ⟨_, _, rfl, hgains.refines, hgains.card_gaps_lt, ?_⟩
      refine ht.resumes_of_cuts hg ?_ hne htraces (hrun.change_of_eq hanswer)
        fun hn trace htrace ↦ ?_
      · exact hprompt.imp_right fun hone ↦ hs.abides.apart_of_explore hs.apart hg hone hexplore
      · exact Refuter.ne_cutNode_of_pruneRefuted
          (Refuter.wellFormed_of_cuts hcuts ht.sound.disciplined.wellFormed) hn htrace
    · exact .inl ⟨path, witness, u, rfl⟩

/-- Runs progress if there is no target at all. -/
theorem untargeted_progresses (hg : g.InRange) (ho : o.Unlimited) (hnone : ∀ v, v ∉ g.targets)
    {pruning : Pruning} : Checker.Progresses (g.explorer o meter) (g.refuter fp) scope pruning
      (fun _ s ↦ g.model.Disciplined s.graph) (fun p ↦ (p.vertices.gaps g.order).card) where
  explore {p s} hs := Explorer.exists_verdict (x := g.explorer o meter) ho answers_model
    (confined_model hg) hs.wellFormed
  refine {p s t turns} hs hexplore := by
    have hdoes : Does ((g.explorer o meter).Grows p) ((g.explorer o meter).Stops p none)
        ((g.explorer o meter).explore turns none p) s _ := Explorer.does_explore hs.wellFormed
    have ht : g.model.Disciplined t.graph :=
      Model.Disciplined.of_grows (x := g.explorer o meter) hs (hdoes.change_of_eq hexplore)
    obtain ⟨id, hid⟩ := List.exists_mem_of_ne_nil _ (hdoes.value_of_eq hexplore _ rfl).suspect
    obtain ⟨n, hn, hcex⟩ := (Graph.mem_counterexamples ht.wellFormed.indexed).1 hid
    have htarget := (ht.sane hn).target_eq.symm.trans (Bool.and_eq_true_iff.1 hcex).1
    obtain ⟨v, hv, -⟩ := List.any_eq_true.1 htarget
    exact absurd hv (hnone v)

/-- What keeps every refinement from being in vain: there is no target, or one is hidden from the
beginning and summaries do not get old. -/
def Steady (g : Digraph) (scope : Scope) (initial : Tracked) (o : ExplorationOptions) : Prop :=
  (∀ v, v ∉ g.targets) ∨ g.Hides initial ∧ Prompt scope o

/-- **Steady runs progress.** -/
theorem Steady.exists_progresses (hsteady : g.Steady scope p o) (hg : g.InRange) (ho : o.Unlimited)
    (meter : Meter) : ∃ I, (∀ {q s}, I q s → g.model.Disciplined s.graph) ∧ I p {} ∧
      Checker.Progresses (g.explorer (scope.exploration o) meter) (g.refuter fp) scope .subtree I
        (fun p ↦ (p.vertices.gaps g.order).card) := by
  have ho : (scope.exploration o).Unlimited := unlimited_exploration ho
  rcases hsteady with hnone | ⟨hhides, hprompt⟩
  · exact ⟨_, fun hs ↦ hs, .empty, untargeted_progresses hg ho hnone⟩
  · have hprompt : Prompt scope (scope.exploration o) := by
      cases scope with
      | shortest => exact hprompt
      | every => exact .inl rfl
    refine ⟨_, fun hs ↦ hs.abides.sound.disciplined, ⟨⟨.empty, hhides, .empty⟩, ?_⟩,
      resumes_progresses hg ho hprompt⟩
    exact ⟨fun hn ↦ by simp at hn, fun hn ↦ by simp at hn⟩

/-- **A steady check without budgets comes to a verdict**, after at most one iteration more than
there are vertices. -/
theorem exists_decided_of_steady (hsteady : g.Steady scope p o) (hg : g.InRange) (ho : o.Unlimited)
    (meter : Meter) (clock : Clock) : ∃ N report, Checker.Decided report ∧
      report.statistics.iterations ≤ g.order + 1 ∧ ∀ turns, N ≤ turns →
        g.check { scope, pruning := .subtree, initial := p, exploration := o, fingerprint := fp }
          meter clock turns = some (.ok report) := by
  obtain ⟨I, -, hI, hprogresses⟩ := hsteady.exists_progresses hg ho meter
  have hI : I p { ({} : Session Spot Link) with graph := .empty } := hI
  obtain ⟨N, report, hdecided, hiterations, hrun⟩ := hprogresses.exists_run clock hI
  exact ⟨N, report, hdecided,
    Nat.le_trans hiterations (Nat.succ_le_succ IndexSet.card_gaps_le), hrun⟩

/-- An exploration of a digraph without budgets does not stop early. -/
theorem explore_ne_error (ho : o.Unlimited) (hs : s.graph.WellFormed) {turns : Nat} {e : Abort} :
    (g.explorer o meter).explore turns none p s ≠ (.error e, t) := fun h ↦
  Explorer.not_stops (x := g.explorer o meter) ho answers_model
    ((Explorer.does_explore hs).stop_of_eq h)

/-- A steady check that ends comes to a verdict, however many turns it was granted. -/
theorem decided_of_steady (hsteady : g.Steady scope p o) (hg : g.InRange) (ho : o.Unlimited)
    {clock : Clock} {turns : Nat} {e : Except Fault (Report Spot Link Tracked (List Nat))}
    (h : g.check { scope, pruning := .subtree, initial := p, exploration := o, fingerprint := fp }
      meter clock turns = some e) : ∃ report, e = .ok report ∧ Checker.Decided report := by
  obtain ⟨I, hdisc, hI, hprogresses⟩ := hsteady.exists_progresses hg ho meter
  exact hprogresses.decided_of_run
    (fun hs ↦ explore_ne_error (unlimited_exploration ho) (hdisc hs).wellFormed) hI h

end Digraph

end AbstractionRefinement
