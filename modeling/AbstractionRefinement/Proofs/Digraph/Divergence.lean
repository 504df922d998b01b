import AbstractionRefinement.Proofs.Digraph.Resumption

/-!
# Checks of a digraph that diverge

Without budgets a check that prunes subtrees can only fail by divergence: a trace is refuted again
and the precision does not change. A refuted trace is cut at a summary that stands for a vertex to
track (`Digraph.Layered.exists_severs`), and summaries made later exclude that vertex. So if the
same actions are refuted again, the summary at the new cut is an old one that was already there,
another one than the summary that was cut off: both were reached along the same actions
(`Graph.Twins`). Lazy pruning makes such twins: a node that lost one child is expanded again at a
finer precision, and along the action of a child that it kept it gets a second one.

What a check remembers can be traced back to the graphs that it examined
(`Digraph.recollects_of_reaches`). A check that fails has twins in one of them, unless the
fingerprints of two traces collide, and it is not steady (`Digraph.decided_or_confused_of_check`).
On a digraph with four vertices a check does fail (`Digraph.forked_diverges`).
-/

namespace AbstractionRefinement

open Work

/-- Two nodes that are reached along the same actions. -/
structure Graph.Twins {S A : Type} (g : Graph S A) (i j : NodeId) : Prop where
  /-- They are different. -/
  ne : i ≠ j
  /-- Their paths have the same actions. -/
  paths : ∃ t t', g.IsPath t ∧ t.target = i ∧ g.IsPath t' ∧ t'.target = j ∧ t.actions = t'.actions

namespace Digraph

variable {g : Digraph} {p q : Tracked} {v : Nat} {st st' : Spot} {e : Link}
  {o : DigraphOptions} {meter : Meter} {clock : Clock} {scope : Scope} {turns : Nat}
  {s t u : Session Spot Link} {h h' : Graph Spot Link} {id : NodeId}
  {trace : Refuted Spot Link Tracked} {fp : List Link → Fingerprint}

/-! ### States of several precisions -/

/-- A state that was made for a vertex at a precision or at one that tracked less. -/
inductive MadeFor (p : Tracked) (v : Nat) : Spot → Prop
  /-- The vertex was tracked. -/
  | known : MadeFor p v (.known v)
  /-- The vertex was not tracked. -/
  | other {excluded : IndexSet} (hv : v ∉ excluded) (hle : ∀ w ∈ excluded, w ∈ p.vertices) :
    MadeFor p v (.other excluded)

theorem madeFor_spotOf : MadeFor p v (p.spotOf v) := by
  rw [Tracked.spotOf]
  split
  · exact .known
  · exact .other ‹_› fun _ hw ↦ hw

theorem MadeFor.mono (hst : MadeFor p v st) (hpq : ∀ w ∈ p.vertices, w ∈ q.vertices) :
    MadeFor q v st := by
  cases hst with
  | known => exact .known
  | other hv hle => exact .other hv fun w hw ↦ hpq w (hle w hw)

theorem MadeFor.covers (hst : MadeFor p v st) : st.covers v = true := by
  cases hst with
  | known => exact decide_eq_true rfl
  | other hv => exact decide_eq_true hv

/-- How an abstract state follows another along an edge, at a precision or at one that tracked
less. -/
structure Leads (g : Digraph) (p : Tracked) (st : Spot) (e : Link) (st' : Spot) : Prop where
  /-- The first may be where the edge begins. -/
  covers : st.covers e.source = true
  /-- The edge is one of the graph. -/
  edge : g.hasEdge e.source e.target = true
  /-- The second was made for where the edge ends. -/
  madeFor : MadeFor p e.target st'

theorem Leads.joins (hst : g.Leads p st e st') : g.Joins st e st' :=
  ⟨hst.covers, hst.edge, hst.madeFor.covers⟩

/-- The graph is disciplined, and every state was made for where its path leads. -/
structure Layered (g : Digraph) (p : Tracked) (h : Graph Spot Link) : Prop where
  /-- The graph is disciplined. -/
  disciplined : g.model.Disciplined h
  /-- States were made for where their paths lead. -/
  labelled : h.Labelled (fun st ↦ ∃ v ∈ g.init, MadeFor p v st) (g.Leads p)

namespace Layered

/-- One step of an exploration keeps a graph layered. -/
theorem grows {o : ExplorationOptions} (hl : g.Layered p s.graph)
    (hstep : (g.explorer o meter).Grows p s t) : g.Layered p t.graph := by
  refine ⟨hl.disciplined.grows hstep, hl.labelled.grows hl.disciplined.wellFormed
    (fun hinit st hst ↦ ?_) (fun hsucc hkept ↦ ?_) hstep⟩
  · obtain rfl := Except.ok.inj hinit
    obtain ⟨v, hv, rfl⟩ := mem_initialSpots.1 hst
    exact ⟨v, hv, madeFor_spotOf⟩
  · obtain ⟨hcovers, hedge, rfl⟩ := follows_of_kept hsucc hkept
    exact ⟨hcovers, hedge, madeFor_spotOf⟩

/-- An exploration keeps a graph layered. -/
theorem of_grows {o : ExplorationOptions} (hl : g.Layered p s.graph)
    (hst : Relation.ReflTransGen ((g.explorer o meter).Grows p) s t) : g.Layered p t.graph := by
  induction hst with
  | refl => exact hl
  | tail _ hstep ih => exact ih.grows hstep

/-- Tracking more keeps this. -/
theorem mono (hl : g.Layered p h) (hpq : ∀ w ∈ p.vertices, w ∈ q.vertices) :
    g.Layered q h := by
  refine ⟨hl.disciplined, hl.labelled.imp (fun hst ↦ ?_) fun hst ↦
    ⟨hst.covers, hst.edge, hst.madeFor.mono hpq⟩⟩
  obtain ⟨v, hv, hst⟩ := hst
  exact ⟨v, hv, hst.mono hpq⟩

theorem exists_madeFor (hl : g.Layered p h) {n : Node Spot Link} (hn : h.node? id = some n) :
    ∃ v, MadeFor p v n.state := by
  cases hin : n.incoming with
  | none =>
    obtain ⟨v, -, hst⟩ := hl.labelled.root hn hin
    exact ⟨v, hst⟩
  | some e =>
    obtain ⟨-, k, hk, -⟩ := hl.disciplined.wellFormed.forest.parent hn hin
    exact ⟨_, (hl.labelled.edge hn hin hk).madeFor⟩

end Layered

/-! ### Where a refuted trace is cut -/

/-- How a refuted trace is cut: at a summary of a vertex to track. -/
structure Severs (g : Digraph) (p : Tracked) (h : Graph Spot Link)
    (trace : Refuted Spot Link Tracked) (m : Mismatch) (n : Node Spot Link) : Prop where
  /-- Where it goes wrong. -/
  check : g.checkTrace trace.path.trace = .infeasible m
  /-- The vertices get tracked. -/
  refined : trackMismatch p m = trace.refined
  /-- The beginning of the trace is a path to the cut. -/
  path : h.IsPath (trace.path.upTo m.index) ∧
    Path.target (trace.path.upTo m.index) = Refuter.cutNode trace
  /-- The node there. -/
  node : h.node? (Refuter.cutNode trace) = some n
  /-- It is a summary of a vertex to track. -/
  summary : ∃ excluded, n.state = .other excluded ∧ (∀ w ∈ excluded, w ∈ p.vertices) ∧
    ∃ v ∈ m.track, v ∉ excluded

/-- **Refuting a counterexample severs its trace.** -/
theorem Layered.exists_severs (hl : g.Layered p h) (hg : g.InRange) (hid : id ∈ h.counterexamples)
    (hrefutes : (g.refuter fp).Refutes h p id trace) : ∃ m n, g.Severs p h trace m n := by
  have hdisc := hl.disciplined
  obtain ⟨hpath, m, hcheck, hcut, hrefine⟩ := hrefutes
  obtain ⟨hispath, -, n, -, hstate, htarget⟩ := hdisc.exists_target_of_pathTo hid hpath
  obtain ⟨⟨v, hinit, hst⟩, halong⟩ := hl.labelled.along hispath
  obtain ⟨excluded, hget, hv⟩ := (misses_of_infeasible (Except.ok.inj hcheck)).exists_other hg
    ⟨v, hinit, hst.covers⟩ (halong.imp Leads.joins) (hstate ▸ htarget)
  rw [Path.trace, Trace.states_mapStates, List.getElem?_map] at hget
  obtain ⟨w, hw, hwst⟩ := Option.map_eq_some_iff.1 hget
  have hlast := Trace.last_upTo hw
  have hcutNode : Refuter.cutNode trace = w.node := Refuter.cutNode_eq (hcut ▸ hw)
  have htake := hispath.upTo m.index
  have htakeTarget : Path.target (trace.path.upTo m.index) = Refuter.cutNode trace := by
    rw [hcutNode, Path.target, hlast]
  obtain ⟨k, hk, hkstate⟩ := htake.exists_target
  rw [Path.trace, Trace.last_mapStates, hlast, hwst] at hkstate
  have hle : ∀ w ∈ excluded, w ∈ p.vertices := by
    obtain ⟨w, hst⟩ := hl.exists_madeFor hk
    rw [hkstate] at hst
    cases hst with
    | other _ hle => exact hle
  exact ⟨m, k, Except.ok.inj hcheck, Except.ok.inj hrefine, ⟨htake, htakeTarget⟩,
    htakeTarget ▸ hk, excluded, hkstate, hle, hv⟩

namespace Severs

variable {h₀ : Graph Spot Link} {p₀ : Tracked} {trace₀ : Refuted Spot Link Tracked}
  {m m₀ : Mismatch} {n n₀ : Node Spot Link}

/-- Where a trace goes wrong depends on its actions only, if there are any. -/
theorem mismatch_eq (hs₀ : g.Severs p₀ h₀ trace₀ m₀ n₀) (hs : g.Severs p h trace m n)
    (hactions : trace₀.path.actions = trace.path.actions) (hne : trace.path.actions ≠ []) :
    m₀ = m := by
  have hcheck₀ := hs₀.check
  have hcheck := hs.check
  rw [checkTrace, Path.trace, Trace.actions_mapStates] at hcheck₀ hcheck
  rw [hactions] at hcheck₀
  cases hact : trace.path.actions with
  | nil => exact absurd hact hne
  | cons first rest =>
    rw [hact] at hcheck₀ hcheck
    exact Feasibility.infeasible.inj (hcheck₀.symm.trans hcheck)

/-- A lone state is cut itself, and the initial vertices it stands for get tracked. -/
theorem track_eq (hs : g.Severs p h trace m n) (hactions : trace.path.actions = []) :
    m.track = (g.concretize n.state).filter (· ∈ g.init) := by
  obtain ⟨⟨w, steps⟩, cut, refined⟩ := trace
  obtain rfl : steps = [] := List.map_eq_nil_iff.1 hactions
  have hcheck : g.checkTrace ⟨w.state, []⟩ = .infeasible m := hs.check
  obtain ⟨⟨⟨k, hk, hkstate, -⟩, -⟩, htarget⟩ := hs.path
  rw [Trace.upTo, List.take_nil] at htarget
  replace htarget : w.node = _ := htarget
  obtain rfl := Option.some.inj (hk.symm.trans (htarget ▸ hs.node))
  rw [hkstate]
  cases misses_of_infeasible hcheck with
  | lone => rfl

/-- Two refuted traces with the same actions ask to track the same. -/
theorem mem_refined (hs₀ : g.Severs p₀ h₀ trace₀ m₀ n₀) (hs : g.Severs p h trace m n)
    (hactions : trace₀.path.actions = trace.path.actions) {v : Nat} (hv : v ∈ m.track) :
    v ∈ trace₀.refined.vertices := by
  rw [← hs₀.refined]
  refine IndexSet.mem_union.2 ?_
  by_cases hne : trace.path.actions = []
  · obtain ⟨excluded₀, hstate₀, hle, -⟩ := hs₀.summary
    obtain ⟨excluded, hstate, -⟩ := hs.summary
    rw [hs.track_eq hne, hstate] at hv
    obtain ⟨hstands, hinit⟩ := IndexSet.mem_filter.1 hv
    have hlt := (Bool.and_eq_true_iff.1 (g.mem_concretize.1 hstands)).1
    by_cases hv₀ : v ∈ excluded₀
    · exact .inl (hle v hv₀)
    · refine .inr ?_
      rw [hs₀.track_eq (hactions.trans hne), hstate₀]
      exact IndexSet.mem_filter.2 ⟨g.mem_concretize.2
        (Bool.and_eq_true_iff.2 ⟨hlt, decide_eq_true hv₀⟩), hinit⟩
  · exact .inr (hs₀.mismatch_eq hs hactions hne ▸ hv)

/-- Two refuted traces with the same actions are cut behind the same actions. -/
theorem actions_upTo_eq (hs₀ : g.Severs p₀ h₀ trace₀ m₀ n₀) (hs : g.Severs p h trace m n)
    (hactions : trace₀.path.actions = trace.path.actions) :
    (trace.path.upTo m.index).actions = (trace₀.path.upTo m₀.index).actions := by
  rw [Trace.actions_upTo, Trace.actions_upTo, hactions]
  by_cases hne : trace.path.actions = []
  · rw [hne, List.take_nil, List.take_nil]
  · rw [hs₀.mismatch_eq hs hactions hne]

end Severs

/-! ### What is left of a graph that was examined -/

/-- What later graphs keep of a graph in which a trace was refuted: its nodes, but not the one at
the cut, and summaries made since then exclude what was tracked. -/
structure Outlives (h : Graph Spot Link) (trace : Refuted Spot Link Tracked)
    (h' : Graph Spot Link) : Prop where
  /-- Positions are not given back. -/
  created : h.created ≤ h'.created
  /-- Old nodes are as they were, and the one at the cut is gone. -/
  old : ∀ {i n}, i < h.created → h'.node? i = some n → i ≠ Refuter.cutNode trace ∧
    ∃ k, h.node? i = some k ∧ k.state = n.state ∧ k.incoming = n.incoming
  /-- New summaries exclude what was tracked. -/
  new : ∀ {i n excluded}, h.created ≤ i → h'.node? i = some n → n.state = .other excluded →
    ∀ v ∈ trace.refined.vertices, v ∈ excluded

namespace Outlives

/-- Explorations at a precision that tracks what was tracked keep this. -/
theorem of_grows {o : ExplorationOptions} (hs : Outlives h trace s.graph) (hg : g.InRange)
    (hp : ∀ v ∈ trace.refined.vertices, v ∈ p.vertices)
    (hst : Relation.ReflTransGen ((g.explorer o meter).Grows p) s t) :
    Outlives h trace t.graph := by
  have hext := Explorer.extends_of_grows hst
  refine ⟨Nat.le_trans hs.created hext.created, fun {i n} hi hn ↦ ?_,
    fun {i n excluded} hi hn hstate ↦ ?_⟩
  · obtain ⟨k, hk, hkn⟩ := hext.exists_node? (Nat.lt_of_lt_of_le hi hs.created) hn
    obtain ⟨hne, l, hl, hlstate, hlin⟩ := hs.old hi hk
    exact ⟨hne, l, hl, hlstate.trans hkn.state.symm, hlin.trans hkn.incoming.symm⟩
  · rcases Nat.lt_or_ge i s.graph.created with hlt | hge
    · obtain ⟨k, hk, hkn⟩ := hext.exists_node? hlt hn
      exact hs.new hi hk (hkn.state ▸ hstate)
    · rw [eq_of_new_summary hg hst hge hn hstate]
      exact hp

/-- Refinements keep this. -/
theorem of_cuts (hs : Outlives h trace s.graph) (hwf : s.graph.WellFormed)
    (hst : Relation.ReflTransGen Refuter.Cuts s t) : Outlives h trace t.graph := by
  refine ⟨(Refuter.shrinks_of_cuts hst hwf).created ▸ hs.created, fun {i n} hi hn ↦ ?_,
    fun {i n excluded} hi hn hstate ↦ ?_⟩
  · obtain ⟨k, hk, hstate, hin⟩ := Refuter.exists_node?_of_cuts hst hwf hn
    obtain ⟨hne, l, hl, hlstate, hlin⟩ := hs.old hi hk
    exact ⟨hne, l, hl, hlstate.trans hstate.symm, hlin.trans hin.symm⟩
  · obtain ⟨k, hk, hkstate, -⟩ := Refuter.exists_node?_of_cuts hst hwf hn
    exact hs.new hi hk (hkstate.symm.trans hstate)

/-- It begins with the refinement that cuts the trace. -/
theorem of_cut (hwf : s.graph.WellFormed) (hst : Relation.ReflTransGen Refuter.Cuts s t)
    (hcut : ∀ {i n}, t.graph.node? i = some n → i ≠ Refuter.cutNode trace) :
    Outlives s.graph trace t.graph := by
  refine ⟨Nat.le_of_eq (Refuter.shrinks_of_cuts hst hwf).created.symm, fun {i n} hi hn ↦ ?_,
    fun {i n excluded} hi hn hstate ↦ ?_⟩
  · obtain ⟨k, hk, hstate, hin⟩ := Refuter.exists_node?_of_cuts hst hwf hn
    exact ⟨hcut hn, k, hk, hstate.symm, hin.symm⟩
  · obtain ⟨k, hk, -⟩ := Refuter.exists_node?_of_cuts hst hwf hn
    exact absurd (Graph.lt_created hk) (Nat.not_lt.2 hi)

end Outlives

/-- **A trace that is refuted again has a twin** in the graph where it was refuted first: the
summary at its cut was there already, beside the one that was cut off. -/
theorem Outlives.twins (hout : Outlives h trace h') {trace' : Refuted Spot Link Tracked}
    {p' : Tracked} {m m' : Mismatch} {n n' : Node Spot Link} (hs : g.Severs p h trace m n)
    (hs' : g.Severs p' h' trace' m' n') (hforest : h'.Forest)
    (hactions : trace.path.actions = trace'.path.actions) :
    h.Twins (Refuter.cutNode trace') (Refuter.cutNode trace) ∧
      ∃ k, h.node? (Refuter.cutNode trace') = some k ∧ k.state = n'.state := by
  obtain ⟨excluded, hstate, -, v, hv, hnot⟩ := hs'.summary
  -- a summary made since then would exclude the vertex
  have hold : Refuter.cutNode trace' < h.created := by
    by_contra hge
    exact hnot (hout.new (Nat.not_lt.1 hge) hs'.node hstate v (hs.mem_refined hs' hactions hv))
  obtain ⟨hne, k, hk, hkstate, -⟩ := hout.old hold hs'.node
  obtain ⟨hpath', htarget'⟩ := hs'.path
  refine ⟨⟨hne, _, _, ?_, htarget', hs.path.1, hs.path.2, hs.actions_upTo_eq hs' hactions⟩, k, hk,
    hkstate⟩
  refine hpath'.of_older hforest (htarget' ▸ hold) fun hi hn ↦ ?_
  obtain ⟨-, l, hl, hlstate, hlin⟩ := hout.old hi hn
  exact ⟨l, hl, hlstate, hlin⟩

/-! ### Memory -/

/-- The checker of a digraph. -/
abbrev checker (g : Digraph) (o : DigraphOptions) (meter : Meter) (turns : Nat) :
    Checker (Session Spot Link) Spot Link Tracked (List Nat) :=
  .ofSession (g.explorer (o.scope.exploration o.exploration) meter) (g.refuter o.fingerprint)
    o.scope o.pruning turns

/-- The sessions in which a check examines counterexamples, with the precision. -/
def Examines (g : Digraph) (o : DigraphOptions) (meter : Meter) (clock : Clock) (turns : Nat)
    (p : Tracked) (t : Session Spot Link) : Prop :=
  ∃ r s, (g.checker o meter turns).Reaches o.loop clock o.initial {} r s ∧ r.prec = p ∧
    (g.checker o meter turns).explore (Checker.secondsLeft o.loop clock r.iterations) p s =
      (.ok (some .suspect), t)

/-- Where a remembered fingerprint comes from: a trace that was refuted, whose vertices are tracked
and whose cut is gone. -/
def Recollects (g : Digraph) (o : DigraphOptions) (meter : Meter) (clock : Clock) (turns : Nat)
    (p : Tracked) (h : Graph Spot Link) (f : Fingerprint) : Prop :=
  ∃ p₀ t₀ id trace, g.Examines o meter clock turns p₀ t₀ ∧ id ∈ t₀.graph.counterexamples ∧
    (g.refuter o.fingerprint).Refutes t₀.graph p₀ id trace ∧
    o.fingerprint trace.path.actions = f ∧
    (∀ v ∈ trace.refined.vertices, v ∈ p.vertices) ∧ Outlives t₀.graph trace h

section Reaches

variable {r : Round Tracked}

/-- **The graph is layered throughout a check.** -/
theorem layered_of_reaches
    (hr : (g.checker o meter turns).Reaches o.loop clock o.initial {} r s) :
    g.Layered r.prec s.graph := by
  refine hr.keeps (I := fun p h ↦ g.Layered p h) ⟨.empty, .empty⟩
    (fun hl ↦ hl.disciplined.wellFormed) (fun hl hstep ↦ hl.grows hstep)
    (fun hl hstep ↦ ⟨?_, ?_⟩) fun hfiner hl ↦ hl.mono (IndexSet.isSubset_iff.1 hfiner)
  · exact hl.disciplined.of_cuts (.single hstep)
  · exact hl.labelled.shrinks (hstep.shrinks hl.disciplined.wellFormed)

/-- What an exploration of a check does. -/
theorem does_explore_of_reaches
    (hr : (g.checker o meter turns).Reaches o.loop clock o.initial {} r s) (seconds : Option Nat) :
    Does ((g.explorer (o.scope.exploration o.exploration) meter).Grows r.prec)
      ((g.explorer (o.scope.exploration o.exploration) meter).Stops r.prec seconds)
      ((g.checker o meter turns).explore seconds r.prec) s fun v t ↦ ∀ w, v = some w →
        (g.explorer (o.scope.exploration o.exploration) meter).Concludes w t.graph :=
  Explorer.does_explore (layered_of_reaches hr).disciplined.wellFormed

/-- In a session that is examined the graph is layered and has counterexamples. -/
theorem Examines.layered (hx : g.Examines o meter clock turns p t) :
    g.Layered p t.graph ∧ t.graph.counterexamples ≠ [] := by
  obtain ⟨r, s, hr, rfl, hexplore⟩ := hx
  have hdoes := does_explore_of_reaches hr (Checker.secondsLeft o.loop clock r.iterations)
  exact ⟨(layered_of_reaches hr).of_grows (hdoes.change_of_eq hexplore),
    (hdoes.value_of_eq hexplore _ rfl).suspect⟩

/-- Refined precisions are part of the one they are combined to. -/
theorem mem_combine_of_mem {ids : List NodeId} {traces : List (Refuted Spot Link Tracked)}
    (htraces : List.Forall₂ ((g.refuter fp).Refutes h p) (scope.select ids) traces)
    (htrace : trace ∈ traces) (hv : v ∈ trace.refined.vertices) :
    v ∈ (scope.combine p (traces.map Refuted.refined)).vertices := by
  cases scope with
  | shortest =>
    have hlen : traces.length ≤ 1 := htraces.length_eq ▸ List.length_take_le 1 ids
    obtain ⟨trace', rfl⟩ := List.length_eq_one_iff.1
      (Nat.le_antisymm hlen (List.length_pos_of_mem htrace))
    obtain rfl := List.mem_singleton.1 htrace
    exact hv
  | every => exact mem_foldl_join.2 (.inr ⟨_, List.mem_map_of_mem htrace, hv⟩)

/-- **A check recollects where the fingerprints it remembers come from.** -/
theorem recollects_of_reaches (hg : g.InRange) (hpruning : o.pruning = .subtree)
    (hr : (g.checker o meter turns).Reaches o.loop clock o.initial {} r s) {f : Fingerprint}
    (hf : f ∈ s.refuted) : g.Recollects o meter clock turns r.prec s.graph f := by
  induction hr with
  | start => exact (List.not_mem_nil hf).elim
  | @next r _ s u hr hround ih =>
    cases hround with
    | @again refined t _ hexplore hrefine hfiner =>
      have hgrows := (does_explore_of_reaches hr _).change_of_eq hexplore
      have hx : g.Examines o meter clock turns r.prec t := ⟨r, s, hr, rfl, hexplore⟩
      have hwf := hx.layered.1.disciplined.wellFormed
      have hrun : Does Refuter.Cuts (fun e _ ↦ (g.refuter o.fingerprint).Fails o.scope r.prec t e)
        ((g.refuter o.fingerprint).run o.scope o.pruning r.prec) t _ := Refuter.does_run
      have hcuts := hrun.change_of_eq hrefine
      obtain ⟨traces, w, -, hcutsw, ⟨_, hrecalls⟩, htraces, rfl, rfl⟩ := hrun.value_of_eq hrefine
      rcases hrecalls.memory f hf with hf | ⟨trace, htrace, rfl⟩
      · rw [Explorer.refuted_of_grows hgrows] at hf
        obtain ⟨p₀, t₀, id, trace, hx₀, hid, hrefutes, hfp, hle, hout⟩ := ih hf
        exact ⟨p₀, t₀, id, trace, hx₀, hid, hrefutes, hfp,
          fun v hv ↦ IndexSet.isSubset_iff.1 hfiner v (hle v hv),
          (hout.of_grows hg hle hgrows).of_cuts hwf hcuts⟩
      · obtain ⟨id, hid, hrefutes⟩ := exists_of_forall₂_of_mem_right htraces htrace
        refine ⟨r.prec, t, id, trace, hx, Scope.mem_of_mem_select hid, hrefutes, rfl,
          fun v hv ↦ mem_combine_of_mem htraces htrace hv, .of_cut hwf hcuts fun hn ↦ ?_⟩
        rw [hpruning] at hn
        exact Refuter.ne_cutNode_of_pruneRefuted (Refuter.wellFormed_of_cuts hcutsw hwf) hn htrace

end Reaches

/-! ### Confusion -/

/-- What there is in the graphs that a check examines if a trace is refuted again. -/
inductive Confused (g : Digraph) (o : DigraphOptions) (meter : Meter) (clock : Clock)
    (turns : Nat) : Prop
  /-- Two summaries are reached along the same actions. -/
  | summaries {p : Tracked} {t : Session Spot Link} {i j : NodeId} {m n : Node Spot Link}
      {excluded excluded' : IndexSet} (hx : g.Examines o meter clock turns p t)
      (htwins : t.graph.Twins i j) (hi : t.graph.node? i = some m) (hm : m.state = .other excluded)
      (hj : t.graph.node? j = some n) (hn : n.state = .other excluded') :
    Confused g o meter clock turns
  /-- Two counterexamples are reached along the same actions. -/
  | counterexamples {p : Tracked} {t : Session Spot Link} {i j : NodeId}
      (hx : g.Examines o meter clock turns p t) (htwins : t.graph.Twins i j)
      (hi : i ∈ t.graph.counterexamples) (hj : j ∈ t.graph.counterexamples) :
    Confused g o meter clock turns
  /-- Two counterexamples are reached along different actions that have the same fingerprint. -/
  | collision {p q : Tracked} {t u : Session Spot Link} {path path' : Path Spot Link}
      (ht : g.Examines o meter clock turns p t) (hu : g.Examines o meter clock turns q u)
      (hpath : t.graph.IsPath path ∧ path.target ∈ t.graph.counterexamples)
      (hpath' : u.graph.IsPath path' ∧ path'.target ∈ u.graph.counterexamples)
      (hne : path.actions ≠ path'.actions)
      (heq : o.fingerprint path.actions = o.fingerprint path'.actions) :
    Confused g o meter clock turns

/-- A refuted trace is a path to its counterexample. -/
theorem isPath_of_refutes (hrefutes : (g.refuter fp).Refutes h p id trace) :
    h.IsPath trace.path ∧ Path.target trace.path = id :=
  Graph.isPath_of_pathTo hrefutes.1

/-- Refuted traces end at different nodes. -/
theorem nodup_target_of_refutes (hh : h.Indexed) {traces : List (Refuted Spot Link Tracked)}
    (htraces : List.Forall₂ ((g.refuter fp).Refutes h p) (scope.select h.counterexamples) traces) :
    (traces.map fun trace ↦ Path.target trace.path).Nodup := by
  have hmap : ∀ {ids : List NodeId} {traces : List (Refuted Spot Link Tracked)},
      List.Forall₂ ((g.refuter fp).Refutes h p) ids traces →
      traces.map (fun trace ↦ Path.target trace.path) = ids := by
    intro ids traces htraces
    induction htraces with
    | nil => rfl
    | cons hrefutes _ ih => rw [List.map_cons, ih, (isPath_of_refutes hrefutes).2]
  rw [hmap htraces]
  cases scope with
  | shortest => exact (Graph.nodup_counterexamples hh).sublist (List.take_sublist 1 _)
  | every => exact Graph.nodup_counterexamples hh

/-- **A check that refutes a trace again is confused.** -/
theorem confused_of_recalls (hg : g.InRange) (hpruning : o.pruning = .subtree) {r : Round Tracked}
    (hr : (g.checker o meter turns).Reaches o.loop clock o.initial {} r s)
    (hexplore : (g.checker o meter turns).explore
      (Checker.secondsLeft o.loop clock r.iterations) r.prec s = (.ok (some .suspect), t))
    {traces : List (Refuted Spot Link Tracked)} {f : Fingerprint} {seen : List Fingerprint}
    (hrecalls : (g.refuter o.fingerprint).Recalls t.refuted traces (some f) seen)
    (htraces : List.Forall₂ ((g.refuter o.fingerprint).Refutes t.graph r.prec)
      (o.scope.select t.graph.counterexamples) traces) :
    g.Confused o meter clock turns := by
  have hgrows := (does_explore_of_reaches hr _).change_of_eq hexplore
  have hx : g.Examines o meter clock turns r.prec t := ⟨r, s, hr, rfl, hexplore⟩
  have hl := hx.layered.1
  have hcex : ∀ {trace}, trace ∈ traces → ∃ id ∈ t.graph.counterexamples,
      (g.refuter o.fingerprint).Refutes t.graph r.prec id trace := fun htrace ↦ by
    obtain ⟨id, hid, hrefutes⟩ := exists_of_forall₂_of_mem_right htraces htrace
    exact ⟨id, Scope.mem_of_mem_select hid, hrefutes⟩
  obtain ⟨before, trace, after, rfl, rfl, hseen⟩ := hrecalls.again f rfl
  obtain ⟨id, hid, hrefutes⟩ := hcex (List.mem_append_right before List.mem_cons_self)
  obtain ⟨hpath, rfl⟩ := isPath_of_refutes hrefutes
  rcases hseen with hf | ⟨trace', htrace', hfp⟩
  · -- the trace was refuted by an earlier refinement
    rw [Explorer.refuted_of_grows hgrows] at hf
    obtain ⟨p₀, t₀, id₀, trace₀, hx₀, hid₀, hrefutes₀, hfp, hle, hout⟩ :=
      recollects_of_reaches hg hpruning hr hf
    by_cases hactions : trace₀.path.actions = trace.path.actions
    · obtain ⟨m₀, n₀, hs₀⟩ := hx₀.layered.1.exists_severs hg hid₀ hrefutes₀
      obtain ⟨m, n, hs⟩ := hl.exists_severs hg hid hrefutes
      obtain ⟨htwins, k, hk, hkstate⟩ :=
        (hout.of_grows hg hle hgrows).twins hs₀ hs hl.disciplined.wellFormed.forest hactions
      obtain ⟨excluded₀, hstate₀, -⟩ := hs₀.summary
      obtain ⟨excluded, hstate, -⟩ := hs.summary
      exact .summaries hx₀ htwins hk (hkstate.trans hstate) hs₀.node hstate₀
    · obtain ⟨hpath₀, rfl⟩ := isPath_of_refutes hrefutes₀
      exact .collision hx₀ hx ⟨hpath₀, hid₀⟩ ⟨hpath, hid⟩ hactions hfp
  · -- the trace was refuted before by this refinement
    obtain ⟨id', hid', hrefutes'⟩ := hcex (List.mem_append_left _ htrace')
    obtain ⟨hpath', rfl⟩ := isPath_of_refutes hrefutes'
    by_cases hactions : trace'.path.actions = trace.path.actions
    · have hnodup := nodup_target_of_refutes hl.disciplined.wellFormed.indexed htraces
      rw [List.map_append, List.nodup_append] at hnodup
      have hne := hnodup.2.2 _ (List.mem_map_of_mem htrace') _ List.mem_cons_self
      exact .counterexamples hx ⟨hne, _, _, hpath', rfl, hpath, rfl, hactions⟩ hid' hid
    · exact .collision hx hx ⟨hpath', hid'⟩ ⟨hpath, hid⟩ hactions hfp

/-- A refined precision tracks what was tracked. -/
theorem refines_combine (hl : g.Layered p h) (hg : g.InRange)
    {traces : List (Refuted Spot Link Tracked)} (hne : traces ≠ [])
    (htraces : List.Forall₂ ((g.refuter fp).Refutes h p) (scope.select h.counterexamples) traces) :
    Precision.refines (scope.combine p (traces.map Refuted.refined)) p = true := by
  refine IndexSet.isSubset_iff.2 fun v hv ↦ ?_
  obtain ⟨trace, htrace⟩ := List.exists_mem_of_ne_nil _ hne
  obtain ⟨id, hid, hrefutes⟩ := exists_of_forall₂_of_mem_right htraces htrace
  obtain ⟨m, n, hs⟩ := hl.exists_severs hg (Scope.mem_of_mem_select hid) hrefutes
  refine mem_combine_of_mem htraces htrace ?_
  rw [← hs.refined]
  exact IndexSet.mem_union.2 (.inl hv)

/-- **A check without budgets that prunes subtrees comes to a verdict or diverges.** It does not
diverge if it is steady, nor unless it is confused: a graph that it examined has two summaries or
two counterexamples along the same actions, or two fingerprints collide. What a fingerprint is does
not matter, so the result is about every way to hash action sequences. -/
theorem decided_or_confused_of_check (order : Nat) (init : List Nat) (edges : List (Nat × Nat))
    (targets : List Nat) (scope : Scope) (initial : Tracked) (search : SearchOrder)
    (stop : StopRule) (validate parallel : Bool) (fingerprint : List Link → Fingerprint)
    (meter : Meter) (clock : Clock) (turns : Nat)
    {e : Except Fault (Report Spot Link Tracked (List Nat))}
    (h : (ofLists order init edges targets).check
      { scope, pruning := .subtree, initial, fingerprint,
        exploration := { order := search, stop, validate, parallel } } meter clock turns = some e) :
    ∃ report, e = .ok report ∧ (Checker.Decided report ∨
      (∃ n p f, report.conclusion = .failed n p (.divergence f)) ∧
        ¬(ofLists order init edges targets).Steady scope initial
          { order := search, stop, validate, parallel } ∧
        (ofLists order init edges targets).Confused
          { scope, pruning := .subtree, initial, fingerprint,
            exploration := { order := search, stop, validate, parallel } } meter clock turns) := by
  have hg : (ofLists order init edges targets).InRange := inRange_ofLists
  have ho : ({ order := search, stop, validate, parallel } : ExplorationOptions).Unlimited :=
    ⟨rfl, rfl, rfl⟩
  let o : DigraphOptions :=
    { scope, pruning := .subtree, initial, fingerprint,
      exploration := { order := search, stop, validate, parallel } }
  let c := (ofLists order init edges targets).checker o meter turns
  have hfiner : ∀ {r s t refined u}, c.Reaches {} clock initial {} r s →
      c.explore none r.prec s = (.ok (some .suspect), t) →
      c.refine r.prec t = (.ok (.spurious refined), u) →
      Precision.refines refined r.prec = true := by
    intro r s t refined u hr hexplore hrefine
    have hx : (ofLists order init edges targets).Examines o meter clock turns r.prec t :=
      ⟨r, s, hr, rfl, hexplore⟩
    obtain ⟨traces, w, hne, -, -, htraces, rfl, -⟩ := Refuter.does_run.value_of_eq hrefine
    exact refines_combine hx.layered.1 hg hne htraces
  obtain ⟨report, rfl, hdecided⟩ | ⟨r, s, t, u, stop, hr, hexplore, hrefine, hend⟩ :=
    c.decided_or_failed_of_run (fun hr ↦ explore_ne_error (unlimited_exploration ho)
      (layered_of_reaches (o := o) hr).disciplined.wellFormed) hfiner h
  · exact ⟨report, rfl, .inl hdecided⟩
  · have hx : (ofLists order init edges targets).Examines o meter clock turns r.prec t :=
      ⟨r, s, hr, rfl, hexplore⟩
    obtain ⟨f, seen, traces, -, rfl, hrecalls, htraces, -⟩ :=
      diverges_of_fails hx.layered.1.disciplined hx.layered.2 (Refuter.does_run.stop_of_eq hrefine)
    obtain rfl := Option.some.inj hend
    refine ⟨_, rfl, .inr ⟨⟨_, _, f, rfl⟩, fun hsteady ↦ ?_,
      confused_of_recalls (o := o) hg rfl hr hexplore hrecalls htraces⟩⟩
    obtain ⟨report, hreport, hdecided⟩ := decided_of_steady hsteady hg ho h
    obtain rfl := Except.ok.inj hreport
    rcases hdecided with ⟨p, hsafe⟩ | ⟨path, witness, hviolated⟩
    · cases hsafe
    · cases hviolated

/-- A vertex with two successors, and a target that no edge leads to. -/
def forked : Digraph := ofLists 4 [0] [(0, 1), (0, 2)] [3]

theorem exists_report_forked : ∃ report,
    forked.check { exploration := { stop := .never } } {} {} 9 = some (.ok report) ∧
      report.conclusion = .failed 4 ⟨.ofList [0, 1, 2]⟩
        (.divergence (.ofActions [Link.mk 0 2])) := by
  have hrun : (forked.check { exploration := { stop := .never } } {} {} 9).any
      (fun e ↦ e.toOption.any fun report ↦ report.conclusion =
        .failed 4 ⟨.ofList [0, 1, 2]⟩ (.divergence (.ofActions [Link.mk 0 2]))) = true := by
    decide +kernel
  obtain ⟨e, hcheck, he⟩ := (Option.any_eq_true _ _).1 hrun
  obtain ⟨report, rfl, hconclusion⟩ := exists_of_toOption_any he
  exact ⟨report, hcheck, of_decide_eq_true hconclusion⟩

/-- **A check may diverge.** No target can be reached, and yet the fourth iteration fails: its
counterexample is the second of two along the edge from 0 to 2. One is a child that vertex 0 got in
the second iteration, the other one it got when it was expanded again because its child along the
edge to 1 had been cut off. -/
theorem forked_diverges : forked.shortestPath = none ∧ ∃ report,
    forked.check { exploration := { stop := .never } } {} {} 9 = some (.ok report) ∧
      report.conclusion = .failed 4 ⟨.ofList [0, 1, 2]⟩
        (.divergence (.ofActions [Link.mk 0 2])) :=
  ⟨by decide +kernel, exists_report_forked⟩

/-- The check that diverges is not steady, and confused. -/
theorem forked_confused : ∃ report,
    forked.check { exploration := { stop := .never } } {} {} 9 = some (.ok report) ∧
      ¬forked.Steady .shortest {} { stop := .never } ∧
      forked.Confused { exploration := { stop := .never } } {} {} 9 := by
  obtain ⟨report, hcheck, hfailed⟩ := exists_report_forked
  refine ⟨report, hcheck, ?_⟩
  obtain ⟨report', hreport, hdecided | ⟨-, hconfused⟩⟩ :=
    decided_or_confused_of_check 4 [0] [(0, 1), (0, 2)] [3] .shortest {} .breadthFirst .never true
      false .ofActions {} {} 9 hcheck
  · obtain rfl := Except.ok.inj hreport
    rcases hdecided with ⟨p, hsafe⟩ | ⟨path, witness, hviolated⟩
    · cases hfailed.symm.trans hsafe
    · cases hfailed.symm.trans hviolated
  · exact hconfused

end Digraph

end AbstractionRefinement
