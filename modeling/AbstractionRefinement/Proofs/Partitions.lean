import AbstractionRefinement.Proofs.Lockstep
import AbstractionRefinement.Proofs.Safety

/-!
# Runs with other keys

An explorer may use any keys that the order respects (`Model.Separates`). Explorations that differ
in their keys only are in step: they make the same nodes, with the same links between them, and stop
for the same reason (`Explorer.inStep_explore`). This rests on two facts. Keys are used to find
coverers, and there they make no difference as long as every node has the key of its state and none
is bottom (`Model.Keyed.findCoverer_eq`). And frontiers hold keys, but look at them only if they are
asked for the lowest.

Refinements do not look at keys at all (`Refuter.inStep_run`), so whole runs are in step
(`Checker.mirrors_withKey`).

Each function of the exploration has its rule, in the order of the code. The invariant between two
sessions (`Explorer.Twins`) holds more than that the graphs agree without keys: both graphs are
keyed, each by its own function, since only then is the search for a coverer the same. It is kept by
every function because nodes are always made under the key of their state, and never for a state
that is bottom.

The lowest-key order is excluded where frontiers are compared, and only there.
-/

namespace AbstractionRefinement

open Work Session

variable {S A P : Type}

/-! ### Frontiers -/

namespace Frontier

/-- Two frontiers that hold the same nodes and do not look at keys. -/
structure Alike (f f' : Frontier) : Prop where
  /-- Same discipline. -/
  order_eq : f.order = f'.order
  /-- Keys are not looked at. -/
  keyless : f.order ≠ .lowestKey
  /-- Same nodes. -/
  nodes_eq : f.nodes = f'.nodes

namespace Alike

variable {f f' : Frontier} {id : NodeId}

/-- Frontiers that hold the same nodes still do after a node is added, under whatever keys. -/
theorem push (h : f.Alike f') (k k' : Nat) : (f.push id k).Alike (f'.push id k') := by
  obtain ⟨order, held⟩ := f
  obtain ⟨order', held'⟩ := f'
  obtain ⟨horder, hkeyless, hnodes⟩ := h
  obtain rfl : order = order' := horder
  replace hnodes : held.map Waiting.node = held'.map Waiting.node := hnodes
  cases order with
  | breadthFirst =>
    refine ⟨rfl, hkeyless, ?_⟩
    show (held ++ [_]).map Waiting.node = (held' ++ [_]).map Waiting.node
    rw [List.map_append, List.map_append, hnodes]
    rfl
  | depthFirst =>
    refine ⟨rfl, hkeyless, ?_⟩
    show _ :: held.map Waiting.node = _ :: held'.map Waiting.node
    rw [hnodes]
  | lowestKey => exact absurd rfl hkeyless

/-- Both are empty, or the same node leaves both. -/
theorem pop? (h : f.Alike f') : (f.pop? = none ∧ f'.pop? = none) ∨
    ∃ id g g', f.pop? = some (id, g) ∧ f'.pop? = some (id, g') ∧ g.Alike g' := by
  obtain ⟨order, held⟩ := f
  obtain ⟨order', held'⟩ := f'
  obtain ⟨horder, hkeyless, hnodes⟩ := h
  obtain rfl : order = order' := horder
  replace hnodes : held.map Waiting.node = held'.map Waiting.node := hnodes
  cases held with
  | nil =>
    obtain rfl := List.map_eq_nil_iff.1 hnodes.symm
    exact .inl ⟨rfl, rfl⟩
  | cons w rest =>
    cases held' with
    | nil => cases hnodes
    | cons w' rest' =>
      obtain ⟨hnode, hrest⟩ := List.cons.inj hnodes
      refine .inr ⟨w.node, ⟨order, rest⟩, ⟨order, rest'⟩, rfl, ?_, rfl, hkeyless, hrest⟩
      show some (w'.node, _) = some (w.node, _)
      rw [hnode]

/-- Nodes that differ in their keys only are queued alike. -/
theorem foldl_push {l l' : List (Node S A)} (h : f.Alike f')
    (hl : l.map Node.unkeyed = l'.map Node.unkeyed) :
    (l.foldl (fun f n ↦ f.push n.id n.key) f).Alike
      (l'.foldl (fun f n ↦ f.push n.id n.key) f') := by
  induction l generalizing l' f f' with
  | nil =>
    obtain rfl := List.map_eq_nil_iff.1 hl.symm
    exact h
  | cons n l ih =>
    obtain ⟨n', rest, rfl, hn, hrest⟩ := List.map_eq_cons_iff.1 hl.symm
    have hid : n'.id = n.id := congrArg (·.id) hn
    rw [List.foldl_cons, List.foldl_cons, hid]
    exact ih (h.push _ _) hrest.symm

end Alike

end Frontier

namespace Session

/-- Two sessions that differ in the keys of their graphs only. -/
structure Alike (s s' : Session S A) : Prop where
  /-- The graphs differ in their keys only. -/
  graph_eq : s.graph.unkeyed = s'.graph.unkeyed
  /-- The same work is counted. -/
  counters_eq : s.counters = s'.counters
  /-- The same traces are remembered. -/
  refuted_eq : s.refuted = s'.refuted

/-- What is read off a graph without looking at keys is the same. -/
theorem Alike.congr {α : Type} {s s' : Session S A} (h : s.Alike s') (f : Graph S A → α)
    (hf : ∀ g, f g.unkeyed = f g) : f s.graph = f s'.graph := by
  rw [← hf, h.graph_eq, hf]

end Session

/-- Two pursuits that stand at the same place. -/
structure Pursuit.Alike (p p' : Pursuit) : Prop where
  /-- The same nodes wait. -/
  frontier : p.frontier.Alike p'.frontier
  /-- The same number of counterexamples is known. -/
  found_eq : p.found = p'.found
  /-- The same number of turns is done. -/
  turns_eq : p.turns = p'.turns

namespace Explorer

/-- The explorer with other keys. -/
def withKey (x : Explorer S A P) (key : S → Nat) : Explorer S A P :=
  { x with model := { x.model with key } }

variable {x : Explorer S A P} {key : S → Nat} {g : Graph S A} {st : S} {id : NodeId}

/-- Whether a root subsumes a state does not depend on keys. -/
theorem subsumedByRoot_unkeyed : x.subsumedByRoot g.unkeyed st = x.subsumedByRoot g st := by
  refine congrArg (List.anyM · g.roots) (funext fun r ↦ ?_)
  rw [Graph.node_unkeyed]
  cases g.node r <;> rfl

section Absorb

variable [DecidableEq S] [Described S]

/-- Whether a state is absorbed by those kept before does not depend on how keys are computed. -/
theorem absorb_withKey {kept : List S} : (x.withKey key).absorb kept st = x.absorb kept st := by
  induction kept with
  | nil => rfl
  | cons k kept ih =>
    rw [absorb, absorb, ih]
    rfl

/-- Nor does which of several states are kept. -/
theorem absorbAll_withKey {kept states : List S} :
    (x.withKey key).absorbAll kept states = x.absorbAll kept states := by
  induction states generalizing kept with
  | nil => rfl
  | cons st states ih =>
    rw [absorbAll, absorbAll]
    simp only [ih, absorb_withKey]
    rfl

/-- No sibling that is left is bottom. -/
theorem proper_of_absorbAll (hM : x.model.Separates) {kept kept' states : List S}
    (h : x.absorbAll kept states = .ok kept') (hkept : ∀ k ∈ kept, x.model.isBottom k = false) :
    ∀ k ∈ kept', x.model.isBottom k = false := by
  induction states generalizing kept with
  | nil =>
    obtain rfl := Except.ok.inj h
    exact hkept
  | cons st states ih =>
    rw [absorbAll] at h
    obtain ⟨_, -, h⟩ := bind_eq_ok.1 h
    split at h
    · exact ih h hkept
    · rename_i hst
      obtain ⟨kept₁, hkept₁, h⟩ := bind_eq_ok.1 h
      exact ih h (forall_absorb hM.merge hkept₁ (eq_false_of_ne_true hst) hkept)

end Absorb

/-! ### Sessions -/

/-- Two sessions of explorations that differ in their keys only. -/
structure Twins (x : Explorer S A P) (key : S → Nat) (s s' : Session S A) : Prop
    extends s.Alike s' where
  /-- The first graph has the keys of the explorer. -/
  keyed : x.model.Keyed s.graph
  /-- The second graph has the other keys. -/
  rekeyed : (x.withKey key).model.Keyed s'.graph

namespace Twins

variable {s s' : Session S A}

/-- Twins stay twins if both graphs are replaced by graphs that differ in keys alone. -/
theorem edit (h : x.Twins key s s') {g g' : Graph S A} (hg : g.unkeyed = g'.unkeyed)
    (hkeyed : x.model.Keyed g) (hrekeyed : (x.withKey key).model.Keyed g') :
    x.Twins key { s with graph := g } { s' with graph := g' } :=
  ⟨⟨hg, h.counters_eq, h.refuted_eq⟩, hkeyed, hrekeyed⟩

/-- There is room for another node in both graphs, or in none. -/
theorem checkRoom_eq (h : x.Twins key s s') : x.checkRoom s.graph = x.checkRoom s'.graph :=
  h.toAlike.congr x.checkRoom fun _ ↦ rfl

theorem inStep_count (h : x.Twins key s s') {f : Counters → Counters} :
    InStep (x.Twins key) (Matches Eq) (count f s) (count f s') :=
  ⟨.ok rfl, ⟨h.graph_eq, congrArg f h.counters_eq, h.refuted_eq⟩, h.keyed, h.rekeyed⟩

/-- Both have the same node, up to keys, or both miss it. -/
theorem node (h : x.Twins key s s') : Matches (fun n n' ↦ n.unkeyed = n'.unkeyed)
    (orFault (s.graph.node id)) (orFault (s'.graph.node id)) := by
  have hnode : (s.graph.node id).map Node.unkeyed = (s'.graph.node id).map Node.unkeyed := by
    rw [← Graph.node_unkeyed, ← Graph.node_unkeyed, h.graph_eq]
  obtain ⟨f, hn, hn'⟩ | ⟨n, n', hn, hn', heq⟩ := exists_of_map_eq_map hnode
  · rw [hn, hn']
    exact .error
  · rw [hn, hn']
    exact .ok heq

end Twins

variable {s s' : Session S A} {prec : P} {deadline : Option Nat}

/-! ### Roots -/

section Roots

variable [Described S]

/-- **One initial state** is taken up, or left, alike. -/
theorem inStep_addInitial (hs : x.Twins key s s') : InStep (x.Twins key) (Matches Eq)
    (x.addInitial st s) ((x.withKey key).addInitial st s') := by
  refine inStep_demand_bind_eq hs rfl fun _ ↦ ?_
  refine .ite .rfl (fun _ ↦ .pure hs rfl) fun hbot ↦ inStep_currentGraph_bind ?_
  have hst : x.model.isBottom st = false := eq_false_of_ne_true hbot
  have hsub : x.subsumedByRoot s.graph st = x.subsumedByRoot s'.graph st :=
    hs.toAlike.congr (x.subsumedByRoot · st) fun _ ↦ subsumedByRoot_unkeyed
  refine inStep_demand_bind_eq hs (congrArg orFault hsub) fun subsumed ↦ ?_
  refine .ite .rfl (fun _ ↦ .pure hs rfl) fun _ ↦ ?_
  refine inStep_demand_bind_eq hs hs.checkRoom_eq fun _ ↦ ?_
  refine InStep.bind (inStep_editGraph hs (congrArg Except.ok ?_) fun hg hg' heq ↦ ?_)
    fun _ ht ↦ ht.inStep_count
  · rw [Graph.unkeyed_addRoot, hs.graph_eq, ← Graph.unkeyed_addRoot]
    rfl
  · obtain rfl := Except.ok.inj hg
    obtain rfl := Except.ok.inj hg'
    exact hs.edit heq (hs.keyed.addRoot hst) (hs.rekeyed.addRoot hst)

/-- All initial states are taken up, or left, alike. -/
theorem inStep_addInitials {states : List S} (hs : x.Twins key s s') :
    InStep (x.Twins key) (Matches Eq) (x.addInitials states s)
      ((x.withKey key).addInitials states s') := by
  induction states generalizing s s' with
  | nil => exact .pure hs rfl
  | cons st states ih => exact (inStep_addInitial hs).bind fun _ ht ↦ ih ht

/-- Computing the initial states and taking them up goes alike. -/
theorem inStep_addRoots (hs : x.Twins key s s') : InStep (x.Twins key) (Matches Eq)
    (x.addRoots prec s) ((x.withKey key).addRoots prec s') := by
  refine inStep_demand_bind_eq hs rfl fun states ↦ ?_
  refine (inStep_addInitials hs).bind fun _ ht ↦ ?_
  refine inStep_editGraph ht (congrArg Except.ok ?_) fun hg hg' heq ↦ ?_
  · exact congrArg (Graph.setInitialized · true) ht.graph_eq
  · obtain rfl := Except.ok.inj hg
    obtain rfl := Except.ok.inj hg'
    exact ht.edit heq ht.keyed.setInitialized ht.rekeyed.setInitialized

end Roots

/-! ### Covering -/

section Covering

variable (hM : x.model.Separates) (hM' : (x.withKey key).model.Separates)
include hM hM'

/-- Both find the first node of all that may stand for `id`. -/
theorem Twins.findCoverer_eq (hs : x.Twins key s s') :
    s.graph.findCoverer x.model.leq id = s'.graph.findCoverer x.model.leq id := by
  have hfind' : s'.graph.findCoverer x.model.leq id = s'.graph.scanCoverer x.model.leq id :=
    hs.rekeyed.findCoverer_eq hM'
  rw [hs.keyed.findCoverer_eq hM, hfind']
  exact hs.toAlike.congr (Graph.scanCoverer · _ _) fun _ ↦ Graph.scanCoverer_unkeyed

/-- A node is covered in one session exactly if it is in the other, and by the same node. -/
theorem inStep_tryCover (hs : x.Twins key s s') : InStep (x.Twins key) (Matches Eq)
    (x.tryCover id s) ((x.withKey key).tryCover id s') := by
  refine inStep_currentGraph_bind ?_
  refine inStep_demand_bind_eq hs ?_ fun coverer ↦ ?_
  · exact congrArg orFault (hs.findCoverer_eq hM hM')
  cases coverer with
  | none => exact .pure hs rfl
  | some coverer =>
    refine InStep.bind (inStep_editGraph hs ?_ fun hg hg' heq ↦ ?_)
      fun _ ht ↦ ht.inStep_count.bind fun _ hu ↦ .pure hu rfl
    · rw [Graph.unkeyed_cover, hs.graph_eq, Graph.unkeyed_cover]
    · exact hs.edit heq (hs.keyed.cover hg) (hs.rekeyed.cover hg')

/-- The nodes that have been reached are settled alike, and the same ones are left to expand. -/
theorem inStep_settle {p p' : Pursuit} {ids : List NodeId} (hp : p.Alike p')
    (hs : x.Twins key s s') : InStep (x.Twins key) (Matches Pursuit.Alike)
      (x.settle p ids s) ((x.withKey key).settle p' ids s') := by
  induction ids generalizing p p' s s' with
  | nil => exact .pure hs hp
  | cons id ids ih =>
    refine inStep_currentGraph_bind (inStep_demand_bind hs hs.node fun {n n'} hn ↦ ?_)
    have htarget : n.target = n'.target := congrArg (·.target) hn
    refine .ite (by rw [htarget]) (fun _ ↦ ?_) fun _ ↦ ?_
    · exact ih ⟨hp.frontier, congrArg (· + 1) hp.found_eq, hp.turns_eq⟩ hs
    · refine (inStep_tryCover hM hM' hs).bind_eq fun covered ht ↦ ?_
      refine .ite .rfl (fun _ ↦ ih hp ht) fun _ ↦ ?_
      exact ih ⟨hp.frontier.push n.key n'.key, hp.found_eq, hp.turns_eq⟩ ht

end Covering

/-! ### Expansion -/

section Expansion

variable [DecidableEq S] [DecidableEq A]

/-- Whether a node has a child of a certain action and state does not depend on keys. -/
theorem hasChild_unkeyed {action : A} :
    hasChild g.unkeyed id action st = hasChild g id action st := by
  rw [hasChild, hasChild, Graph.node_unkeyed]
  cases g.node id with
  | error f => rfl
  | ok n =>
    refine congrArg (List.anyM · n.children) (funext fun c ↦ ?_)
    rw [Graph.node_unkeyed]
    cases g.node c <;> rfl

/-- **One successor** is taken up, or left, alike. -/
theorem inStep_addSuccessor {action : A} (hst : x.model.isBottom st = false)
    (hs : x.Twins key s s') : InStep (x.Twins key) (Matches Eq)
      (x.addSuccessor id action st s) ((x.withKey key).addSuccessor id action st s') := by
  have hchild : hasChild s.graph id action st = hasChild s'.graph id action st :=
    hs.toAlike.congr (hasChild · id action st) fun _ ↦ hasChild_unkeyed
  refine inStep_currentGraph_bind ?_
  refine inStep_demand_bind_eq hs (congrArg orFault hchild) fun has ↦ ?_
  refine .ite .rfl (fun _ ↦ .pure hs rfl) fun _ ↦ ?_
  refine inStep_demand_bind_eq hs hs.checkRoom_eq fun _ ↦ ?_
  have hnew : s.graph.created = s'.graph.created :=
    hs.toAlike.congr Graph.created fun _ ↦ Graph.created_unkeyed
  refine InStep.bind (inStep_editGraph hs ?_ fun hg hg' heq ↦ ?_) fun {_ _ t t'} _ ht ↦ ?_
  · rw [Graph.unkeyed_addChild, hs.graph_eq, ← Graph.unkeyed_addChild]
    rfl
  · exact hs.edit heq (hs.keyed.addChild hst hg) (hs.rekeyed.addChild hst hg')
  · rw [hnew]
    refine inStep_currentGraph_bind (inStep_demand_bind ht ht.node fun {n n'} hn ↦ ?_)
    have hdepth : n.depth = n'.depth := congrArg (·.depth) hn
    rw [hdepth]
    exact ht.inStep_count.bind fun _ hu ↦ .pure hu rfl

/-- The successors along one action are taken up, or left, alike. -/
theorem inStep_addSuccessors {action : A} {states : List S}
    (hstates : ∀ st ∈ states, x.model.isBottom st = false) (hs : x.Twins key s s') :
    InStep (x.Twins key) (Matches Eq) (x.addSuccessors id action states s)
      ((x.withKey key).addSuccessors id action states s') := by
  induction states generalizing s s' with
  | nil => exact .pure hs rfl
  | cons st states ih =>
    obtain ⟨hst, hstates⟩ := List.forall_mem_cons.1 hstates
    refine (inStep_addSuccessor hst hs).bind_eq fun made ht ↦ ?_
    exact (ih hstates ht).bind_eq fun _ hu ↦ .pure hu rfl

variable [Described S]

/-- The successors along all actions are taken up, or left, alike. -/
theorem inStep_addAll (hM : x.model.Separates) {successors : List (A × List S)}
    (hs : x.Twins key s s') : InStep (x.Twins key) (Matches Eq)
      (x.addAll id successors s) ((x.withKey key).addAll id successors s') := by
  induction successors generalizing s s' with
  | nil => exact .pure hs rfl
  | cons entry successors ih =>
    obtain ⟨action, states⟩ := entry
    -- what is left of the siblings is not bottom, so each may become a node
    have hkept : Matches (fun kept kept' ↦ kept = kept' ∧ ∀ k ∈ kept, x.model.isBottom k = false)
        (x.absorbAll [] states) ((x.withKey key).absorbAll [] states) := by
      rw [absorbAll_withKey]
      cases hkept : x.absorbAll [] states with
      | ok kept => exact .ok ⟨rfl, proper_of_absorbAll hM hkept (List.forall_mem_nil _)⟩
      | error e => exact .error
    refine inStep_demand_bind hs hkept fun {kept kept'} heq ↦ ?_
    obtain ⟨rfl, hproper⟩ := heq
    refine (inStep_addSuccessors hproper hs).bind_eq fun made ht ↦ ?_
    exact (ih ht).bind_eq fun _ hu ↦ .pure hu rfl

/-- **One expansion** goes alike: the same successors are computed and taken up. -/
theorem inStep_expand (hM : x.model.Separates) (hs : x.Twins key s s') :
    InStep (x.Twins key) (Matches Eq) (x.expand id prec s)
      ((x.withKey key).expand id prec s') := by
  refine inStep_currentGraph_bind (inStep_demand_bind hs hs.node fun {n n'} hn ↦ ?_)
  have hstate : n.state = n'.state := congrArg (·.state) hn
  rw [hstate]
  refine inStep_demand_bind_eq hs rfl fun successors ↦ ?_
  refine (inStep_addAll hM hs).bind_eq fun made ht ↦ ?_
  refine InStep.bind (inStep_editGraph ht ?_ fun hg hg' heq ↦ ?_)
    fun _ hu ↦ hu.inStep_count.bind fun _ hw ↦ .pure hw rfl
  · rw [Graph.unkeyed_setExpanded, ht.graph_eq, Graph.unkeyed_setExpanded]
  · exact ht.edit heq (ht.keyed.setExpanded hg) (ht.rekeyed.setExpanded hg')

end Expansion

/-! ### Explorations -/

/-- Explorations begin with the same nodes waiting, in the same order, unless the order is by key.
-/
theorem alike_initialFrontier (horder : x.options.order ≠ .lowestKey) (hs : x.Twins key s s') :
    (x.initialFrontier s.graph).Alike ((x.withKey key).initialFrontier s'.graph) := by
  refine Frontier.Alike.foldl_push ⟨rfl, horder, rfl⟩ ?_
  rw [Graph.incompleteNodes, Graph.incompleteNodes, ← Graph.filter_unkeyed fun _ ↦ rfl,
    hs.graph_eq, Graph.filter_unkeyed fun _ ↦ rfl]

theorem Twins.verdictOf_eq (hs : x.Twins key s s') : verdictOf s.graph = verdictOf s'.graph :=
  hs.toAlike.congr verdictOf fun _ ↦ by rw [verdictOf, Graph.isSafe_unkeyed, verdictOf]

section Explore

variable [DecidableEq S] [DecidableEq A] [Described S] (hM : x.model.Separates)
  (hM' : (x.withKey key).model.Separates)
include hM hM'

/-- **Turns are in step.** -/
theorem inStep_turn {p p' : Pursuit} (hp : p.Alike p') (hs : x.Twins key s s') :
    InStep (x.Twins key) (Matches (Turn.Matches Pursuit.Alike Eq)) (x.turn deadline prec p s)
      ((x.withKey key).turn deadline prec p' s') := by
  rw [turn, turn]
  obtain ⟨hpop, hpop'⟩ | ⟨id, f, f', hpop, hpop', hf⟩ := hp.frontier.pop?
  · rw [hpop, hpop']
    exact .pure hs (.done rfl)
  rw [hpop, hpop']
  -- the same node leaves both frontiers
  have hturns : p.turns = p'.turns := hp.turns_eq
  refine inStep_demand_bind_eq hs (by rw [hturns]; rfl) fun _ ↦ inStep_currentGraph_bind ?_
  have hnext : (p.took f).Alike (p'.took f') := ⟨hf, hp.found_eq, congrArg (· + 1) hp.turns_eq⟩
  have hinc : (s.graph.node? id).any Node.isIncomplete =
      (s'.graph.node? id).any Node.isIncomplete :=
    hs.toAlike.congr (fun g ↦ (g.node? id).any Node.isIncomplete) fun g ↦ by
      rw [Graph.node?_unkeyed, Option.any_map]
      rfl
  refine .ite (by rw [hinc]) (fun _ ↦ .pure hs (.again hnext)) fun _ ↦ ?_
  refine (inStep_tryCover hM hM' hs).bind_eq fun covered ht ↦ ?_
  refine .ite .rfl (fun _ ↦ .pure ht (.again hnext)) fun _ ↦ ?_
  refine (inStep_expand hM ht).bind_eq fun made hu ↦ ?_
  refine (inStep_settle hM hM' hnext hu).bind fun {q q' v v'} hq hv ↦ ?_
  refine .ite ?_ (fun _ ↦ .pure hv (.done rfl)) fun _ ↦ .pure hv (.again hq)
  rw [hq.found_eq]
  rfl

/-- **The loop of an exploration** goes alike, turn by turn, unless the order is by key. -/
theorem inStep_pursue (horder : x.options.order ≠ .lowestKey) {turns : Nat}
    (hs : x.Twins key s s') : InStep (x.Twins key) (Matches Eq) (x.pursue turns deadline prec s)
      ((x.withKey key).pursue turns deadline prec s') := by
  have hfound : s.graph.counterexamples.length = s'.graph.counterexamples.length :=
    hs.toAlike.congr (·.counterexamples.length) fun _ ↦ congrArg _ Graph.counterexamples_unkeyed
  refine inStep_currentGraph_bind (.ite ?_ (fun _ ↦ .pure hs (congrArg some hs.verdictOf_eq))
    fun _ ↦ ?_)
  · show x.options.stop.reached _ = true ↔ x.options.stop.reached _ = true
    rw [hfound]
  · have hp : Pursuit.Alike ⟨x.initialFrontier s.graph, s.graph.counterexamples.length, 0⟩
        ⟨(x.withKey key).initialFrontier s'.graph, s'.graph.counterexamples.length, 0⟩ :=
      ⟨alike_initialFrontier horder hs, hfound, rfl⟩
    refine (InStep.iterate (inStep_turn hM hM') hp hs).bind fun {r r' t t'} hr ht ↦ ?_
    cases hr with
    | none => exact .pure ht rfl
    | some _ => exact inStep_currentGraph_bind (.pure ht (congrArg some ht.verdictOf_eq))

/-- **Explorations are in step.** -/
theorem inStep_explore (horder : x.options.order ≠ .lowestKey) {turns : Nat}
    (hs : x.Twins key s s') : InStep (x.Twins key) (Matches Eq) (x.explore turns deadline prec s)
      ((x.withKey key).explore turns deadline prec s') := by
  rw [explore_eq, explore_eq]
  refine inStep_demand_bind_eq hs rfl fun _ ↦ inStep_currentGraph_bind ?_
  have hinit : s.graph.initialized = s'.graph.initialized :=
    hs.toAlike.congr (·.initialized) fun _ ↦ rfl
  refine .ite (by rw [hinit]) (fun _ ↦ inStep_pursue hM hM' horder hs) fun _ ↦ ?_
  exact (inStep_addRoots hs).bind fun _ ht ↦ inStep_pursue hM hM' horder ht

end Explore

end Explorer

/-! ### Refinements -/

namespace Refuter

variable {W R : Type} {r : Refuter S A P W R} {g : Graph S A} {s s' : Session S A} {prec : P}

/-- What examining counterexamples comes to does not depend on keys. -/
theorem examine_unkeyed {ids : List NodeId} :
    r.examine g.unkeyed prec ids = r.examine g prec ids := by
  induction ids with
  | nil => rfl
  | cons id ids ih =>
    rw [examine, examine, Graph.pathTo_unkeyed, ih]

/-- Pruning what has been refuted commutes with dropping keys. -/
theorem unkeyed_pruneRefuted {pruning : Pruning} {traces : List (Refuted S A P)} :
    (pruneRefuted pruning g traces).unkeyed = pruneRefuted pruning g.unkeyed traces := by
  cases pruning with
  | everything => exact Graph.unkeyed_pruneAll
  | subtree =>
    refine (List.foldl_hom Graph.unkeyed fun g t ↦ ?_).symm
    exact Graph.unkeyed_prune.symm

/-- Pruning what has been refuted keeps sessions alike. -/
theorem inStep_pruneRefuted {pruning : Pruning} {traces : List (Refuted S A P)}
    (hs : s.Alike s') : InStep Session.Alike (Matches Eq)
      (editGraph (fun g ↦ .ok (pruneRefuted pruning g traces)) s)
      (editGraph (fun g ↦ .ok (pruneRefuted pruning g traces)) s') := by
  refine inStep_editGraph hs (congrArg Except.ok ?_) fun _ _ heq ↦ ?_
  · rw [unkeyed_pruneRefuted, hs.graph_eq, unkeyed_pruneRefuted]
  · exact ⟨heq, hs.counters_eq, hs.refuted_eq⟩

theorem inStep_observeRefuted {trace : Fingerprint} {nodes : List NodeId} (hs : s.Alike s') :
    InStep Session.Alike (Matches Eq) (observeRefuted trace nodes s)
      (observeRefuted trace nodes s') := by
  simp only [observeRefuted, observe, hs.refuted_eq]
  split
  · refine ⟨.ok rfl, ?_, hs.counters_eq, rfl⟩
    show (nodes.foldl Graph.retireCoverer s.graph).unkeyed =
      (nodes.foldl Graph.retireCoverer s'.graph).unkeyed
    rw [← List.foldl_hom Graph.unkeyed fun _ _ ↦ Graph.unkeyed_retireCoverer.symm, hs.graph_eq,
      List.foldl_hom Graph.unkeyed fun _ _ ↦ Graph.unkeyed_retireCoverer.symm]
  · exact ⟨.ok rfl, hs.graph_eq, hs.counters_eq, rfl⟩

/-- Reporting what has been refuted keeps sessions alike. -/
theorem inStep_observeAll {traces : List (Refuted S A P)} (hs : s.Alike s') :
    InStep Session.Alike (Matches Eq) (r.observeAll traces s) (r.observeAll traces s') := by
  induction traces generalizing s s' with
  | nil => exact .pure hs rfl
  | cons t traces ih =>
    refine (inStep_observeRefuted hs).bind_eq fun again ht ↦ ?_
    exact (ih ht).bind_eq fun _ hu ↦ .pure hu rfl

variable [DecidableEq P] [Precision P] {scope : Scope} {pruning : Pruning}

/-- **Refinements are in step**: they do not look at keys. -/
theorem inStep_run (hs : s.Alike s') : InStep Session.Alike (Matches Eq)
    (r.run scope pruning prec s) (r.run scope pruning prec s') := by
  have hcex : s.graph.counterexamples = s'.graph.counterexamples :=
    hs.congr (·.counterexamples) fun _ ↦ Graph.counterexamples_unkeyed
  refine inStep_currentGraph_bind (.ite (by rw [hcex]) (fun _ ↦ ⟨.error, hs⟩) fun _ ↦ ?_)
  rw [hcex]
  refine inStep_demand_bind_eq hs (hs.congr (r.examine · _ _) fun _ ↦ examine_unkeyed)
    fun exam ↦ ?_
  cases exam with
  | genuine path witness => exact .pure hs rfl
  | refuted traces =>
    refine (inStep_observeAll hs).bind_eq fun repeated ht ↦ ?_
    cases repeated with
    | none => exact (inStep_pruneRefuted ht).bind fun _ hu ↦ .pure hu rfl
    | some fingerprint =>
      refine .ite .rfl (fun _ ↦ ⟨.error, ht⟩) fun _ ↦ ?_
      exact (inStep_pruneRefuted ht).bind fun _ hu ↦ .pure hu rfl

end Refuter

/-! ### Keys throughout a run -/

namespace Model.Keyed

variable {x : Explorer S A P} {prec : P} {s t : Session S A}

/-- One cut of a refinement keeps the graph keyed. -/
theorem cuts {M : Model S A P} (hs : M.Keyed s.graph) (h : Refuter.Cuts s t) :
    M.Keyed t.graph :=
  hs.shrinks (h.shrinks hs.wellFormed) (h.wellFormed hs.wellFormed)

/-- All cuts of a refinement keep the graph keyed. -/
theorem of_cuts {M : Model S A P} (hs : M.Keyed s.graph)
    (h : Relation.ReflTransGen Refuter.Cuts s t) : M.Keyed t.graph := by
  induction h with
  | refl => exact hs
  | tail _ hstep ih => exact ih.cuts hstep

variable [DecidableEq S] [DecidableEq A] [Described S]

/-- **Explorations give every node the key of its state, and make none for bottom.** -/
theorem grows (hs : x.model.Keyed s.graph) (hM : x.model.Separates) (h : x.Grows prec s t) :
    x.model.Keyed t.graph := by
  cases h with
  | root _ _ hbot _ => exact hs.addRoot hbot
  | ready => exact hs.setInitialized
  | child _ _ _ hkept _ hadd =>
    obtain ⟨states, kept, -, hkept, hst⟩ := hkept
    exact hs.addChild (Explorer.proper_of_absorbAll hM hkept (List.forall_mem_nil _) _ hst) hadd
  | expanded _ _ _ _ hset => exact hs.setExpanded hset
  | cover _ _ _ hcov => exact hs.cover hcov

/-- An exploration keeps the graph keyed. -/
theorem of_grows (hs : x.model.Keyed s.graph) (hM : x.model.Separates)
    (h : Relation.ReflTransGen (x.Grows prec) s t) : x.model.Keyed t.graph := by
  induction h with
  | refl => exact hs
  | tail _ hstep ih => exact ih.grows hM hstep

end Model.Keyed

namespace Checker

variable {W R : Type} [DecidableEq S] [DecidableEq A] [DecidableEq P] [Described S] [Precision P]
  {x : Explorer S A P} {refuter : Refuter S A P W R} {scope : Scope} {pruning : Pruning}
  {turns : Nat} {key : S → Nat}

/-- **Every graph that the loop comes to is keyed** by the key of the analysis. -/
theorem Reaches.keyed [Described P] (hM : x.model.Separates) {o : LoopOptions} {clock : Clock}
    {prec : P} {s₀ s : Session S A} {r : Round P}
    (h : (ofSession x refuter scope pruning turns).Reaches o clock prec s₀ r s) :
    x.model.Keyed s.graph :=
  h.keeps (I := fun _ g ↦ x.model.Keyed g) .empty (fun hg ↦ hg.wellFormed)
    (fun hs hstep ↦ hs.grows hM hstep) (fun hs hstep ↦ hs.cuts hstep) fun _ hs ↦ hs

/-- **Checkers that differ in their keys only are in step.** -/
theorem mirrors_withKey (hM : x.model.Separates) (hM' : (x.withKey key).model.Separates)
    (horder : x.options.order ≠ .lowestKey) :
    (ofSession x refuter scope pruning turns).Mirrors
      (ofSession (x.withKey key) refuter scope pruning turns) (x.Twins key) where
  graph hs := hs.graph_eq
  counters hs := hs.counters_eq
  restart hs := hs.edit rfl .empty .empty
  explore _ _ hs := Explorer.inStep_explore hM hM' horder hs
  refine {s s'} prec hs := by
    have hrun : InStep Session.Alike (Matches Eq) (refuter.run scope pruning prec s)
        (refuter.run scope pruning prec s') := Refuter.inStep_run hs.toAlike
    exact ⟨hrun.value, hrun.state, hs.keyed.of_cuts Refuter.does_run.change,
      hs.rekeyed.of_cuts Refuter.does_run.change⟩

end Checker

end AbstractionRefinement
