import AbstractionRefinement.Analysis
import AbstractionRefinement.Proofs.Graph.Edits
import AbstractionRefinement.Proofs.Refinement.Cuts
import Mathlib.Data.List.Find
import Mathlib.Data.List.Sort

/-!
# Graphs without their keys

The key of a node is looked at for one purpose: to find, in the partition of that key, a node that
may cover another. Everything else commutes with leaving the keys out (`Graph.unkeyed`): what is
read off a graph is the same, and a change of the graph is the same change of what is left. Two
graphs that are equal without their keys are thus changed in the same way for as long as the same
coverers are found in them.

The coverer found is the first one of a scan over all live nodes (`Model.Keyed.findCoverer_eq`), if
keys are those of the states and the order relates states of different keys only below bottom
(`Model.Separates`). The scan does not look at keys.

The equations come in the order of the operations on graphs. Those that can fail commute with
leaving the keys out as failing computations: they fail on both sides, with the same fault. Adding a
node is the one operation that is given a key, and there the equation says that the key does not
matter for what is left.

A graph is keyed by a model (`Model.Keyed`) if every node has the key of its state and no node is
bottom. Explorations make such graphs, and everything that removes nodes keeps them.
-/

namespace AbstractionRefinement

variable {S A P : Type}

/-- The node without its key. -/
def Node.unkeyed (n : Node S A) : Node S A := { n with key := 0 }

namespace Graph

/-- The graph without keys, and without the partitions that they make. -/
def unkeyed (g : Graph S A) : Graph S A :=
  { g with slots := g.slots.map (Option.map Node.unkeyed), partitions := .empty }

variable {g g' : Graph S A} {i id : NodeId} {n : Node S A}

/-! ### What is read off a graph -/

/-- The nodes of an unkeyed graph are those of the graph, without their keys. -/
theorem node?_unkeyed : g.unkeyed.node? i = (g.node? i).map Node.unkeyed := by
  rw [unkeyed, node?, Array.getElem?_map, node?]
  cases g.slots[i]? with
  | none => rfl
  | some slot => rfl

@[simp] theorem created_unkeyed : g.unkeyed.created = g.created := by
  simp [unkeyed, created]

/-- Which positions are taken does not depend on keys. -/
theorem contains_unkeyed : g.unkeyed.contains i = g.contains i := by
  rw [contains, node?_unkeyed, Option.isSome_map]
  rfl

/-- A lookup answers alike on an unkeyed graph, a missing node included. -/
theorem node_unkeyed : g.unkeyed.node i = (g.node i).map Node.unkeyed := by
  rw [node, node?_unkeyed, node]
  cases g.node? i with
  | none => rfl
  | some n => rfl

theorem nodes_unkeyed : g.unkeyed.nodes = g.nodes.map Node.unkeyed := by
  rw [nodes_eq, nodes_eq, created_unkeyed, List.map_filterMap]
  exact List.filterMap_congr fun i _ ↦ node?_unkeyed

theorem nodeIds_unkeyed : g.unkeyed.nodeIds = g.nodeIds := by
  rw [nodeIds, nodes_unkeyed, List.map_map]
  rfl

/-- The children of a node do not depend on keys. -/
theorem childrenOf_unkeyed : g.unkeyed.childrenOf i = g.childrenOf i := by
  rw [childrenOf, node?_unkeyed, Option.map_map]
  rfl

/-- Nor does the subtree below it, to any number of levels. -/
theorem subtree_unkeyed {levels : Nat} : g.unkeyed.subtree levels i = g.subtree levels i := by
  induction levels generalizing i with
  | zero => rfl
  | succ levels ih =>
    rw [subtree, subtree, childrenOf_unkeyed]
    exact congrArg _ (List.flatMap_congr fun j _ ↦ ih)

/-- What a node shows without its key, a list of nodes shows without theirs. -/
theorem filter_unkeyed {f : Node S A → Bool} (hf : ∀ n, f n.unkeyed = f n) :
    g.unkeyed.nodes.filter f = (g.nodes.filter f).map Node.unkeyed := by
  rw [nodes_unkeyed, List.filter_map]
  exact congrArg _ (List.filter_congr fun n _ ↦ hf n)

/-- A graph is safe with its keys if it is without them. -/
theorem isSafe_unkeyed : g.unkeyed.isSafe = g.isSafe := by
  rw [isSafe, targetNodes, filter_unkeyed fun _ ↦ rfl, List.all_map]
  rfl

/-- The measures of a graph count nothing that depends on keys. -/
theorem metrics_unkeyed : g.unkeyed.metrics = g.metrics := by
  rw [metrics, nodes_unkeyed, List.foldl_map]
  rfl

/-- Sorting by depth looks at no key. -/
theorem map_insertByDepth {l : List (Node S A)} :
    insertByDepth n.unkeyed (l.map Node.unkeyed) = (insertByDepth n l).map Node.unkeyed := by
  induction l with
  | nil => rfl
  | cons m l ih =>
    rw [List.map_cons, insertByDepth, insertByDepth, ih, apply_ite (List.map Node.unkeyed)]
    rfl

/-- The counterexamples of a graph, and the order they are listed in, do not depend on keys. -/
theorem counterexamples_unkeyed : g.unkeyed.counterexamples = g.counterexamples := by
  have hsort : ∀ l : List (Node S A), (l.map Node.unkeyed).foldr insertByDepth [] =
      (l.foldr insertByDepth []).map Node.unkeyed := by
    intro l
    induction l with
    | nil => rfl
    | cons n l ih => rw [List.map_cons, List.foldr_cons, ih, map_insertByDepth, List.foldr_cons]
  rw [counterexamples, filter_unkeyed fun _ ↦ rfl, hsort, List.map_map]
  rfl

/-- The steps gathered on the way up to a root do not depend on keys. -/
theorem pathFrom_unkeyed {bound : Nat} {steps : List (A × Visit S)} :
    g.unkeyed.pathFrom bound id steps = g.pathFrom bound id steps := by
  induction bound generalizing id steps with
  | zero => rfl
  | succ bound ih =>
    rw [pathFrom, pathFrom, node_unkeyed]
    cases g.node id with
    | error f => rfl
    | ok n =>
      obtain ⟨i, st, key, incoming, children, coveredBy⟩ := n
      cases incoming with
      | none => rfl
      | some e => exact ih

/-- The path to a node is the same with and without keys, or fails alike. -/
theorem pathTo_unkeyed : g.unkeyed.pathTo id = g.pathTo id := by
  rw [pathTo, created_unkeyed, pathFrom_unkeyed]
  rfl

/-! ### Changes -/

/-- An update that respects dropping keys may be made before or after they are dropped. -/
theorem unkeyed_update {f : Node S A → Node S A} (hf : ∀ n, f n.unkeyed = (f n).unkeyed) :
    (g.update id f).unkeyed = g.unkeyed.update id f := by
  refine ext_node? (by simp) (fun i ↦ ?_) rfl rfl rfl rfl
  rw [node?_unkeyed, node?_update, node?_update, node?_unkeyed]
  split
  · rw [Option.map_map, Option.map_map]
    exact congrArg (Option.map · _) (funext fun n ↦ (hf n).symm)
  · rfl

/-- The same for two updates in turn. -/
theorem unkeyed_update_update {j : NodeId} {f f' : Node S A → Node S A}
    (hf : ∀ n, f n.unkeyed = (f n).unkeyed) (hf' : ∀ n, f' n.unkeyed = (f' n).unkeyed) :
    ((g.update i f).update j f').unkeyed = (g.unkeyed.update i f).update j f' := by
  rw [unkeyed_update hf', unkeyed_update hf]

/-- Marking a node as expanded commutes with dropping keys. -/
theorem unkeyed_setExpanded {value : Bool} :
    (g.setExpanded id value).map unkeyed = g.unkeyed.setExpanded id value := by
  rw [setExpanded, setExpanded, node_unkeyed]
  cases g.node id with
  | error f => rfl
  | ok n => exact congrArg Except.ok (unkeyed_update fun _ ↦ rfl)

/-- Uncovering a node commutes with dropping keys. -/
theorem unkeyed_uncover : (g.uncover id).map unkeyed = g.unkeyed.uncover id := by
  rw [uncover, uncover, node_unkeyed]
  cases g.node id with
  | error f => rfl
  | ok n =>
    obtain ⟨i, st, key, incoming, children, coveredBy⟩ := n
    cases coveredBy with
    | none => rfl
    | some j => exact congrArg Except.ok (unkeyed_update_update (fun _ ↦ rfl) fun _ ↦ rfl)

/-- Covering a node by another commutes with dropping keys, failures included. -/
theorem unkeyed_cover {coverer : NodeId} :
    (g.cover id coverer).map unkeyed = g.unkeyed.cover id coverer := by
  rw [cover, cover]
  split
  · rfl
  · rw [← unkeyed_uncover]
    cases g.uncover id with
    | error f => rfl
    | ok h =>
      show Except.map unkeyed (h.node coverer >>= _) = h.unkeyed.node coverer >>= _
      rw [node_unkeyed]
      cases h.node coverer with
      | error f => rfl
      | ok m => exact congrArg Except.ok (unkeyed_update_update (fun _ ↦ rfl) fun _ ↦ rfl)

/-- Releasing all that a node covers commutes with dropping keys. -/
theorem unkeyed_releaseCovered :
    (g.releaseCovered id).map unkeyed = g.unkeyed.releaseCovered id := by
  rw [releaseCovered, releaseCovered, node_unkeyed]
  cases g.node id with
  | error f => rfl
  | ok n =>
    have hclear : (g.update id fun n ↦ { n with covers := [] }).unkeyed =
        g.unkeyed.update id fun n ↦ { n with covers := [] } := unkeyed_update fun _ ↦ rfl
    refine congrArg Except.ok ?_
    rw [← hclear]
    refine (List.foldl_hom unkeyed fun h c ↦ ?_).symm
    symm
    exact unkeyed_update fun _ ↦ rfl

theorem unkeyed_disableCovering :
    (g.disableCovering id).map unkeyed = g.unkeyed.disableCovering id := by
  rw [disableCovering, disableCovering, node_unkeyed]
  cases g.node id with
  | error f => rfl
  | ok n => exact congrArg Except.ok (unkeyed_update fun _ ↦ rfl)

theorem unkeyed_retireCoverer : (g.retireCoverer id).unkeyed = g.unkeyed.retireCoverer id := by
  rw [retireCoverer, retireCoverer, ← unkeyed_releaseCovered]
  cases g.releaseCovered id with
  | error f => rfl
  | ok h =>
    show ((h.disableCovering id).toOption.getD h).unkeyed =
      (h.unkeyed.disableCovering id).toOption.getD h.unkeyed
    rw [← unkeyed_disableCovering]
    cases h.disableCovering id with
    | error f => rfl
    | ok h' => rfl

/-- Removing nodes commutes with dropping keys. -/
theorem unkeyed_remove {removed : List NodeId} {cut : NodeId} :
    (g.remove removed cut).unkeyed = g.unkeyed.remove removed cut := by
  refine ext_node? (by simp) (fun i ↦ ?_) rfl rfl rfl rfl
  rw [node?_unkeyed, node?_remove, node?_remove, node?_unkeyed]
  cases g.node? i with
  | none => rfl
  | some n =>
    show Option.map Node.unkeyed (if removed.contains n.id then none else _) =
      if removed.contains n.id then none else _
    split <;> rfl

/-- Pruning commutes with dropping keys: which nodes go does not depend on them. -/
theorem unkeyed_prune : (g.prune id).unkeyed = g.unkeyed.prune id := by
  rw [prune, prune, contains_unkeyed, created_unkeyed, subtree_unkeyed]
  split
  · exact unkeyed_remove
  · rfl

theorem unkeyed_pruneAll : g.pruneAll.unkeyed = g.unkeyed.pruneAll :=
  ext_node? (by simp) (fun i ↦ by rw [node?_unkeyed, node?_pruneAll, node?_pruneAll]; rfl)
    rfl rfl rfl rfl

/-- A new node is the same whatever its key. -/
theorem unkeyed_insertNode {st : S} {key : Nat} {incoming : Option (Incoming A)} {target : Bool}
    {depth : Nat} : (g.insertNode st key incoming target depth).unkeyed =
      (g.unkeyed.insertNode st 0 incoming target depth).unkeyed := by
  refine ext_node? (by simp) (fun i ↦ ?_) rfl rfl rfl rfl
  rw [node?_unkeyed, node?_insertNode, node?_unkeyed, node?_insertNode, created_unkeyed,
    node?_unkeyed]
  split
  · rfl
  · rw [Option.map_map]
    rfl

/-- Adding a root under one key or another comes to the same graph once keys are dropped. -/
theorem unkeyed_addRoot {st : S} {key : Nat} {target : Bool} :
    (g.addRoot st key target).unkeyed = (g.unkeyed.addRoot st 0 target).unkeyed := by
  have hroots : g.roots ++ [g.created] = g.unkeyed.roots ++ [g.unkeyed.created] := by
    rw [created_unkeyed]
    rfl
  show { (g.insertNode st key none target 0).unkeyed with roots := g.roots ++ [g.created] } = _
  rw [unkeyed_insertNode, hroots]
  rfl

/-- Adding a child under one key or another comes to the same graph once keys are dropped. -/
theorem unkeyed_addChild {parent : NodeId} {action : A} {st : S} {key : Nat} {target : Bool} :
    (g.addChild parent action st key target).map unkeyed =
      (g.unkeyed.addChild parent action st 0 target).map unkeyed := by
  rw [addChild, addChild, node_unkeyed]
  cases g.node parent with
  | error f => rfl
  | ok p =>
    have hlist : ∀ (h : Graph S A) (c : NodeId),
        (h.update parent fun n ↦ { n with children := n.children ++ [c] }).unkeyed =
          h.unkeyed.update parent fun n ↦ { n with children := n.children ++ [c] } :=
      fun _ _ ↦ unkeyed_update fun _ ↦ rfl
    refine congrArg Except.ok ?_
    rw [hlist, hlist, unkeyed_insertNode, created_unkeyed]
    rfl

/-! ### Finding a coverer -/

/-- The first live node, in the order of creation, that may cover `id`. -/
def scanCoverer (g : Graph S A) (leq : S → S → Bool) (id : NodeId) :
    Except Fault (Option NodeId) := do
  let n ← g.node id
  return g.nodeIds.find? fun m ↦ (g.node? m).any (mayCover leq id n.state)

/-- A scan of all nodes for a coverer does not depend on keys. -/
theorem scanCoverer_unkeyed {leq : S → S → Bool} :
    g.unkeyed.scanCoverer leq id = g.scanCoverer leq id := by
  rw [scanCoverer, scanCoverer, node_unkeyed, nodeIds_unkeyed]
  cases g.node id with
  | error f => rfl
  | ok n =>
    refine congrArg Except.ok (congrArg (List.find? · _) (funext fun m ↦ ?_))
    rw [node?_unkeyed, Option.any_map]
    rfl

/-- A partition is the listing of the live nodes, restricted to its key. -/
theorem WellFormed.partition_eq (hg : g.WellFormed) {k : Nat} :
    g.partition k = g.nodeIds.filter fun i ↦ (g.node? i).any fun n ↦ n.key = k := by
  have hids : g.nodeIds.Pairwise (· < ·) := by
    rw [hg.nodeIds_eq]
    exact List.pairwise_lt_range.filter _
  have hfilter := hids.filter fun i ↦ (g.node? i).any fun n ↦ n.key = k
  refine List.Perm.eq_of_pairwise' (hg.indexed.partition_ascending k) hfilter ?_
  refine (List.perm_ext_iff_of_nodup ((hg.indexed.partition_ascending k).imp Nat.ne_of_lt)
    (hfilter.imp Nat.ne_of_lt)).2 fun i ↦ ?_
  rw [hg.indexed.mem_partition, List.mem_filter, hg.nodeIds_eq, List.mem_filter, List.mem_range,
    contains_iff, Option.any_eq_true]
  constructor
  · rintro ⟨n, hn, hkey⟩
    exact ⟨⟨lt_created hn, n, hn⟩, n, hn, decide_eq_true hkey⟩
  · rintro ⟨-, n, hn, hkey⟩
    exact ⟨n, hn, of_decide_eq_true hkey⟩

end Graph

/-- Only states of one key are related by the order, bottom apart, and merging does not lead to
bottom. -/
structure Model.Separates (M : Model S A P) : Prop where
  /-- What is above a state that is not bottom has its key. -/
  key_eq : ∀ {s t}, M.isBottom s = false → M.leq s t = true → M.key s = M.key t
  /-- States that are not bottom merge to one that is not. -/
  merge : ∀ {s t u}, M.merge s t = some u → M.isBottom s = false → M.isBottom t = false →
    M.isBottom u = false

/-- Nodes have the keys of their states, and none is bottom. -/
structure Model.Keyed (M : Model S A P) (g : Graph S A) : Prop where
  /-- The graph is well formed. -/
  wellFormed : g.WellFormed
  /-- The key of a node is that of its state. -/
  key_eq : ∀ {i n}, g.node? i = some n → n.key = M.key n.state
  /-- No state is bottom. -/
  proper : ∀ {i n}, g.node? i = some n → M.isBottom n.state = false

namespace Model.Keyed

variable {M : Model S A P} {g g' : Graph S A} {i id : NodeId} {st : S} {target : Bool}

/-- **Partitions lose no coverer**: the first node of the partition that may cover `id` is the first
of all. -/
theorem findCoverer_eq (hg : M.Keyed g) (hM : M.Separates) :
    g.findCoverer M.leq id = g.scanCoverer M.leq id := by
  rw [Graph.findCoverer, Graph.scanCoverer]
  cases hn : g.node id with
  | error f => rfl
  | ok n =>
    have hn := Graph.node_eq_ok.1 hn
    refine congrArg Except.ok ?_
    rw [hg.wellFormed.partition_eq, List.find?_filter]
    refine List.find?_congr fun i _ ↦ ?_
    cases hm : g.node? i with
    | none => rfl
    | some m =>
      rw [Option.any_some, Option.any_some, Bool.eq_iff_iff, decide_eq_true_eq, decide_eq_true_eq,
        and_iff_right_iff_imp]
      -- what may cover the node is above its state
      intro hmay
      have hleq : M.leq n.state m.state = true := (Bool.and_eq_true_iff.1 hmay).2
      rw [hg.key_eq hm, hg.key_eq hn, hM.key_eq (hg.proper hn) hleq]

/-! ### What keeps the keys -/

theorem empty : M.Keyed (.empty : Graph S A) :=
  ⟨Graph.wellFormed_empty, fun h ↦ by simp at h, fun h ↦ by simp at h⟩

/-- A change after which every node is new, or has the state and the key of one that was there. -/
theorem of_forall (hg : M.Keyed g) (hwf : g'.WellFormed)
    (h : ∀ {i m}, g'.node? i = some m → (m.key = M.key m.state ∧ M.isBottom m.state = false) ∨
      ∃ n, g.node? i = some n ∧ m.state = n.state ∧ m.key = n.key) : M.Keyed g' where
  wellFormed := hwf
  key_eq hm := by
    obtain ⟨hkey, -⟩ | ⟨n, hn, hstate, hkey⟩ := h hm
    · exact hkey
    · rw [hkey, hstate, hg.key_eq hn]
  proper hm := by
    obtain ⟨-, hproper⟩ | ⟨n, hn, hstate, -⟩ := h hm
    · exact hproper
    · rw [hstate, hg.proper hn]

/-- A root that is added under the key of its state keeps the graph keyed. -/
theorem addRoot (hg : M.Keyed g) (hst : M.isBottom st = false) :
    M.Keyed (g.addRoot st (M.key st) target) := by
  refine hg.of_forall hg.wellFormed.addRoot fun {i m} hm ↦ ?_
  rw [Graph.node?_addRoot] at hm
  split at hm
  · obtain rfl := Option.some.inj hm
    exact .inl ⟨rfl, hst⟩
  · exact .inr ⟨m, hm, rfl, rfl⟩

/-- A child that is added under the key of its state keeps the graph keyed. -/
theorem addChild (hg : M.Keyed g) (hst : M.isBottom st = false) {action : A}
    (h : g.addChild id action st (M.key st) target = .ok g') : M.Keyed g' := by
  refine hg.of_forall (hg.wellFormed.addChild h) fun {i m} hm ↦ ?_
  obtain ⟨p, hp, -⟩ := Graph.eq_of_addChild h
  rw [Graph.node?_addChild hp h] at hm
  split at hm
  · obtain rfl := Option.some.inj hm
    exact .inl ⟨rfl, hst⟩
  · split at hm
    · rename_i hi
      obtain rfl := Option.some.inj hm
      exact .inr ⟨p, hi ▸ hp, rfl, rfl⟩
    · exact .inr ⟨m, hm, rfl, rfl⟩

theorem setExpanded (hg : M.Keyed g) {value : Bool} (h : g.setExpanded id value = .ok g') :
    M.Keyed g' := by
  refine hg.of_forall (hg.wellFormed.setExpanded h) fun {i m} hm ↦ ?_
  rw [Graph.eq_update_of_setExpanded h, Graph.node?_update] at hm
  split at hm
  · obtain ⟨n, hn, rfl⟩ := Option.map_eq_some_iff.1 hm
    exact .inr ⟨n, hn, rfl, rfl⟩
  · exact .inr ⟨m, hm, rfl, rfl⟩

theorem setInitialized (hg : M.Keyed g) {value : Bool} : M.Keyed (g.setInitialized value) :=
  hg.of_forall (hg.wellFormed.setInitialized value) fun {_ m} hm ↦ .inr ⟨m, hm, rfl, rfl⟩

/-- Covering changes no key. -/
theorem cover (hg : M.Keyed g) {coverer : NodeId} (h : g.cover id coverer = .ok g') :
    M.Keyed g' := by
  refine hg.of_forall (hg.wellFormed.cover h) fun {i m} hm ↦ ?_
  obtain ⟨n, hn⟩ := Graph.exists_node?_of_cover h
  obtain ⟨k, hk, rfl⟩ := (Graph.rewrites_cover hn h).1.exists_node? hm
  exact .inr ⟨k, hk, rfl, rfl⟩

/-- What is left of a keyed graph when nodes are removed is keyed. -/
theorem shrinks (hg : M.Keyed g) (h : g.Shrinks g') (hwf : g'.WellFormed) : M.Keyed g' := by
  refine hg.of_forall hwf fun {i m} hm ↦ ?_
  obtain ⟨n, hn, hnm⟩ := h.node? hm
  exact .inr ⟨n, hn, hnm.state, hnm.key⟩

end Model.Keyed

end AbstractionRefinement
