import AbstractionRefinement.Graph.Edit
import AbstractionRefinement.Graph.Query
import Mathlib.Data.List.Basic

/-!
# What a position holds after a change

Every change of a graph is told by what it does to `node?`, one equation for each, and everything
that lists or counts nodes is told by `node?` again: the listing of the live nodes is `node?` read
off at all positions (`nodes_eq`). So a fact about a changed graph is proved position by position,
and the slots are not looked at after this module.

Graphs are compared in the same way. Two graphs are equal if they have created as many nodes, hold
the same nodes and agree on the other indexes (`ext_node?`), so that an equation between graphs is
an equation between lookups.

The lemmas come in pairs, one for `node?` and one for `created`, and those that are equations
without side conditions are simplification rules. Operations that can fail are inverted instead:
from their success follows what was found and what the new graph is. Invariants, which need to know
more about a graph than what is at one position, begin in the next module.
-/

namespace AbstractionRefinement.Graph

variable {S A : Type} {g g' : Graph S A} {i id : NodeId} {n : Node S A}

/-! ### Looking up -/

/-- A lookup succeeds exactly on the nodes of the graph. -/
theorem node_eq_ok : g.node i = .ok n ↔ g.node? i = some n := by
  unfold node required
  cases g.node? i <;> simp

/-- A lookup of a node that is not there is a fault that names its position. -/
theorem node_eq_error (h : g.node? i = none) : g.node i = .error (.missingNode i) := by
  rw [node, h, required]

/-- The position of a node is below the number of nodes that were ever created. -/
theorem lt_created (h : g.node? i = some n) : i < g.created := by
  by_contra hge
  rw [node?, Array.getElem?_eq_none (by simpa [created] using hge)] at h
  cases h

theorem node?_eq_none (h : g.created ≤ i) : g.node? i = none := by
  rw [node?, Array.getElem?_eq_none h]
  rfl

/-- A graph contains a position if a node is there. -/
theorem contains_iff : g.contains i = true ↔ ∃ n, g.node? i = some n :=
  Option.isSome_iff_exists

@[simp] theorem node?_empty : (empty : Graph S A).node? i = none := rfl

@[simp] theorem created_empty : (empty : Graph S A).created = 0 := rfl

/-! ### Listings -/

/-- **The live nodes, read off position by position.** -/
theorem nodes_eq : g.nodes = (List.range g.created).filterMap g.node? := by
  have hslots : g.slots.toList = (List.range g.created).map fun i ↦ (g.slots[i]?).join := by
    refine List.ext_getElem (by simp [created]) fun i hi hi' ↦ ?_
    have hlt : i < g.slots.size := by simpa using hi
    simp [hlt]
  rw [nodes, hslots, List.filterMap_map]
  rfl

/-- The nodes that are listed are those that can be looked up. -/
theorem mem_nodes : n ∈ g.nodes ↔ ∃ i, g.node? i = some n := by
  rw [nodes_eq, List.mem_filterMap]
  constructor
  · rintro ⟨i, -, h⟩
    exact ⟨i, h⟩
  · rintro ⟨i, h⟩
    exact ⟨i, List.mem_range.2 (lt_created h), h⟩

theorem childrenOf_eq (h : g.node? i = some n) : g.childrenOf i = n.children := by
  rw [childrenOf, h]
  rfl

/-! ### Creation -/

/-- The node that `insertNode` puts into the next slot. -/
def freshNode (id : NodeId) (state : S) (key : Nat) (incoming : Option (Incoming A))
    (target : Bool) (depth : Nat) : Node S A :=
  { id, state, key, incoming, target, depth }

/-- An inserted node takes the next position, and no other node changes. -/
theorem node?_insertNode {state : S} {key : Nat} {incoming : Option (Incoming A)} {target : Bool}
    {depth : Nat} : (g.insertNode state key incoming target depth).node? i =
      if i = g.created then some (freshNode i state key incoming target depth)
      else g.node? i := by
  rw [insertNode, node?, Array.getElem?_push]
  by_cases h : i = g.created
  · rw [if_pos h, if_pos (show i = g.slots.size from h), h]
    rfl
  · rw [if_neg h, if_neg (show ¬i = g.slots.size from h)]
    rfl

@[simp] theorem created_insertNode {state : S} {key : Nat} {incoming : Option (Incoming A)}
    {target : Bool} {depth : Nat} :
    (g.insertNode state key incoming target depth).created = g.created + 1 := by
  simp [insertNode, created]

/-- A root takes the next position, and no other node changes. -/
theorem node?_addRoot {state : S} {key : Nat} {target : Bool} :
    (g.addRoot state key target).node? i =
      if i = g.created then some (freshNode i state key none target 0) else g.node? i :=
  node?_insertNode

@[simp] theorem created_addRoot {state : S} {key : Nat} {target : Bool} :
    (g.addRoot state key target).created = g.created + 1 :=
  created_insertNode

/-! ### Updates -/

/-- An update changes the node it is about, if it is there, and no other. -/
theorem node?_update {f : Node S A → Node S A} :
    (g.update id f).node? i = if i = id then (g.node? i).map f else g.node? i := by
  rw [update, node?, Array.getElem?_modify]
  by_cases h : id = i
  · rw [if_pos h, if_pos h.symm, node?]
    cases g.slots[i]? with
    | none => rfl
    | some slot => rfl
  · rw [if_neg h, if_neg (Ne.symm h)]
    rfl

@[simp] theorem created_update {f : Node S A → Node S A} : (g.update id f).created = g.created := by
  simp [update, created]

@[simp] theorem roots_update {f : Node S A → Node S A} : (g.update id f).roots = g.roots := rfl

@[simp] theorem partitions_update {f : Node S A → Node S A} :
    (g.update id f).partitions = g.partitions := rfl

@[simp] theorem live_update {f : Node S A → Node S A} : (g.update id f).live = g.live := rfl

@[simp] theorem initialized_update {f : Node S A → Node S A} :
    (g.update id f).initialized = g.initialized := rfl

/-- The child joins its parent's list, and that is all that happens to older nodes. -/
theorem node?_addChild {parent : NodeId} {action : A} {state : S} {key : Nat} {target : Bool}
    {p : Node S A} (hp : g.node? parent = some p)
    (h : g.addChild parent action state key target = .ok g') :
    g'.node? i =
      if i = g.created then
        some (freshNode i state key (some ⟨parent, action⟩) target (p.depth + 1))
      else if i = parent then some { p with children := p.children ++ [g.created] }
      else g.node? i := by
  rw [addChild, node_eq_ok.2 hp] at h
  obtain rfl := Except.ok.inj h
  rw [node?_update, node?_insertNode]
  by_cases hi : i = parent
  · have hne : i ≠ g.created := hi ▸ Nat.ne_of_lt (lt_created hp)
    rw [if_pos hi, if_neg hne, if_neg hne, if_pos hi, hi, hp]
    rfl
  · rw [if_neg hi, if_neg hi]

/-- Adding a child uses one position. -/
theorem created_addChild {parent : NodeId} {action : A} {state : S} {key : Nat} {target : Bool}
    (h : g.addChild parent action state key target = .ok g') : g'.created = g.created + 1 := by
  unfold addChild at h
  cases hp : g.node parent with
  | error e => rw [hp] at h; cases h
  | ok p =>
    rw [hp] at h
    obtain rfl := Except.ok.inj h
    simp

/-! ### Marks and links -/

@[simp] theorem node?_setInitialized {value : Bool} :
    (g.setInitialized value).node? i = g.node? i := rfl

@[simp] theorem created_setInitialized {value : Bool} :
    (g.setInitialized value).created = g.created := rfl

/-- A change of one live node, which must be there. -/
theorem eq_update_of_setExpanded {value : Bool} (h : g.setExpanded id value = .ok g') :
    g' = g.update id fun n ↦ { n with expanded := value } := by
  unfold setExpanded at h
  cases hn : g.node id with
  | error e => rw [hn] at h; cases h
  | ok n => rw [hn] at h; exact (Except.ok.inj h).symm

/-- Disabling a node as a coverer changes one of its marks and nothing else. -/
theorem eq_update_of_disableCovering (h : g.disableCovering id = .ok g') :
    g' = g.update id fun n ↦ { n with canCover := false } := by
  unfold disableCovering at h
  cases hn : g.node id with
  | error e => rw [hn] at h; cases h
  | ok n => rw [hn] at h; exact (Except.ok.inj h).symm

/-! ### Removal -/

/-- Removal empties the slots of the removed nodes and detaches the others from them. -/
theorem node?_remove {removed : List NodeId} {cut : NodeId} :
    (g.remove removed cut).node? i = (g.node? i).bind fun n ↦
      if removed.contains n.id then none else some (detach removed cut n) := by
  rw [remove, node?, Array.getElem?_map, node?]
  cases g.slots[i]? with
  | none => rfl
  | some slot => rfl

@[simp] theorem created_remove {removed : List NodeId} {cut : NodeId} :
    (g.remove removed cut).created = g.created := by
  simp [remove, created]

@[simp] theorem created_prune : (g.prune id).created = g.created := by
  unfold prune
  split
  · exact created_remove
  · rfl

@[simp] theorem node?_pruneAll : g.pruneAll.node? i = none := by
  rw [pruneAll, node?, Array.getElem?_map]
  cases g.slots[i]? <;> rfl

@[simp] theorem created_pruneAll : g.pruneAll.created = g.created := by
  simp [pruneAll, created]

/-! ### Equality -/

/-- A graph is what its positions hold, and its listings. -/
theorem ext_node? (hcreated : g.created = g'.created) (hnode : ∀ i, g.node? i = g'.node? i)
    (hroots : g.roots = g'.roots) (hpartitions : g.partitions = g'.partitions)
    (hlive : g.live = g'.live) (hinitialized : g.initialized = g'.initialized) : g = g' := by
  have hslots : g.slots = g'.slots := by
    refine Array.ext hcreated fun i hi hi' ↦ ?_
    have hi₂ := hnode i
    rw [node?, node?, Array.getElem?_eq_getElem hi, Array.getElem?_eq_getElem hi'] at hi₂
    exact hi₂
  cases g
  cases g'
  simp only at hslots hroots hpartitions hlive hinitialized
  rw [hslots, hroots, hpartitions, hlive, hinitialized]

end AbstractionRefinement.Graph
