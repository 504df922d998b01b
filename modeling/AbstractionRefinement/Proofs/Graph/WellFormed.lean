import AbstractionRefinement.Proofs.Graph.Lookup
import Mathlib.Data.List.Range
import Mathlib.Logic.Relation

/-!
# Well-formed graphs

A graph keeps several indexes beside its nodes. `WellFormed` says that each of them is what the
nodes say it is, in three parts: positions and listings (`Indexed`), parents and children
(`Forest`), and covering links (`Linked`). Listings are described by membership and order: a
strictly ascending list is determined by its members, and holds each of them once.

The three parts are kept apart because most changes touch one of them. A change that leaves the tree
alone (`SameTree`) keeps the first two without looking at them.

Each operation is then shown to keep all three parts. Adding a node is the one place where positions
and listings change by growing: the new position is larger than all others, so the ascending lists
are extended at their ends. The depth of a node is part of the forest, one more than that of its
parent.

The empty graph is well formed, and every operation that succeeds keeps a graph so; an operation
that fails gives no graph. Together this says that every graph which can be built is well formed,
and it is said in this form in `Graph.Edits`. Nothing in this module or after it assumes that a
graph was built by an exploration.
-/

namespace AbstractionRefinement

variable {S A : Type}

/-! ### The parts of a node that never change -/

/-- The node without its marks and covering links. -/
def Node.bare (n : Node S A) : Node S A :=
  { n with coveredBy := none, covers := [], expanded := false, canCover := true }

/-- Two nodes are the same up to coverings and marks if all else about them is. -/
theorem Node.bare_eq_iff {n m : Node S A} : n.bare = m.bare ↔
    n.id = m.id ∧ n.state = m.state ∧ n.key = m.key ∧ n.incoming = m.incoming ∧
      n.children = m.children ∧ n.target = m.target ∧ n.depth = m.depth := by
  simp [Node.bare, Node.mk.injEq]

namespace Graph

variable {g g' : Graph S A} {i id : NodeId} {n : Node S A}

/-! ### The invariant -/

/-- Positions, keys, roots and the number of live nodes are what the nodes say. -/
structure Indexed (g : Graph S A) : Prop where
  /-- A node is at its own position. -/
  id_eq : ∀ {i n}, g.node? i = some n → n.id = i
  /-- The live nodes are counted. -/
  live_eq : g.live = ((List.range g.created).filter g.contains).length
  /-- A partition holds the live nodes of its key. -/
  mem_partition : ∀ {k i}, i ∈ g.partition k ↔ ∃ n, g.node? i = some n ∧ n.key = k
  /-- Partitions are in the order of creation. -/
  partition_ascending : ∀ k, (g.partition k).Pairwise (· < ·)
  /-- The roots are the live nodes without incoming edge. -/
  mem_roots : ∀ {i}, i ∈ g.roots ↔ ∃ n, g.node? i = some n ∧ n.incoming = none
  /-- Roots are in the order of creation. -/
  roots_ascending : g.roots.Pairwise (· < ·)

/-- Parents, children and depths agree. -/
structure Forest (g : Graph S A) : Prop where
  /-- A root is at depth zero. -/
  root_depth : ∀ {i n}, g.node? i = some n → n.incoming = none → n.depth = 0
  /-- Every other node has an older live parent, one level above. -/
  parent : ∀ {i n e}, g.node? i = some n → n.incoming = some e →
    e.parent < i ∧ ∃ p, g.node? e.parent = some p ∧ n.depth = p.depth + 1
  /-- The children of a node are the live nodes that name it as their parent. -/
  mem_children : ∀ {i n}, g.node? i = some n → ∀ {c},
    c ∈ n.children ↔ ∃ m, g.node? c = some m ∧ m.parent? = some i
  /-- Children are in the order of creation. -/
  children_ascending : ∀ {i n}, g.node? i = some n → n.children.Pairwise (· < ·)

/-- Covering links are kept at both ends, between two different live nodes. -/
structure Linked (g : Graph S A) : Prop where
  /-- A node lists exactly the nodes that name it as their coverer. -/
  mem_covers : ∀ {i n}, g.node? i = some n → ∀ {c},
    c ∈ n.covers ↔ ∃ m, g.node? c = some m ∧ m.coveredBy = some i
  /-- And lists each of them once. -/
  covers_nodup : ∀ {i n}, g.node? i = some n → n.covers.Nodup
  /-- The coverer is live, and another node. -/
  coverer : ∀ {i n j}, g.node? i = some n → n.coveredBy = some j →
    j ≠ i ∧ ∃ m, g.node? j = some m

/-- **The representation invariant.** Every index agrees with the nodes. -/
structure WellFormed (g : Graph S A) : Prop where
  /-- Positions and listings. -/
  indexed : g.Indexed
  /-- Parents and children. -/
  forest : g.Forest
  /-- Covering links. -/
  linked : g.Linked

/-- Nothing is wrong with the empty graph. -/
theorem wellFormed_empty : (empty : Graph S A).WellFormed where
  indexed :=
    { id_eq := fun h ↦ by simp at h
      live_eq := rfl
      mem_partition := by simp [partition, show (empty : Graph S A).partitions = .empty from rfl]
      partition_ascending := fun _ ↦ .nil
      mem_roots := by simp [show (empty : Graph S A).roots = [] from rfl]
      roots_ascending := .nil }
  forest := by constructor <;> simp
  linked := by constructor <;> simp

/-! ### Changes of marks and links -/

/-- Two graphs that differ in marks, covering links and `initialized` only. -/
structure SameTree (g g' : Graph S A) : Prop where
  /-- Nodes agree up to marks and links. -/
  bare : ∀ i, (g'.node? i).map Node.bare = (g.node? i).map Node.bare
  /-- The same positions have been used. -/
  created : g'.created = g.created
  /-- The roots are the same. -/
  roots : g'.roots = g.roots
  /-- The partitions are the same. -/
  partitions : g'.partitions = g.partitions
  /-- As many nodes are live. -/
  live : g'.live = g.live

namespace SameTree

theorem symm (h : SameTree g g') : SameTree g' g :=
  ⟨fun i ↦ (h.bare i).symm, h.created.symm, h.roots.symm, h.partitions.symm, h.live.symm⟩

/-- A node of one graph is a node of the other, up to marks and links. -/
theorem node? (h : SameTree g g') (hn : g'.node? i = some n) :
    ∃ m, g.node? i = some m ∧ m.bare = n.bare := by
  have hb := h.bare i
  rw [hn, Option.map_some, eq_comm, Option.map_eq_some_iff] at hb
  exact hb

/-- Graphs of the same tree take the same positions. -/
theorem contains_eq (h : SameTree g g') : g'.contains i = g.contains i := by
  have hb := congrArg Option.isSome (h.bare i)
  rwa [Option.isSome_map, Option.isSome_map] at hb

/-- An update of coverings and marks keeps the tree. -/
theorem update (f : Node S A → Node S A) (hf : ∀ n, (f n).bare = n.bare) :
    SameTree g (g.update id f) where
  bare i := by
    rw [node?_update]
    split
    · cases g.node? i with
      | none => rfl
      | some n => exact congrArg some (hf n)
    · rfl
  created := created_update
  roots := rfl
  partitions := rfl
  live := rfl

/-- **Positions and listings do not depend on marks and links.** -/
theorem indexed (h : SameTree g g') (hg : g.Indexed) : g'.Indexed where
  id_eq {i n} hn := by
    obtain ⟨m, hm, hb⟩ := h.node? hn
    rw [← (Node.bare_eq_iff.1 hb).1]
    exact hg.id_eq hm
  live_eq := by
    rw [h.live, h.created, hg.live_eq]
    exact congrArg List.length (List.filter_congr fun i _ ↦ h.contains_eq.symm)
  mem_partition {k i} := by
    rw [partition, h.partitions]
    refine hg.mem_partition.trans ⟨fun ⟨n, hn, hk⟩ ↦ ?_, fun ⟨n, hn, hk⟩ ↦ ?_⟩
    · obtain ⟨m, hm, hb⟩ := h.symm.node? hn
      exact ⟨m, hm, by rw [(Node.bare_eq_iff.1 hb).2.2.1, hk]⟩
    · obtain ⟨m, hm, hb⟩ := h.node? hn
      exact ⟨m, hm, by rw [(Node.bare_eq_iff.1 hb).2.2.1, hk]⟩
  partition_ascending k := by
    rw [partition, h.partitions]
    exact hg.partition_ascending k
  mem_roots {i} := by
    rw [h.roots]
    refine hg.mem_roots.trans ⟨fun ⟨n, hn, he⟩ ↦ ?_, fun ⟨n, hn, he⟩ ↦ ?_⟩
    · obtain ⟨m, hm, hb⟩ := h.symm.node? hn
      exact ⟨m, hm, by rw [(Node.bare_eq_iff.1 hb).2.2.2.1, he]⟩
    · obtain ⟨m, hm, hb⟩ := h.node? hn
      exact ⟨m, hm, by rw [(Node.bare_eq_iff.1 hb).2.2.2.1, he]⟩
  roots_ascending := h.roots ▸ hg.roots_ascending

/-- **Nor does the forest.** -/
theorem forest (h : SameTree g g') (hg : g.Forest) : g'.Forest where
  root_depth {i n} hn he := by
    obtain ⟨m, hm, hb⟩ := h.node? hn
    obtain ⟨-, -, -, hin, -, -, hd⟩ := Node.bare_eq_iff.1 hb
    rw [← hd]
    exact hg.root_depth hm (hin.trans he)
  parent {i n e} hn he := by
    obtain ⟨m, hm, hb⟩ := h.node? hn
    obtain ⟨-, -, -, hin, -, -, hd⟩ := Node.bare_eq_iff.1 hb
    obtain ⟨hlt, p, hp, hdp⟩ := hg.parent hm (hin.trans he)
    obtain ⟨q, hq, hbq⟩ := h.symm.node? hp
    refine ⟨hlt, q, hq, ?_⟩
    rw [← hd, hdp, (Node.bare_eq_iff.1 hbq).2.2.2.2.2.2]
  mem_children {i n} hn {c} := by
    obtain ⟨m, hm, hb⟩ := h.node? hn
    rw [← (Node.bare_eq_iff.1 hb).2.2.2.2.1]
    refine (hg.mem_children hm).trans ⟨fun ⟨k, hk, he⟩ ↦ ?_, fun ⟨k, hk, he⟩ ↦ ?_⟩
    · obtain ⟨l, hl, hbl⟩ := h.symm.node? hk
      exact ⟨l, hl, by rw [Node.parent?, (Node.bare_eq_iff.1 hbl).2.2.2.1]; exact he⟩
    · obtain ⟨l, hl, hbl⟩ := h.node? hk
      exact ⟨l, hl, by rw [Node.parent?, (Node.bare_eq_iff.1 hbl).2.2.2.1]; exact he⟩
  children_ascending {i n} hn := by
    obtain ⟨m, hm, hb⟩ := h.node? hn
    rw [← (Node.bare_eq_iff.1 hb).2.2.2.2.1]
    exact hg.children_ascending hm

end SameTree

/-- Covering links depend on nothing but `coveredBy` and `covers`. -/
theorem Linked.of_sameLinks (hg : g.Linked)
    (h : ∀ i, (g'.node? i).map (fun n ↦ (n.coveredBy, n.covers)) =
      (g.node? i).map fun n ↦ (n.coveredBy, n.covers)) : g'.Linked := by
  have key : ∀ {g₁ g₂ : Graph S A}, (∀ i, (g₂.node? i).map (fun n ↦ (n.coveredBy, n.covers)) =
      (g₁.node? i).map fun n ↦ (n.coveredBy, n.covers)) → ∀ {i n}, g₂.node? i = some n →
        ∃ m, g₁.node? i = some m ∧ m.coveredBy = n.coveredBy ∧ m.covers = n.covers := by
    intro g₁ g₂ hl i n hn
    have hi := hl i
    rw [hn, Option.map_some, eq_comm, Option.map_eq_some_iff] at hi
    obtain ⟨m, hm, he⟩ := hi
    exact ⟨m, hm, congrArg Prod.fst he, congrArg Prod.snd he⟩
  refine ⟨fun hn ↦ ?_, fun hn ↦ ?_, fun hn hj ↦ ?_⟩
  · intro c
    obtain ⟨m, hm, -, hc⟩ := key h hn
    rw [← hc]
    refine (hg.mem_covers hm).trans ⟨fun ⟨k, hk, hb⟩ ↦ ?_, fun ⟨k, hk, hb⟩ ↦ ?_⟩
    · obtain ⟨l, hl, hlb, -⟩ := key (fun i ↦ (h i).symm) hk
      exact ⟨l, hl, hlb.trans hb⟩
    · obtain ⟨l, hl, hlb, -⟩ := key h hk
      exact ⟨l, hl, hlb.trans hb⟩
  · obtain ⟨m, hm, -, hc⟩ := key h hn
    exact hc ▸ hg.covers_nodup hm
  · obtain ⟨m, hm, hb, -⟩ := key h hn
    obtain ⟨hne, k, hk⟩ := hg.coverer hm (hb.trans hj)
    obtain ⟨l, hl, -⟩ := key (fun i ↦ (h i).symm) hk
    exact ⟨hne, l, hl⟩

/-- A change of one node that keeps the tree and the links. -/
theorem WellFormed.update (hg : g.WellFormed) (f : Node S A → Node S A)
    (hf : ∀ n, (f n).bare = n.bare ∧ (f n).coveredBy = n.coveredBy ∧ (f n).covers = n.covers) :
    (g.update id f).WellFormed := by
  have htree : SameTree g (g.update id f) := .update f fun n ↦ (hf n).1
  refine ⟨htree.indexed hg.indexed, htree.forest hg.forest, hg.linked.of_sameLinks fun i ↦ ?_⟩
  rw [node?_update]
  split
  · cases g.node? i with
    | none => rfl
    | some n => exact congrArg some (Prod.ext (hf n).2.1 (hf n).2.2)
  · rfl

/-- Marking a node as expanded keeps a graph well formed. -/
theorem WellFormed.setExpanded (hg : g.WellFormed) {value : Bool}
    (h : g.setExpanded id value = .ok g') : g'.WellFormed := by
  rw [eq_update_of_setExpanded h]
  exact hg.update _ fun _ ↦ ⟨rfl, rfl, rfl⟩

/-- Taking a node the right to cover keeps a graph well formed. -/
theorem WellFormed.disableCovering (hg : g.WellFormed) (h : g.disableCovering id = .ok g') :
    g'.WellFormed := by
  rw [eq_update_of_disableCovering h]
  exact hg.update _ fun _ ↦ ⟨rfl, rfl, rfl⟩

theorem WellFormed.setInitialized (hg : g.WellFormed) (value : Bool) :
    (g.setInitialized value).WellFormed := by
  have htree : SameTree g (g.setInitialized value) := ⟨fun _ ↦ rfl, rfl, rfl, rfl, rfl⟩
  exact ⟨htree.indexed hg.indexed, htree.forest hg.forest, hg.linked.of_sameLinks fun _ ↦ rfl⟩

/-! ### Creation -/

/-- An inserted node is put at the end of the partition of its key. -/
theorem partition_insertNode {state : S} {key k : Nat} {incoming : Option (Incoming A)}
    {target : Bool} {depth : Nat} :
    (g.insertNode state key incoming target depth).partition k =
      if k = key then g.partition k ++ [g.created] else g.partition k := by
  rw [insertNode, partition, IndexMap.find?_insert]
  by_cases h : k = key
  · rw [if_pos h, if_pos h, h]
    rfl
  · rw [if_neg h, if_neg h]
    rfl

/-- An inserted node takes one position more. -/
theorem contains_insertNode {state : S} {key : Nat} {incoming : Option (Incoming A)}
    {target : Bool} {depth : Nat} :
    (g.insertNode state key incoming target depth).contains i =
      (decide (i = g.created) || g.contains i) := by
  rw [contains, contains, node?_insertNode]
  by_cases h : i = g.created <;> simp [h]

/-- A new node takes its place behind all others, in its partition and in the count. -/
theorem Indexed.insertNode (hg : g.Indexed) (state : S) (key : Nat)
    (incoming : Option (Incoming A)) (target : Bool) (depth : Nat) :
    (g.insertNode state key incoming target depth).live =
        ((List.range (g.created + 1)).filter
          (g.insertNode state key incoming target depth).contains).length ∧
      (∀ {k i}, i ∈ (g.insertNode state key incoming target depth).partition k ↔
        ∃ n, (g.insertNode state key incoming target depth).node? i = some n ∧ n.key = k) ∧
      ∀ k, ((g.insertNode state key incoming target depth).partition k).Pairwise (· < ·) := by
  refine ⟨?_, fun {k i} ↦ ?_, fun k ↦ ?_⟩
  · have hold : (List.range g.created).filter
        (g.insertNode state key incoming target depth).contains =
          (List.range g.created).filter g.contains :=
      List.filter_congr fun i hi ↦ by
        rw [contains_insertNode, decide_eq_false (Nat.ne_of_lt (List.mem_range.1 hi)),
          Bool.false_or]
    have hnew : (g.insertNode state key incoming target depth).contains g.created = true := by
      rw [contains_insertNode, decide_eq_true rfl, Bool.true_or]
    rw [List.range_succ, List.filter_append, hold, List.length_append, ← hg.live_eq,
      List.filter_singleton, hnew]
    rfl
  · rw [partition_insertNode, node?_insertNode]
    by_cases hi : i = g.created
    · have hout : i ∉ g.partition k := fun hmem ↦ by
        obtain ⟨n, hn, -⟩ := hg.mem_partition.1 hmem
        exact Nat.ne_of_lt (lt_created hn) hi
      by_cases hk : k = key
      · simp [hk, hi, freshNode]
      · simp [hk, hi ▸ hout, hi, freshNode, Ne.symm hk]
    · rw [if_neg hi, ← hg.mem_partition]
      by_cases hk : k = key <;> simp [hk, hi]
  · rw [partition_insertNode]
    by_cases hk : k = key
    · rw [if_pos hk]
      refine List.pairwise_append.2 ⟨hg.partition_ascending k, List.pairwise_singleton _ _, ?_⟩
      intro j hj c hc
      obtain ⟨n, hn, -⟩ := hg.mem_partition.1 hj
      rw [List.mem_singleton.1 hc]
      exact lt_created hn
    · rw [if_neg hk]
      exact hg.partition_ascending k

/-- No link leads to a position that has not been used. -/
theorem Linked.none_of_fresh (hg : g.Linked) (hn : g.node? i = some n) :
    n.coveredBy ≠ some g.created ∧ g.created ∉ n.covers := by
  constructor
  · intro hj
    obtain ⟨-, m, hm⟩ := hg.coverer hn hj
    exact Nat.lt_irrefl _ (lt_created hm)
  · intro hc
    obtain ⟨m, hm, -⟩ := (hg.mem_covers hn).1 hc
    exact Nat.lt_irrefl _ (lt_created hm)

/-- A new node has no covering links, and old nodes keep theirs. -/
theorem Linked.insert (hg : g.Linked) {m : Node S A} (hm : m.coveredBy = none ∧ m.covers = [])
    (hnew : g'.node? g.created = some m)
    (hold : ∀ i, i ≠ g.created → (g'.node? i).map (fun n ↦ (n.coveredBy, n.covers)) =
      (g.node? i).map fun n ↦ (n.coveredBy, n.covers)) : g'.Linked := by
  have key : ∀ {i n}, i ≠ g.created → g'.node? i = some n →
      ∃ k, g.node? i = some k ∧ k.coveredBy = n.coveredBy ∧ k.covers = n.covers := by
    intro i n hi hn
    have h := hold i hi
    rw [hn, Option.map_some, eq_comm, Option.map_eq_some_iff] at h
    obtain ⟨k, hk, he⟩ := h
    exact ⟨k, hk, congrArg Prod.fst he, congrArg Prod.snd he⟩
  have back : ∀ {i n}, g.node? i = some n →
      ∃ k, g'.node? i = some k ∧ k.coveredBy = n.coveredBy ∧ k.covers = n.covers := by
    intro i n hn
    have h := hold i (Nat.ne_of_lt (lt_created hn))
    rw [hn, Option.map_some, Option.map_eq_some_iff] at h
    obtain ⟨k, hk, he⟩ := h
    exact ⟨k, hk, congrArg Prod.fst he, congrArg Prod.snd he⟩
  -- whoever is covered, or covers, is an old node
  have covered_iff : ∀ {c j}, (∃ k, g'.node? c = some k ∧ k.coveredBy = some j) ↔
      ∃ k, g.node? c = some k ∧ k.coveredBy = some j := by
    intro c j
    constructor
    · rintro ⟨k, hk, hb⟩
      by_cases hc : c = g.created
      · rw [hc, hnew] at hk
        obtain rfl := Option.some.inj hk
        rw [hm.1] at hb
        cases hb
      · obtain ⟨l, hl, hlb, -⟩ := key hc hk
        exact ⟨l, hl, hlb.trans hb⟩
    · rintro ⟨k, hk, hb⟩
      obtain ⟨l, hl, hlb, -⟩ := back hk
      exact ⟨l, hl, hlb.trans hb⟩
  refine ⟨fun {i n} hn {c} ↦ ?_, fun {i n} hn ↦ ?_, fun {i n j} hn hj ↦ ?_⟩
  · by_cases hi : i = g.created
    · rw [hi, hnew] at hn
      obtain rfl := Option.some.inj hn
      rw [hm.2, hi, covered_iff]
      refine ⟨fun h ↦ (List.not_mem_nil h).elim, fun ⟨k, hk, hb⟩ ↦ ?_⟩
      exact absurd hb (hg.none_of_fresh hk).1
    · obtain ⟨k, hk, -, hc⟩ := key hi hn
      rw [← hc, covered_iff]
      exact hg.mem_covers hk
  · by_cases hi : i = g.created
    · rw [hi, hnew] at hn
      obtain rfl := Option.some.inj hn
      rw [hm.2]
      exact List.nodup_nil
    · obtain ⟨k, hk, -, hc⟩ := key hi hn
      exact hc ▸ hg.covers_nodup hk
  · obtain ⟨k, hk, hb⟩ := covered_iff.1 ⟨n, hn, hj⟩
    obtain ⟨hne, l, hl⟩ := hg.coverer hk hb
    obtain ⟨l', hl', -⟩ := back hl
    exact ⟨hne, l', hl'⟩

/-- A root is entered in the index of its key. -/
theorem Indexed.addRoot (hg : g.Indexed) {state : S} {key : Nat} {target : Bool} :
    (g.addRoot state key target).Indexed := by
  have hroots : (g.addRoot state key target).roots = g.roots ++ [g.created] := rfl
  obtain ⟨hlive, hmem, hasc⟩ := hg.insertNode state key none target 0
  refine ⟨fun {i n} hn ↦ ?_, ?_, hmem, hasc, fun {i} ↦ ?_, ?_⟩
  · rw [node?_addRoot] at hn
    split at hn
    · exact Option.some.inj hn ▸ rfl
    · exact hg.id_eq hn
  · rw [created_addRoot]
    exact hlive
  · rw [hroots, List.mem_append, List.mem_singleton, node?_addRoot, hg.mem_roots]
    by_cases hi : i = g.created
    · rw [if_pos hi]
      exact ⟨fun _ ↦ ⟨_, rfl, rfl⟩, fun _ ↦ .inr hi⟩
    · rw [if_neg hi]
      exact ⟨fun h ↦ h.resolve_right hi, .inl⟩
  · rw [hroots]
    refine List.pairwise_append.2 ⟨hg.roots_ascending, List.pairwise_singleton _ _, ?_⟩
    intro j hj c hc
    obtain ⟨n, hn, -⟩ := hg.mem_roots.1 hj
    rw [List.mem_singleton.1 hc]
    exact lt_created hn

/-- No node names a position as its parent that has not been used. -/
theorem Forest.parent_ne_created (hg : g.Forest) (hn : g.node? i = some n) :
    n.parent? ≠ some g.created := by
  intro he
  obtain ⟨e, hinc, hpar⟩ := Option.map_eq_some_iff.1 he
  obtain ⟨-, p, hp, -⟩ := hg.parent hn hinc
  exact Nat.lt_irrefl _ (hpar ▸ lt_created hp)

/-- A root makes a tree of its own. -/
theorem Forest.addRoot (hg : g.Forest) {state : S} {key : Nat} {target : Bool} :
    (g.addRoot state key target).Forest := by
  -- a root is nobody's child
  have hchild : ∀ {c i}, (∃ m, (g.addRoot state key target).node? c = some m ∧
      m.parent? = some i) ↔ ∃ m, g.node? c = some m ∧ m.parent? = some i := by
    intro c i
    rw [node?_addRoot]
    by_cases hc : c = g.created
    · rw [if_pos hc, hc, node?_eq_none (Nat.le_refl _)]
      simp [freshNode, Node.parent?]
    · rw [if_neg hc]
  refine ⟨fun {i n} hn he ↦ ?_, fun {i n e} hn he ↦ ?_, fun {i n} hn {c} ↦ ?_,
    fun {i n} hn ↦ ?_⟩
  · rw [node?_addRoot] at hn
    split at hn
    · exact Option.some.inj hn ▸ rfl
    · exact hg.root_depth hn he
  · rw [node?_addRoot] at hn
    split at hn
    · rw [← Option.some.inj hn] at he
      cases he
    · obtain ⟨hlt, p, hp, hd⟩ := hg.parent hn he
      refine ⟨hlt, p, ?_, hd⟩
      rw [node?_addRoot, if_neg (Nat.ne_of_lt (lt_created hp)), hp]
  · rw [hchild]
    rw [node?_addRoot] at hn
    split at hn
    · rename_i hi
      rw [← Option.some.inj hn]
      refine ⟨fun h ↦ (List.not_mem_nil h).elim, fun ⟨m, hm, he⟩ ↦ ?_⟩
      exact absurd (hi ▸ he) (hg.parent_ne_created hm)
    · exact hg.mem_children hn
  · rw [node?_addRoot] at hn
    split at hn
    · rw [← Option.some.inj hn]
      exact .nil
    · exact hg.children_ascending hn

/-- **Adding a root keeps a graph well formed.** -/
theorem WellFormed.addRoot (hg : g.WellFormed) {state : S} {key : Nat} {target : Bool} :
    (g.addRoot state key target).WellFormed where
  indexed := hg.indexed.addRoot
  forest := hg.forest.addRoot
  linked := by
    refine hg.linked.insert (m := freshNode g.created state key none target 0) ⟨rfl, rfl⟩ ?_ ?_
    · rw [node?_addRoot, if_pos rfl]
    · intro i hi
      rw [node?_addRoot, if_neg hi]

section AddChild

variable {parent : NodeId} {action : A} {state : S} {key : Nat} {target : Bool} {p : Node S A}

/-- Adding a child is inserting a node and entering it in the list of its parent. -/
theorem eq_of_addChild (h : g.addChild parent action state key target = .ok g') :
    ∃ p, g.node? parent = some p ∧
      g' = (g.insertNode state key (some ⟨parent, action⟩) target (p.depth + 1)).update parent
        fun n ↦ { n with children := n.children ++ [g.created] } := by
  unfold addChild at h
  cases hp : g.node parent with
  | error e => rw [hp] at h; cases h
  | ok p =>
    rw [hp] at h
    exact ⟨p, node_eq_ok.1 hp, (Except.ok.inj h).symm⟩

/-- An old node keeps everything but, if it is the parent, its children. -/
theorem old_of_addChild (hp : g.node? parent = some p)
    (h : g.addChild parent action state key target = .ok g') (hi : i ≠ g.created)
    (hn : g'.node? i = some n) : ∃ m, g.node? i = some m ∧
      n = { m with children := if i = parent then m.children ++ [g.created] else m.children } := by
  rw [node?_addChild hp h, if_neg hi] at hn
  split at hn
  · rename_i hip
    exact ⟨p, hip ▸ hp, by rw [if_pos hip]; exact (Option.some.inj hn).symm⟩
  · rename_i hip
    exact ⟨n, hn, by rw [if_neg hip]⟩

/-- A child is entered in the index of its key. -/
theorem Indexed.addChild (hg : g.Indexed)
    (h : g.addChild parent action state key target = .ok g') : g'.Indexed := by
  obtain ⟨p, hp, hg'⟩ := eq_of_addChild h
  have hnode := fun i ↦ node?_addChild (i := i) hp h
  obtain ⟨hlive, hmem, hasc⟩ :=
    hg.insertNode state key (some ⟨parent, action⟩) target (p.depth + 1)
  have hcontains : g'.contains = (g.insertNode state key (some ⟨parent, action⟩) target
      (p.depth + 1)).contains := by
    funext i
    rw [contains, hg', node?_update]
    split <;> simp [contains]
  refine ⟨fun {i n} hn ↦ ?_, ?_, fun {k i} ↦ ?_, fun k ↦ ?_, fun {i} ↦ ?_, ?_⟩
  · by_cases hi : i = g.created
    · rw [hnode, if_pos hi] at hn
      exact Option.some.inj hn ▸ rfl
    · obtain ⟨m, hm, rfl⟩ := old_of_addChild hp h hi hn
      show m.id = i
      exact hg.id_eq hm
  · rw [created_addChild h, hcontains, ← hlive, hg']
    rfl
  · have hpart : g'.partition k = (g.insertNode state key (some ⟨parent, action⟩) target
        (p.depth + 1)).partition k := by rw [hg']; rfl
    rw [hpart, hmem, hnode, node?_insertNode]
    by_cases hi : i = g.created
    · rw [if_pos hi, if_pos hi]
    · rw [if_neg hi, if_neg hi]
      by_cases hip : i = parent
      · rw [if_pos hip, hip, hp]
        simp
      · rw [if_neg hip]
  · rw [hg']
    exact hasc k
  · have hroots : g'.roots = g.roots := by rw [hg']; rfl
    rw [hroots, hg.mem_roots, hnode]
    by_cases hi : i = g.created
    · rw [if_pos hi, hi, node?_eq_none (Nat.le_refl _)]
      simp [freshNode]
    · rw [if_neg hi]
      by_cases hip : i = parent
      · rw [if_pos hip, hip, hp]
        simp
      · rw [if_neg hip]
  · rw [hg']
    exact hg.roots_ascending

/-- A child hangs below its parent, one level deeper. -/
theorem Forest.addChild (hg : g.Forest)
    (h : g.addChild parent action state key target = .ok g') : g'.Forest := by
  obtain ⟨p, hp, -⟩ := eq_of_addChild h
  have hnode := fun i ↦ node?_addChild (i := i) hp h
  have hparent : parent ≠ g.created := Nat.ne_of_lt (lt_created hp)
  -- the new node is the parent's child, and otherwise childhood is as before
  have hchild : ∀ {c i}, (∃ m, g'.node? c = some m ∧ m.parent? = some i) ↔
      (c = g.created ∧ i = parent) ∨ ∃ m, g.node? c = some m ∧ m.parent? = some i := by
    intro c i
    rw [hnode]
    by_cases hc : c = g.created
    · rw [if_pos hc, hc, node?_eq_none (Nat.le_refl _)]
      simp [freshNode, Node.parent?, eq_comm]
    · rw [if_neg hc]
      by_cases hcp : c = parent
      · rw [if_pos hcp, hcp, hp]
        simp [hparent, Node.parent?]
      · rw [if_neg hcp]
        simp [hc]
  refine ⟨fun {i n} hn he ↦ ?_, fun {i n e} hn he ↦ ?_, fun {i n} hn {c} ↦ ?_,
    fun {i n} hn ↦ ?_⟩
  · by_cases hi : i = g.created
    · rw [hnode, if_pos hi] at hn
      rw [← Option.some.inj hn] at he
      cases he
    · obtain ⟨m, hm, rfl⟩ := old_of_addChild hp h hi hn
      show m.depth = 0
      exact hg.root_depth hm he
  · by_cases hi : i = g.created
    · rw [hnode, if_pos hi] at hn
      rw [← Option.some.inj hn] at he ⊢
      obtain rfl := Option.some.inj he
      refine ⟨hi ▸ lt_created hp, { p with children := p.children ++ [g.created] }, ?_, rfl⟩
      rw [hnode, if_neg hparent, if_pos rfl]
    · obtain ⟨m, hm, rfl⟩ := old_of_addChild hp h hi hn
      obtain ⟨hlt, q, hq, hd⟩ := hg.parent hm he
      refine ⟨hlt, ?_⟩
      by_cases hqp : e.parent = parent
      · rw [hqp, hp] at hq
        obtain rfl := Option.some.inj hq
        refine ⟨{ p with children := p.children ++ [g.created] }, ?_, hd⟩
        rw [hnode, hqp, if_neg hparent, if_pos rfl]
      · refine ⟨q, ?_, hd⟩
        rw [hnode, if_neg (Nat.ne_of_lt (lt_created hq)), if_neg hqp, hq]
  · rw [hchild]
    by_cases hi : i = g.created
    · rw [hnode, if_pos hi] at hn
      rw [← Option.some.inj hn]
      refine ⟨fun hc ↦ (List.not_mem_nil hc).elim, ?_⟩
      rintro (⟨-, hip⟩ | ⟨m, hm, he⟩)
      · exact absurd (hip.symm.trans hi) hparent
      · exact absurd (hi ▸ he) (hg.parent_ne_created hm)
    · obtain ⟨m, hm, rfl⟩ := old_of_addChild hp h hi hn
      rw [← hg.mem_children hm]
      by_cases hip : i = parent
      · simp [hip, or_comm]
      · simp [hip]
  · by_cases hi : i = g.created
    · rw [hnode, if_pos hi] at hn
      rw [← Option.some.inj hn]
      exact .nil
    · obtain ⟨m, hm, rfl⟩ := old_of_addChild hp h hi hn
      by_cases hip : i = parent
      · simp only [if_pos hip]
        refine List.pairwise_append.2 ⟨hg.children_ascending hm,
          List.pairwise_singleton _ _, ?_⟩
        intro j hj c hc
        obtain ⟨k, hk, -⟩ := (hg.mem_children hm).1 hj
        rw [List.mem_singleton.1 hc]
        exact lt_created hk
      · simp only [if_neg hip]
        exact hg.children_ascending hm

/-- **Adding a child keeps a graph well formed.** -/
theorem WellFormed.addChild (hg : g.WellFormed)
    (h : g.addChild parent action state key target = .ok g') : g'.WellFormed where
  indexed := hg.indexed.addChild h
  forest := hg.forest.addChild h
  linked := by
    obtain ⟨p, hp, -⟩ := eq_of_addChild h
    refine hg.linked.insert (m := freshNode g.created state key (some ⟨parent, action⟩) target
      (p.depth + 1)) ⟨rfl, rfl⟩ ?_ ?_
    · rw [node?_addChild hp h, if_pos rfl]
    · intro i hi
      rw [node?_addChild hp h, if_neg hi]
      split
      · rename_i hip
        rw [hip, hp]
        rfl
      · rfl

end AddChild

end Graph

end AbstractionRefinement
