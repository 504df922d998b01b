import AbstractionRefinement.Proofs.Graph.Covering
import Mathlib.Logic.Relation

/-!
# Pruning keeps a graph well formed

`Below` is the ancestry of the forest, read off parent links. The list that pruning computes from
children's lists holds exactly what is below the node, each once (`mem_subtree_created`,
`nodup_subtree`): a child is younger than its parent, so the number of slots bounds every descent,
and a node has one parent, so descents from two siblings do not meet.

What is removed is closed under children, and of its members only the topmost has a parent outside.
This is why one node loses one child, and why every other index only forgets removed nodes.

The proof that pruning keeps a graph well formed therefore has one argument for each part. The
listings are filtered by what stays, and filtering keeps a list ascending. The forest loses a set
that is closed under children, so every node that stays has its parent, or is a root. The links lose
both of their ends together, because a link is dropped as soon as one of its ends is removed.

How many nodes are removed is needed for the count of live nodes, and this is why the list of the
subtree must hold each of them once.
-/

namespace AbstractionRefinement.Graph

variable {S A : Type} {g : Graph S A} {a c i x : NodeId} {n : Node S A}

/-! ### Ancestry -/

/-- The second node is live and names the first as its parent. -/
def IsChild (g : Graph S A) (p c : NodeId) : Prop := ∃ n, g.node? c = some n ∧ n.parent? = some p

/-- The second node is the first, or a child of one below the first. -/
def Below (g : Graph S A) : NodeId → NodeId → Prop := Relation.ReflTransGen g.IsChild

/-- A child is made after its parent. -/
theorem Forest.lt_of_isChild (hg : g.Forest) (h : g.IsChild a c) : a < c := by
  obtain ⟨n, hn, he⟩ := h
  obtain ⟨e, hinc, rfl⟩ := Option.map_eq_some_iff.1 he
  exact (hg.parent hn hinc).1

/-- What is below a node is not made before it. -/
theorem Forest.le_of_below (hg : g.Forest) (h : g.Below a x) : a ≤ x := by
  induction h with
  | refl => exact Nat.le_refl _
  | tail _ hc ih => exact Nat.le_trans ih (Nat.le_of_lt (hg.lt_of_isChild hc))

/-- What is below a node of the graph is a node of the graph. -/
theorem Below.exists_node? (h : g.Below a x) (ha : g.node? a = some n) :
    ∃ m, g.node? x = some m := by
  cases h with
  | refl => exact ⟨n, ha⟩
  | tail _ hc =>
    obtain ⟨m, hm, -⟩ := hc
    exact ⟨m, hm⟩

/-- A node has one parent at most. -/
theorem IsChild.parent_unique {b : NodeId} (h : g.IsChild a c) (h' : g.IsChild b c) : a = b := by
  obtain ⟨n, hn, he⟩ := h
  obtain ⟨m, hm, he'⟩ := h'
  obtain rfl := Option.some.inj (hn.symm.trans hm)
  exact Option.some.inj (he.symm.trans he')

/-- **Ancestors of one node are comparable**, since a node has one parent. -/
theorem Below.total {b : NodeId} (ha : g.Below a x) (hb : g.Below b x) :
    g.Below a b ∨ g.Below b a := by
  induction ha with
  | refl => exact .inr hb
  | @tail p x hap hpx ih =>
    rcases Relation.ReflTransGen.cases_tail hb with rfl | ⟨q, hbq, hqx⟩
    · exact .inl (hap.tail hpx)
    · obtain rfl := hpx.parent_unique hqx
      exact ih hbq

/-! ### The list of what is removed -/

/-- The children that are listed are the nodes whose parent it is. -/
theorem WellFormed.mem_childrenOf (hg : g.WellFormed) (ha : g.node? a = some n) :
    c ∈ g.childrenOf a ↔ g.IsChild a c := by
  rw [childrenOf_eq ha, hg.forest.mem_children ha]
  rfl

/-- What the subtree lists is below its root. -/
theorem WellFormed.below_of_mem_subtree (hg : g.WellFormed) {levels : Nat}
    (ha : g.node? a = some n) (hx : x ∈ g.subtree levels a) : g.Below a x := by
  induction levels generalizing a n with
  | zero =>
    rw [subtree, List.mem_singleton] at hx
    exact hx ▸ .refl
  | succ levels ih =>
    rw [subtree, List.mem_cons, List.mem_flatMap] at hx
    rcases hx with rfl | ⟨c, hc, hx⟩
    · exact .refl
    · obtain ⟨m, hm, he⟩ := (hg.mem_childrenOf ha).1 hc
      exact .head ⟨m, hm, he⟩ (ih hm hx)

/-- The subtree lists all that is below its root, as far as its levels reach. -/
theorem WellFormed.mem_subtree_of_below (hg : g.WellFormed) {levels : Nat}
    (ha : g.node? a = some n) (h : g.Below a x) (hle : x ≤ a + levels) :
    x ∈ g.subtree levels a := by
  induction h using Relation.ReflTransGen.head_induction_on generalizing levels n with
  | refl => cases levels <;> exact List.mem_cons_self
  | @head a c hac hcx ih =>
    have hlt := hg.forest.lt_of_isChild hac
    have hcle := hg.forest.le_of_below hcx
    obtain ⟨k, rfl⟩ : ∃ k, levels = k + 1 := ⟨levels - 1, by grind⟩
    rw [subtree, List.mem_cons, List.mem_flatMap]
    obtain ⟨m, hm, -⟩ := id hac
    exact .inr ⟨c, (hg.mem_childrenOf ha).2 hac, ih hm (by grind)⟩

/-- **What pruning removes**: everything below the node. -/
theorem WellFormed.mem_subtree_created (hg : g.WellFormed) (ha : g.node? a = some n) :
    x ∈ g.subtree g.created a ↔ g.Below a x := by
  refine ⟨hg.below_of_mem_subtree ha, fun h ↦ hg.mem_subtree_of_below ha h ?_⟩
  obtain ⟨m, hm⟩ := h.exists_node? ha
  have := lt_created hm
  grind

/-- **Each once.** -/
theorem WellFormed.nodup_subtree (hg : g.WellFormed) {levels : Nat} (ha : g.node? a = some n) :
    (g.subtree levels a).Nodup := by
  induction levels generalizing a n with
  | zero => exact List.nodup_singleton a
  | succ levels ih =>
    have hlive : ∀ c ∈ g.childrenOf a, ∃ m, g.node? c = some m := fun c hc ↦ by
      obtain ⟨m, hm, -⟩ := (hg.mem_childrenOf ha).1 hc
      exact ⟨m, hm⟩
    rw [subtree, List.nodup_cons, List.nodup_flatMap]
    refine ⟨fun hmem ↦ ?_, fun c hc ↦ ?_, ?_⟩
    · obtain ⟨c, hc, hx⟩ := List.mem_flatMap.1 hmem
      obtain ⟨m, hm⟩ := hlive c hc
      have hle := hg.forest.le_of_below (hg.below_of_mem_subtree hm hx)
      exact absurd (hg.forest.lt_of_isChild ((hg.mem_childrenOf ha).1 hc)) (Nat.not_lt.2 hle)
    · obtain ⟨m, hm⟩ := hlive c hc
      exact ih hm
    · have hasc : (g.childrenOf a).Pairwise (· < ·) := by
        rw [childrenOf_eq ha]
        exact hg.forest.children_ascending ha
      refine hasc.imp_of_mem fun {c d} hc hd hlt ↦ ?_
      intro x hxc hxd
      obtain ⟨m, hm⟩ := hlive c hc
      obtain ⟨k, hk⟩ := hlive d hd
      have hcd : g.Below c d := by
        rcases (hg.below_of_mem_subtree hm hxc).total (hg.below_of_mem_subtree hk hxd) with h | h
        · exact h
        · exact absurd hlt (Nat.not_lt.2 (hg.forest.le_of_below h))
      -- the last step into `d` comes from `a`, which is older than `c`
      rcases Relation.ReflTransGen.cases_tail hcd with rfl | ⟨p, hcp, hpd⟩
      · exact Nat.lt_irrefl _ hlt
      · obtain rfl := hpd.parent_unique ((hg.mem_childrenOf ha).1 hd)
        exact absurd (hg.forest.lt_of_isChild ((hg.mem_childrenOf ha).1 hc))
          (Nat.not_lt.2 (hg.forest.le_of_below hcp))

/-! ### Removal -/

/-- Removal takes the removed nodes out of the partitions. -/
theorem partition_remove {removed : List NodeId} {cut : NodeId} {k : Nat} :
    (g.remove removed cut).partition k = (g.partition k).filter fun m ↦ !removed.contains m := by
  have hfind : ∀ ids, ((g.partitions.mapValues (·.filter fun m ↦ !removed.contains m)).filter
      fun _ ids ↦ !ids.isEmpty).find? k = some ids ↔
        ids = (g.partition k).filter (fun m ↦ !removed.contains m) ∧ ids ≠ [] ∧
          (g.partitions.find? k).isSome := by
    intro ids
    rw [IndexMap.find?_filter_eq_some_iff, IndexMap.find?_mapValues, partition]
    cases g.partitions.find? k with
    | none => simp
    | some l =>
      rw [Option.map_some, Option.some.injEq, eq_comm (b := ids)]
      simp
  rw [partition, remove]
  cases h : ((g.partitions.mapValues (·.filter fun m ↦ !removed.contains m)).filter
      fun _ ids ↦ !ids.isEmpty).find? k with
  | some ids => exact ((hfind ids).1 h).1
  | none =>
    -- an empty partition is dropped, and a missing one is empty
    by_contra hne
    have hne' : (g.partition k).filter (fun m ↦ !removed.contains m) ≠ [] := Ne.symm hne
    have hsome : (g.partitions.find? k).isSome := by
      cases hp : g.partitions.find? k with
      | none => simp [partition, hp] at hne'
      | some l => rfl
    cases h.symm.trans ((hfind _).2 ⟨rfl, hne', hsome⟩)

section Remove

variable {removed : List NodeId} {cut : NodeId} {cutNode : Node S A}

variable (removed cut) in
/-- A survivor is an old node that is not removed, detached from what is. -/
theorem Indexed.node?_remove_iff (hg : g.Indexed) :
    (g.remove removed cut).node? i = some n ↔
      ∃ m, g.node? i = some m ∧ i ∉ removed ∧ n = detach removed cut m := by
  rw [node?_remove, Option.bind_eq_some_iff]
  constructor
  · rintro ⟨m, hm, h⟩
    rw [hg.id_eq hm] at h
    split at h
    · cases h
    · rename_i hout
      exact ⟨m, hm, by simpa using hout, (Option.some.inj h).symm⟩
  · rintro ⟨m, hm, hout, rfl⟩
    refine ⟨m, hm, ?_⟩
    rw [hg.id_eq hm, if_neg (by simpa using hout)]

/-- What is removed is closed under children, so a survivor's parent survives. -/
theorem parent_not_removed (hrem : ∀ i, i ∈ removed ↔ g.Below cut i) {p : NodeId}
    (hpc : g.IsChild p c) (hc : c ∉ removed) : p ∉ removed := fun hp ↦
  hc ((hrem c).2 (((hrem p).1 hp).tail hpc))

/-- The only removed child of a survivor is the topmost of what is removed. -/
theorem eq_cut_of_removed (hrem : ∀ i, i ∈ removed ↔ g.Below cut i) {p : NodeId}
    (hpc : g.IsChild p c) (hp : p ∉ removed) (hc : c ∈ removed) : c = cut := by
  rcases Relation.ReflTransGen.cases_tail ((hrem c).1 hc) with h | ⟨q, hq, hqc⟩
  · exact h
  · obtain rfl := hpc.parent_unique hqc
    exact absurd ((hrem p).2 hq) hp

/-- Removing all that is below a node keeps the index. -/
theorem WellFormed.indexed_remove (hg : g.WellFormed) (hcut : g.node? cut = some cutNode)
    (hrem : ∀ i, i ∈ removed ↔ g.Below cut i) (hnd : removed.Nodup) :
    (g.remove removed cut).Indexed := by
  have hnode := fun {i n} ↦ hg.indexed.node?_remove_iff removed cut (i := i) (n := n)
  refine ⟨fun {i n} hn ↦ ?_, ?_, fun {k i} ↦ ?_, fun k ↦ ?_, fun {i} ↦ ?_, ?_⟩
  · obtain ⟨m, hm, -, rfl⟩ := hnode.1 hn
    show m.id = i
    exact hg.indexed.id_eq hm
  · -- the removed nodes are live and listed once, so as many are gone as the list is long
    have hcontains : ∀ i, (g.remove removed cut).contains i =
        (g.contains i && !removed.contains i) := by
      intro i
      rw [Bool.eq_iff_iff, contains_iff, Bool.and_eq_true, contains_iff]
      constructor
      · rintro ⟨n, hn⟩
        obtain ⟨m, hm, hout, -⟩ := hnode.1 hn
        exact ⟨⟨m, hm⟩, by simpa using hout⟩
      · rintro ⟨⟨m, hm⟩, hout⟩
        exact ⟨_, hnode.2 ⟨m, hm, by simpa using hout, rfl⟩⟩
    have hperm : ((List.range g.created).filter g.contains).filter (removed.contains ·)
        |>.Perm removed := by
      refine (List.perm_ext_iff_of_nodup ((List.nodup_range.filter _).filter _) hnd).2 fun i ↦ ?_
      rw [List.mem_filter, List.mem_filter, List.mem_range, List.contains_iff_mem]
      refine ⟨fun h ↦ h.2, fun h ↦ ?_⟩
      obtain ⟨m, hm⟩ := ((hrem i).1 h).exists_node? hcut
      exact ⟨⟨lt_created hm, contains_iff.2 ⟨m, hm⟩⟩, h⟩
    have hsplit := List.length_eq_length_filter_add (l := (List.range g.created).filter g.contains)
      (removed.contains ·)
    have hrest : (List.range g.created).filter (g.remove removed cut).contains =
        ((List.range g.created).filter g.contains).filter (!removed.contains ·) := by
      rw [List.filter_filter]
      exact List.filter_congr fun i _ ↦ by rw [hcontains, Bool.and_comm]
    have hlive : (g.remove removed cut).live = g.live - removed.length := rfl
    rw [created_remove, hrest, hlive, hg.indexed.live_eq, ← hperm.length_eq]
    omega
  · rw [partition_remove, List.mem_filter, hg.indexed.mem_partition]
    constructor
    · rintro ⟨⟨m, hm, hk⟩, hout⟩
      exact ⟨_, hnode.2 ⟨m, hm, by simpa using hout, rfl⟩, hk⟩
    · rintro ⟨n, hn, hk⟩
      obtain ⟨m, hm, hout, rfl⟩ := hnode.1 hn
      exact ⟨⟨m, hm, hk⟩, by simpa using hout⟩
  · rw [partition_remove]
    exact (hg.indexed.partition_ascending k).filter _
  · have hroots : (g.remove removed cut).roots = g.roots.filter (· != cut) := rfl
    rw [hroots, List.mem_filter, bne_iff_ne, hg.indexed.mem_roots]
    constructor
    · rintro ⟨⟨m, hm, he⟩, hne⟩
      refine ⟨_, hnode.2 ⟨m, hm, fun hr ↦ ?_, rfl⟩, he⟩
      rcases Relation.ReflTransGen.cases_tail ((hrem i).1 hr) with h | ⟨p, -, k, hk, hp⟩
      · exact hne h
      · obtain rfl := Option.some.inj (hm.symm.trans hk)
        rw [Node.parent?, he] at hp
        cases hp
    · rintro ⟨n, hn, he⟩
      obtain ⟨m, hm, hout, rfl⟩ := hnode.1 hn
      exact ⟨⟨m, hm, he⟩, fun h ↦ hout ((hrem i).2 (h ▸ .refl))⟩
  · exact hg.indexed.roots_ascending.filter _

/-- Removing all that is below a node leaves a forest. -/
theorem WellFormed.forest_remove (hg : g.WellFormed)
    (hrem : ∀ i, i ∈ removed ↔ g.Below cut i) : (g.remove removed cut).Forest := by
  have hnode := fun {i n} ↦ hg.indexed.node?_remove_iff removed cut (i := i) (n := n)
  refine ⟨fun {i n} hn he ↦ ?_, fun {i n e} hn he ↦ ?_, fun {i n} hn {c} ↦ ?_, fun {i n} hn ↦ ?_⟩
  · obtain ⟨m, hm, -, rfl⟩ := hnode.1 hn
    show m.depth = 0
    exact hg.forest.root_depth hm he
  · obtain ⟨m, hm, hout, rfl⟩ := hnode.1 hn
    have hinc : m.incoming = some e := he
    obtain ⟨hlt, p, hp, hd⟩ := hg.forest.parent hm hinc
    have hpc : g.IsChild e.parent i := ⟨m, hm, by rw [Node.parent?, hinc]; rfl⟩
    exact ⟨hlt, detach removed cut p,
      hnode.2 ⟨p, hp, parent_not_removed hrem hpc hout, rfl⟩, hd⟩
  · obtain ⟨m, hm, hout, rfl⟩ := hnode.1 hn
    have hchildren : (detach removed cut m).children = m.children.filter (· != cut) := rfl
    rw [hchildren, List.mem_filter, bne_iff_ne, hg.forest.mem_children hm]
    constructor
    · rintro ⟨⟨k, hk, hp⟩, hne⟩
      refine ⟨_, hnode.2 ⟨k, hk, fun hr ↦ hne ?_, rfl⟩, hp⟩
      exact eq_cut_of_removed hrem ⟨k, hk, hp⟩ hout hr
    · rintro ⟨k, hk, hp⟩
      obtain ⟨l, hl, hlout, rfl⟩ := hnode.1 hk
      exact ⟨⟨l, hl, hp⟩, fun h ↦ hlout ((hrem c).2 (h ▸ .refl))⟩
  · obtain ⟨m, hm, -, rfl⟩ := hnode.1 hn
    exact (hg.forest.children_ascending hm).filter _

/-- Removal leaves no link to what is removed. -/
theorem WellFormed.linked_remove (hg : g.WellFormed) : (g.remove removed cut).Linked := by
  have hnode := fun {i n} ↦ hg.indexed.node?_remove_iff removed cut (i := i) (n := n)
  refine ⟨fun {i n} hn {c} ↦ ?_, fun {i n} hn ↦ ?_, fun {i n j} hn hj ↦ ?_⟩
  · obtain ⟨m, hm, hout, rfl⟩ := hnode.1 hn
    have hcovers : (detach removed cut m).covers =
      m.covers.filter fun k ↦ !removed.contains k := rfl
    rw [hcovers, List.mem_filter, hg.linked.mem_covers hm]
    constructor
    · rintro ⟨⟨k, hk, hb⟩, hc⟩
      refine ⟨_, hnode.2 ⟨k, hk, by simpa using hc, rfl⟩, ?_⟩
      simp [detach, hb, hout]
    · rintro ⟨k, hk, hb⟩
      obtain ⟨l, hl, hlout, rfl⟩ := hnode.1 hk
      rw [detach, Option.filter_eq_some_iff] at hb
      exact ⟨⟨l, hl, hb.1⟩, by simpa using hlout⟩
  · obtain ⟨m, hm, -, rfl⟩ := hnode.1 hn
    exact (hg.linked.covers_nodup hm).filter _
  · obtain ⟨m, hm, -, rfl⟩ := hnode.1 hn
    rw [detach, Option.filter_eq_some_iff] at hj
    obtain ⟨hne, k, hk⟩ := hg.linked.coverer hm hj.1
    exact ⟨hne, _, hnode.2 ⟨k, hk, by simpa using hj.2, rfl⟩⟩

end Remove

/-- **Pruning keeps every index in step**, for a whole subtree at once. -/
theorem WellFormed.prune (hg : g.WellFormed) : (g.prune a).WellFormed := by
  unfold Graph.prune
  split
  · rename_i h
    obtain ⟨n, hn⟩ := contains_iff.1 h
    have hrem := fun i ↦ hg.mem_subtree_created hn (x := i)
    exact ⟨hg.indexed_remove hn hrem (hg.nodup_subtree hn), hg.forest_remove hrem,
      hg.linked_remove⟩
  · exact hg

/-- A survivor of pruning is an old node that is not below the pruned one. -/
theorem WellFormed.node?_prune (hg : g.WellFormed) (hn : (g.prune a).node? i = some n) :
    ∃ m, g.node? i = some m ∧ (n = m ∧ g.node? a = none ∨
      ¬g.Below a i ∧ n = detach (g.subtree g.created a) a m ∧ ∃ k, g.node? a = some k) := by
  unfold Graph.prune at hn
  split at hn
  · rename_i h
    obtain ⟨k, hk⟩ := contains_iff.1 h
    obtain ⟨m, hm, hout, rfl⟩ := (hg.indexed.node?_remove_iff _ _).1 hn
    exact ⟨m, hm, .inr ⟨fun hb ↦ hout ((hg.mem_subtree_created hk).2 hb), rfl, k, hk⟩⟩
  · rename_i h
    have hnone : g.node? a = none := Option.not_isSome_iff_eq_none.1 h
    exact ⟨n, hn, .inl ⟨rfl, hnone⟩⟩

/-- The pruned node is gone. -/
theorem WellFormed.node?_prune_self (hg : g.WellFormed) : (g.prune a).node? a = none := by
  cases hn : (g.prune a).node? a with
  | none => rfl
  | some n =>
    obtain ⟨m, hm, ⟨-, hnone⟩ | ⟨hbelow, -⟩⟩ := hg.node?_prune hn
    · cases hnone.symm.trans hm
    · exact absurd .refl hbelow

theorem wellFormed_pruneAll : g.pruneAll.WellFormed where
  indexed :=
    { id_eq := fun h ↦ by simp at h
      live_eq := by
        have hno : g.pruneAll.contains = fun _ ↦ false := by
          funext i
          simp [contains]
        rw [hno, List.filter_eq_nil_iff.2 (by simp)]
        rfl
      mem_partition := by
        simp [partition, show g.pruneAll.partitions = .empty from rfl]
      partition_ascending := fun _ ↦ .nil
      mem_roots := by simp [show g.pruneAll.roots = [] from rfl]
      roots_ascending := .nil }
  forest := by constructor <;> simp
  linked := by constructor <;> simp

end AbstractionRefinement.Graph
