import AbstractionRefinement.Iteration
import AbstractionRefinement.Proofs.Graph.Pruning
import Mathlib.Data.List.Perm.Subperm

/-!
# Pruning link by link

`Graph.prune` says what pruning comes to, in one pass that looks at every slot and at nothing
besides. Carried out on nodes that refer to each other by position, pruning is four passes, each of
which follows links and relies on what it finds at their other end:

* a *descent* with a stack collects what is to go (`descend`);
* the topmost node is taken from its parent's children, or from the roots (`orphan`);
* each node that goes gives up its covering links, and these are cleared at the other end where that
  end stays (`sever`);
* the slots are emptied (`vacate`), and the count and the partitions are brought into step
  (`strike`).

Every one of them fails if a link leads to a node that is not there, if a slot does not exist, or if
more nodes go than are live. Nothing of this happens on a well-formed graph, and the four passes
come to `Graph.prune` (`WellFormed.pruneByLinks_eq`).

## What carries the argument

The descent keeps what it has visited, followed by what is below the stack, the same, and each turn
makes the second part shorter by one node. In the third pass a node is either untouched, or severed,
or it stays, and then it has lost its links to what has been severed so far (`severed`). No pass
needs more of the graph than the one before has left intact: the third looks at covering links only,
which the second does not touch.
-/

namespace AbstractionRefinement.Graph

variable {S A : Type} {g g' g₁ : Graph S A} {a i : NodeId} {n p : Node S A}
  {removed : List NodeId}

/-! ### The passes -/

/-- How far a descent has come. -/
structure Descent where
  /-- The nodes still to be visited, the next one first. -/
  stack : List NodeId
  /-- The nodes visited, in the order of the visits. -/
  visited : List NodeId := []

/-- Visit the next node, and put its children before what else there is to visit. -/
def descend (g : Graph S A) (d : Descent) : Except Fault (Turn Descent (List NodeId)) :=
  match d.stack with
  | [] => .ok (.done d.visited)
  | id :: rest => do
    let n ← g.node id
    return .again { stack := n.children ++ rest, visited := d.visited ++ [id] }

/-- Change a node, which has to be there. -/
def alter (g : Graph S A) (id : NodeId) (f : Node S A → Node S A) : Except Fault (Graph S A) := do
  let _ ← g.node id
  return g.update id f

/-- Take a node from its parent's children, or from the roots. -/
def orphan (g : Graph S A) (id : NodeId) : Except Fault (Graph S A) := do
  match (← g.node id).parent? with
  | some parent =>
    g.alter parent fun p ↦ { p with children := p.children.filter (· != id), expanded := false }
  | none => return { g with roots := g.roots.filter (· != id), initialized := false }

/-- Take a node from the list of the one that covers it, if there is one. -/
def dropFrom (g : Graph S A) (coverer? : Option NodeId) (id : NodeId) : Except Fault (Graph S A) :=
  match coverer? with
  | some coverer => g.alter coverer fun m ↦ { m with covers := m.covers.filter (· != id) }
  | none => .ok g

/-- Release nodes, one after the other. -/
def releaseAll (g : Graph S A) (covered : List NodeId) : Except Fault (Graph S A) :=
  covered.foldlM (fun g c ↦ g.alter c fun m ↦ { m with coveredBy := none }) g

/-- Take the links of a node that is to go, and clear their other ends where those stay. -/
def sever (removed : List NodeId) (g : Graph S A) (id : NodeId) : Except Fault (Graph S A) := do
  let n ← g.node id
  let g := g.update id fun n ↦ { n with coveredBy := none, covers := [] }
  let g ← g.dropFrom (n.coveredBy.filter fun m ↦ !removed.contains m) id
  g.releaseAll (n.covers.filter fun m ↦ !removed.contains m)

/-- Empty a slot, which has to exist. -/
def vacate (g : Graph S A) (id : NodeId) : Except Fault (Graph S A) :=
  if id < g.created then .ok { g with slots := g.slots.modify id fun _ ↦ none }
  else .error .outOfRange

/-- Strike nodes off the count, which must not fall below zero, and off the partitions. -/
def strike (removed : List NodeId) (g : Graph S A) : Except Fault (Graph S A) :=
  if removed.length ≤ g.live then
    .ok { g with
      live := g.live - removed.length
      partitions := (g.partitions.mapValues (·.filter fun m ↦ !removed.contains m)).filter
        fun _ ids ↦ !ids.isEmpty }
  else .error .outOfRange

/-- All passes but the descent, for the nodes that this has found. -/
def detachAll (g : Graph S A) (removed : List NodeId) (id : NodeId) :
    Except Fault (Graph S A) := do
  let g ← g.orphan id
  let g ← removed.foldlM (sever removed) g
  let g ← removed.foldlM vacate g
  strike removed g

/-- Prune a node pass by pass; nothing happens if it is not there. There is no answer if the turns
granted do not suffice for the descent. -/
def pruneByLinks (g : Graph S A) (turns : Nat) (id : NodeId) :
    Except Fault (Option (Graph S A)) := do
  if g.contains id then
    match ← iterate g.descend turns { stack := [id] } with
    | some removed => some <$> g.detachAll removed id
    | none => return none
  else return some g

/-! ### The descent -/

/-- Levels beyond the last slot add nothing. -/
theorem WellFormed.subtree_congr (hg : g.WellFormed) {k l : Nat} (ha : g.node? a = some n)
    (hk : g.created ≤ a + k) (hl : g.created ≤ a + l) : g.subtree k a = g.subtree l a := by
  have hlt := lt_created ha
  induction k generalizing a n l with
  | zero => grind
  | succ k ih =>
    obtain ⟨l, rfl⟩ : ∃ m, l = m + 1 := ⟨l - 1, by grind⟩
    rw [subtree, subtree]
    refine congrArg _ (List.flatMap_congr fun c hc ↦ ?_)
    have hchild := (hg.mem_childrenOf ha).1 hc
    have hac := hg.forest.lt_of_isChild hchild
    obtain ⟨m, hm, -⟩ := hchild
    exact ih hm (by grind) (by grind) (lt_created hm)

/-- A node's subtree is the node, and then the subtrees of its children. -/
theorem WellFormed.subtree_created (hg : g.WellFormed) (ha : g.node? a = some n) :
    g.subtree g.created a = a :: n.children.flatMap (g.subtree g.created) := by
  rw [hg.subtree_congr (l := g.created + 1) ha (by omega) (by omega), subtree, childrenOf_eq ha]

/-- **The descent finds the subtrees of the nodes on its stack**, within one turn for each node and
one for noticing that the stack is empty. -/
theorem WellFormed.iterate_descend (hg : g.WellFormed) {turns : Nat} {d : Descent}
    (hlive : ∀ i ∈ d.stack, ∃ n, g.node? i = some n)
    (hlt : (d.stack.flatMap (g.subtree g.created)).length < turns) :
    iterate g.descend turns d =
      .ok (some (d.visited ++ d.stack.flatMap (g.subtree g.created))) := by
  induction turns generalizing d with
  | zero => cases hlt
  | succ turns ih =>
    obtain ⟨stack, visited⟩ := d
    cases stack with
    | nil => simp [iterate, descend, bind, Except.bind, pure, Except.pure]
    | cons a rest =>
      obtain ⟨n, hn⟩ := hlive a List.mem_cons_self
      have hstep : g.descend ⟨a :: rest, visited⟩ =
          .ok (.again ⟨n.children ++ rest, visited ++ [a]⟩) := by
        simp [descend, node_eq_ok.2 hn, bind, Except.bind, pure, Except.pure]
      -- what is visited and what is below the stack are the same together as before
      have hsame : visited ++ (a :: rest).flatMap (g.subtree g.created) =
          (visited ++ [a]) ++ (n.children ++ rest).flatMap (g.subtree g.created) := by
        rw [List.flatMap_cons, hg.subtree_created hn, List.flatMap_append]
        simp
      have hnext : ∀ i ∈ n.children ++ rest, ∃ m, g.node? i = some m := by
        intro i hi
        rcases List.mem_append.1 hi with hc | hr
        · obtain ⟨m, hm, -⟩ := (hg.forest.mem_children hn).1 hc
          exact ⟨m, hm⟩
        · exact hlive i (List.mem_cons_of_mem _ hr)
      have hless : ((n.children ++ rest).flatMap (g.subtree g.created)).length < turns := by
        have hlen := congrArg List.length hsame
        simp only [List.length_append, List.length_singleton] at hlen
        simp only at hlt
        omega
      rw [iterate, hstep]
      exact (ih (d := ⟨n.children ++ rest, visited ++ [a]⟩) hnext hless).trans (by rw [← hsame])

/-- No more nodes are below a node than are live. -/
theorem WellFormed.length_subtree_le (hg : g.WellFormed) (ha : g.node? a = some n) :
    (g.subtree g.created a).length ≤ g.live := by
  rw [hg.indexed.live_eq]
  refine (List.subperm_of_subset (hg.nodup_subtree ha) fun i hi ↦ ?_).length_le
  obtain ⟨m, hm⟩ := (hg.below_of_mem_subtree ha hi).exists_node? ha
  exact List.mem_filter.2 ⟨List.mem_range.2 (lt_created hm), contains_iff.2 ⟨m, hm⟩⟩

/-! ### Giving up links -/

theorem alter_eq_ok (f : Node S A → Node S A) (h : g.node? i = some n) :
    g.alter i f = .ok (g.update i f) := by
  rw [alter, node_eq_ok.2 h]
  rfl

theorem Rewrites.exists_node?_of {f : NodeId → Node S A → Node S A} (h : Rewrites f g g')
    (hn : g.node? i = some n) : ∃ m, g'.node? i = some m :=
  ⟨f i n, by rw [h.node?, hn]; rfl⟩

/-- Dropping a node from the list of its coverer changes this list only. -/
theorem rewrites_dropFrom (coverer? : Option NodeId)
    (h : ∀ j, coverer? = some j → ∃ m, g.node? j = some m) :
    ∃ g', g.dropFrom coverer? a = .ok g' ∧
      Rewrites (fun i m ↦ { m with
        covers := if coverer? = some i then m.covers.filter (· != a) else m.covers }) g g' := by
  cases coverer? with
  | none => exact ⟨g, rfl, (Rewrites.refl g).congr (fun _ _ ↦ rfl) fun _ ↦ by simp⟩
  | some j =>
    obtain ⟨m, hm⟩ := h j rfl
    refine ⟨_, alter_eq_ok _ hm, (Rewrites.update _ ?_).congr (fun _ _ ↦ rfl) fun {i k} _ ↦ ?_⟩
    · exact fun _ ↦ rfl
    by_cases hi : i = j
    · simp [hi]
    · simp [hi, Ne.symm hi]

/-- Releasing nodes takes away their links to the coverer, and nothing else. -/
theorem rewrites_releaseAll (cs : List NodeId) (h : ∀ c ∈ cs, ∃ m, g.node? c = some m) :
    ∃ g', g.releaseAll cs = .ok g' ∧
      Rewrites (fun i m ↦ { m with coveredBy := if i ∈ cs then none else m.coveredBy }) g g' := by
  refine ⟨_, ?_, rewrites_foldl_release⟩
  induction cs generalizing g with
  | nil => rfl
  | cons c cs ih =>
    obtain ⟨n, hn⟩ := h c List.mem_cons_self
    rw [releaseAll, List.foldlM_cons, alter_eq_ok _ hn, List.foldl_cons]
    refine ih fun d hd ↦ ?_
    obtain ⟨m, hm⟩ := h d (List.mem_cons_of_mem _ hd)
    refine (Rewrites.update _ ?_).exists_node?_of hm
    exact fun _ ↦ rfl

/-- What is left of a node after `done`, some of the nodes that go, have given up their links: one
of them has none, another that goes has all of its own, and one that stays has lost those to `done`.
-/
def severed (removed done : List NodeId) (i : NodeId) (n : Node S A) : Node S A :=
  { n with
    coveredBy :=
      if i ∈ done then none
      else if i ∈ removed then n.coveredBy
      else n.coveredBy.filter fun m ↦ !done.contains m
    covers :=
      if i ∈ done then []
      else if i ∈ removed then n.covers
      else n.covers.filter fun m ↦ !done.contains m }

/-- Nothing has been severed at first. -/
theorem rewrites_severed_nil : Rewrites (severed removed []) g g := by
  refine (Rewrites.refl g).congr (fun _ _ ↦ rfl) fun {i n} _ ↦ ?_
  have hall : n.coveredBy.filter (fun _ ↦ true) = n.coveredBy := by cases n.coveredBy <;> rfl
  simp [severed, hall]

/-- What it does to the nodes that one of them gives up its links, when all it is linked to is
there: its own are gone, and so are theirs to it. -/
theorem rewrites_sever (removed : List NodeId) (ha : g.node? a = some p)
    (hcoverer : ∀ j, p.coveredBy = some j → ∃ m, g.node? j = some m)
    (hcovers : ∀ c ∈ p.covers, ∃ m, g.node? c = some m) :
    ∃ g', sever removed g a = .ok g' ∧
      Rewrites (fun i m ↦ { m with
        coveredBy :=
          if i ∈ p.covers.filter fun m ↦ !removed.contains m then none
          else if i = a then none else m.coveredBy
        covers :=
          if i = a then []
          else if p.coveredBy.filter (fun m ↦ !removed.contains m) = some i then
            m.covers.filter (· != a)
          else m.covers }) g g' := by
  have hcleared : Rewrites _ g (g.update a fun m ↦ { m with coveredBy := none, covers := [] }) :=
    .update _ fun _ ↦ rfl
  obtain ⟨g₂, hdrop, hrw⟩ := rewrites_dropFrom (a := a)
    (p.coveredBy.filter fun m ↦ !removed.contains m) fun j hj ↦ by
      obtain ⟨m, hm⟩ := hcoverer j (Option.filter_eq_some_iff.1 hj).1
      exact hcleared.exists_node?_of hm
  obtain ⟨g₃, hrelease, hrw'⟩ := rewrites_releaseAll (g := g₂)
    (p.covers.filter fun m ↦ !removed.contains m) fun c hc ↦ by
      obtain ⟨m, hm⟩ := hcovers c (List.mem_of_mem_filter hc)
      exact (hcleared.trans hrw).exists_node?_of hm
  refine ⟨g₃, ?_, ((hcleared.trans hrw).trans hrw').congr (fun _ _ ↦ rfl) fun {i m} _ ↦ ?_⟩
  · rw [sever, node_eq_ok.2 ha]
    simp only [bind, Except.bind, hdrop, hrelease]
  · by_cases hi : i = a <;> simp [hi]

/-- **One node gives up its links**: of the nodes that stay, its coverer loses it, what it covers is
released, and no other had a link to it. -/
theorem Linked.sever (hg : g₁.Linked) {done : List NodeId} (hsub : ∀ i ∈ done, i ∈ removed)
    (hr : a ∈ removed) (hnew : a ∉ done) (ha : g₁.node? a = some p)
    (h : Rewrites (severed removed done) g₁ g) :
    ∃ g', sever removed g a = .ok g' ∧ Rewrites (severed removed (a :: done)) g₁ g' := by
  have hlive : ∀ {i m}, g₁.node? i = some m → ∃ k, g.node? i = some k :=
    fun hm ↦ ⟨_, by rw [h.node?, hm]; rfl⟩
  -- the node still has its own links
  have hnode : g.node? a = some p := by
    rw [h.node?, ha]
    simp [severed, hr, hnew]
  obtain ⟨g', hrun, hrw⟩ := rewrites_sever removed hnode
    (fun j hj ↦ by
      obtain ⟨-, m, hm⟩ := hg.coverer ha hj
      exact hlive hm)
    (fun c hc ↦ by
      obtain ⟨m, hm, -⟩ := (hg.mem_covers ha).1 hc
      exact hlive hm)
  refine ⟨g', hrun, (h.trans hrw).congr (fun _ _ ↦ rfl) fun {i m} hm ↦ ?_⟩
  -- both ends of a link agree, so the nodes touched are those with a link to the node
  have hcovers : a ∈ m.covers ↔ p.coveredBy = some i := by
    rw [hg.mem_covers hm]
    exact ⟨fun ⟨k, hk, he⟩ ↦ Option.some.inj (ha.symm.trans hk) ▸ he, fun he ↦ ⟨p, ha, he⟩⟩
  have hcovered : i ∈ p.covers ↔ m.coveredBy = some a := by
    rw [hg.mem_covers ha]
    exact ⟨fun ⟨k, hk, he⟩ ↦ Option.some.inj (hm.symm.trans hk) ▸ he, fun he ↦ ⟨m, hm, he⟩⟩
  by_cases hi : i ∈ removed
  · by_cases hia : i = a
    · simp [severed, hia]
    · simp [severed, hi, hia]
  · have hia : i ≠ a := fun he ↦ hi (he ▸ hr)
    have hout : i ∉ done := mt (hsub i) hi
    simp only [severed, List.mem_filter, hcovered, hi, hia, hout, List.mem_cons, or_self, if_false,
      Node.mk.injEq, true_and, and_true, Option.filter_eq_some_iff, ← hcovers]
    refine ⟨?_, ?_⟩
    · cases m.coveredBy with
      | none => simp
      | some j => by_cases hj : j = a <;> simp [hj, hi, Option.filter_some]
    · by_cases hmem : a ∈ m.covers
      · rw [if_pos ⟨hmem, by simpa using hi⟩, List.filter_filter]
        refine List.filter_congr fun x _ ↦ ?_
        rw [List.contains_cons, Bool.not_or]
        rfl
      · rw [if_neg fun h ↦ hmem h.1]
        refine List.filter_congr fun x hx ↦ ?_
        have hxa : x ≠ a := fun he ↦ hmem (he ▸ hx)
        simp [hxa]

/-- **All of them give up their links.** -/
theorem Linked.foldlM_sever (hg : g₁.Linked) (rs done : List NodeId)
    (hlive : ∀ i ∈ removed, ∃ n, g₁.node? i = some n) (hsub : ∀ i ∈ rs ++ done, i ∈ removed)
    (hnodup : (rs ++ done).Nodup) (h : Rewrites (severed removed done) g₁ g) :
    ∃ g', rs.foldlM (Graph.sever removed) g = .ok g' ∧
      Rewrites (severed removed (rs.reverse ++ done)) g₁ g' := by
  induction rs generalizing g done with
  | nil => exact ⟨g, rfl, h⟩
  | cons r rs ih =>
    obtain ⟨p, hp⟩ := hlive r (hsub r List.mem_cons_self)
    have hperm : (rs ++ r :: done).Perm (r :: rs ++ done) := List.perm_middle
    obtain ⟨g₂, hrun, hrw⟩ := hg.sever
      (fun i hi ↦ hsub i (List.mem_append_right _ hi)) (hsub r List.mem_cons_self)
      (fun hr ↦ (List.nodup_cons.1 hnodup).1 (List.mem_append_right _ hr)) hp h
    obtain ⟨g₃, hrest, hrw'⟩ := ih (r :: done)
      (fun i hi ↦ hsub i (hperm.mem_iff.1 hi)) (hperm.nodup_iff.2 hnodup) hrw
    refine ⟨g₃, ?_, ?_⟩
    · rw [List.foldlM_cons, hrun]
      exact hrest
    · rw [List.reverse_cons, List.append_assoc]
      exact hrw'

/-! ### Leaving the parent -/

/-- A node lists the pruned node among its children just if it is the parent. -/
theorem WellFormed.mem_children_iff (hg : g.WellFormed) (ha : g.node? a = some p)
    (hn : g.node? i = some n) : a ∈ n.children ↔ p.parent? = some i := by
  rw [hg.forest.mem_children hn]
  constructor
  · rintro ⟨k, hk, he⟩
    obtain rfl := Option.some.inj (ha.symm.trans hk)
    exact he
  · exact fun he ↦ ⟨p, ha, he⟩

/-- The roots are the nodes without a parent. -/
theorem WellFormed.mem_roots_iff (hg : g.WellFormed) (ha : g.node? a = some p) :
    a ∈ g.roots ↔ p.parent? = none := by
  rw [hg.indexed.mem_roots, Node.parent?, Option.map_eq_none_iff]
  constructor
  · rintro ⟨k, hk, he⟩
    obtain rfl := Option.some.inj (ha.symm.trans hk)
    exact he
  · exact fun he ↦ ⟨p, ha, he⟩

/-- What is left of a node when `a` goes from its children. -/
def bereaved (a : NodeId) (n : Node S A) : Node S A :=
  { n with
    children := n.children.filter (· != a)
    expanded := n.expanded && !n.children.contains a }

theorem bereaved_of_not_mem (h : a ∉ n.children) : bereaved a n = n := by
  have hfilter : n.children.filter (· != a) = n.children :=
    List.filter_eq_self.2 fun c hc ↦ bne_iff_ne.2 fun he ↦ h (he ▸ hc)
  simp [bereaved, hfilter, h]

/-- **One node loses a child**, or the roots lose one: no other node lists it, and a node with a
parent is not among the roots. -/
theorem WellFormed.orphan_eq (hg : g.WellFormed) (ha : g.node? a = some p) :
    ∃ g', g.orphan a = .ok g' ∧ g'.created = g.created ∧
      (∀ i, g'.node? i = (g.node? i).map (bereaved a)) ∧ g'.roots = g.roots.filter (· != a) ∧
      g'.partitions = g.partitions ∧ g'.live = g.live ∧
      g'.initialized = (g.initialized && !g.roots.contains a) := by
  have hmem := fun {i n} ↦ hg.mem_children_iff (i := i) (n := n) ha
  have hroots := hg.mem_roots_iff ha
  rw [orphan, node_eq_ok.2 ha]
  cases hp : p.parent? with
  | none =>
    have hin : g.roots.contains a = true := List.contains_iff_mem.2 (hroots.2 hp)
    refine ⟨{ g with roots := g.roots.filter (· != a), initialized := false },
      by simp only [bind, Except.bind, hp]; rfl, rfl, fun i ↦ ?_, rfl, rfl, rfl, ?_⟩
    · show g.node? i = _
      cases hn : g.node? i with
      | none => rfl
      | some n =>
        have hout : a ∉ n.children := fun h ↦ by cases hp.symm.trans ((hmem hn).1 h)
        rw [Option.map_some, bereaved_of_not_mem hout]
    · rw [hin, Bool.not_true, Bool.and_false]
  | some q =>
    obtain ⟨e, hinc, rfl⟩ := Option.map_eq_some_iff.1 hp
    obtain ⟨-, k, hk, -⟩ := hg.forest.parent ha hinc
    have hin : a ∉ g.roots := fun h ↦ by cases hp.symm.trans (hroots.1 h)
    have hfilter : g.roots.filter (· != a) = g.roots :=
      List.filter_eq_self.2 fun c hc ↦ bne_iff_ne.2 fun he ↦ hin (he ▸ hc)
    refine ⟨_, by simp only [bind, Except.bind, hp]; exact alter_eq_ok _ hk, created_update,
      fun i ↦ ?_, hfilter.symm, rfl, rfl, ?_⟩
    · rw [node?_update]
      cases hn : g.node? i with
      | none => simp
      | some n =>
        by_cases hi : i = e.parent
        · have hchild : a ∈ n.children := (hmem hn).2 (hi ▸ hp)
          simp [hi, bereaved, hchild]
        · have hout : a ∉ n.children := fun h ↦
            hi (Option.some.inj (hp.symm.trans ((hmem hn).1 h))).symm
          simp [hi, bereaved_of_not_mem hout]
    · simp [hin]

/-- Covering links do not depend on children. -/
theorem Linked.of_map {f : Node S A → Node S A} (hg : g.Linked)
    (hnode : ∀ i, g'.node? i = (g.node? i).map f) (hby : ∀ n, (f n).coveredBy = n.coveredBy)
    (hcovers : ∀ n, (f n).covers = n.covers) : g'.Linked := by
  have hold : ∀ {i n}, g'.node? i = some n → ∃ m, g.node? i = some m ∧ f m = n := by
    intro i n hn
    rw [hnode] at hn
    exact Option.map_eq_some_iff.1 hn
  have hnew : ∀ {i m}, g.node? i = some m → g'.node? i = some (f m) := by
    intro i m hm
    rw [hnode, hm]
    rfl
  constructor
  · intro i n hn c
    obtain ⟨m, hm, rfl⟩ := hold hn
    rw [hcovers, hg.mem_covers hm]
    constructor
    · rintro ⟨k, hk, he⟩
      exact ⟨f k, hnew hk, (hby k).trans he⟩
    · rintro ⟨k, hk, he⟩
      obtain ⟨l, hl, rfl⟩ := hold hk
      exact ⟨l, hl, (hby l).symm.trans he⟩
  · intro i n hn
    obtain ⟨m, hm, rfl⟩ := hold hn
    rw [hcovers]
    exact hg.covers_nodup hm
  · intro i n j hn hj
    obtain ⟨m, hm, rfl⟩ := hold hn
    obtain ⟨hne, k, hk⟩ := hg.coverer hm ((hby m).symm.trans hj)
    exact ⟨hne, f k, hnew hk⟩

/-! ### Emptying slots -/

theorem node?_vacated : ({ g with slots := g.slots.modify a fun _ ↦ none } : Graph S A).node? i =
    if i = a then none else g.node? i := by
  rw [node?, Array.getElem?_modify, node?]
  by_cases hi : i = a
  · rw [if_pos hi.symm, if_pos hi]
    cases g.slots[i]? <;> rfl
  · rw [if_neg (Ne.symm hi), if_neg hi]

/-- What emptying slots leaves: the other nodes, and everything beside the slots. -/
theorem foldlM_vacate (rs : List NodeId) (h : ∀ i ∈ rs, i < g.created) :
    ∃ g', rs.foldlM vacate g = .ok g' ∧ g'.created = g.created ∧
      (∀ i, g'.node? i = if i ∈ rs then none else g.node? i) ∧ g'.roots = g.roots ∧
      g'.partitions = g.partitions ∧ g'.live = g.live ∧ g'.initialized = g.initialized := by
  induction rs generalizing g with
  | nil => exact ⟨g, rfl, rfl, fun i ↦ by simp, rfl, rfl, rfl, rfl⟩
  | cons r rs ih =>
    have hcreated : ({ g with slots := g.slots.modify r fun _ ↦ none } : Graph S A).created =
        g.created := by simp [created]
    obtain ⟨g', hrun, hc, hnode, hroots, hpart, hlive, hinit⟩ :=
      ih (g := { g with slots := g.slots.modify r fun _ ↦ none }) fun i hi ↦ by
        rw [hcreated]
        exact h i (List.mem_cons_of_mem _ hi)
    refine ⟨g', ?_, hc.trans hcreated, fun i ↦ ?_, hroots, hpart, hlive, hinit⟩
    · rw [List.foldlM_cons, vacate, if_pos (h r List.mem_cons_self)]
      exact hrun
    · rw [hnode, node?_vacated]
      by_cases hi : i ∈ rs <;> by_cases hir : i = r <;> simp [hi, hir]

/-! ### The whole -/

/-- A node that stays has lost just what `detach` takes from it. -/
theorem severed_bereaved (hi : i ∉ removed) :
    severed removed removed.reverse i (bereaved a n) = detach removed a n := by
  simp [severed, bereaved, detach, hi]

/-- **The passes that change the graph** remove the subtree, and none of them fails. -/
theorem WellFormed.detachAll_eq (hg : g.WellFormed) (ha : g.node? a = some p) :
    g.detachAll (g.subtree g.created a) a = .ok (g.remove (g.subtree g.created a) a) := by
  have hlive : ∀ i ∈ g.subtree g.created a, ∃ n, g.node? i = some n :=
    fun i hi ↦ (hg.below_of_mem_subtree ha hi).exists_node? ha
  obtain ⟨g₁, horphan, hcreated₁, hnode₁, hroots₁, hpart₁, hlive₁, hinit₁⟩ := hg.orphan_eq ha
  obtain ⟨g₂, hsever, hrw⟩ :=
    (hg.linked.of_map hnode₁ (fun _ ↦ rfl) fun _ ↦ rfl).foldlM_sever
      (g.subtree g.created a) []
      (fun i hi ↦ by
        obtain ⟨n, hn⟩ := hlive i hi
        exact ⟨_, by rw [hnode₁, hn]; rfl⟩)
      (fun i hi ↦ by rwa [List.append_nil] at hi)
      (by rw [List.append_nil]; exact hg.nodup_subtree ha) rewrites_severed_nil
  have hcreated₂ : g₂.created = g.created := hrw.created.trans hcreated₁
  obtain ⟨g₃, hvacate, hcreated₃, hnode₃, hroots₃, hpart₃, hlive₃, hinit₃⟩ :=
    foldlM_vacate (g := g₂) (g.subtree g.created a) fun i hi ↦ by
      obtain ⟨n, hn⟩ := hlive i hi
      rw [hcreated₂]
      exact lt_created hn
  have hlive₄ : g₃.live = g.live := hlive₃.trans (hrw.live.trans hlive₁)
  rw [detachAll, horphan]
  simp only [bind, Except.bind, hsever, hvacate]
  rw [strike, if_pos (hlive₄ ▸ hg.length_subtree_le ha)]
  refine congrArg _ (ext_node? ?_ (fun i ↦ ?_) ?_ ?_ ?_ ?_)
  · exact (hcreated₃.trans hcreated₂).trans created_remove.symm
  · show g₃.node? i = _
    rw [hnode₃, hrw.node?, hnode₁, node?_remove]
    cases hn : g.node? i with
    | none => simp
    | some n =>
      rw [Option.bind_some, hg.indexed.id_eq hn]
      by_cases hi : i ∈ g.subtree g.created a
      · simp [hi]
      · simp [hi, ← severed_bereaved hi]
  · exact hroots₃.trans (hrw.roots.trans hroots₁)
  · simp only [remove, hpart₃, hrw.partitions, hpart₁]
  · simp only [remove, hlive₄]
  · exact hinit₃.trans (hrw.initialized.trans hinit₁)

/-- **Pruning link by link** comes to `Graph.prune` on a well-formed graph: no link leads to a node
that is not there, and one turn more than there are live nodes suffices for the descent. -/
theorem WellFormed.pruneByLinks_eq (hg : g.WellFormed) {turns : Nat} (h : g.live < turns) :
    g.pruneByLinks turns a = .ok (some (g.prune a)) := by
  rw [pruneByLinks, Graph.prune]
  split
  · rename_i hin
    obtain ⟨p, hp⟩ := contains_iff.1 hin
    have hdescend : iterate g.descend turns { stack := [a] } =
        .ok (some (g.subtree g.created a)) := by
      have hflat : [a].flatMap (g.subtree g.created) = g.subtree g.created a := by simp
      have hlen : ([a].flatMap (g.subtree g.created)).length < turns := by
        rw [hflat]
        exact Nat.lt_of_le_of_lt (hg.length_subtree_le hp) h
      rw [hg.iterate_descend (d := { stack := [a] })
        (fun i hi ↦ ⟨p, List.mem_singleton.1 hi ▸ hp⟩) hlen]
      simp
    rw [hdescend]
    simp only [bind, Except.bind, hg.detachAll_eq hp]
    rfl
  · rfl

end AbstractionRefinement.Graph
