import AbstractionRefinement.Graph.Query
import AbstractionRefinement.Proofs.Graph.WellFormed
import AbstractionRefinement.Proofs.Work
import Mathlib.Data.List.Nodup

/-!
# Paths

`Graph.pathTo` collects a path by climbing from a node to its root. `Graph.IsPath` says what a path
is without climbing: it begins at a root, and each step leads to a live node that names the node
before as its parent and the action as the one that led to it. A path that is found is a path to the
node asked for (`Graph.isPath_of_pathTo`), and in a well-formed graph one is found for every live
node (`Graph.Forest.exists_pathTo`).

The first statement needs nothing of the graph, not even that it is a forest: climbing visits nodes
that were looked up, and the steps it collects say what was found. The second needs that parents are
live and older than their children. Then the number of positions bounds the climb, and no lookup
fails.

The first part of a path is a path (`IsPath.upTo`), and the path to a node that was there before is
found again in a larger graph (`IsPath.of_older`). The order in which counterexamples are listed is
a permutation of those there are (`mem_counterexamples`).
-/

namespace AbstractionRefinement

variable {S A : Type}

/-- The first step does not change where a trace ends. -/
theorem Trace.last_cons {u w : S} {a : A} {steps : List (A × S)} :
    (⟨u, (a, w) :: steps⟩ : Trace S A).last = (⟨w, steps⟩ : Trace S A).last := by
  cases steps with
  | nil => rfl
  | cons step steps =>
    rw [last, last, List.getLast?_cons_cons]
    cases h : (step :: steps).getLast? with
    | none => cases List.getLast?_eq_none_iff.1 h
    | some step => rfl

theorem Trace.last_mapStates {T : Type} {f : S → T} {t : Trace S A} :
    (t.mapStates f).last = f t.last := by
  obtain ⟨u, steps⟩ := t
  induction steps generalizing u with
  | nil => rfl
  | cons step steps ih =>
    obtain ⟨a, w⟩ := step
    rw [last_cons, ← ih w]
    exact last_cons

theorem Trace.getElem?_states_length {t : Trace S A} : t.states[t.length]? = some t.last := by
  have hlength := t.length_states
  rw [← Nat.add_sub_cancel (n := t.length) (m := 1), ← hlength, ← List.getLast?_eq_getElem?, states,
    List.getLast?_cons, List.getLast?_map]
  rfl

/-- The beginning of a trace, up to a position. -/
def Trace.upTo (t : Trace S A) (k : Nat) : Trace S A := ⟨t.start, t.steps.take k⟩

theorem Trace.actions_upTo {t : Trace S A} {k : Nat} : (t.upTo k).actions = t.actions.take k :=
  List.map_take

/-- It ends in the state at this position. -/
theorem Trace.last_upTo {t : Trace S A} {k : Nat} {u : S} (h : t.states[k]? = some u) :
    (t.upTo k).last = u := by
  obtain ⟨start, steps⟩ := t
  rw [states] at h
  cases k with
  | zero => exact Option.some.inj h
  | succ k =>
    rw [List.getElem?_cons_succ, List.getElem?_map] at h
    obtain ⟨step, hstep, rfl⟩ := Option.map_eq_some_iff.1 h
    show ((steps.take (k + 1)).getLast?.map Prod.snd).getD start = step.2
    rw [List.take_add_one, hstep, Option.toList_some, List.getLast?_concat]
    rfl

namespace Graph

/-- Each step from a visited node leads to a child of the node before, along its action. -/
inductive Descends (g : Graph S A) : Visit S → List (A × Visit S) → Prop
  /-- No step. -/
  | nil {u : Visit S} : Descends g u []
  /-- A step to a child, then the others. -/
  | cons {u w : Visit S} {a : A} {steps : List (A × Visit S)} {n : Node S A}
      (hn : g.node? w.node = some n) (hstate : n.state = w.state)
      (hin : n.incoming = some ⟨u.node, a⟩) (hrest : Descends g w steps) :
    Descends g u ((a, w) :: steps)

/-- A path of the graph from a root along parent links. -/
structure IsPath (g : Graph S A) (t : Path S A) : Prop where
  /-- It begins at a root. -/
  root : ∃ n, g.node? t.start.node = some n ∧ n.state = t.start.state ∧ n.incoming = none
  /-- It goes on from parents to children. -/
  descends : g.Descends t.start t.steps

variable {g : Graph S A} {id : NodeId} {n : Node S A}

/-- The end of a path is the state of its last node. -/
theorem IsPath.exists_target {t : Path S A} (ht : g.IsPath t) :
    ∃ n, g.node? t.target = some n ∧ n.state = t.trace.last := by
  obtain ⟨n, hn, hstate, -⟩ := ht.root
  have hdesc := ht.descends
  rw [Path.trace, Trace.last_mapStates, Path.target]
  obtain ⟨u, steps⟩ := t
  clear ht
  dsimp only at hn hstate hdesc
  induction hdesc generalizing n with
  | nil => exact ⟨n, hn, hstate⟩
  | cons hm hmstate _ _ ih =>
    rw [Trace.last_cons]
    exact ih _ hm hmstate

/-- The beginning of a path, up to a position, is a path. -/
theorem IsPath.upTo {t : Path S A} (ht : g.IsPath t) (k : Nat) : g.IsPath (t.upTo k) := by
  obtain ⟨u, steps⟩ := t
  obtain ⟨hroot, hdesc⟩ := ht
  refine ⟨hroot, ?_⟩
  show g.Descends u (steps.take k)
  clear hroot
  dsimp only at hdesc
  induction hdesc generalizing k with
  | nil =>
    rw [List.take_nil]
    exact .nil
  | cons hm hstate hin _ ih =>
    cases k with
    | zero => exact .nil
    | succ k => exact .cons hm hstate hin (ih k)

/-- A path is a path of every graph with the same nodes up to its end, since parents are older. -/
theorem IsPath.of_older {g' : Graph S A} {t : Path S A} (ht : g.IsPath t) (hg : g.Forest)
    {bound : NodeId} (hbound : t.target < bound)
    (hold : ∀ {i n}, i < bound → g.node? i = some n →
      ∃ m, g'.node? i = some m ∧ m.state = n.state ∧ m.incoming = n.incoming) : g'.IsPath t := by
  obtain ⟨u, steps⟩ := t
  obtain ⟨⟨n, hn, hstate, hin⟩, hdesc⟩ := ht
  have hall : u.node < bound ∧ g'.Descends u steps := by
    clear hn hstate hin
    dsimp only at hdesc
    induction hdesc with
    | nil => exact ⟨hbound, .nil⟩
    | cons hm hmstate hmin _ ih =>
      rw [Path.target, Trace.last_cons] at hbound
      obtain ⟨hlt, hrest⟩ := ih hbound
      obtain ⟨k, hk, hkstate, hkin⟩ := hold hlt hm
      refine ⟨Nat.lt_trans (hg.parent hm hmin).1 hlt, ?_⟩
      exact .cons hk (hkstate.trans hmstate) (hkin.trans hmin) hrest
  obtain ⟨k, hk, hkstate, hkin⟩ := hold hall.1 hn
  exact ⟨⟨k, hk, hkstate.trans hstate, hkin.trans hin⟩, hall.2⟩

/-- The last action of a path is the one that led to its last node. -/
theorem IsPath.action?_target {t : Path S A} (ht : g.IsPath t) (hn : g.node? t.target = some n) :
    n.action? = t.actions.getLast? := by
  obtain ⟨m, hm, -, hin⟩ := ht.root
  have hdesc := ht.descends
  rw [Path.target] at hn
  obtain ⟨u, steps⟩ := t
  -- along the path the last action so far is the one into the node at hand
  have hlast : ∀ {u steps} {m : Node S A} {b : Option A}, g.Descends u steps →
      g.node? u.node = some m → m.action? = b →
      g.node? (⟨u, steps⟩ : Path S A).last.node = some n →
      n.action? = ((steps.map Prod.fst).getLast?).or b := by
    intro u steps m b hdesc hm hb hn
    induction hdesc generalizing m b with
    | nil =>
      obtain rfl := Option.some.inj (hm.symm.trans hn)
      exact hb
    | @cons u w a steps k hk _ hkin _ ih =>
      rw [Trace.last_cons] at hn
      rw [ih hk rfl hn, Node.action?, hkin, List.map_cons, List.getLast?_cons]
      cases (steps.map Prod.fst).getLast? <;> rfl
  have hroot : m.action? = none := by rw [Node.action?, hin]; rfl
  rw [hlast hdesc hm hroot hn, Option.or_none]
  rfl

/-- Climbing ends at a root, and does not change where the path ends. -/
theorem isPath_of_pathFrom {bound : Nat} {steps : List (A × Visit S)} {t : Path S A}
    (h : g.pathFrom bound id steps = .ok t) (hn : g.node? id = some n)
    (hsteps : g.Descends ⟨id, n.state⟩ steps) :
    g.IsPath t ∧ t.last = (⟨⟨id, n.state⟩, steps⟩ : Path S A).last := by
  induction bound generalizing id n steps with
  | zero => cases h
  | succ bound ih =>
    rw [pathFrom, node_eq_ok.2 hn] at h
    cases hin : n.incoming with
    | none =>
      simp only [bind, Except.bind, hin] at h
      obtain rfl := Except.ok.inj h
      exact ⟨⟨⟨n, hn, rfl, hin⟩, hsteps⟩, rfl⟩
    | some e =>
      simp only [bind, Except.bind, hin] at h
      -- the parent has been looked up already, or the climb would have failed there
      obtain ⟨p, hp⟩ : ∃ p, g.node? e.parent = some p := by
        cases bound with
        | zero => cases h
        | succ bound =>
          rw [pathFrom] at h
          obtain ⟨p, hp, -⟩ := bind_eq_ok.1 h
          exact ⟨p, node_eq_ok.1 hp⟩
      obtain ⟨hpath, hlast⟩ := ih h hp (.cons hn rfl hin hsteps)
      exact ⟨hpath, hlast.trans Trace.last_cons⟩

/-- **A path that is found is a path to the node asked for.** -/
theorem isPath_of_pathTo {t : Path S A} (h : g.pathTo id = .ok t) :
    g.IsPath t ∧ t.target = id := by
  obtain ⟨n, hn, -⟩ := bind_eq_ok.1 h
  obtain ⟨hpath, hlast⟩ := isPath_of_pathFrom h (node_eq_ok.1 hn) .nil
  exact ⟨hpath, congrArg Visit.node hlast⟩

theorem Forest.exists_pathFrom (hg : g.Forest) {bound : Nat} {steps : List (A × Visit S)}
    (hn : g.node? id = some n) (hid : id < bound) : ∃ t, g.pathFrom bound id steps = .ok t := by
  induction bound generalizing id n steps with
  | zero => exact absurd hid (Nat.not_lt_zero id)
  | succ bound ih =>
    rw [pathFrom, node_eq_ok.2 hn]
    cases hin : n.incoming with
    | none =>
      simp only [bind, Except.bind, hin]
      exact ⟨_, rfl⟩
    | some e =>
      simp only [bind, Except.bind, hin]
      obtain ⟨hlt, p, hp, -⟩ := hg.parent hn hin
      exact ih hp (Nat.lt_of_lt_of_le hlt (Nat.le_of_lt_succ hid))

/-- **Every live node has a path.** -/
theorem Forest.exists_pathTo (hg : g.Forest) (hn : g.node? id = some n) :
    ∃ t, g.pathTo id = .ok t :=
  hg.exists_pathFrom hn (Nat.lt_succ_of_lt (lt_created hn))

/-! ### Counterexamples -/

theorem perm_insertByDepth {l : List (Node S A)} : (insertByDepth n l).Perm (n :: l) := by
  induction l with
  | nil => exact .refl _
  | cons k l ih =>
    rw [insertByDepth]
    split
    · exact .refl _
    · exact (ih.cons k).trans (.swap n k l)

theorem perm_foldr_insertByDepth {l : List (Node S A)} :
    (l.foldr insertByDepth []).Perm l := by
  induction l with
  | nil => exact .refl _
  | cons k l ih => exact perm_insertByDepth.trans (ih.cons k)

/-- The counterexamples are the uncovered targets. -/
theorem mem_counterexamples (hg : g.Indexed) :
    id ∈ g.counterexamples ↔ ∃ n, g.node? id = some n ∧ n.isCounterexample = true := by
  rw [counterexamples, List.mem_map]
  constructor
  · rintro ⟨n, hn, rfl⟩
    obtain ⟨hmem, hcex⟩ := List.mem_filter.1 (perm_foldr_insertByDepth.mem_iff.1 hn)
    obtain ⟨i, hi⟩ := mem_nodes.1 hmem
    exact ⟨n, (hg.id_eq hi).symm ▸ hi, hcex⟩
  · rintro ⟨n, hn, hcex⟩
    have hmem := List.mem_filter.2 ⟨mem_nodes.2 ⟨id, hn⟩, hcex⟩
    exact ⟨n, perm_foldr_insertByDepth.mem_iff.2 hmem, hg.id_eq hn⟩

/-- No two live nodes are at one position. -/
theorem Indexed.nodup_nodes (hg : g.Indexed) : (g.nodes.map Node.id).Nodup := by
  rw [nodes_eq, List.map_filterMap]
  refine List.Nodup.filterMap (fun i j k hi hj ↦ ?_) List.nodup_range
  obtain ⟨n, hn, rfl⟩ := Option.map_eq_some_iff.1 hi
  obtain ⟨m, hm, heq⟩ := Option.map_eq_some_iff.1 hj
  rw [← hg.id_eq hn, ← hg.id_eq hm, heq]

/-- Each counterexample is listed once. -/
theorem nodup_counterexamples (hg : g.Indexed) : g.counterexamples.Nodup := by
  refine (perm_foldr_insertByDepth.map Node.id).nodup_iff.2 ?_
  exact (List.filter_sublist.map Node.id).nodup hg.nodup_nodes

end Graph

end AbstractionRefinement
