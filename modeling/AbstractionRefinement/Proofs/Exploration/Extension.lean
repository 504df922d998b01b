import AbstractionRefinement.Proofs.Exploration.Room

/-!
# What an exploration leaves alone

Explorations stop early in many places: when the domain fails, breaks a contract or merges badly,
and when a budget is used up. The nodes made up to there stay, and a later exploration goes on from
them. This is sound because nothing old is disturbed, wherever the exploration stops
(`Explorer.undisturbed_of_explore`).

That nodes only grow is known step by step (`Explorer.Grows.extends`). What is added here is the
list of what a node covers. Covering drops an older link first, and this is harmless only because
the node that is covered is incomplete and has none.

What is left undisturbed is said of each old node: its position, state, key and edge, its children
as a beginning of the later ones, the marks that say it is settled, and the nodes that it covers. A
node that was incomplete may have become complete, and this is all that may have happened to it.

The statement holds of every exploration and for every way in which it ends, faults included, and
needs a well-formed graph to start from. It does not need that the domain keeps its contracts.
-/

namespace AbstractionRefinement

open Work Session

variable {S A P : Type}

namespace Explorer

variable [DecidableEq S] [DecidableEq A] [Described S] {x : Explorer S A P} {prec : P}
  {deadline : Option Nat} {turns : Nat} {s t : Session S A} {i : NodeId} {n m : Node S A}

/-- A step leaves what a node covers, and at most adds to it. -/
theorem Grows.covers (h : x.Grows prec s t) (hn : s.graph.node? i = some n)
    (hm : t.graph.node? i = some m) : n.covers <+: m.covers := by
  -- where the node is as it was
  have hsame : n = m → n.covers <+: m.covers := fun heq ↦ heq ▸ List.prefix_refl _
  have hi := Nat.ne_of_lt (Graph.lt_created hn)
  cases h with
  | root =>
    rw [Graph.node?_addRoot, if_neg hi, hn] at hm
    exact hsame (Option.some.inj hm)
  | ready => exact hsame (Option.some.inj (hn.symm.trans hm))
  | child hp _ _ _ _ hadd =>
    obtain ⟨k, hk, rfl⟩ := Graph.old_of_addChild hp hadd hi hm
    obtain rfl := Option.some.inj (hn.symm.trans hk)
    exact List.prefix_refl _
  | expanded _ _ _ _ hset =>
    rw [Graph.eq_update_of_setExpanded hset, Graph.node?_update, hn] at hm
    split at hm
    · obtain rfl := Option.some.inj hm
      exact List.prefix_refl _
    · exact hsame (Option.some.inj hm)
  | @cover id coverer k _ hk hinc _ hcov =>
    obtain ⟨l, hl, rfl⟩ := (Graph.rewrites_cover hk hcov).1.exists_node? hm
    obtain rfl := Option.some.inj (hn.symm.trans hl)
    have hnone : k.coveredBy ≠ some i := by
      rw [(Node.isIncomplete_iff.1 hinc).2.1]
      exact fun heq ↦ by cases heq
    rw [Graph.relink, if_neg hnone]
    exact List.prefix_append _ _

theorem covers_of_grows (h : Relation.ReflTransGen (x.Grows prec) s t)
    (hn : s.graph.node? i = some n) (hm : t.graph.node? i = some m) : n.covers <+: m.covers := by
  induction h generalizing m with
  | refl =>
    obtain rfl := Option.some.inj (hn.symm.trans hm)
    exact List.prefix_refl _
  | tail hgrows hstep ih =>
    obtain ⟨k, hk, -⟩ := (extends_of_grows hgrows).node? hn
    exact (ih hk).trans (hstep.covers hk hm)

/-- **An exploration only extends the graph**, whether it gives a verdict, runs out of turns or
stops early for any reason. Every live node stays live, with the same position, state, key, incoming
edge, depth, target mark and leave to cover; children and covered nodes are added at the end of its
lists; if it is covered it keeps its coverer, and if it is expanded it stays so. A live node
afterwards is new, at a position behind all others, or it was incomplete, or its marks are what they
were. -/
theorem undisturbed_of_explore {outcome : Except Abort (Option Verdict)} (hs : s.graph.WellFormed)
    (h : x.explore turns deadline prec s = (outcome, t)) :
    (∀ i n, s.graph.node? i = some n → ∃ m, t.graph.node? i = some m ∧ n.Extends m ∧
      n.covers <+: m.covers ∧ (∀ j, n.coveredBy = some j → m.coveredBy = some j) ∧
      (n.expanded = true → m.expanded = true)) ∧
    ∀ i m, t.graph.node? i = some m →
      (s.graph.created ≤ i ∧ ∀ j n, s.graph.node? j = some n → j < i) ∨
      ∃ n, s.graph.node? i = some n ∧
        (n.isIncomplete = true ∨ m.coveredBy = n.coveredBy ∧ m.expanded = n.expanded) := by
  have hgrows := (does_explore hs).change_of_eq h
  have hext := extends_of_grows hgrows
  refine ⟨fun i n hn ↦ ?_, fun i m hm ↦ ?_⟩
  · obtain ⟨m, hm, hnm⟩ := hext.node? hn
    refine ⟨m, hm, hnm, covers_of_grows hgrows hn hm, fun j hj ↦ ?_, hnm.expanded⟩
    have hcomplete : n.isIncomplete = false := by simp [Node.isIncomplete, Node.isCovered, hj]
    exact (hnm.settled hcomplete).1.trans hj
  · rcases Nat.lt_or_ge i s.graph.created with hlt | hge
    · obtain ⟨n, hn, hnm⟩ := hext.exists_node? hlt hm
      refine .inr ⟨n, hn, ?_⟩
      cases hinc : n.isIncomplete with
      | true => exact .inl rfl
      | false => exact .inr (hnm.settled hinc)
    · exact .inl ⟨hge, fun j n hn ↦ Nat.lt_of_lt_of_le (Graph.lt_created hn) hge⟩

end Explorer

/-- Room for four is full in the middle of the expansion that is resumed from the landing. The rungs
there stay what they are, and the root gets one more child. -/
theorem undisturbed_landing : ∃ t n m,
    (stairs.withRoom 4 {}).explore 9 none () landing =
      (.error (.failure (.exhausted (.nodes 4))), t) ∧
    landing.graph.nodeIds = [0, 1, 2] ∧ t.graph.nodeIds = [0, 1, 2, 3] ∧
    landing.graph.node? 0 = some n ∧ t.graph.node? 0 = some m ∧ n.Extends m ∧
    n.children = [1, 2] ∧ m.children = [1, 2, 3] := by
  have hexplore : (stairs.withRoom 4 {}).explore 9 none () landing =
      (.error (.failure (.exhausted (.nodes 4))),
        ((stairs.withRoom 4 {}).explore 9 none () landing).2) :=
    Prod.ext (by decide +kernel) rfl
  have hroot : landing.graph.contains 0 = true := by decide +kernel
  obtain ⟨n, hn⟩ := Graph.contains_iff.1 hroot
  obtain ⟨m, hm, hnm, -⟩ := (Explorer.undisturbed_of_explore wellFormed_landing hexplore).1 0 n hn
  refine ⟨_, n, m, hexplore, by decide +kernel, by decide +kernel, hn, hm, hnm, ?_, ?_⟩
  · rw [← Graph.childrenOf_eq hn]
    decide +kernel
  · rw [← Graph.childrenOf_eq hm]
    decide +kernel

end AbstractionRefinement
