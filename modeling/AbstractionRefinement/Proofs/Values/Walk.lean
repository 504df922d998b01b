import AbstractionRefinement.Proofs.Values.Exclusion

/-!
# The backward walk of a slice

`Program.slice` says for each state of a trace by itself what matters there: it looks for the first
statement of a later edge and starts from it. Carried out, a slice is one walk from the failure back
to the beginning. Two indices go down together, one over the positions of the edges (`walkBack`) and
one over the statements, which for each position passes those of its edge (`passEdge`); what matters
is carried along, and entered at the position reached. Statements are looked up and entries made by
index, and an index out of range is a fault.

The walk relies on what `statementsOf` gives: positions that do not decrease, one for each move.
Then a position that has been passed leaves exactly the statements of earlier edges, and what is
carried along is what `liveFrom` finds at this point. So no lookup fails and the entries are those
of `Program.slice` (`Program.sliceByWalk_eq`). Of a list of statements whose positions were out of
order neither would be true: the walk would leave statements out, or stop at an entry that is not
there.
-/

namespace AbstractionRefinement.Program

variable {p : Program} {core : IndexSet} {statements : List TraceStatement} {k : Nat}

/-! ### The walk -/

/-- Go back over the statements of the edge at a position, of those before which `i` are left to
pass; the answer is how many are left, and what matters there. -/
def passEdge (core : IndexSet) (statements : List TraceStatement) (position : Nat) :
    Nat → IndexSet → Except Fault (Nat × IndexSet)
  | 0, live => .ok (0, live)
  | i + 1, live => do
    let s ← required .outOfRange statements[i]?
    if s.position = position then
      passEdge core statements position i (liveBefore core i s.statement live)
    else return (i + 1, live)

/-- Enter what matters at a state, which has to exist. -/
def enter (perState : List IndexSet) (k : Nat) (vars : IndexSet) :
    Except Fault (List IndexSet) :=
  if k < perState.length then .ok (perState.set k vars) else .error .outOfRange

/-- Go back over so many positions, with `i` statements left to pass, and fill in the entries. -/
def walkBack (core : IndexSet) (statements : List TraceStatement) :
    Nat → Nat → IndexSet → List IndexSet → Except Fault (List IndexSet)
  | 0, _, _, perState => .ok perState
  | k + 1, i, live, perState => do
    let (i, live) ← passEdge core statements k i live
    let perState ← enter perState k live
    walkBack core statements k i live perState

/-- A slice, as one walk from the failure back to the beginning. -/
def sliceByWalk (statements : List TraceStatement) (states failedAt : Nat) (core : IndexSet) :
    Except Fault Slice := do
  let last ← required .outOfRange statements[failedAt]?
  let perState ← walkBack core statements (last.position + 1) (failedAt + 1) .empty
    (List.replicate states .empty)
  return {
    perState
    cut := (perState.findIdx? fun vars ↦ !vars.isEmpty).getD
      (min (last.position + 1) (states - 1)) }

/-! ### One edge -/

/-- Statements in the order of their edges are split by a position. -/
theorem exists_split {l : List TraceStatement} (h : l.Pairwise (·.position ≤ ·.position))
    (k : Nat) : ∃ before rest, l = before ++ rest ∧ (∀ s ∈ before, s.position < k) ∧
      ∀ s ∈ rest, k ≤ s.position := by
  induction l with
  | nil => exact ⟨[], [], rfl, List.forall_mem_nil _, List.forall_mem_nil _⟩
  | cons s l ih =>
    obtain ⟨hs, hl⟩ := List.pairwise_cons.1 h
    by_cases hk : s.position < k
    · obtain ⟨before, rest, rfl, hbefore, hrest⟩ := ih hl
      exact ⟨s :: before, rest, rfl, List.forall_mem_cons.2 ⟨hk, hbefore⟩, hrest⟩
    · have hle : k ≤ s.position := Nat.not_lt.1 hk
      exact ⟨[], s :: l, rfl, List.forall_mem_nil _,
        List.forall_mem_cons.2 ⟨hle, fun t ht ↦ hle.trans (hs t ht)⟩⟩

theorem getElem?_of_append_singleton {l : List TraceStatement} {s : TraceStatement}
    (h : l ++ [s] <+: statements) : statements[l.length]? = some s := by
  obtain ⟨rest, rfl⟩ := h
  simp

/-- **Passing an edge**: the statements of the edge are passed, those of earlier edges are left, and
what matters is what matters before the edge. -/
theorem passEdge_eq (before inside rest : List TraceStatement)
    (hpre : before ++ inside <+: statements) (hbefore : ∀ s ∈ before, s.position < k)
    (hinside : ∀ s ∈ inside, s.position = k) :
    passEdge core statements k (before ++ inside).length
        (liveFrom core (before ++ inside).length rest) =
      .ok (before.length, liveFrom core before.length (inside ++ rest)) := by
  -- the walk meets the last statement of the edge first
  induction inside using List.reverseRecOn generalizing rest with
  | nil =>
    rw [List.append_nil] at hpre ⊢
    rw [List.nil_append]
    -- the statement before the edge, if there is one, is of an earlier one
    cases before using List.reverseRecOn with
    | nil => rfl
    | append_singleton before s =>
      have hne : s.position ≠ k := (hbefore s (by simp)).ne
      rw [List.length_append, List.length_singleton, passEdge,
        getElem?_of_append_singleton hpre]
      simp [required, hne, bind, Except.bind, pure, Except.pure]
  | append_singleton inside s ih =>
    rw [← List.append_assoc] at hpre
    have hs : s.position = k := hinside s (by simp)
    rw [← List.append_assoc, List.length_append, List.length_singleton, passEdge,
      getElem?_of_append_singleton hpre]
    simp only [required, bind, Except.bind, hs, if_true]
    have hrest := ih (s :: rest) ((List.prefix_append _ _).trans hpre)
      fun t ht ↦ hinside t (List.mem_append_left _ ht)
    rw [List.append_assoc, List.singleton_append]
    exact hrest

/-! ### All edges -/

/-- **Going back over positions**: the entries are filled in with what matters at their states, and
the others are as before. -/
theorem exists_walkBack_eq (core : IndexSet) (before rest : List TraceStatement)
    (perState : List IndexSet)
    (hpre : before <+: statements) (hsorted : before.Pairwise (·.position ≤ ·.position))
    (hbefore : ∀ s ∈ before, s.position < k) (hrest : ∀ s ∈ rest, k ≤ s.position)
    (hk : k ≤ perState.length) :
    ∃ entries, walkBack core statements k before.length (liveFrom core before.length rest)
        perState = .ok entries ∧ entries.length = perState.length ∧
      ∀ j, entries[j]? = if j < k then some (liveAt core (before ++ rest) j) else perState[j]? := by
  induction k generalizing before rest perState with
  | zero => exact ⟨perState, rfl, rfl, fun j ↦ by simp⟩
  | succ k ih =>
    obtain ⟨before, inside, rfl, hbefore', hinside⟩ := exists_split hsorted k
    have hat : ∀ s ∈ inside, s.position = k := fun s hs ↦
      Nat.le_antisymm (Nat.le_of_lt_succ (hbefore s (List.mem_append_right _ hs))) (hinside s hs)
    have hlater : ∀ s ∈ inside ++ rest, k ≤ s.position :=
      List.forall_mem_append.2 ⟨hinside, fun s hs ↦ Nat.le_of_succ_le (hrest s hs)⟩
    obtain ⟨entries, hwalk, hlen, hentries⟩ := ih before (inside ++ rest)
      (perState.set k (liveFrom core before.length (inside ++ rest)))
      ((List.prefix_append _ _).trans hpre) (List.pairwise_append.1 hsorted).1 hbefore' hlater
      (by rw [List.length_set]; omega)
    refine ⟨entries, ?_, hlen.trans (List.length_set ..), fun j ↦ ?_⟩
    · rw [walkBack, passEdge_eq _ _ _ hpre hbefore' hat]
      simp only [bind, Except.bind, enter, if_pos (Nat.lt_of_succ_le hk)]
      exact hwalk
    · rw [hentries, List.append_assoc]
      rcases Nat.lt_trichotomy j k with hlt | rfl | hgt
      · rw [if_pos hlt, if_pos (Nat.lt_succ_of_lt hlt)]
      · rw [if_neg (Nat.lt_irrefl j), if_pos (Nat.lt_succ_self j),
          List.getElem?_set_self (Nat.lt_of_succ_le hk), liveAt_append hbefore' hlater]
      · rw [if_neg (Nat.not_lt.2 hgt.le), if_neg (by omega), List.getElem?_set_ne hgt.ne]

/-- Statements along moves are in the order of their edges. -/
theorem pairwise_position_of_statementsFrom {i : Nat} {moves : List Move}
    (h : p.statementsFrom i moves = .ok statements) :
    statements.Pairwise (·.position ≤ ·.position) := by
  induction moves generalizing i statements with
  | nil =>
    obtain rfl := Except.ok.inj h
    exact .nil
  | cons m moves ih =>
    obtain ⟨e, -, h⟩ := bind_eq_ok.1 h
    obtain ⟨others, hothers, h⟩ := bind_eq_ok.1 h
    obtain rfl := Except.ok.inj h
    refine List.pairwise_append.2 ⟨?_, ih hothers, fun s hs t ht ↦ ?_⟩
    · exact List.pairwise_map.2 (List.pairwise_of_forall fun _ _ ↦ Nat.le_refl i)
    · obtain ⟨b, -, rfl⟩ := List.mem_map.1 hs
      exact Nat.le_of_succ_le (position_of_statementsFrom hothers t ht).1

/-- **The backward walk comes to the slice**, whichever core it starts from, for the statements
along moves and a failure among them. -/
theorem sliceByWalk_eq {moves : List Move} (hst : p.statementsOf moves = .ok statements)
    {failedAt : Nat} (hfail : failedAt < statements.length) :
    sliceByWalk statements (moves.length + 1) failedAt core =
      .ok (slice statements (moves.length + 1) failedAt core) := by
  obtain ⟨last, hlast⟩ : ∃ last, statements[failedAt]? = some last :=
    ⟨_, List.getElem?_eq_getElem hfail⟩
  have hlast' : (statements.take (failedAt + 1)).getLast? = some last := by
    rw [List.getLast?_take, if_neg (Nat.succ_ne_zero failedAt), Nat.add_sub_cancel, hlast]
    rfl
  have hsorted : (statements.take (failedAt + 1)).Pairwise (·.position ≤ ·.position) :=
    (pairwise_position_of_statementsFrom hst).sublist (List.take_sublist _ _)
  -- no statement up to the failure is of a later edge, and each edge leads to a state
  have hupTo : ∀ s ∈ statements.take (failedAt + 1), s.position < last.position + 1 := by
    rw [List.take_add_one, hlast] at hsorted ⊢
    refine List.forall_mem_append.2 ⟨fun s hs ↦ Nat.lt_succ_of_le ?_, by simp⟩
    exact (List.pairwise_append.1 hsorted).2.2 s hs last (by simp)
  have hstate : last.position < moves.length + 1 := by
    have hlt := (position_of_statementsFrom hst last (List.mem_of_getElem? hlast)).2
    omega
  obtain ⟨entries, hwalk, -, hentries⟩ := exists_walkBack_eq core _ []
    (List.replicate (moves.length + 1) .empty) (List.take_prefix (failedAt + 1) _)
    hsorted hupTo (List.forall_mem_nil _) (by rw [List.length_replicate]; exact hstate)
  have heq : entries = (slice statements (moves.length + 1) failedAt core).perState := by
    refine List.ext_getElem? fun j ↦ ?_
    rw [hentries, List.append_nil, slice, hlast', List.getElem?_map, List.getElem?_replicate]
    by_cases hj : j < moves.length + 1
    · rw [List.getElem?_range hj, if_pos hj]
      by_cases hle : j ≤ last.position
      · rw [if_pos (Nat.lt_succ_of_le hle)]
        simp [hle]
      · rw [if_neg (by omega)]
        simp [hle]
    · rw [if_neg hj, if_neg (by omega), List.getElem?_eq_none (by simpa using hj)]
      rfl
  have hlen : (statements.take (failedAt + 1)).length = failedAt + 1 := by
    rw [List.length_take]
    omega
  rw [hlen] at hwalk
  rw [sliceByWalk, hlast]
  simp only [required, bind, Except.bind]
  rw [show walkBack core statements (last.position + 1) (failedAt + 1) .empty _ = _ from hwalk]
  simp only [pure, Except.pure, heq]
  rw [slice, hlast']
  rfl

end AbstractionRefinement.Program
