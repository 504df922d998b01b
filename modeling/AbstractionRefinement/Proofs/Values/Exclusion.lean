import AbstractionRefinement.Proofs.Values.Slicing

/-!
# Exclusion of refuted traces

When a trace is refuted, the variables of the slice become tracked. Does the finer precision exclude
the trace? Run the analysis of values along its moves again, from the initial knowledge
(`Analysis.along`). If every variable that matters anywhere on the way to the failure is tracked,
and every combination of their values is told apart, no state is left
(`Program.along_eq_nil_or_crowds`).

But the slice is taken at the states of the trace only, which lie between edges. A variable that an
edge writes and reads again further on matters between two statements of this edge, and need not
matter at any state (`Program.HandsOver`). Nothing else is missed
(`Program.mem_vars_or_handsOver`). Where such a variable is not tracked for another reason, the
trace survives its own refutation (`Program.handover_survives`).

The case in which the initial states do not fit in memory is carried along as an alternative in the
first result. It has nothing to do with the refutation, but there would be no list of states then,
and so none that is empty.

The example hands a value over within one edge. The refutation of its trace asks for no variable, so
the precision does not change and the analysis gets through the trace again.
-/

namespace AbstractionRefinement

namespace Analysis

variable {S A P : Type} (a : Analysis S A P) (prec : P)

/-- All successors of several states along an action. -/
def onward (states : List S) (action : A) : Except Abort (List S) :=
  states.flatMapM fun s ↦ a.successors s action prec

/-- The states that are left of the initial ones after the actions of a trace. -/
def along (actions : List A) : Except Abort (List S) := do
  let start ← a.initial prec
  actions.foldlM (a.onward prec) start

end Analysis

/-- A fold whose every step succeeds from an invariant and restores it succeeds. -/
theorem exists_foldlM {ε α β : Type} {f : β → α → Except ε β} {l : List α} {b : β} {I : β → Prop}
    (hb : I b) (hstep : ∀ {b a}, a ∈ l → I b → ∃ b', f b a = .ok b' ∧ I b') :
    ∃ b', l.foldlM f b = .ok b' ∧ I b' := by
  induction l generalizing b with
  | nil => exact ⟨b, rfl, hb⟩
  | cons a l ih =>
    obtain ⟨c, hc, hI⟩ := hstep List.mem_cons_self hb
    obtain ⟨d, hd, hI⟩ := ih hI fun ha ↦ hstep (List.mem_cons_of_mem a ha)
    exact ⟨d, bind_eq_ok.2 ⟨c, hc, hd⟩, hI⟩

/-- What is in the union of several sets is in one of them. -/
theorem IndexSet.mem_foldl_union {l : List IndexSet} {s : IndexSet} {x : Nat} :
    x ∈ l.foldl IndexSet.union s ↔ x ∈ s ∨ ∃ t ∈ l, x ∈ t := by
  induction l generalizing s with
  | nil => simp
  | cons t l ih =>
    rw [List.foldl_cons, ih, IndexSet.mem_union]
    simp only [List.exists_mem_cons_iff, or_assoc]

namespace Program

variable {p : Program} {maxEnum maxRuns : Nat} {prec : TrackedVars} {core : IndexSet} {x : VarId}
  {moves : List Move} {statements : List TraceStatement} {i k n q : Nat}

/-! ### What a slice can miss -/

/-- The statements read the variable before any of them writes it. -/
def ReadsFirst (x : VarId) : List Statement → Prop
  | [] => False
  | s :: rest => x ∈ s.reads ∨ s.writes ≠ some x ∧ ReadsFirst x rest

/-- One of the statements writes the variable, and what it wrote is read by a later one. -/
def HandsOver (x : VarId) : List Statement → Prop
  | [] => False
  | s :: rest => s.writes = some x ∧ ReadsFirst x rest ∨ HandsOver x rest

/-- A variable that is read first is read first whatever follows. -/
theorem ReadsFirst.append {body rest : List Statement} (h : ReadsFirst x body) :
    ReadsFirst x (body ++ rest) := by
  induction body with
  | nil => exact h.elim
  | cons s body ih => exact h.imp_right (And.imp_right ih)

/-- A variable that is handed over is handed over whatever follows. -/
theorem HandsOver.append {body rest : List Statement} (h : HandsOver x body) :
    HandsOver x (body ++ rest) := by
  induction body with
  | nil => exact h.elim
  | cons s body ih => exact h.imp (And.imp_right ReadsFirst.append) ih

/-- A variable matters before a statement because the statement reads it, or because it matters
afterwards and is not written. -/
theorem reads_or_of_mem_liveBefore {s : Statement} {live : IndexSet}
    (h : x ∈ liveBefore core i s live) : x ∈ s.reads ∨ s.writes ≠ some x ∧ x ∈ live := by
  cases s with
  | assume condition =>
    have hkept : x ∈ live → x ∈ condition.vars ∨ (none : Option VarId) ≠ some x ∧ x ∈ live :=
      fun hx ↦ .inr ⟨by simp, hx⟩
    rw [liveBefore] at h
    split at h
    · exact (IndexSet.mem_union.1 h).elim hkept .inl
    · exact hkept h
  | assign y e =>
    rw [liveBefore] at h
    split at h
    · rcases IndexSet.mem_union.1 h with h | h
      · obtain ⟨hx, hxy⟩ := IndexSet.mem_erase.1 h
        exact .inr ⟨fun hy ↦ hxy (Option.some.inj hy).symm, hx⟩
      · exact .inl h
    · rename_i hy
      exact .inr ⟨fun hyx ↦ hy (Option.some.inj hyx ▸ h), h⟩
  | havoc y =>
    obtain ⟨hx, hxy⟩ := IndexSet.mem_erase.1 h
    exact .inr ⟨fun hy ↦ hxy (Option.some.inj hy).symm, hx⟩

/-- A variable that matters after a statement that does not write it matters before. -/
theorem mem_liveBefore {s : Statement} {live : IndexSet} (hx : x ∈ live)
    (hs : s.writes ≠ some x) : x ∈ liveBefore core i s live := by
  cases s with
  | assume condition =>
    rw [liveBefore]
    split
    · exact IndexSet.mem_union.2 (.inl hx)
    · exact hx
  | assign y e =>
    rw [liveBefore]
    split
    · exact IndexSet.mem_union.2 (.inl (IndexSet.mem_erase.2 ⟨hx, fun h ↦ hs (congrArg _ h.symm)⟩))
    · exact hx
  | havoc y => exact IndexSet.mem_erase.2 ⟨hx, fun h ↦ hs (congrArg _ h.symm)⟩

/-- A variable that matters is read on the way, or matters still at its end. -/
theorem readsFirst_or_of_mem_liveFrom {body rest : List TraceStatement}
    (h : x ∈ liveFrom core i (body ++ rest)) :
    ReadsFirst x (body.map (·.statement)) ∨ x ∈ liveFrom core (i + body.length) rest := by
  induction body generalizing i with
  | nil => exact .inr h
  | cons s body ih =>
    rcases reads_or_of_mem_liveBefore h with hread | ⟨hwrite, hlive⟩
    · exact .inl (.inl hread)
    · rw [List.length_cons, ← Nat.succ_add_eq_add_succ]
      exact (ih hlive).imp_left fun hlater ↦ .inr ⟨hwrite, hlater⟩

/-- **Inside an edge.** A variable that matters at some statement of an edge matters where the edge
begins or where it ends, or it is handed over inside. -/
theorem mem_liveFrom_or_handsOver {before after rest : List TraceStatement}
    (h : x ∈ liveFrom core (i + before.length) (after ++ rest)) :
    x ∈ liveFrom core i ((before ++ after) ++ rest) ∨
      x ∈ liveFrom core (i + (before ++ after).length) rest ∨
        HandsOver x ((before ++ after).map (·.statement)) := by
  induction before generalizing i with
  | nil => exact .inl h
  | cons s before ih =>
    rw [List.length_cons, ← Nat.succ_add_eq_add_succ] at h
    rw [List.cons_append, List.length_cons, ← Nat.succ_add_eq_add_succ]
    rcases ih h with hstart | hend | hinside
    · by_cases hs : s.statement.writes = some x
      · rcases readsFirst_or_of_mem_liveFrom hstart with hread | hend
        · exact .inr (.inr (.inl ⟨hs, hread⟩))
        · exact .inr (.inl hend)
      · exact .inl (mem_liveBefore hstart hs)
    · exact .inr (.inl hend)
    · exact .inr (.inr (.inr hinside))

/-! ### The statements of one edge among those of a trace -/

/-- If a trace has statements, all its edges exist. -/
theorem edge_of_statementsFrom (h : p.statementsFrom i moves = .ok statements) :
    ∀ m ∈ moves, ∃ e, p.edge m.edge = .ok e := by
  induction moves generalizing i statements with
  | nil => exact List.forall_mem_nil _
  | cons m moves ih =>
    obtain ⟨e, he, h⟩ := bind_eq_ok.1 h
    obtain ⟨others, hothers, -⟩ := bind_eq_ok.1 h
    exact List.forall_mem_cons.2 ⟨⟨e, he⟩, ih hothers⟩

/-- The statements of a trace are at the positions of its moves. -/
theorem position_of_statementsFrom (h : p.statementsFrom i moves = .ok statements) :
    ∀ s ∈ statements, i ≤ s.position ∧ s.position < i + moves.length := by
  induction moves generalizing i statements with
  | nil =>
    obtain rfl := Except.ok.inj h
    exact List.forall_mem_nil _
  | cons m moves ih =>
    obtain ⟨e, -, h⟩ := bind_eq_ok.1 h
    obtain ⟨others, hothers, h⟩ := bind_eq_ok.1 h
    obtain rfl := Except.ok.inj h
    refine List.forall_mem_append.2 ⟨List.forall_mem_map.2 fun s _ ↦ ?_, fun s hs ↦ ?_⟩
    · show i ≤ i ∧ i < i + (moves.length + 1)
      omega
    · have hpos := ih hothers s hs
      rw [List.length_cons]
      omega

/-- The statements of the edge at position `q` stand between those of earlier and of later edges. -/
structure Segment (upTo before inside after : List TraceStatement) (q : Nat) : Prop where
  /-- These are all statements. -/
  eq : upTo = before ++ (inside ++ after)
  /-- Those before are of earlier edges. -/
  before_lt : ∀ s ∈ before, s.position < q
  /-- Those inside are of the edge. -/
  inside_eq : ∀ s ∈ inside, s.position = q
  /-- Those after are of later edges. -/
  lt_after : ∀ s ∈ after, q < s.position

/-- **Every statement belongs to one edge**, of which a first part may be all that is looked at. -/
theorem exists_segment (h : p.statementsFrom i moves = .ok statements)
    (hk : k < (statements.take n).length) :
    ∃ before inside after q, Segment (statements.take n) before inside after q ∧
      before.length ≤ k ∧ k < before.length + inside.length ∧ q < i + moves.length ∧
      ∃ m ∈ moves, ∃ e, p.edge m.edge = .ok e ∧ inside.map (·.statement) <+: e.body := by
  induction moves generalizing i k n statements with
  | nil =>
    obtain rfl := Except.ok.inj h
    rw [List.take_nil] at hk
    exact absurd hk (Nat.not_lt_zero k)
  | cons m moves ih =>
    obtain ⟨e, he, h⟩ := bind_eq_ok.1 h
    obtain ⟨others, hothers, h⟩ := bind_eq_ok.1 h
    obtain rfl := Except.ok.inj h
    -- what is looked at of the first edge, and of the others
    obtain ⟨here, hhere, hpre, n', hn'⟩ : ∃ here : List TraceStatement,
        (∀ s ∈ here, s.position = i) ∧ here.map (·.statement) <+: e.body ∧
          ∃ n', (e.body.map (TraceStatement.mk i) ++ others).take n = here ++ others.take n' := by
      refine ⟨(e.body.take n).map (TraceStatement.mk i), List.forall_mem_map.2 fun _ _ ↦ rfl, ?_,
        _, by rw [List.take_append, List.map_take]⟩
      rw [List.map_map]
      show (e.body.take n).map id <+: e.body
      rw [List.map_id]
      exact List.take_prefix n e.body
    replace hk : k < (here ++ others.take n').length := hn' ▸ hk
    have hlater : ∀ s ∈ others.take n', i < s.position := fun s hs ↦
      (position_of_statementsFrom hothers s (List.mem_of_mem_take hs)).1
    show ∃ before inside after q, Segment ((e.body.map (TraceStatement.mk i) ++ others).take n)
      before inside after q ∧ _
    rw [hn', List.length_cons]
    rw [List.length_append] at hk
    by_cases hfirst : k < here.length
    · exact ⟨[], here, _, i, ⟨rfl, List.forall_mem_nil _, hhere, hlater⟩, Nat.zero_le k,
        by rwa [List.length_nil, Nat.zero_add], by omega, m, List.mem_cons_self, e, he, hpre⟩
    · obtain ⟨before, inside, after, q, ⟨heq, hbefore, hinside, hafter⟩, hle, hlt, hq, m', hm', e',
        he', hpre'⟩ := ih hothers (n := n') (k := k - here.length) (by omega)
      have hiq : i < q := by
        obtain ⟨s, hs⟩ : ∃ s, s ∈ inside := List.exists_mem_of_length_pos (by omega)
        rw [← hinside s hs]
        exact hlater s (heq ▸ List.mem_append_right _ (List.mem_append_left _ hs))
      refine ⟨here ++ before, inside, after, q,
        ⟨by rw [heq, List.append_assoc], ?_, hinside, hafter⟩,
        by rw [List.length_append]; omega, by rw [List.length_append]; omega, by omega, m',
        List.mem_cons_of_mem m hm', e', he', hpre'⟩
      exact List.forall_mem_append.2 ⟨fun s hs ↦ hhere s hs ▸ hiq, hbefore⟩

/-- What matters at a position is what matters before the statements from there on. -/
theorem liveAt_append {before rest : List TraceStatement} (hbefore : ∀ s ∈ before, s.position < q)
    (hrest : ∀ s ∈ rest, q ≤ s.position) :
    liveAt core (before ++ rest) q = liveFrom core before.length rest := by
  have hall : (before ++ rest).takeWhile (·.position < q) = before := by
    rw [List.takeWhile_append_of_pos fun s hs ↦ decide_eq_true (hbefore s hs)]
    cases rest with
    | nil => rw [List.takeWhile_nil, List.append_nil]
    | cons s rest =>
      have hs : ¬s.position < q := Nat.not_lt.2 (hrest s List.mem_cons_self)
      rw [List.takeWhile_cons_of_neg (by simpa using hs), List.append_nil]
  rw [liveAt, hall, List.drop_left]

theorem exists_getLast?_append {α : Type} {l r : List α} (hr : r ≠ []) :
    ∃ s ∈ r, (l ++ r).getLast? = some s :=
  ⟨r.getLast hr, List.getLast_mem hr, by
    rw [List.getLast?_append_of_ne_nil l hr, List.getLast?_eq_some_getLast hr]⟩

namespace Segment

variable {upTo before inside after : List TraceStatement}
  (h : Segment upTo before inside after q)
include h

/-- What matters where the edge begins. -/
theorem liveAt_start : liveAt core upTo q = liveFrom core before.length (inside ++ after) := by
  rw [h.eq]
  refine liveAt_append h.before_lt (List.forall_mem_append.2 ⟨fun s hs ↦ ?_, fun s hs ↦ ?_⟩)
  · exact (h.inside_eq s hs).ge
  · exact (h.lt_after s hs).le

/-- What matters where the edge ends. -/
theorem liveAt_end :
    liveAt core upTo (q + 1) = liveFrom core (before.length + inside.length) after := by
  rw [h.eq, ← List.append_assoc, ← List.length_append]
  refine liveAt_append (List.forall_mem_append.2 ⟨fun s hs ↦ ?_, fun s hs ↦ ?_⟩) h.lt_after
  · exact Nat.lt_succ_of_lt (h.before_lt s hs)
  · exact Nat.lt_succ_of_le (h.inside_eq s hs).le

/-- The failure is not before an edge that has statements here. -/
theorem le_last (hne : inside ≠ []) : ∃ last, upTo.getLast? = some last ∧ q ≤ last.position := by
  have hne : inside ++ after ≠ [] := fun hnil ↦ hne (List.append_eq_nil_iff.1 hnil).1
  obtain ⟨last, hmem, hlast⟩ := exists_getLast?_append (l := before) hne
  refine ⟨last, h.eq ▸ hlast, ?_⟩
  rcases List.mem_append.1 hmem with hmem | hmem
  · exact (h.inside_eq last hmem).ge
  · exact (h.lt_after last hmem).le

/-- The failure is after the edge if later edges have statements here. -/
theorem lt_last (hne : after ≠ []) : ∃ last, upTo.getLast? = some last ∧ q < last.position := by
  obtain ⟨last, hmem, hlast⟩ := exists_getLast?_append (l := before ++ inside) hne
  rw [List.append_assoc, ← h.eq] at hlast
  exact ⟨last, hlast, h.lt_after last hmem⟩

end Segment

/-- What matters at a state of the trace, up to the failure, is in the slice. -/
theorem mem_vars_slice {states failedAt : Nat} (hk : k < states) {last : TraceStatement}
    (hlast : (statements.take (failedAt + 1)).getLast? = some last) (hle : k ≤ last.position)
    (hx : x ∈ liveAt core (statements.take (failedAt + 1)) k) :
    x ∈ (slice statements states failedAt core).vars := by
  refine IndexSet.mem_foldl_union.2 (.inr ⟨liveAt core (statements.take (failedAt + 1)) k, ?_, hx⟩)
  rw [slice, hlast]
  exact List.mem_map.2 ⟨k, List.mem_range.2 hk, if_pos hle⟩

/-- **What a slice can miss.** A variable that matters before some statement is in the slice, or an
edge of the trace hands it over. -/
theorem mem_vars_or_handsOver (hst : p.statementsOf moves = .ok statements) {failedAt : Nat}
    (hx : x ∈ liveFrom core k ((statements.take (failedAt + 1)).drop k)) :
    x ∈ (slice statements (moves.length + 1) failedAt core).vars ∨
      ∃ m ∈ moves, ∃ e, p.edge m.edge = .ok e ∧ HandsOver x e.body := by
  have hk : k < (statements.take (failedAt + 1)).length := by
    by_contra hle
    rw [List.drop_eq_nil_of_le (Nat.not_lt.1 hle)] at hx
    cases hx
  obtain ⟨before, inside, after, q, hseg, hle, hlt, hq, m, hm, e, he, hpre⟩ := exists_segment hst hk
  rw [Nat.zero_add] at hq
  -- the place lies inside the edge, after a first part of its statements
  obtain ⟨j, rfl⟩ := Nat.exists_eq_add_of_le hle
  have hj : j < inside.length := by omega
  rw [hseg.eq, List.drop_length_add_append, List.drop_append_of_le_length hj.le] at hx
  have hplace : x ∈ liveFrom core (before.length + (inside.take j).length)
      (inside.drop j ++ after) := by
    rwa [List.length_take, Nat.min_eq_left hj.le]
  have hcases := mem_liveFrom_or_handsOver hplace
  rw [List.take_append_drop] at hcases
  rcases hcases with hbegins | hends | ⟨hinner⟩
  · obtain ⟨last, hlast, hle⟩ := hseg.le_last (List.ne_nil_of_length_pos (by omega))
    exact .inl (mem_vars_slice (by omega) hlast hle (hseg.liveAt_start ▸ hbegins))
  · have hne : after ≠ [] := fun hnil ↦ by
      rw [hnil] at hends
      cases hends
    obtain ⟨last, hlast, hlt⟩ := hseg.lt_last hne
    exact .inl (mem_vars_slice (by omega) hlast hlt (hseg.liveAt_end ▸ hends))
  · obtain ⟨rest, hrest⟩ := hpre
    exact .inr ⟨m, hm, e, he, hrest ▸ hinner.append⟩

/-! ### Initial knowledge -/

/-- The tracked variables are declared, and their values are few enough for every combination to be
told apart. -/
def FewValues (p : Program) (maxEnum : Nat) (prec : TrackedVars) : Prop :=
  ∃ types, List.Forall₂ (fun x type ↦ p.varType x = .ok type) prec.vars.toList types ∧
    (∀ type ∈ types, type.size ≤ maxEnum) ∧ types.foldl (fun n type ↦ n * type.size) 1 ≤ maxEnum

/-- Variables with few values are declared. -/
theorem FewValues.declares (h : p.FewValues maxEnum prec) : p.Declares prec := by
  obtain ⟨types, htypes, -⟩ := h
  intro x hx
  obtain ⟨type, -, htype⟩ := exists_of_forall₂_of_mem_left htypes (of_decide_eq_true hx)
  exact ⟨type, htype⟩

theorem FewValues.eachFew (h : p.FewValues maxEnum prec) : p.EachFew maxEnum prec := by
  obtain ⟨types, htypes, hsmall, -⟩ := h
  intro x type hx htype
  obtain ⟨type', hmem, htype'⟩ := exists_of_forall₂_of_mem_left htypes (of_decide_eq_true hx)
  obtain rfl := Except.ok.inj (htype.symm.trans htype')
  exact hsmall type hmem

/-- All variables of a precision are enumerated if each has few values. -/
theorem enumerableVars_eq {xs : List VarId} {types : List VarType}
    (h : List.Forall₂ (fun x type ↦ p.varType x = .ok type) xs types)
    (hsmall : ∀ type ∈ types, type.size ≤ maxEnum) :
    p.enumerableVars maxEnum xs = .ok (xs.zip types) := by
  induction h with
  | nil => rfl
  | @cons x type xs types htype hrest ih =>
    obtain ⟨hhead, htail⟩ := List.forall_mem_cons.1 hsmall
    refine bind_eq_ok.2 ⟨type, htype, bind_eq_ok.2 ⟨_, ih htail, ?_⟩⟩
    rw [if_pos hhead]
    rfl

/-- The number of combinations is estimated from the types alone. -/
theorem estimate_zip {xs : List VarId} {types : List VarType} (h : xs.length = types.length) :
    estimate (xs.zip types) = types.foldl (fun n type ↦ n * type.size) 1 := by
  have hsnd : (xs.zip types).map Prod.snd = types := List.map_snd_zip h.ge
  rw [estimate]
  conv => rhs; rw [← hsnd, List.foldl_map]

/-- Every way to bind variables knows them all, and gives them values of their types. -/
theorem knows_of_mem_foldl_bindOne {vars : List (VarId × VarType)} {vs : List Valuation}
    {ρ : Store} (hvars : ∀ xt ∈ vars, p.varType xt.1 = .ok xt.2)
    (h : ∀ v ∈ vs, p.InType (ρ.override v)) :
    ∀ w ∈ vars.foldl bindOne vs, p.InType (ρ.override w) ∧
      (∀ xt ∈ vars, w.contains xt.1 = true) ∧
        ∃ v ∈ vs, ∀ x, v.contains x = true → w.contains x = true := by
  induction vars generalizing vs with
  | nil => exact fun w hw ↦ ⟨h w hw, List.forall_mem_nil _, w, hw, fun _ ↦ id⟩
  | cons xt vars ih =>
    obtain ⟨hxt, hvars⟩ := List.forall_mem_cons.1 hvars
    have hone : ∀ u ∈ bindOne vs xt, ∃ v ∈ vs, ∃ a, xt.2.contains a = true ∧
        u = v.insert xt.1 a := by
      intro u hu
      obtain ⟨v, hv, hu⟩ := List.mem_flatMap.1 hu
      obtain ⟨a, ha, rfl⟩ := List.mem_map.1 hu
      exact ⟨v, hv, a, VarType.mem_values.1 ha, rfl⟩
    have hin : ∀ u ∈ bindOne vs xt, p.InType (ρ.override u) := by
      intro u hu
      obtain ⟨v, hv, a, ha, rfl⟩ := hone u hu
      rw [Store.override_insert]
      exact (h v hv).set hxt ha
    have hcontains : ∀ {v : Valuation} {a : Value} {x : VarId}, x = xt.1 ∨ v.contains x = true →
        (v.insert xt.1 a).contains x = true := by
      intro v a x hx
      rw [IndexMap.contains, IndexMap.find?_insert]
      split
      · rfl
      · rename_i hne
        exact hx.resolve_left hne
    intro w hw
    obtain ⟨hw, hknows, u, hu, hmore⟩ := ih hvars hin w hw
    obtain ⟨v, hv, a, -, rfl⟩ := hone u hu
    exact ⟨hw, List.forall_mem_cons.2 ⟨hmore _ (hcontains (.inl rfl)), hknows⟩, v, hv,
      fun x hx ↦ hmore x (hcontains (.inr hx))⟩

/-- **Initial knowledge is complete** if the values are few: it knows every tracked variable, as it
is in some store with values of the declared types. -/
theorem knows_of_initial (hfew : p.FewValues maxEnum prec) (hin : ∃ ρ, p.InType ρ)
    {ks : List Knowledge} (h : (p.valueAnalysis maxEnum).initial prec = .ok ks) :
    ∀ k ∈ ks, ∃ v σ, k = .known v ∧ p.InType σ ∧
      ∀ ⦃x⦄, prec.tracks x = true → v.find? x = some (σ x) := by
  obtain ⟨ρ, hρ⟩ := hin
  obtain ⟨types, htypes, hsmall, hprod⟩ := hfew
  have hvars := enumerableVars_eq htypes hsmall
  have hks : ks = ((prec.vars.toList.zip types).foldl bindOne [.empty]).map .known := by
    have hks := orFault_eq_ok.1 h
    have hfits : ¬maxEnum < estimate (prec.vars.toList.zip types) := by
      rw [estimate_zip htypes.length_eq]
      exact Nat.not_lt.2 hprod
    rw [initialKnowledge_eq hvars, if_neg hfits] at hks
    split at hks
    · exact (Except.ok.inj hks).symm
    · cases hks
  intro k hk
  obtain ⟨v, hv, rfl⟩ := List.mem_map.1 (hks ▸ hk)
  have hstart : ∀ w ∈ [IndexMap.empty], p.InType (ρ.override w) := List.forall_mem_singleton.2 hρ
  obtain ⟨hin, hknows, -⟩ := knows_of_mem_foldl_bindOne
    (fun xt hxt ↦ ((mem_enumerableVars hvars).1 hxt).2.1) hstart v hv
  refine ⟨v, ρ.override v, rfl, hin, fun x hx ↦ ?_⟩
  have hfst : (prec.vars.toList.zip types).map Prod.fst = prec.vars.toList :=
    List.map_fst_zip htypes.length_eq.le
  have hmem : x ∈ (prec.vars.toList.zip types).map Prod.fst := by
    rw [hfst]
    exact of_decide_eq_true hx
  obtain ⟨xt, hxt, rfl⟩ := List.mem_map.1 hmem
  obtain ⟨a, ha⟩ := Option.isSome_iff_exists.1 (hknows xt hxt)
  rw [ha, Store.override, ha, Option.getD_some]

/-! ### Running along a trace -/

/-- What is left at the end of a trace has passed through its statements. -/
theorem exists_passes_of_foldlM {start ks : List Knowledge}
    (hstart : ∀ k ∈ start, ∃ v, k = .known v) (hst : p.statementsFrom i moves = .ok statements)
    (h : moves.foldlM ((p.valueAnalysis maxEnum).onward prec) start = .ok ks) :
    ∀ k ∈ ks, ∃ v w, .known v ∈ start ∧
      p.Passes maxEnum prec (statements.map (·.statement)) v w := by
  induction moves generalizing i start statements with
  | nil =>
    obtain rfl := Except.ok.inj h
    obtain rfl := Except.ok.inj hst
    intro k hk
    obtain ⟨v, rfl⟩ := hstart k hk
    exact ⟨v, v, hk, .nil⟩
  | cons m moves ih =>
    obtain ⟨e, he, hst⟩ := bind_eq_ok.1 hst
    obtain ⟨others, hothers, hst⟩ := bind_eq_ok.1 hst
    obtain rfl := Except.ok.inj hst
    obtain ⟨next, hnext, h⟩ := bind_eq_ok.1 h
    obtain ⟨parts, hparts, rfl⟩ := flatMapM_eq_ok hnext
    -- every state after the edge has passed through its statements
    have hedge : ∀ k' ∈ parts.flatten, ∃ v w, .known v ∈ start ∧ k' = .known w ∧
        p.Passes maxEnum prec e.body v w := by
      intro k' hk'
      obtain ⟨part, hpart, hk'⟩ := List.mem_flatten.1 hk'
      obtain ⟨k, hk, hsucc⟩ := exists_of_forall₂_of_mem_right hparts hpart
      obtain ⟨v, rfl⟩ := hstart k hk
      obtain ⟨e', he', hsucc⟩ := bind_eq_ok.1 hsucc
      obtain rfl := Except.ok.inj (he.symm.trans (orFault_eq_ok.1 he'))
      obtain ⟨ws, hws, hsucc⟩ := bind_eq_ok.1 hsucc
      obtain rfl := Except.ok.inj hsucc
      obtain ⟨w, hw, rfl⟩ := List.mem_map.1 hk'
      obtain ⟨u, hu, hpass⟩ := exists_passes_of_executeAll hws hw
      obtain rfl := List.mem_singleton.1 hu
      exact ⟨u, w, hk, rfl, hpass⟩
    have hknown : ∀ k ∈ parts.flatten, ∃ v, k = .known v := fun k hk ↦ by
      obtain ⟨-, w, -, hkw, -⟩ := hedge k hk
      exact ⟨w, hkw⟩
    intro k hk
    obtain ⟨u, w, hu, hrest⟩ := ih hknown hothers h k hk
    obtain ⟨v, u', hv, heq, hpass⟩ := hedge _ hu
    obtain rfl := Knowledge.known.inj heq
    refine ⟨v, w, hv, ?_⟩
    rw [List.map_append, List.map_map]
    have hpass' : p.Passes maxEnum prec (e.body.map id) v u := (List.map_id e.body).symm ▸ hpass
    exact hpass'.append hrest

variable (maxEnum) in
/-- Along the edges of a well-typed program the analysis answers, unless there is no room for what
it begins with. -/
theorem exists_along_or_crowds (htyped : p.WellTyped) (hprec : p.Declares prec)
    (hmoves : ∀ m ∈ moves, ∃ e, p.edge m.edge = .ok e) :
    (∃ ks, (p.valueAnalysis maxEnum).along prec moves = .ok ks) ∨
      p.Crowds maxEnum prec ∧
        (p.valueAnalysis maxEnum).along prec moves = .error (.fault .beyondMemory) := by
  obtain ⟨start, hstart, hkinds⟩ | ⟨hcrowds, hstart⟩ := exists_initial_or_crowds maxEnum hprec
  case inr => exact .inr ⟨hcrowds, bind_eq_error.2 (.inl hstart)⟩
  have honward : ∀ {ks m}, m ∈ moves → (∀ k ∈ ks, p.KindedKnowledge k) →
      ∃ ks', (p.valueAnalysis maxEnum).onward prec ks m = .ok ks' ∧
        ∀ k ∈ ks', p.KindedKnowledge k := by
    intro ks m hm hks
    obtain ⟨e, he⟩ := hmoves m hm
    exact exists_flatMapM fun k hk ↦ exists_successors maxEnum prec htyped (hks k hk) he
  obtain ⟨ks, hks, -⟩ := exists_foldlM hkinds honward
  exact .inl ⟨ks, bind_eq_ok.2 ⟨start, hstart, hks⟩⟩

/-! ### Refuted traces -/

/-- The variable decides, before some statement of the trace, whether the assumptions of the core
chosen for its refutation hold. -/
def Matters (p : Program) (maxRuns : Nat) (strategy : CoreStrategy) (moves : List Move)
    (x : VarId) : Prop :=
  ∃ statements failedAt core k, p.statementsOf moves = .ok statements ∧
    p.simulate maxRuns (fun _ ↦ true) statements = .ok (.stuck failedAt) ∧
    p.core maxRuns strategy statements failedAt = .ok core ∧
    x ∈ liveFrom core k ((statements.take (failedAt + 1)).drop k)

/-- What the refutation of a trace is computed from. -/
theorem checkMoves_eq_infeasible {strategy : CoreStrategy} {found : Slice}
    (h : p.checkMoves maxRuns strategy moves = .ok (.infeasible found)) :
    ∃ statements failedAt core, p.statementsOf moves = .ok statements ∧
      p.simulate maxRuns (fun _ ↦ true) statements = .ok (.stuck failedAt) ∧
      p.core maxRuns strategy statements failedAt = .ok core ∧
      found = slice statements (moves.length + 1) failedAt core := by
  obtain ⟨statements, hst, h⟩ := bind_eq_ok.1 h
  obtain ⟨outcome, hsim, h⟩ := bind_eq_ok.1 h
  cases outcome with
  | feasible run => cases Except.ok.inj h
  | stuck failedAt =>
    obtain ⟨core, hcore, h⟩ := bind_eq_ok.1 h
    exact ⟨statements, failedAt, core, orFault_eq_ok.1 hst, hsim, hcore,
      (Feasibility.infeasible.inj (Except.ok.inj h)).symm⟩

/-- The statements of a trace of a well-typed program are well typed. -/
theorem wellTyped_of_statementsFrom (htyped : p.WellTyped)
    (h : p.statementsFrom i moves = .ok statements) :
    ∀ s ∈ statements, s.statement.WellTyped p := by
  induction moves generalizing i statements with
  | nil =>
    obtain rfl := Except.ok.inj h
    exact List.forall_mem_nil _
  | cons m moves ih =>
    obtain ⟨e, he, h⟩ := bind_eq_ok.1 h
    obtain ⟨others, hothers, h⟩ := bind_eq_ok.1 h
    obtain rfl := Except.ok.inj h
    exact List.forall_mem_append.2
      ⟨List.forall_mem_map.2 fun s hs ↦ htyped e (mem_of_edge he) s hs, ih hothers⟩

/-- **Tracking what matters excludes the trace**, if there is room for what the analysis begins
with. -/
theorem along_eq_nil_or_crowds {d : Draft} (hbuild : d.build = .ok p) (htyped : p.WellTyped)
    {strategy : CoreStrategy} (hstrategy : strategy ≠ .last) {found : Slice}
    (hcheck : p.checkMoves maxRuns strategy moves = .ok (.infeasible found))
    (hfew : p.FewValues maxEnum prec)
    (htracked : ∀ x, p.Matters maxRuns strategy moves x → prec.tracks x = true) :
    (p.valueAnalysis maxEnum).along prec moves = .ok [] ∨
      p.Crowds maxEnum prec ∧
        (p.valueAnalysis maxEnum).along prec moves = .error (.fault .beyondMemory) := by
  obtain ⟨statements, failedAt, core, hst, hsim, hcore, -⟩ := checkMoves_eq_infeasible hcheck
  refine (exists_along_or_crowds maxEnum htyped hfew.declares
    (edge_of_statementsFrom hst)).imp_left ?_
  rintro ⟨ks, hks⟩
  obtain ⟨start, hstart, hfold⟩ := bind_eq_ok.1 hks
  have hknows := knows_of_initial hfew (exists_inType hbuild) hstart
  suffices hnone : ∀ k, k ∉ ks by
    rw [hks, List.eq_nil_iff_forall_not_mem.2 hnone]
  intro k hk
  have hknown : ∀ k ∈ start, ∃ v, k = .known v := fun k hk ↦ by
    obtain ⟨v, -, hkv, -⟩ := hknows k hk
    exact ⟨v, hkv⟩
  obtain ⟨v, w, hv, hpass⟩ := exists_passes_of_foldlM hknown hst hfold k hk
  obtain ⟨v', σ, heq, hσ, hknows⟩ := hknows _ hv
  obtain rfl := Knowledge.known.inj heq
  exact not_passes_of_core (exists_inType hbuild) (d.exists_contains_of_build hbuild)
    (wellTyped_of_statementsFrom htyped hst) hstrategy hsim hcore hfew.eachFew hσ hknows
    (fun k x hx ↦ htracked x ⟨statements, failedAt, core, k, hst, hsim, hcore, hx⟩) hpass

/-- **Refinement excludes the refuted trace, unless an edge hands a variable over.** Let a trace of
a well-typed program be refuted, the core being more than the assumption that failed, and let the
precision be refined by the refutation. If the values of the tracked variables are few, and every
variable that matters between two statements is tracked, the analysis of values leaves no state when
it is run along the trace again; it cannot be run only if there is no room for the states it begins
with. And a variable that matters can only be missing if an edge of the trace writes it and reads it
again. -/
theorem along_refine_of_infeasible {d : Draft} (hbuild : d.build = .ok p) (htyped : p.WellTyped)
    {strategy : CoreStrategy} (hstrategy : strategy ≠ .last) {t : Trace ProgramState Move}
    {found : Slice} (hcheck : (p.refuter maxRuns strategy).check t = .ok (.infeasible found))
    {prec refined : ProgramPrecision}
    (hrefine : (p.refuter maxRuns strategy).refine prec t found = .ok refined)
    (hfew : p.FewValues maxEnum refined.second) :
    ((∀ x, p.Matters maxRuns strategy t.actions x → refined.second.tracks x = true) →
        (p.valueAnalysis maxEnum).along refined.second t.actions = .ok [] ∨
          p.Crowds maxEnum refined.second ∧ (p.valueAnalysis maxEnum).along refined.second
            t.actions = .error (.fault .beyondMemory)) ∧
      ∀ x, p.Matters maxRuns strategy t.actions x → refined.second.tracks x = true ∨
        ∃ m ∈ t.actions, ∃ e, p.edge m.edge = .ok e ∧ HandsOver x e.body := by
  refine ⟨along_eq_nil_or_crowds hbuild htyped hstrategy hcheck hfew, fun x hx ↦ ?_⟩
  obtain ⟨statements, failedAt, core, hst, hsim, hcore, rfl⟩ := checkMoves_eq_infeasible hcheck
  obtain ⟨statements', failedAt', core', k, hst', hsim', hcore', hx⟩ := hx
  obtain rfl := Except.ok.inj (hst.symm.trans hst')
  obtain rfl := Simulation.stuck.inj (Except.ok.inj (hsim.symm.trans hsim'))
  obtain rfl := Except.ok.inj (hcore.symm.trans hcore')
  obtain rfl := Except.ok.inj hrefine
  refine (mem_vars_or_handsOver hst hx).imp_left fun hmem ↦ ?_
  exact decide_eq_true (IndexSet.mem_union.2 (.inr hmem))

/-- The whole statement at the edges of `detour` in the wrong order. The first one stores a value
and reads it again, but what it stored matters after it too. -/
theorem detourBack_excluded : ∃ p found refined, detour.build = .ok p ∧ p.WellTyped ∧
    (p.refuter 99 .minimal).check detourBack = .ok (.infeasible found) ∧
    (p.refuter 99 .minimal).refine ⟨(), {}⟩ detourBack found = .ok refined ∧
    p.FewValues 16 refined.second ∧
    (p.valueAnalysis 16).along refined.second detourBack.actions = .ok [] := by
  have hrun : (detour.build.toOption.any fun p ↦
      ((p.refuter 99 .minimal).check detourBack).toOption.any fun
        | .infeasible found =>
          ((p.refuter 99 .minimal).refine ⟨(), {}⟩ detourBack found).toOption.any fun refined ↦
            refined.second.vars.toList = [0, 1]
        | .feasible _ => false) = true := by
    decide +kernel
  obtain ⟨p, hp, hrun⟩ := exists_of_toOption_any hrun
  obtain ⟨answer, hcheck, hrun⟩ := exists_of_toOption_any hrun
  cases answer with
  | feasible witness => cases hrun
  | infeasible found =>
    obtain ⟨refined, hrefine, hrun⟩ := exists_of_toOption_any hrun
    have hvars : refined.second.vars.toList = [0, 1] := of_decide_eq_true hrun
    have htyped := wellTyped_detour hp
    have hfew : p.FewValues 16 refined.second := by
      refine ⟨[.int 0 3, .int 0 3], ?_, by decide, by decide⟩
      rw [hvars]
      cases hp
      exact .cons rfl (.cons rfl .nil)
    obtain ⟨hexcluded, hmissing⟩ :=
      along_refine_of_infeasible hp htyped (by decide) hcheck hrefine hfew
    refine ⟨p, found, refined, hp, htyped, hcheck, hrefine, hfew, (hexcluded fun x hx ↦
      ?_).resolve_right fun hcrowds ↦ not_crowds (by decide) hcrowds.1⟩
    rcases hmissing x hx with hx | ⟨m, hm, e, he, hover⟩
    · exact hx
    · -- only the first variable is handed over
      have hmem := mem_of_edge he
      rw [(Draft.build_eq_ok hp).1] at hmem
      rcases List.mem_cons.1 hmem with rfl | hmem
      · obtain ⟨hwrites, -⟩ | hnone := hover
        · cases hwrites
        · exact hnone.elim
      · obtain rfl := List.mem_singleton.1 hmem
        obtain ⟨hwrites, -⟩ | ⟨hwrites, -⟩ | hnone := hover
        · obtain rfl := Option.some.inj hwrites
          refine decide_eq_true (show (0 : Nat) ∈ refined.second.vars.toList from ?_)
          rw [hvars]
          decide
        · cases hwrites
        · exact hnone.elim

/-! ### A trace that survives -/

/-- Stores a value and compares it with another one. -/
def handover : Draft where
  vars := [⟨"x", .int 0 0⟩]
  locations := ["A", "B"]
  edges := [⟨0, 1, [.assign 0 (.const (.int 1)), .assume (.equal (.var 0) (.const (.int 2)))]⟩]
  init := some 0
  error := some 1

/-- The trace along its edge. -/
def handoverTrace : Trace ProgramState Move where
  start := ⟨⟨0⟩, .top⟩
  steps := [(⟨0, 0, 1⟩, ⟨⟨1⟩, .top⟩)]

theorem wellTyped_handover {p : Program} (hp : handover.build = .ok p) : p.WellTyped := by
  have htype : p.varType 0 = .ok (.int 0 0) := by
    cases hp
    rfl
  have hedges : p.edges = Draft.numberEdges 0 handover.edges := (Draft.build_eq_ok hp).1
  intro e he s hs
  rw [hedges] at he
  obtain rfl := List.mem_singleton.1 he
  rcases List.mem_cons.1 hs with rfl | hs
  · exact .assign htype .const
  · obtain rfl := List.mem_singleton.1 hs
    exact .assume (.equal (.var htype) .const)

/-- **A trace can survive its refutation.** The slice has no variable, the precision stays as it is,
and the analysis gets through the trace again. -/
theorem handover_survives : ∃ p found, handover.build = .ok p ∧ p.WellTyped ∧
    (p.refuter 99 .all).check handoverTrace = .ok (.infeasible found) ∧
    (p.refuter 99 .all).refine ⟨(), {}⟩ handoverTrace found = .ok ⟨(), {}⟩ ∧
    p.FewValues 16 {} ∧
    (p.valueAnalysis 16).along {} handoverTrace.actions = .ok [.top] := by
  have hrun : (handover.build.toOption.any fun p ↦
      ((p.valueAnalysis 16).along {} handoverTrace.actions).toOption.any (· = [.top]) &&
      ((p.refuter 99 .all).check handoverTrace).toOption.any fun
        | .infeasible found =>
          ((p.refuter 99 .all).refine ⟨(), {}⟩ handoverTrace found).toOption.any (· = ⟨(), {}⟩)
        | .feasible _ => false) = true := by
    decide +kernel
  obtain ⟨p, hp, hrun⟩ := exists_of_toOption_any hrun
  obtain ⟨halong, hrun⟩ := Bool.and_eq_true_iff.1 hrun
  obtain ⟨left, halong, hleft⟩ := exists_of_toOption_any halong
  obtain rfl := of_decide_eq_true hleft
  obtain ⟨answer, hcheck, hrun⟩ := exists_of_toOption_any hrun
  cases answer with
  | feasible witness => cases hrun
  | infeasible found =>
    obtain ⟨refined, hrefine, hsame⟩ := exists_of_toOption_any hrun
    obtain rfl := of_decide_eq_true hsame
    exact ⟨p, found, hp, wellTyped_handover hp, hcheck, hrefine, ⟨[], .nil, by decide, by decide⟩,
      halong⟩

end Program

end AbstractionRefinement
