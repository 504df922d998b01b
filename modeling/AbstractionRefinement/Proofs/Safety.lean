import AbstractionRefinement.Proofs.Loop
import AbstractionRefinement.Proofs.Soundness

/-!
# What a safe report shows

A run of the refinement loop explores under one precision after the other, each at least as fine as
the one before. A domain may lose more at a finer precision, so what is shown at the end is that no
target can be reached in the system that the domain over-approximates at the last precision. The
graph is sound for the system of the current precision at every iteration (`Checker.Reaches.sound`),
and the exploration that says safe turns this into the answer (`Checker.not_target_of_run`).

Precisions are compared with `Precision.refines`, and no law of this comparison is used beyond what
the loop checks. The system may depend on the precision: `T p` is the system that the domain follows
under precision `p`, and the hypothesis `Narrows` is what is asked of a finer precision. A domain
that follows everything at every precision takes the same system throughout, and then the conclusion
is about that one.

Nothing here asks how the graph was pruned, which counterexamples were examined or how refuted
traces are remembered. All of it is covered by the fact that refinement only takes away.
-/

namespace AbstractionRefinement

open Work

namespace Checker

variable {S A P W R C : Type} [DecidableEq S] [DecidableEq A] [DecidableEq P] [Described S]
  [Precision P] [Described P] {x : Explorer S A P} {refuter : Refuter S A P W R} {scope : Scope}
  {pruning : Pruning} {turns : Nat} {o : LoopOptions} {clock : Clock}
  {T : P → System C A} {γ : S → C → Prop} {fit : P → S → Prop}

/-! ### What every iteration keeps -/

/-- **What explorations and refinements keep holds at every iteration.** -/
theorem Reaches.keeps {I : P → Graph S A → Prop} (hempty : ∀ {p}, I p .empty)
    (hwf : ∀ {p g}, I p g → g.WellFormed)
    (hgrows : ∀ {p s t}, I p s.graph → x.Grows p s t → I p t.graph)
    (hcuts : ∀ {p} {s t : Session S A}, I p s.graph → Refuter.Cuts s t → I p t.graph)
    (hfiner : ∀ {q p g}, Precision.refines q p = true → I p g → I q g) {prec : P}
    {s₀ s : Session S A} {r : Round P}
    (h : (ofSession x refuter scope pruning turns).Reaches o clock prec s₀ r s) :
    I r.prec s.graph := by
  induction h with
  | start => exact hempty
  | @next r r' s u _ hround ih =>
    cases hround with
    | @again refined t _ hexplore hrefine hle =>
      have hst : Relation.ReflTransGen (x.Grows r.prec) s t :=
        (Explorer.does_explore (hwf ih)).change_of_eq hexplore
      have htu : Relation.ReflTransGen Refuter.Cuts t u :=
        Refuter.does_run.change_of_eq hrefine
      have ht : I r.prec t.graph := by
        clear hexplore hrefine htu
        induction hst with
        | refl => exact ih
        | tail _ hstep ih => exact hgrows ih hstep
      refine hfiner hle ?_
      clear hexplore hrefine
      induction htu with
      | refl => exact ht
      | tail _ hstep ih => exact hcuts ih hstep

/-! ### Soundness -/

/-- Finer precisions describe a system with less behaviour, and more states fit them. -/
structure Narrows (T : P → System C A) (fit : P → S → Prop) : Prop where
  /-- No initial state is added. -/
  initial : ∀ {q p c}, Precision.refines q p = true → (T q).initial c → (T p).initial c
  /-- No step is added. -/
  step : ∀ {q p c a c'}, Precision.refines q p = true → (T q).step c a c' → (T p).step c a c'
  /-- What fitted still fits. -/
  fit : ∀ {q p st}, Precision.refines q p = true → fit p st → fit q st

/-- **The graph is sound at every iteration**, for the system at its precision. -/
theorem Reaches.sound (hsim : ∀ prec, x.model.Simulates prec (T prec) γ (fit prec))
    (hT : Narrows T fit) {prec : P} {s₀ s : Session S A} {r : Round P}
    (h : (ofSession x refuter scope pruning turns).Reaches o clock prec s₀ r s) :
    x.model.Sound (T r.prec) γ (fit r.prec) s.graph := by
  exact h.keeps (I := fun prec ↦ x.model.Sound (T prec) γ (fit prec)) .empty
    (fun hs ↦ hs.disciplined.wellFormed) (fun hs hstep ↦ hs.grows (hsim _) hstep)
    (fun hs hstep ↦ hs.of_cuts (.single hstep))
    (fun hle hs ↦ hs.mono (hT.initial hle) (hT.step hle) (hT.fit hle))

/-- **A safe report excludes every target** of the system at the last precision. -/
theorem not_target_of_run (hsim : ∀ prec, x.model.Simulates prec (T prec) γ (fit prec))
    (hT : Narrows T fit) {prec final : P} {s₀ : Session S A} {report : Report S A P W}
    (h : ((ofSession x refuter scope pruning turns).run o clock turns prec s₀).1 =
      some (.ok report)) (hsafe : report.conclusion = .safe final) {c : C}
    (hc : (T final).Reachable c) : ¬(T final).target c := by
  obtain ⟨f, -, hf⟩ | ⟨r, s, hreach, hround⟩ := exists_rounds_of_run _ h
  · cases hf
  · obtain ⟨rfl, hexplore⟩ := hround.explore_of_safe hsafe
    exact (hreach.sound hsim hT).safe_explore (hsim r.prec) (congrArg Prod.fst hexplore) hc

end Checker

end AbstractionRefinement
