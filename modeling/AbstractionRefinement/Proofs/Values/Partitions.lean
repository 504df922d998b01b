import AbstractionRefinement.Proofs.Partitions
import AbstractionRefinement.Proofs.Values.Failures

/-!
# Partitioning program states by location

The check of a program looks for coverers among the nodes at one location. This loses nothing: the
order relates states at different locations only if the smaller one is bottom
(`Program.separates_model`), and bottom gets no node. So the check comes to the same end as one that
does not partition its states, up to the keys in the graph (`Program.check_unpartitioned`), unless
the frontier is to look at keys: they are locations in one case and all the same in the other.

The comparison is between two checks and not between two searches for a coverer. Both run in step
from the first iteration to the last: the graphs are the same up to keys at every point, so the same
nodes are covered, expanded and pruned, the same counterexamples are examined, and the same failures
come up. The general theory of such pairs is in `Proofs.Partitions` and in the rules for lockstep;
what is specific to programs is the single fact that locations separate states.

It is the same for any fingerprint by which refuted traces are remembered, since fingerprints are
computed from moves and not from keys.
-/

namespace AbstractionRefinement

theorem Knowledge.isBottom_join {k l : Knowledge} (hk : k.isBottom = false)
    (hl : l.isBottom = false) : (k.join l).isBottom = false := by
  cases k with
  | bottom => cases hk
  | known v =>
    cases l with
    | bottom => cases hl
    | known w => rfl

namespace Program

variable {p : Program} {maxEnum : Nat} {merge : Bool}

theorem first_eq_of_leq {s t : ProgramState} (hs : (p.model maxEnum merge).isBottom s = false)
    (h : (p.model maxEnum merge).leq s t = true) : s.first = t.first := by
  rcases Bool.or_eq_true_iff.1 h with hbot | hleq
  · cases hs.symm.trans hbot
  · exact of_decide_eq_true (Bool.and_eq_true_iff.1 hleq).1

/-- **States at different locations are not related**, and joins at one location are not bottom. -/
theorem separates_model : (p.model maxEnum merge).Separates where
  key_eq hs h := congrArg At.location (first_eq_of_leq hs h)
  merge h hs ht := by
    obtain ⟨-, rfl⟩ := merge_eq_some h
    exact Knowledge.isBottom_join hs ht

/-! ### Checks -/

/-- The check of a program that does not partition its states. -/
def checkUnpartitioned (p : Program) (o : ProgramOptions) (meter : Meter) (clock : Clock)
    (turns : Nat) : ProgramEnding :=
  let o := { o with exploration := o.scope.exploration o.exploration }
  p.checkWith o ((p.explorer o meter).withKey fun _ ↦ 0) clock turns

variable {o : ProgramOptions} {meter : Meter} {clock : Clock} {turns : Nat}

/-- The collaborators of both checks are in step. -/
theorem mirrors_checker (horder : o.exploration.order ≠ .lowestKey) :
    (p.checker o meter turns).Mirrors
      (.ofSession ((p.checkExplorer o meter).withKey fun _ ↦ 0)
        (p.refuter o.maxRuns o.strategy o.fingerprint) o.scope o.pruning turns)
      ((p.checkExplorer o meter).Twins fun _ ↦ 0) := by
  have hM : (p.checkExplorer o meter).model.Separates := separates_model
  refine Checker.mirrors_withKey hM ⟨fun _ _ ↦ rfl, hM.merge⟩ ?_
  show (o.scope.exploration o.exploration).order ≠ .lowestKey
  cases o.scope <;> exact horder

theorem keyed_of_visits {u : Session ProgramState Move} (h : p.Visits o meter clock turns u) :
    (p.model o.maxEnum o.merge).Keyed u.graph := by
  obtain ⟨r, s, t, hreach, hgrows, hcuts⟩ := h
  have hM : (p.checkExplorer o meter).model.Separates := separates_model
  exact ((hreach.keyed hM).of_grows hM hgrows).of_cuts hcuts

variable (p o meter clock turns) in
/-- **Partitioning by location loses no coverage.** If nodes are taken in an order that does not
look at keys, the check comes to the same end as one that does not partition its states: the same
conclusion, statistics and records, and the same graph up to the keys of its nodes. In every graph
on the way, the coverer found in the partition of a node is the first of all live nodes that may
cover it. -/
theorem check_unpartitioned :
    (o.exploration.order ≠ .lowestKey →
      Ending.unkeyed (p.checkUnpartitioned o meter clock turns) =
        Ending.unkeyed (p.check o meter clock turns)) ∧
      ∀ u, p.Visits o meter clock turns u → ∀ id,
        u.graph.findCoverer (p.model o.maxEnum o.merge).leq id =
          u.graph.scanCoverer (p.model o.maxEnum o.merge).leq id := by
  constructor
  · intro horder
    exact ((mirrors_checker horder).run ⟨⟨rfl, rfl, rfl⟩, .empty, .empty⟩).symm
  · exact fun u hu id ↦ (keyed_of_visits hu).findCoverer_eq separates_model

/-! ### An example -/

/-- Goes back and forth while `x` is zero; one would be the error. -/
def roundTrip : Draft where
  vars := [⟨"x", .int 0 1⟩]
  locations := ["A", "B", "C"]
  edges :=
    [⟨0, 1, [.assume (.equal (.var 0) (.const (.int 0)))]⟩, ⟨1, 0, []⟩,
      ⟨1, 2, [.assume (.equal (.var 0) (.const (.int 1)))]⟩]
  init := some 0
  error := some 2

/-- The way back leads to a node that the first one covers, and the error is refuted once. -/
theorem roundTrip_unpartitioned : ∃ p report report', roundTrip.build = .ok p ∧
    p.check {} {} {} 9 = some (.ok report) ∧
    p.checkUnpartitioned {} {} {} 9 = some (.ok report') ∧
    report.statistics.iterations = 2 ∧ report'.graph ≠ report.graph ∧
    report'.unkeyed = report.unkeyed ∧
    ∃ u, p.Visits {} {} {} 9 u ∧
      u.graph.findCoverer (p.model 16 false).leq 2 = .ok (some 0) ∧
      u.graph.scanCoverer (p.model 16 false).leq 2 = .ok (some 0) := by
  have hrun : (roundTrip.build.toOption.any fun p ↦
      (((p.checkExplorer {} {}).explore 9 none (initialPrecision {}) {}).2.graph.findCoverer
        (p.model 16 false).leq 2) = .ok (some 0) &&
      (p.check {} {} {} 9).any fun e ↦ e.toOption.any fun report ↦
        report.statistics.iterations = 2 &&
        (p.checkUnpartitioned {} {} {} 9).any fun e' ↦ e'.toOption.any fun report' ↦
          report'.graph ≠ report.graph) = true := by
    decide +kernel
  obtain ⟨p, hp, hrun⟩ := exists_of_toOption_any hrun
  obtain ⟨hfind, hrun⟩ := Bool.and_eq_true_iff.1 hrun
  obtain ⟨e, he, hrun⟩ := (Option.any_eq_true _ _).1 hrun
  obtain ⟨report, rfl, hrun⟩ := exists_of_toOption_any hrun
  obtain ⟨hiterations, hrun⟩ := Bool.and_eq_true_iff.1 hrun
  obtain ⟨e', he', hrun⟩ := (Option.any_eq_true _ _).1 hrun
  obtain ⟨report', rfl, hgraph⟩ := exists_of_toOption_any hrun
  obtain ⟨hends, hcoverers⟩ := check_unpartitioned p {} {} {} 9
  have hunkeyed := hends (by decide)
  rw [he, he'] at hunkeyed
  have hvisits : p.Visits {} {} {} 9
      ((p.checkExplorer {} {}).explore 9 none (initialPrecision {}) {}).2 :=
    ⟨_, _, _, .start, (Explorer.does_explore Graph.wellFormed_empty).change, .refl⟩
  have hfind := of_decide_eq_true hfind
  exact ⟨p, report, report', hp, he, he', of_decide_eq_true hiterations, of_decide_eq_true hgraph,
    Except.ok.inj (Option.some.inj hunkeyed), _, hvisits, hfind,
    (hcoverers _ hvisits 2).symm.trans hfind⟩

end Program

end AbstractionRefinement
