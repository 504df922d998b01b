import AbstractionRefinement.Analysis

/-!
# Products of two domains

Two analyses over the same actions run in lockstep. A pair of states stands for what both components
stand for, so it is bottom as soon as one component is; such pairs are dropped. If the first
component has no successor but bottom, the second is not asked.

The precision is a pair as well, and is joined and compared half by half. Pairs are formed in order:
for each state of the first component all states of the second.

The order of pairs is that of the components, except that a pair that is bottom is below all others.
The test for bottom and the order are all that a product knows of its components; no component
learns anything from the other, so a product is never more precise than running both and keeping
what both allow.

A product is an `Analysis` and not a `Model`: which actions are enabled, what a target is and how
siblings are merged concerns the pair as a whole, and is said by whoever forms it.
-/

namespace AbstractionRefinement

/-- A pair of component states. -/
structure PairState (S T : Type) where
  /-- The state of the first component. -/
  first : S
  /-- The state of the second component. -/
  second : T
  deriving DecidableEq

/-- A pair of component precisions. -/
structure PairPrecision (P Q : Type) where
  /-- The precision of the first component. -/
  first : P
  /-- The precision of the second component. -/
  second : Q
  deriving DecidableEq

variable {S T A P Q : Type}

instance [Described S] [Described T] : Described (PairState S T) :=
  ⟨fun s ↦ describeRecord "Prod2State"
    [("first", describe s.first), ("second", describe s.second)]⟩

instance [Described P] [Described Q] : Described (PairPrecision P Q) :=
  ⟨fun p ↦ describeRecord "Prod2Prec"
    [("first", describe p.first), ("second", describe p.second)]⟩

/-- Pairs of precisions are joined and compared componentwise. -/
instance [Precision P] [Precision Q] : Precision (PairPrecision P Q) where
  join p q := ⟨Precision.join p.first q.first, Precision.join p.second q.second⟩
  refines p q := Precision.refines p.first q.first && Precision.refines p.second q.second

namespace Analysis

/-- All pairs of states that are not bottom, the first component varying slowest. -/
def pairs (a : Analysis S A P) (b : Analysis T A Q) (firsts : List S) (seconds : List T) :
    List (PairState S T) :=
  (firsts.filter fun s ↦ !a.isBottom s).flatMap fun s ↦
    (seconds.filter fun t ↦ !b.isBottom t).map fun t ↦ ⟨s, t⟩

/-- A pair is bottom if one of its components is. -/
def pairIsBottom (a : Analysis S A P) (b : Analysis T A Q) (s : PairState S T) : Bool :=
  a.isBottom s.first || b.isBottom s.second

/-- Two analyses in lockstep. -/
def product (a : Analysis S A P) (b : Analysis T A Q) :
    Analysis (PairState S T) A (PairPrecision P Q) where
  initial p := do
    let firsts ← a.initial p.first
    let seconds ← b.initial p.second
    return pairs a b firsts seconds
  successors s act p := do
    let firsts ← a.successors s.first act p.first
    if firsts.all a.isBottom then return []
    let seconds ← b.successors s.second act p.second
    return pairs a b firsts seconds
  leq s t := pairIsBottom a b s || (a.leq s.first t.first && b.leq s.second t.second)
  isBottom := pairIsBottom a b

end Analysis

/-- Refine the second component of a precision and keep the first. -/
def refineSecond (refine : Q → Except Abort Q) (p : PairPrecision P Q) :
    Except Abort (PairPrecision P Q) := do
  return { p with second := ← refine p.second }

end AbstractionRefinement
