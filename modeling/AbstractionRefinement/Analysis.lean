import AbstractionRefinement.Described
import AbstractionRefinement.Failure

/-!
# Abstract domains

What the engine asks of a formalism. An `Analysis` has initial states, a transfer relation and an
order; a `Model` adds which actions a state enables, which states violate the property, how siblings
are merged and by which key states are partitioned. A `Precision` says how coarse the abstraction
is; precisions are joined, and compared by "at least as fine as".

Everything that an analysis computes may stop: the initial states and the successors answer with an
`Abort`, the enabled actions with a `Fault`. The order, the test for bottom, the merge and the key
are plain functions.

No law is part of these structures. The order need not be reflexive, a merge need not be above what
it merges, and a successor need not stand for anything. The engine runs on domains that break such
contracts too, and notices what it looks at: an order that is not reflexive and a merge that is not
an upper bound are reported if contracts are checked. What a domain has to satisfy for an answer to
mean something is stated where the meaning is proved, as `Model.Simulates` and `Model.Approximates`.

A domain that does not partition its states gives all of them one key, and a domain that does not
merge never replaces two siblings.
-/

namespace AbstractionRefinement

/-! ### Precisions -/

/-- How fine an abstraction is. -/
class Precision (P : Type) where
  /-- A precision at least as fine as both. -/
  join : P → P → P
  /-- Whether the first is at least as fine as the second. -/
  refines : P → P → Bool

/-- The precision of a domain that cannot be refined. -/
instance : Precision Unit := ⟨fun _ _ ↦ (), fun _ _ ↦ true⟩

/-! ### Analyses -/

/-- An abstract domain over states `S`, actions `A` and precisions `P`. -/
structure Analysis (S A P : Type) where
  /-- The abstract initial states. -/
  initial : P → Except Abort (List S)
  /-- The abstract successors of a state along an action. -/
  successors : S → A → P → Except Abort (List S)
  /-- Whether the first state stands for nothing that the second does not stand for. -/
  leq : S → S → Bool
  /-- Whether a state stands for nothing at all. -/
  isBottom : S → Bool

/-- An abstract domain with everything that exploration asks for. -/
structure Model (S A P : Type) extends Analysis S A P where
  /-- The actions that a state enables, in the order of expansion. -/
  enabled : S → Except Fault (List A)
  /-- Whether a state violates the property. -/
  isTarget : S → Bool
  /-- The state that replaces two siblings, if they are to be merged. -/
  merge : S → S → Option S := fun _ _ ↦ none
  /-- The key by which nodes are partitioned; only nodes of one key cover each other. -/
  key : S → Nat := fun _ ↦ 0

end AbstractionRefinement
