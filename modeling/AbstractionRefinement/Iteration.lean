/-!
# Bounded iteration

A loop is given by one turn, which either goes on from a new state or is done with an answer.
`iterate` grants the loop a number of turns; `none` says that they did not suffice, which is never
confused with an answer of the loop.

The worklist of an exploration and the refinement loop are written this way. The turns are an
argument of the outermost function, and whoever calls it says how many there may be. A statement
about all numbers of turns is then one about the loop, and a loop that ends is one for which enough
turns can be named.

The body is a computation in any monad. A turn that fails, or stops early, ends the loop there; what
it has done to a state up to there is kept if the monad keeps it.
-/

namespace AbstractionRefinement

/-- What one turn of a loop comes to. -/
inductive Turn (σ ρ : Type) where
  /-- Go on from this state. -/
  | again (state : σ)
  /-- Done, with this answer. -/
  | done (answer : ρ)

variable {σ ρ : Type}

/-- Run at most `turns` turns of a loop. -/
@[specialize] def iterate {m : Type → Type} [Monad m] (turn : σ → m (Turn σ ρ)) :
    Nat → σ → m (Option ρ)
  | 0, _ => pure none
  | turns + 1, s => do
    match ← turn s with
    | .done answer => pure (some answer)
    | .again s => iterate turn turns s

end AbstractionRefinement
