import AbstractionRefinement.Failure

/-!
# Clocks and time limits

A clock counts whole seconds from some instant in the past, and its count ends at
`Clock.lastInstant`. Of a clock only two things are used: the instant at which an activity begins,
and the seconds that have passed since, at each look. A time limit runs out at its deadline, the
instant of the beginning plus the limit. A limit whose deadline the clock cannot tell is a fault of
whoever set it; it is found when the activity begins, whether or not the time would ever run out.

The readings themselves are data here (`Clock.elapsed`). A look at the clock is numbered, by the
turn or by the iteration it is taken at, and nothing is assumed about what it says: a clock may
stand still or go back. What is proved about runs with time limits therefore holds however long
anything takes.

A limit of zero stands for no limit, here as with all other budgets, and has no deadline that could
be out of reach.
-/

namespace AbstractionRefinement

/-- Readings of a clock during an activity. -/
structure Clock where
  /-- The instant at which the activity begins, in seconds. -/
  start : Nat := 0
  /-- Whole seconds since the beginning, at the look with the given number. -/
  elapsed : Nat → Nat := fun _ ↦ 0
  deriving Inhabited

namespace Clock

/-- The last instant that can be told: the count of seconds is a signed 64-bit number. -/
def lastInstant : Nat := 9223372036854775807

/-- Check that the clock can tell the deadline of a time limit. A limit of zero is no limit. -/
def checkLimit (c : Clock) (limit : Nat) : Except Fault Unit :=
  if limit = 0 ∨ c.start + limit ≤ lastInstant then .ok () else .error .beyondClock

/-- Without a limit there is no deadline to tell. -/
@[simp] theorem checkLimit_zero (c : Clock) : c.checkLimit 0 = .ok () := by
  simp [checkLimit]

end Clock

end AbstractionRefinement
