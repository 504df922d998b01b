import AbstractionRefinement.Numeral

/-!
# Spans of time

A span is a number of seconds and a number of nanoseconds below one second. Its text uses the
largest unit that gives a nonzero whole part, with the exact fraction behind it.

Nothing is rounded in the text: what is left over is written behind the point, down to nanoseconds,
without trailing zeros. Whoever wants a fixed number of places converts to a double first
(`Duration.toFloat`), and then rounding is that of `Numeral.fixedPlaces`.

Spans are only written and never added up here. A run does not measure itself: the spans in its
statistics are zero until a caller that has measured them fills them in.
-/

namespace AbstractionRefinement

/-- A span of time. -/
structure Duration where
  /-- Whole seconds. -/
  seconds : Nat := 0
  /-- Nanoseconds beyond the whole seconds, below `10 ^ 9`. -/
  nanos : Nat := 0
  deriving DecidableEq, Inhabited

namespace Duration

/-- The span in the largest of the units `s`, `ms`, `µs`, `ns` that it fills, written exactly. -/
def text (d : Duration) : String :=
  if 0 < d.seconds then Numeral.fraction d.seconds d.nanos 9 ++ "s"
  else if 1000000 ≤ d.nanos then Numeral.fraction (d.nanos / 1000000) (d.nanos % 1000000) 6 ++ "ms"
  else if 1000 ≤ d.nanos then Numeral.fraction (d.nanos / 1000) (d.nanos % 1000) 3 ++ "µs"
  else toString d.nanos ++ "ns"

/-- The span in seconds, as a double. -/
def toFloat (d : Duration) : Float :=
  d.seconds.toUInt64.toFloat + d.nanos.toUInt64.toFloat / 1000000000.0

end Duration

end AbstractionRefinement
