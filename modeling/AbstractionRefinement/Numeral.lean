/-!
# Numerals

Written forms of numbers that a report uses: sixteen hexadecimal digits of a word, a fixed number of
decimal places of a double, and a decimal fraction without trailing zeros. All rounding is exact
arithmetic on natural numbers; a double enters only through its bits.

A double is taken apart into an exponent and a fraction, and is from then on a quotient of two
natural numbers, whose denominator is a power of two. Multiplied by a power of ten and divided, it
is rounded to the nearest whole number, and to the even one of two that are equally near
(`Numeral.roundHalfEven`), which is what the usual formatting of doubles does. No arithmetic on
doubles is involved.

Only doubles that occur in a report are of interest: they are neither negative nor infinite.
-/

namespace AbstractionRefinement.Numeral

/-! ### Digits -/

/-- The digits of `n`, filled up with zeros on the left to at least `width` characters. -/
def padded (width n : Nat) : String :=
  let digits := Nat.toDigits 10 n
  String.ofList (List.replicate (width - digits.length) '0' ++ digits)

/-- The sixteen lower-case hexadecimal digits of a word. -/
def hexWord (w : UInt64) : String :=
  let digits := Nat.toDigits 16 w.toNat
  String.ofList (List.replicate (16 - digits.length) '0' ++ digits)

/-- The decimal text of `whole + part / 10 ^ width`: no trailing zeros, and no point without a
digit after it. -/
def fraction (whole part width : Nat) : String :=
  let digits := ((padded width part).toList.reverse.dropWhile (· == '0')).reverse
  let text := toString whole
  if digits.isEmpty then text else text ++ "." ++ String.ofList digits

/-! ### Fixed places -/

/-- The natural number nearest to `num / den`; a half goes to the even neighbour. -/
def roundHalfEven (num den : Nat) : Nat :=
  let quotient := num / den
  let twice := 2 * (num % den)
  if twice < den then quotient
  else if den < twice then quotient + 1
  else quotient + quotient % 2

/-- A nonnegative finite double as an exact quotient of natural numbers. -/
def quotientOfBits (bits : UInt64) : Nat × Nat :=
  let mantissa := bits.toNat % Nat.pow 2 52
  let exponent := bits.toNat / Nat.pow 2 52 % Nat.pow 2 11
  if exponent = 0 then (mantissa, Nat.pow 2 1074)
  else if 1075 ≤ exponent then ((mantissa + Nat.pow 2 52) * Nat.pow 2 (exponent - 1075), 1)
  else (mantissa + Nat.pow 2 52, Nat.pow 2 (1075 - exponent))

/-- The exact value of a nonnegative finite double, rounded to `places` decimal places; a half goes
to the even neighbour. -/
def fixedPlaces (places : Nat) (x : Float) : String :=
  let (num, den) := quotientOfBits x.toBits
  let unit := Nat.pow 10 places
  let scaled := roundHalfEven (num * unit) den
  toString (scaled / unit) ++ "." ++ padded places (scaled % unit)

end AbstractionRefinement.Numeral
