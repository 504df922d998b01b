import AbstractionRefinement.Numeral

/-!
# Fingerprints of action sequences

A fingerprint is a 64-bit hash of a sequence of actions. It depends on nothing but the sequence, so
it can recognise a counterexample that was seen in an earlier exploration. Each kind of action says
which words it contributes (`ActionWords`); the number of actions is mixed in first.

The hash folds the words of the sequence into a state of 64 bits, each by a multiplication to 128
bits of which the two halves are combined, and is finished by one more such product and a rotation.
The constants are fixed, so equal sequences have equal fingerprints on every machine and in every
run.

Different sequences may have the same fingerprint. There are more sequences than words of 64 bits,
and nothing here makes a collision impossible; what goes wrong if there is one is said where
refutations are remembered. A search therefore takes the function from sequences to fingerprints as
a parameter, and what rests on its telling sequences apart says so.
-/

namespace AbstractionRefinement

/-- A 64-bit hash of an action sequence. -/
structure Fingerprint where
  /-- The hash value. -/
  word : UInt64
  deriving DecidableEq, Inhabited

/-- The words by which an action enters a fingerprint. -/
class ActionWords (A : Type) where
  /-- The words of one action, in the order in which they are mixed in. -/
  words : A → List UInt64

/-- A word enters as itself. -/
instance : ActionWords UInt64 := ⟨fun w ↦ [w]⟩

namespace Fingerprint

/-- The two halves of the 128-bit product, combined by exclusive or. -/
def foldedProduct (a b : UInt64) : UInt64 :=
  let product := a.toNat * b.toNat
  product.toUInt64 ^^^ (product / UInt64.size).toUInt64

/-- The state of the mixer before any word. -/
def seed : UInt64 := 0x13198a2e03707344 ^^^ 0xbe5466cf34e90c6c

/-- The word that closes the mixing. -/
def pad : UInt64 := 0x243f6a8885a308d3 ^^^ 0x452821e638d01377

/-- Mix one word into the state. -/
def mix (state word : UInt64) : UInt64 := foldedProduct (word ^^^ state) 6364136223846793005

/-- Rotate to the left by `k`, which is below 64. -/
def rotateLeft (w k : UInt64) : UInt64 := if k = 0 then w else (w <<< k) ||| (w >>> (64 - k))

/-- Close the mixing. -/
def finish (state : UInt64) : UInt64 := rotateLeft (foldedProduct state pad) (state % 64)

/-- The fingerprint of an action sequence. -/
def ofActions {A : Type} [ActionWords A] (actions : List A) : Fingerprint :=
  let words := actions.length.toUInt64 :: actions.flatMap ActionWords.words
  ⟨finish (words.foldl mix seed)⟩

/-- Sixteen hexadecimal digits. -/
def text (f : Fingerprint) : String := Numeral.hexWord f.word

end Fingerprint

end AbstractionRefinement
