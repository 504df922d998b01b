/-!
# Descriptions

The one-line text of a state, an action or a precision, as it stands in drawings of a graph and in
the wording of a violated contract.

Descriptions are for readers. No computation of the engine depends on one, apart from those that
make up a message or a drawing, and two values with the same description may well be different. They
are a class and not a function of each domain, because the messages of a violated contract are put
together in the engine, which knows nothing of the domain but this.

The compound forms follow one convention: sets stand in braces, lists in brackets, and the fields of
a record follow its name.
-/

namespace AbstractionRefinement

/-- Values with a one-line description. -/
class Described (α : Type) where
  /-- The description of a value. -/
  describe : α → String

export Described (describe)

/-- A name describes itself. -/
instance : Described String := ⟨id⟩

/-- The trivial value. -/
instance : Described Unit := ⟨fun _ ↦ "()"⟩

/-- A listing between braces, entries divided by commas. -/
def describeSet (entries : List String) : String :=
  "\x7b" ++ String.intercalate ", " entries ++ "\x7d"

/-- A listing between brackets, entries divided by commas. -/
def describeList (entries : List String) : String :=
  "[" ++ String.intercalate ", " entries ++ "]"

/-- A record: its name and its fields. -/
def describeRecord (name : String) (fields : List (String × String)) : String :=
  name ++ " \x7b " ++ String.intercalate ", " (fields.map fun f ↦ f.1 ++ ": " ++ f.2) ++ " \x7d"

end AbstractionRefinement
