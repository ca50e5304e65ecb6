import SetQL.Base.Bytes

/-!
# The universe

`parser.h`: what the parser of initialization files hands to the database. The rows of a list of
arrays are null until they are read.

## Main definitions

* `ArrayList`, `ArrayList.cell`: rows of strings, and one string of a row
* `UniverseSet`, `Universe`: a set, and the universe
-/

namespace SetQL

/-- `array_list`: rows of strings, `none` for a null row. -/
abbrev ArrayList := List (Option (List Bytes))

/-- `values[i][j]`. -/
def ArrayList.cell (values : ArrayList) (i j : ℕ) : C Bytes := do
  match ← fetch values i with
  | none => .error .nullDeref
  | some row => fetch row j

/-- `set`. -/
structure UniverseSet where
  name : Bytes
  keyValues : ArrayList
  deriving DecidableEq, Repr

/-- `universe`. -/
structure Universe where
  name : Bytes
  keyDataTypeNames : List Bytes
  keyDataNames : List Bytes
  attributeDataTypeNames : List Bytes
  attributeDataNames : List Bytes
  keyValues : ArrayList
  attributeValues : ArrayList
  sets : List UniverseSet
  deriving DecidableEq, Repr

/-- `create_empty_universe`. -/
def createEmptyUniverse : Universe := ⟨[], [], [], [], [], [], [], []⟩

end SetQL
