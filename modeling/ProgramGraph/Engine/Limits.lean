import ProgramGraph.Node.Format
/-!
# Limits

What an evaluation may take at most. Limits are written as a record of one
field, which may be null.
-/

namespace ProgramGraph

/-- The limits of an evaluation. -/
structure Limits where
  /-- How many resumptions an evaluation may take, if that is limited. -/
  maxSteps : Option Nat := none
  deriving DecidableEq

namespace Limits

/-- The limits as a record. -/
def toValue (limits : Limits) : Value :=
  .object [("max_steps", .ofOption Value.nat limits.maxSteps)]

/-- The limits of a record. -/
def ofSpelling? (spelling : Spelling) : Option Limits := do
  let [maxSteps] ← spelling.record? ["max_steps"] | none
  return ⟨← Spelling.nullable Spelling.nat64? maxSteps⟩

/-- The limits that a text spells. -/
def read (source : String) : Except ReadError Limits := Spelling.readText ofSpelling? source

end Limits

end ProgramGraph
