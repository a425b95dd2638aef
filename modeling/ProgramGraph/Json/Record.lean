import ProgramGraph.Value.Basic
/-!
# Reading records from spellings

A record has named fields in a fixed order. It is spelled as an object,
where unknown fields are passed over whatever they hold, a known field
must not be repeated and a field that may be null may be missing; or as an
array of all its fields in order.
-/

namespace ProgramGraph

/-- Why a text could not be read. -/
inductive ReadError
  /-- The text is not JSON, or not a document that can be read as a
  whole. -/
  | notJson
  /-- The document is not of the form asked for. -/
  | wrongForm
  deriving DecidableEq

namespace Spelling

/-- The value that `decode` makes of what a text spells. -/
def readText {α : Type} (decode : Spelling → Option α) (source : String) :
    Except ReadError α :=
  match ofText? source with
  | none => .error .notJson
  | some spelling =>
    match decode spelling with
    | some a => .ok a
    | none => .error (if (Json.ofSpelling? spelling).isSome then .wrongForm else .notJson)

/-- The entry of a key among the fields of an object, if it is there;
nothing at all if the key is repeated. -/
def lookupOnce? (fields : List (String × Spelling)) (name : String) : Option (Option Spelling) :=
  match fields.filter fun field => field.1 == name with
  | [] => some none
  | [(_, spelling)] => some (some spelling)
  | _ => none

/-- The spellings of the named fields of a record, in the order of the
names. -/
def record? (names : List String) : Spelling → Option (List (Option Spelling))
  | object fields => names.mapM (lookupOnce? fields)
  | array items => if items.length = names.length then some (items.map some) else none
  | _ => none

/-- Decodes a field that must be there. -/
def required {α : Type} (decode : Spelling → Option α) (field : Option Spelling) : Option α :=
  field.bind decode

/-- Decodes a field that may be missing or null. -/
def nullable {α : Type} (decode : Spelling → Option α) : Option Spelling → Option (Option α)
  | none => some none
  | some null => some none
  | some spelling => (decode spelling).map some

/-- A natural below a bound. -/
def natBelow? (bound : Nat) : Spelling → Option Nat
  | number (.int n) => if 0 ≤ n ∧ n < bound then some n.toNat else none
  | _ => none

/-- A natural of 64 bits. -/
def nat64? : Spelling → Option Nat := natBelow? Word.count64

/-- A natural of 32 bits. -/
def nat32? : Spelling → Option Nat := natBelow? Word.count32

/-- A text. -/
def text? : Spelling → Option String
  | text s => some s
  | _ => none

/-- A list. -/
def list? {α : Type} (decode : Spelling → Option α) : Spelling → Option (List α)
  | array items => items.mapM decode
  | _ => none

/-- Entries under keys. A repeated key keeps its first position and its
last entry. -/
def keyed? {α : Type} (decode : Spelling → Option α) : Spelling → Option (Keyed String α)
  | object fields => do
    let pairs ← fields.mapM fun (key, spelling) => do return (key, ← decode spelling)
    return Keyed.ofPairs pairs
  | _ => none

end Spelling

end ProgramGraph
