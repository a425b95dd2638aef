import ProgramGraph.Json.Document
import ProgramGraph.Keyed
/-!
# Values

What a program computes: the JSON data model, with the fields of an object
in insertion order and each key at most once. A document denotes the
value in which a repeated key keeps its first position and its last
value.
-/

namespace ProgramGraph

/-- A value. -/
inductive Value
  | null
  | bool (b : Bool)
  | number (n : Number)
  | text (s : String)
  | array (items : List Value)
  | object (fields : List (String × Value))

namespace Value

/-- The default value is null. -/
instance : Inhabited Value := ⟨.null⟩

/-- An integer. -/
def int (n : Int) : Value := .number (.int n)

/-- A natural. -/
def nat (n : Nat) : Value := .number (.int n)

/-- The object of a list of pairs in which keys may be repeated. -/
def ofPairs (pairs : List (String × Value)) : Value := .object (Keyed.ofPairs pairs)

/-- The value of a double given by its bits; what is not finite is null. -/
def ofDoubleBits (bits : Nat) : Value :=
  match Double.ofBits? bits with
  | some x => .number (.double x)
  | none => .null

/-! ## What a value is -/

/-- Whether the value is null. -/
def isNull : Value → Bool
  | null => true
  | _ => false

/-- The boolean that the value is. -/
def toBool? : Value → Option Bool
  | bool b => some b
  | _ => none

/-- The number that the value is. -/
def toNumber? : Value → Option Number
  | number n => some n
  | _ => none

/-- The integer of the signed 64-bit range that the value is. -/
def toSigned? (v : Value) : Option Int := v.toNumber?.bind Number.toSigned?

/-- The integer of the unsigned 64-bit range that the value is. -/
def toUnsigned? (v : Value) : Option Nat := v.toNumber?.bind Number.toUnsigned?

/-- The double nearest to the number that the value is. -/
def toDouble? (v : Value) : Option Double := v.toNumber?.bind Number.toDouble?

/-- The text that the value is. -/
def toText? : Value → Option String
  | text s => some s
  | _ => none

/-- The items of the array that the value is. -/
def toItems? : Value → Option (List Value)
  | array items => some items
  | _ => none

/-- The fields of the object that the value is. -/
def toFields? : Value → Option (Keyed String Value)
  | object fields => some fields
  | _ => none

/-- A field of the object that the value is. -/
def field? (v : Value) (key : String) : Option Value :=
  v.toFields?.bind fun fields => fields.find? key

/-- The name of the type of a value, as failure messages give it. -/
def kindName : Value → String
  | null => "null"
  | bool _ => "boolean"
  | number _ => "number"
  | text _ => "string"
  | array _ => "array"
  | object _ => "object"

/-- How often a first item can be taken, and what it leads to. -/
def spine : Value → Nat × Value
  | array (item :: _) =>
    let (depth, last) := item.spine
    (depth + 1, last)
  | value => (0, value)

/-! ## The value of a document -/

mutual

/-- The value that a document denotes. -/
def ofJson : Json → Value
  | .null => null
  | .bool b => bool b
  | .number n => number n
  | .text s => text s
  | .array items => array (ofItems items)
  | .object fields => object (Keyed.ofPairs (ofFields fields))

/-- The values of the items of an array. -/
def ofItems : List Json → List Value
  | [] => []
  | item :: rest => ofJson item :: ofItems rest

/-- The values of the fields of an object as they are written. -/
def ofFields : List (String × Json) → List (String × Value)
  | [] => []
  | (key, item) :: rest => (key, ofJson item) :: ofFields rest

end

/-- The value of a spelling, if all of it can be read. -/
def ofSpelling? (spelling : Spelling) : Option Value := (Json.ofSpelling? spelling).map ofJson

/-- The value that a text spells, if it is JSON and can be read. -/
def ofText? (source : String) : Option Value := (Json.ofText? source).map ofJson

mutual

/-- The spelling of a value. -/
def toSpelling : Value → Spelling
  | null => .null
  | bool b => .bool b
  | number n => .number n
  | text s => .text s
  | array items => .array (spellItems items)
  | object fields => .object (spellFields fields)

/-- The spellings of some values. -/
def spellItems : List Value → List Spelling
  | [] => []
  | item :: rest => item.toSpelling :: spellItems rest

/-- The spellings of some fields. -/
def spellFields : List (String × Value) → List (String × Spelling)
  | [] => []
  | (key, item) :: rest => (key, item.toSpelling) :: spellFields rest

end

/-! ## Well-formed values -/

mutual

/-- No object in the value has a key twice. -/
def WellFormed : Value → Prop
  | array items => AllWellFormed items
  | object fields => (Keyed.keys fields).Nodup ∧ FieldsWellFormed fields
  | _ => True

/-- Every item is well-formed. -/
def AllWellFormed : List Value → Prop
  | [] => True
  | item :: rest => item.WellFormed ∧ AllWellFormed rest

/-- Every field is well-formed. -/
def FieldsWellFormed : List (String × Value) → Prop
  | [] => True
  | (_, item) :: rest => item.WellFormed ∧ FieldsWellFormed rest

end

end Value

end ProgramGraph
