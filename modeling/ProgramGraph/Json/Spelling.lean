import ProgramGraph.Json.Token
import ProgramGraph.Stack
/-!
# Spellings

What a JSON text spells, before any of it is read: the tree of its values,
in the order of the text. A key may be repeated. Some values are well
formed and cannot be read all the same; they are in the tree as
`unreadable`, so that a reader is free to pass over them. These are
numbers beyond the range of a double, strings with an unpaired surrogate,
objects with such a string as a key, and arrays and objects inside 127
others.

A spelling is put together token by token, on a stack of the containers
that are still open.
-/

namespace ProgramGraph

/-- What a JSON text spells. -/
inductive Spelling
  | null
  | bool (b : Bool)
  | number (n : Number)
  | text (s : String)
  | array (items : List Spelling)
  | object (fields : List (String × Spelling))
  /-- A value that cannot be read. -/
  | unreadable

namespace Spelling

open Json (Token)

instance : Inhabited Spelling := ⟨.null⟩

/-- How many containers that can be read may be inside one another. -/
def depthLimit : Nat := 127

/-- The fields of an object so far, in reverse; none at all after a key
that cannot be read. -/
abbrev Fields := Option (List (String × Spelling))

/-- The fields with one more. -/
def Fields.add (fields : Fields) (key : String) (value : Spelling) : Fields :=
  fields.map ((key, value) :: ·)

/-- A container that is waiting for the value it is reading. What it
holds so far stands in reverse. -/
inductive Open
  | array (items : List Spelling)
  | object (fields : Fields) (key : String)

/-- What has to come next. -/
inductive Phase
  /-- A value. -/
  | value
  /-- The first item of an array, or its end. -/
  | firstItem
  /-- The first key of an object, or its end. -/
  | firstKey
  /-- A key. -/
  | key (fields : Fields)
  /-- The colon after a key. -/
  | colon (fields : Fields) (key : String)
  /-- A comma or the end of the container, after a value. -/
  | after (value : Spelling)

/-- The phase after a container inside the open ones has been closed. -/
def close (stack : Stack Open) (container : Spelling) : Phase :=
  .after (if stack.size < depthLimit then container else .unreadable)

/-- The array of some items in reverse. -/
def ofItems (items : List Spelling) : Spelling := .array items.reverse

/-- The object of some fields in reverse. -/
def ofFields : Fields → Spelling
  | some fields => .object fields.reverse
  | none => .unreadable

/-- The phase after a token that begins a value. -/
def beginValue? (stack : Stack Open) : Token → Option (Phase × Stack Open)
  | .null => some (.after .null, stack)
  | .bool b => some (.after (.bool b), stack)
  | .number n => some (.after (.number n), stack)
  | .text s => some (.after (.text s), stack)
  | .hugeNumber | .brokenText => some (.after .unreadable, stack)
  | .openArray => some (.firstItem, stack)
  | .openObject => some (.firstKey, stack)
  | _ => none

/-- The phase after a key. -/
def beginField? (fields : Fields) : Token → Option Phase
  | .text key => some (.colon fields key)
  | .brokenText => some (.colon none "")
  | _ => none

/-- The phase after a token that follows a value. -/
def afterValue? (value : Spelling) (stack : Stack Open) : Token → Option (Phase × Stack Open)
  | .comma =>
    match stack.items with
    | .array items :: _ => some (.value, stack.pop.push (.array (value :: items)))
    | .object fields key :: _ => some (.key (fields.add key value), stack.pop)
    | [] => none
  | .closeArray =>
    match stack.items with
    | .array items :: _ => some (close stack.pop (ofItems (value :: items)), stack.pop)
    | _ => none
  | .closeObject =>
    match stack.items with
    | .object fields key :: _ => some (close stack.pop (ofFields (fields.add key value)), stack.pop)
    | _ => none
  | _ => none

/-- The phase after one more token. -/
def step? : Phase → Stack Open → Token → Option (Phase × Stack Open)
  | .value, stack, token => beginValue? stack token
  | .firstItem, stack, .closeArray => some (close stack (.array []), stack)
  | .firstItem, stack, token => beginValue? (stack.push (.array [])) token
  | .firstKey, stack, .closeObject => some (close stack (.object []), stack)
  | .firstKey, stack, token => (beginField? (some []) token).map (·, stack)
  | .key fields, stack, token => (beginField? fields token).map (·, stack)
  | .colon fields key, stack, .colon => some (.value, stack.push (.object fields key))
  | .colon _ _, _, _ => none
  | .after value, stack, token => afterValue? value stack token

/-- The spelling that the tokens left complete. -/
def build? : Phase → Stack Open → List Token → Option Spelling
  | .after value, stack, [] => if stack.items.isEmpty then some value else none
  | _, _, [] => none
  | phase, stack, token :: rest =>
    match step? phase stack token with
    | some (phase, stack) => build? phase stack rest
    | none => none

/-- The spelling of a list of tokens. -/
def ofTokens? (tokens : List Token) : Option Spelling := build? .value .empty tokens

/-- What a text spells, if it is JSON. -/
def ofText? (text : String) : Option Spelling := do ofTokens? (← Token.ofText? text)

end Spelling

end ProgramGraph
