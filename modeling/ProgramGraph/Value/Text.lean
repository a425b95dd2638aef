import ProgramGraph.Value.Basic
import ProgramGraph.Number.Shortest
/-!
# The text of a value

A value has a compact text without blanks, which error messages and the
written form of programs use, and an indented one. In a string the quote,
the backslash and the control characters are escaped, and nothing else.
-/

namespace ProgramGraph

/-- The text of a number. -/
def Number.text : Number → String
  | int n => toString n
  | double x => x.text

namespace Value

/-- A character inside a string literal. -/
def escape (c : Char) : List Char :=
  if c = '"' then ['\\', '"']
  else if c = '\\' then ['\\', '\\']
  else if c = '\x08' then ['\\', 'b']
  else if c = '\x0c' then ['\\', 'f']
  else if c = '\n' then ['\\', 'n']
  else if c = '\r' then ['\\', 'r']
  else if c = '\t' then ['\\', 't']
  else if c.toNat < 0x20 then
    ['\\', 'u', '0', '0', Nat.digitChar (c.toNat / 16), Nat.digitChar (c.toNat % 16)]
  else [c]

/-- A string literal. -/
def quote (s : String) : String :=
  String.ofList ('"' :: s.toList.flatMap escape ++ ['"'])

mutual

/-- The compact text. -/
def compact : Value → String
  | null => "null"
  | bool b => if b then "true" else "false"
  | number n => n.text
  | text s => quote s
  | array items => "[" ++ compactItems items ++ "]"
  | object fields => "\x7b" ++ compactFields fields ++ "\x7d"

/-- The items with a comma between two of them. -/
def compactItems : List Value → String
  | [] => ""
  | [item] => item.compact
  | item :: next :: rest => item.compact ++ "," ++ compactItems (next :: rest)

/-- The fields with a comma between two of them. -/
def compactFields : List (String × Value) → String
  | [] => ""
  | [(key, item)] => quote key ++ ":" ++ item.compact
  | (key, item) :: next :: rest =>
    quote key ++ ":" ++ item.compact ++ "," ++ compactFields (next :: rest)

end

/-- A line break and the indentation of a level: two spaces each. -/
def newLine (level : Nat) : String :=
  String.ofList ('\n' :: List.replicate (2 * level) ' ')

mutual

/-- The indented text, inside `level` containers. An empty container has
no line break in it. -/
def indented (level : Nat) : Value → String
  | array [] => "[]"
  | array (item :: rest) =>
    "[" ++ newLine (level + 1) ++ item.indented (level + 1) ++ indentedItems level rest ++
      newLine level ++ "]"
  | object [] => "\x7b\x7d"
  | object ((key, item) :: rest) =>
    "\x7b" ++ newLine (level + 1) ++ quote key ++ ": " ++ item.indented (level + 1) ++
      indentedFields level rest ++ newLine level ++ "\x7d"
  | null => "null"
  | bool b => if b then "true" else "false"
  | number n => n.text
  | text s => quote s

/-- The further items of an array, each on a line of its own. -/
def indentedItems (level : Nat) : List Value → String
  | [] => ""
  | item :: rest =>
    "," ++ newLine (level + 1) ++ item.indented (level + 1) ++ indentedItems level rest

/-- The further fields of an object, each on a line of its own. -/
def indentedFields (level : Nat) : List (String × Value) → String
  | [] => ""
  | (key, item) :: rest =>
    "," ++ newLine (level + 1) ++ quote key ++ ": " ++ item.indented (level + 1) ++
      indentedFields level rest

end

instance : ToString Value := ⟨compact⟩

end Value

end ProgramGraph
