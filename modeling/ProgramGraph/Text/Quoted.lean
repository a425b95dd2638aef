import ProgramGraph.Text.Shown
/-!
# Quoted texts

The form in which structural text shows a string: in double quotes, with
backslash escapes for the quote, the backslash, the tab, the two line
breaks and the null character, and with the number of any other
character that is not shown as itself.
-/

namespace ProgramGraph.Text

/-- A character of a quoted text. -/
def quotedChar (c : Char) : List Char :=
  if c = '"' then ['\\', '"']
  else if c = '\\' then ['\\', '\\']
  else if c = '\n' then ['\\', 'n']
  else if c = '\r' then ['\\', 'r']
  else if c = '\t' then ['\\', 't']
  else if c = '\x00' then ['\\', '0']
  else if isShown c then [c]
  else ['\\', 'u', '\x7b'] ++ Nat.toDigits 16 c.toNat ++ ['\x7d']

/-- A text in quotes. -/
def quoted (s : String) : String :=
  String.ofList ('"' :: s.toList.flatMap quotedChar ++ ['"'])

/-- Texts with a comma and a space between two of them. -/
def commaSeparated (texts : List String) : String := ", ".intercalate texts

/-- A list in brackets. -/
def bracketed (items : List String) : String := "[" ++ commaSeparated items ++ "]"

/-- Entries under quoted keys, in braces. -/
def braced (entries : List (String × String)) : String :=
  "\x7b" ++ commaSeparated (entries.map fun (key, item) => quoted key ++ ": " ++ item) ++ "\x7d"

/-- A name with its parts in parentheses. -/
def applied (name : String) (parts : List String) : String :=
  name ++ "(" ++ commaSeparated parts ++ ")"

/-- A name with its named fields in braces. -/
def fielded (name : String) (fields : List (String × String)) : String :=
  let items := fields.map fun (field, item) => field ++ ": " ++ item
  name ++ " \x7b " ++ commaSeparated items ++ " \x7d"

/-- An optional part: `None`, or the part in `Some(..)`. -/
def optional {α : Type} (inspect : α → String) : Option α → String
  | none => "None"
  | some a => applied "Some" [inspect a]

end ProgramGraph.Text
