import ProgramGraph.Number.Numeral
/-!
# Tokens of a JSON text

The lexer looks at one character at a time. Between two characters it is
in a mode: between tokens, inside a word or a numeral, or somewhere in a
string literal. A character is either added to the token at hand or ends
it. A text has no tokens if it has a character that fits nowhere, or a raw
control character in a string.

Two kinds of token are well formed, but spell nothing that can be read: a
number beyond the range of a double, and a string with an unpaired
surrogate escape. They do no harm where nobody reads them.
-/

namespace ProgramGraph.Json

/-- A token. -/
inductive Token
  | openArray
  | closeArray
  | openObject
  | closeObject
  | comma
  | colon
  | null
  | bool (b : Bool)
  | number (n : Number)
  | text (s : String)
  /-- A number beyond the range of a double. -/
  | hugeNumber
  /-- A string with an unpaired surrogate escape. -/
  | brokenText
  deriving DecidableEq

/-- The characters of a string that have been gathered so far, in reverse;
none at all after an unpaired surrogate. -/
abbrev Gathered := Option (List Char)

/-- Where the lexer is. Characters gathered so far stand in reverse. -/
inductive Mode
  /-- Between two tokens. -/
  | between
  /-- In a word of letters. -/
  | word (letters : List Char)
  /-- In a numeral. -/
  | numeral (chars : List Char)
  /-- In a string literal. -/
  | text (chars : Gathered)
  /-- After the backslash of an escape. -/
  | escape (chars : Gathered)
  /-- In the four digits of an escape by number: `digits` of them have
  been read and make up `code`. A high surrogate read before waits in
  `high`. -/
  | number (chars : Gathered) (high : Option Nat) (digits code : Nat)
  /-- After the escape of a high surrogate. -/
  | paired (chars : Gathered) (high : Nat)
  /-- After the backslash that follows the escape of a high surrogate. -/
  | pairedEscape (chars : Gathered) (high : Nat)

namespace Token

/-- Space, tab, line feed and carriage return. -/
def isBlank (c : Char) : Bool := c = ' ' || c = '\t' || c = '\n' || c = '\r'

/-- A character that can stand in a numeral. -/
def isNumeralChar (c : Char) : Bool :=
  c.isDigit || c = '-' || c = '+' || c = '.' || c = 'e' || c = 'E'

/-- The token of a word. -/
def ofWord? (word : String) : Option Token :=
  if word = "null" then some .null
  else if word = "true" then some (.bool true)
  else if word = "false" then some (.bool false)
  else none

/-- The token that ends where the mode is left, if the mode can be left. -/
def atEnd? : Mode → Option (List Token)
  | .between => some []
  | .word letters => (ofWord? (String.ofList letters.reverse)).map fun t => [t]
  | .numeral chars =>
    (Numeral.ofChars? chars.reverse).map fun numeral =>
      match numeral.number? with
      | some n => [.number n]
      | none => [.hugeNumber]
  | _ => none

/-- The mode after a character between two tokens, and the token that the
character is, if it is one. -/
def start? (c : Char) : Option (Mode × List Token) :=
  if isBlank c then some (.between, [])
  else if c = '[' then some (.between, [.openArray])
  else if c = ']' then some (.between, [.closeArray])
  else if c = '\x7b' then some (.between, [.openObject])
  else if c = '\x7d' then some (.between, [.closeObject])
  else if c = ',' then some (.between, [.comma])
  else if c = ':' then some (.between, [.colon])
  else if c = '"' then some (.text (some []), [])
  else if c.isLower then some (.word [c], [])
  else if isNumeralChar c then some (.numeral [c], [])
  else none

/-- The character an escape by one letter stands for. -/
def escaped? : Char → Option Char
  | '"' => some '"'
  | '\\' => some '\\'
  | '/' => some '/'
  | 'b' => some '\x08'
  | 'f' => some '\x0c'
  | 'n' => some '\n'
  | 'r' => some '\r'
  | 't' => some '\t'
  | _ => none

/-- The value of a hexadecimal digit of either case. -/
def hexValue? (c : Char) : Option Nat :=
  if c.isDigit then some (c.toNat - '0'.toNat)
  else if 'a' ≤ c ∧ c ≤ 'f' then some (c.toNat - 'a'.toNat + 10)
  else if 'A' ≤ c ∧ c ≤ 'F' then some (c.toNat - 'A'.toNat + 10)
  else none

/-- The token of a string that has been gathered. -/
def ofGathered : Gathered → Token
  | some chars => .text (String.ofList chars.reverse)
  | none => .brokenText

/-- The mode after one more character of a string literal. -/
def inText? (chars : Gathered) (c : Char) : Option (Mode × List Token) :=
  if c = '"' then some (.between, [ofGathered chars])
  else if c = '\\' then some (.escape chars, [])
  else if c.toNat < 0x20 then none
  else some (.text (chars.map (c :: ·)), [])

/-- The mode after the character that follows a backslash. -/
def inEscape? (chars : Gathered) (c : Char) : Option (Mode × List Token) :=
  if c = 'u' then some (.number chars none 0 0, [])
  else do
    let escaped ← escaped? c
    return (.text (chars.map (escaped :: ·)), [])

/-- The mode after an escape by number is complete. A high surrogate waits
for a low one; with anything else there is nothing to read. -/
def afterCode (chars : Gathered) (high : Option Nat) (code : Nat) : Mode :=
  let isHigh := 0xD800 ≤ code ∧ code ≤ 0xDBFF
  let isLow := 0xDC00 ≤ code ∧ code ≤ 0xDFFF
  match high with
  | none =>
    if isHigh then .paired chars code
    else if isLow then .text none
    else .text (chars.map (Char.ofNat code :: ·))
  | some high =>
    if isLow then
      let c := Char.ofNat (0x10000 + (high - 0xD800) * 0x400 + (code - 0xDC00))
      .text (chars.map (c :: ·))
    else .text none

/-- The mode after one more character, and the tokens that the character
completes. -/
def step? (mode : Mode) (c : Char) : Option (Mode × List Token) :=
  match mode with
  | .between => start? c
  | .word letters =>
    if c.isLower then some (.word (c :: letters), []) else leave
  | .numeral chars =>
    if isNumeralChar c then some (.numeral (c :: chars), []) else leave
  | .text chars => inText? chars c
  | .escape chars => inEscape? chars c
  | .number chars high digits code => do
    let code := code * 16 + (← hexValue? c)
    if digits = 3 then return (afterCode chars high code, [])
    else return (.number chars high (digits + 1) code, [])
  | .paired chars high =>
    if c = '\\' then some (.pairedEscape chars high, []) else inText? none c
  | .pairedEscape chars high =>
    if c = 'u' then some (.number chars (some high) 0 0, []) else inEscape? none c
where
  /-- The character ends the token at hand and stands between tokens. -/
  leave : Option (Mode × List Token) := do
    let ended ← atEnd? mode
    let (next, tokens) ← start? c
    return (next, ended ++ tokens)

/-- The tokens of the characters that are left. -/
def lex? : Mode → List Char → Option (List Token)
  | mode, chars => go mode [] chars
where
  /-- Gathers the tokens in reverse. -/
  go (mode : Mode) (found : List Token) : List Char → Option (List Token)
    | [] => do return ((← atEnd? mode).reverse ++ found).reverse
    | c :: rest => do
      let (next, tokens) ← step? mode c
      go next (tokens.reverse ++ found) rest

/-- The tokens of a text. -/
def ofText? (text : String) : Option (List Token) := lex? .between text.toList

end Token

end ProgramGraph.Json
