import ProgramGraph.Number.Double
/-!
# Numbers and numerals

A number is an integer or a finite double, and the two never meet: `1`
and `1.0` are different numbers. A numeral is a number as it is written.
A numeral without fraction and exponent that fits into 64 bits, signed or
unsigned, is an integer. Every other numeral is a double, found in two
steps: its digits are taken into a 64-bit significand for as long as they
fit, and the significand, rounded to a double, is multiplied or divided by
one rounded power of ten. Two roundings may miss the nearest double by one
unit; what a numeral reads as is this rule and not the nearest double.
-/

namespace ProgramGraph

/-- A number. -/
inductive Number
  | int (n : Int)
  | double (x : Double)
  deriving DecidableEq

namespace Number

/-- Equality of numbers. An integer never equals a double. -/
def eqv : Number → Number → Bool
  | int m, int n => m == n
  | double x, double y => x.eqv y
  | _, _ => false

/-- The integer, if it is one of the signed 64-bit range. -/
def toSigned? : Number → Option Int
  | int n => if -Word.half64 ≤ n ∧ n < Word.half64 then some n else none
  | double _ => none

/-- The integer, if it is one of the unsigned 64-bit range. -/
def toUnsigned? : Number → Option Nat
  | int n => if 0 ≤ n ∧ n < Word.count64 then some n.toNat else none
  | double _ => none

/-- The nearest double. -/
def toDouble? : Number → Option Double
  | int n => Double.ofRatio? (n < 0) n.natAbs 1
  | double x => some x

end Number

/-- A number as it is written. -/
structure Numeral where
  /-- Whether a minus sign stands in front. -/
  negative : Bool
  /-- The digits before the point. -/
  whole : List Char
  /-- The digits after the point, if there is one. -/
  fraction : Option (List Char)
  /-- Whether the exponent is negative, and its digits, if there is one. -/
  exponent : Option (Bool × List Char)
  deriving DecidableEq

namespace Numeral

/-- The value of a decimal digit. -/
def digitValue (c : Char) : Nat := c.toNat - '0'.toNat

/-- The exponent part: nothing, or `e` or `E`, an optional sign and at
least one digit. -/
def exponentOf? : List Char → Option (Option (Bool × List Char))
  | [] => some none
  | mark :: rest =>
    if mark = 'e' ∨ mark = 'E' then
      let (negative, digits) := match rest with
        | '-' :: digits => (true, digits)
        | '+' :: digits => (false, digits)
        | digits => (false, digits)
      if digits ≠ [] ∧ digits.all Char.isDigit then some (some (negative, digits)) else none
    else none

/-- The numeral that the characters spell, all of them. The whole part is
`0` or starts with another digit, and a point has digits after it. -/
def ofChars? (chars : List Char) : Option Numeral := do
  let (negative, chars) := match chars with
    | '-' :: rest => (true, rest)
    | _ => (false, chars)
  let whole := chars.takeWhile Char.isDigit
  guard (whole = ['0'] ∨ (whole ≠ [] ∧ whole.head? ≠ some '0'))
  match chars.dropWhile Char.isDigit with
  | '.' :: rest =>
    let fraction := rest.takeWhile Char.isDigit
    guard (fraction ≠ [])
    let exponent ← exponentOf? (rest.dropWhile Char.isDigit)
    return ⟨negative, whole, some fraction, exponent⟩
  | rest =>
    let exponent ← exponentOf? rest
    return ⟨negative, whole, none, exponent⟩

/-- Takes digits into a significand for as long as 64 bits hold it, and
gives it with the digits left over. -/
def fill : Nat → List Char → Nat × List Char
  | significand, [] => (significand, [])
  | significand, c :: rest =>
    let next := significand * 10 + digitValue c
    if next < Word.count64 then fill next rest else (significand, c :: rest)

/-- The double nearest to `10 ^ k`. -/
def powerOfTen? (k : Nat) : Option Double := Double.ofNat? (Nat.pow 10 k)

/-- The double divided by `10 ^ k`, by at most `10 ^ 308` at a time. -/
def scaleDown? (x : Double) (k : Nat) : Option Double :=
  if k ≤ 308 then do
    x.div? (← powerOfTen? k)
  else if x.isZero then some x
  else do
    scaleDown? (← x.div? (← powerOfTen? 308)) (k - 308)
  termination_by k

/-- The double times `10 ^ e`, unless it is out of range. -/
def scale? (x : Double) (e : Int) : Option Double :=
  if e < 0 then scaleDown? x e.natAbs
  else if e ≤ 308 then do
    x.mul? (← powerOfTen? e.natAbs)
  else if x.isZero then some x
  else none

/-- The double a numeral reads as, unless it is out of range. An exponent
beyond 31 bits is not looked at further: it is out of range, or it makes
the number zero. -/
def double? (n : Numeral) : Option Double := do
  let (significand, left) := fill 0 n.whole
  let digits := n.fraction.getD []
  let (significand, unused) := fill significand digits
  let point : Int := left.length - (digits.length - unused.length : Nat)
  let unsigned ← match n.exponent with
    | none => scale? (← Double.ofNat? significand) point
    | some (negative, digits) =>
      let e : Int := Nat.ofDigitChars 10 digits 0
      if 0x80000000 ≤ e then
        if significand = 0 ∨ negative then some Double.zero else none
      else scale? (← Double.ofNat? significand) (if negative then point - e else point + e)
  return unsigned.withSign n.negative

/-- The integer a numeral reads as: there is no fraction and no exponent,
and the number fits into 64 bits. Minus zero is no integer. -/
def int? (n : Numeral) : Option Int :=
  if n.fraction.isNone ∧ n.exponent.isNone then
    let magnitude := Nat.ofDigitChars 10 n.whole 0
    if n.negative then
      if 0 < magnitude ∧ magnitude ≤ Word.half64 then some (-magnitude) else none
    else if magnitude < Word.count64 then some magnitude
    else none
  else none

/-- The number a numeral reads as, unless it is out of range. -/
def number? (n : Numeral) : Option Number :=
  match n.int? with
  | some i => some (.int i)
  | none => n.double?.map .double

end Numeral

end ProgramGraph
