import ProgramGraph.Number.Word
/-!
# Finite doubles

A double is a sign and a magnitude: the 63 bits below the sign of an
IEEE 754 binary64 number, which grow with the number's absolute value.
Everything is exact arithmetic on naturals: a magnitude is read as a
count of units of `2 ^ -1074`, and every operation rounds one exact
quotient to the nearest magnitude, ties going to the even one. So there
is no infinity and no NaN: an operation that would leave the range has no
result.
-/

namespace ProgramGraph

/-- The nearest natural to `n / d`; of two equally near ones the even. -/
def roundToEven (n d : Nat) : Nat :=
  let q := n / d
  let r := n % d
  if 2 * r < d then q
  else if d < 2 * r then q + 1
  else if q % 2 = 0 then q
  else q + 1

/-- How many magnitudes share an exponent field: one for each fraction of
52 bits. -/
def Double.binade : Nat := 0x10000000000000

/-- A finite double. -/
structure Double where
  /-- The sign bit: set for negative numbers and for negative zero. -/
  negative : Bool
  /-- The exponent field followed by the fraction field. -/
  magnitude : Nat
  /-- The exponent field is not the one of the infinities and NaNs. -/
  finite : magnitude < 2047 * Double.binade
  deriving DecidableEq

namespace Double

/-- Positive zero. -/
def zero : Double := ⟨false, 0, by decide⟩

instance : Inhabited Double := ⟨zero⟩

/-- The exponent field. -/
def exponentField (x : Double) : Nat := x.magnitude / binade

/-- The fraction field. -/
def fractionField (x : Double) : Nat := x.magnitude % binade

/-- The significand: the fraction with the leading bit that a nonzero
exponent field implies. -/
def significand (x : Double) : Nat :=
  if x.exponentField = 0 then x.fractionField else binade + x.fractionField

/-- The distance to the next magnitude, in units of `2 ^ -1074`. -/
def ulp (x : Double) : Nat := 1 <<< (x.exponentField - 1)

/-- The absolute value in units of `2 ^ -1074`. -/
def units (x : Double) : Nat := x.significand * x.ulp

/-- Whether the double is one of the two zeros. -/
def isZero (x : Double) : Bool := x.magnitude == 0

/-- **The magnitude nearest to `n / d`.** A quotient of more than 53 bits
loses `s` of them, and a rounding that carries past 53 bits lands on the
next exponent field by itself. -/
def nearestMagnitude (n d : Nat) : Nat :=
  let u := n <<< 1074
  let s := (u / d).log2 - 52
  s * binade + roundToEven u (d <<< s)

/-- The double nearest to `n / d`, unless it is out of range. -/
def ofRatio? (negative : Bool) (n d : Nat) : Option Double :=
  if h : nearestMagnitude n d < 2047 * binade then
    some ⟨negative, nearestMagnitude n d, h⟩
  else
    none

/-- The double nearest to a natural. -/
def ofNat? (n : Nat) : Option Double := ofRatio? false n 1

/-- The rounded product. -/
def mul? (x y : Double) : Option Double :=
  ofRatio? (x.negative != y.negative) (x.units * y.units) (1 <<< 2148)

/-- The rounded quotient; there is none by zero. -/
def div? (x y : Double) : Option Double :=
  if y.isZero then none
  else ofRatio? (x.negative != y.negative) x.units y.units

/-- The same magnitude with the given sign. -/
def withSign (x : Double) (negative : Bool) : Double := { x with negative }

/-- Equality of numbers: the two zeros are one number, and otherwise
equal numbers are equal bits. -/
def eqv (x y : Double) : Bool := (x.isZero && y.isZero) || x == y

/-- The 64 bits as one natural. -/
def toBits (x : Double) : Nat := (if x.negative then Word.half64 else 0) + x.magnitude

/-- The double of 64 bits, unless they spell an infinity or a NaN. -/
def ofBits? (bits : Nat) : Option Double :=
  if h : bits % Word.half64 < 2047 * binade then
    some ⟨Word.half64 ≤ bits, bits % Word.half64, h⟩
  else
    none

/-- The 64 bits as sixteen lowercase hexadecimal digits. -/
def bitsText (x : Double) : String :=
  let digits := Nat.toDigits 16 x.toBits
  String.ofList (List.replicate (16 - digits.length) '0' ++ digits)

end Double

end ProgramGraph
