import ProgramGraph.Number.Double
/-!
# The shortest decimal of a double

A double is written with the fewest significant digits that still lie in
the interval of reals rounding to it, and among those with the nearest,
an exact tie going to the even last digit. The ends of the interval
belong to it when the significand is even. All comparisons are exact.
How the digits are laid out is a record of its own.
-/

namespace ProgramGraph

/-- The decimal `digits * 10 ^ exponent`. -/
structure Decimal where
  /-- All significant digits as one natural. -/
  digits : Nat
  /-- The power of ten of the last digit. -/
  exponent : Int
  deriving DecidableEq

namespace Decimal

/-- The same decimal without trailing zeros, for at most `fuel` of them. -/
def stripZeros : Nat → Decimal → Decimal
  | 0, d => d
  | fuel + 1, d =>
    if d.digits ≠ 0 ∧ d.digits % 10 = 0 then
      stripZeros fuel ⟨d.digits / 10, d.exponent + 1⟩
    else d

/-- How the digits of a decimal are laid out. -/
structure Layout where
  /-- The least decimal exponent that is written positionally. -/
  positionalFrom : Int
  /-- The greatest decimal exponent that is written positionally. -/
  positionalTo : Int
  /-- What marks the exponent in scientific notation. -/
  exponentMark : String
  /-- What stands before a positive exponent. -/
  positiveSign : String

/-- The digits with a point before the last `places` of them. -/
def pointed (digits : List Char) (places : Nat) : List Char :=
  let whole := digits.length - places
  digits.take whole ++ '.' :: digits.drop whole

/-- The text of a positive decimal under a layout. A positional text
always has a fraction, `.0` at least. -/
def layOut (style : Layout) (d : Decimal) : String :=
  let digits := Nat.toDigits 10 d.digits
  let e : Int := d.exponent + digits.length - 1
  let text :=
    if style.positionalFrom ≤ e ∧ e ≤ style.positionalTo then
      if 0 ≤ d.exponent then digits ++ List.replicate d.exponent.toNat '0' ++ ['.', '0']
      else if 0 ≤ e then pointed digits (-d.exponent).toNat
      else '0' :: '.' :: List.replicate (-e - 1).toNat '0' ++ digits
    else
      let mantissa := if digits.length = 1 then digits else pointed digits (digits.length - 1)
      let sign := if e < 0 then "-" else style.positiveSign
      mantissa ++ (style.exponentMark ++ sign).toList ++ Nat.toDigits 10 e.natAbs
  String.ofList text

end Decimal

namespace Double

/-- The decimal exponent of `n / d`: the `k` with `10 ^ k ≤ n / d < 10 ^ (k + 1)`.
The binary logarithm gives it or the one below. -/
def decimalExponent (n d : Nat) : Int :=
  let k := (((n.log2 : Int) - d.log2) * 30103).fdiv 100000
  let reaches (k : Int) : Bool := d * Nat.pow 10 k.toNat ≤ n * Nat.pow 10 (-k).toNat
  if reaches (k + 1) then k + 1 else if reaches k then k else k - 1

/-- The decimal with `count` digits that rounds back to the number, if
one of the number's two neighbours on that grid does. The number is
`value / den`, its interval reaches from `low` to `high`, and `inside`
tells whether the ends belong to it. -/
def onGrid? (value low high den : Nat) (inside : Bool) (top : Int) (count : Nat) :
    Option Decimal :=
  let p : Int := top - count + 1
  let up := Nat.pow 10 (-p).toNat
  let step := den * Nat.pow 10 p.toNat
  let c := value * up / step
  let holds (c : Nat) : Bool :=
    if inside then low * up ≤ c * step && c * step ≤ high * up
    else low * up < c * step && c * step < high * up
  match holds c, holds (c + 1) with
  | true, true =>
    let below := value * up - c * step
    let above := (c + 1) * step - value * up
    some ⟨if below < above ∨ (below = above ∧ c % 2 = 0) then c else c + 1, p⟩
  | true, false => some ⟨c, p⟩
  | false, true => some ⟨c + 1, p⟩
  | false, false => none

/-- The shortest decimal of a nonzero double, its sign left aside. -/
def shortest (x : Double) : Decimal :=
  let value := 4 * x.units
  let den := 1 <<< 1076
  let high := value + 2 * x.ulp
  let low := value - (if x.fractionField = 0 ∧ 1 < x.exponentField then x.ulp else 2 * x.ulp)
  let top := decimalExponent value den
  let hit := (List.range 17).findSome? fun i =>
    onGrid? value low high den (x.significand % 2 = 0) top (i + 1)
  (hit.getD ⟨0, 0⟩).stripZeros 400

/-- A double is positional from `0.00001` up to sixteen digits before the
point, and scientific with a signed exponent elsewhere. -/
def layout : Decimal.Layout := ⟨-5, 15, "e", "+"⟩

/-- The text of a double. -/
def text (x : Double) : String :=
  (if x.negative then "-" else "") ++ if x.isZero then "0.0" else x.shortest.layOut layout

end Double

end ProgramGraph
