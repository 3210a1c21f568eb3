import Harmony.Decimal.Binary

/-! # The fewest digits that read back

A binary64 number is the nearest one to every real in an interval around it. Among the decimals in
that interval, `shortest` takes one with the coarsest unit `10 ^ k`, and of two the nearer.

* `Scaled`: the number and the ends of its interval over one denominator, in units of `10 ^ k`.
* `shortest`: the unit is lowered step by step until one of the two multiples around the number lies
  in the interval. Seventeen digits are always enough. -/

namespace Harmony.Decimal

/-- The decimal `coefficient · 10 ^ exponent`. -/
structure Digits where
  coefficient : Nat
  exponent : Int
deriving Repr, DecidableEq

/-- A number and the ends of the interval of reals that round to it, over one denominator. -/
structure Scaled where
  low : Nat
  value : Nat
  high : Nat
  denominator : Nat
  /-- Do the ends themselves round to the number? -/
  closed : Bool

/-- The interval of `mantissa · 2 ^ exponent` in units of `10 ^ k`. Below a power of two the
neighbour is nearer, unless the exponent is the least one. -/
def Scaled.of (mantissa : Nat) (exponent k : Int) : Scaled :=
  let (num, den) := binaryFraction 1 (exponent - 2)
  let (n, d) := inUnits k num den
  let below := if mantissa = Nat.pow 2 52 ∧ -1074 < exponent then 1 else 2
  { low := (4 * mantissa - below) * n
    value := 4 * mantissa * n
    high := (4 * mantissa + 2) * n
    denominator := d
    closed := mantissa % 2 == 0 }

/-- Does the integer lie in the interval? -/
def Scaled.holds (s : Scaled) (c : Nat) : Bool :=
  let x := c * s.denominator
  if s.closed then s.low ≤ x && x ≤ s.high else s.low < x && x < s.high

/-- The integer in the interval that is nearest to the number, if one of its two neighbours is. -/
def Scaled.nearest? (s : Scaled) (tie : Tie) : Option Nat :=
  let floor := s.value / s.denominator
  match s.holds floor, s.holds (floor + 1) with
  | true, true => some (roundDiv s.value s.denominator tie)
  | true, false => some floor
  | false, true => some (floor + 1)
  | false, false => none

/-- The search for the coarsest unit, from `10 ^ k` downwards. -/
def shortestFrom (mantissa : Nat) (exponent : Int) (tie : Tie) : Nat → Int → Digits
  | 0, k => ⟨(Scaled.of mantissa exponent k).value / (Scaled.of mantissa exponent k).denominator, k⟩
  | steps + 1, k =>
    match (Scaled.of mantissa exponent k).nearest? tie with
    | some c => ⟨c, k⟩
    | none => shortestFrom mantissa exponent tie steps (k - 1)

/-- **The shortest decimal that reads back as `mantissa · 2 ^ exponent`**, for a positive mantissa. -/
def shortest (mantissa : Nat) (exponent : Int) (tie : Tie) : Digits :=
  let (num, den) := binaryFraction mantissa exponent
  shortestFrom mantissa exponent tie 20 (decimalExponent num den + 1)

example : shortest 1 (-1074) .toEven = ⟨5, -324⟩ := by decide +kernel

example : shortest (Nat.pow 2 52) (-52) .toEven = ⟨1, 0⟩ := by decide +kernel

example : shortest 7205759403792794 (-56) .toEven = ⟨1, -1⟩ := by decide +kernel

end Harmony.Decimal
