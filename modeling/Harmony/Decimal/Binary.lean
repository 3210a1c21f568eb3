import Harmony.Decimal.Rounding

/-! # Binary floating-point numbers as fractions

* `Binary`: what a binary64 number stands for, `mantissa · 2 ^ exponent` with a sign, an infinity or
  no number.
* `Binary.ofFloat`: read off the bits.
* `nearestFloat`: the binary64 number nearest to a fraction, ties to even, infinite from half a unit
  above the greatest finite one. -/

namespace Harmony.Decimal

/-- The value of a binary64 number. -/
inductive Binary where
  | notANumber
  | infinite (negative : Bool)
  | finite (negative : Bool) (mantissa : Nat) (exponent : Int)
deriving Repr, DecidableEq

/-- The value that 64 bits stand for. -/
def Binary.ofBits (bits : Nat) : Binary :=
  let negative := bits / Nat.pow 2 63 % 2 == 1
  let biased : Nat := bits / Nat.pow 2 52 % Nat.pow 2 11
  let fraction : Nat := bits % Nat.pow 2 52
  if biased = 2047 then
    if fraction = 0 then .infinite negative else .notANumber
  else if biased = 0 then .finite negative fraction (-1074)
  else .finite negative (Nat.pow 2 52 + fraction) ((biased : Int) - 1075)

/-- The value of a number. -/
def Binary.ofFloat (x : Float) : Binary := Binary.ofBits x.toBits.toNat

/-- The fraction `mantissa · 2 ^ exponent`, as a numerator and a denominator. -/
def binaryFraction (mantissa : Nat) : Int → Nat × Nat
  | .ofNat n => (mantissa * Nat.pow 2 n, 1)
  | .negSucc n => (mantissa, Nat.pow 2 (n + 1))

/-- The exponent of the last bit that a binary64 number keeps of a positive fraction. -/
def lastBit (num den : Nat) : Int :=
  let e : Int := (num.log2 : Int) - (den.log2 : Int)
  let (n, d) := binaryFraction 1 e
  let e := if num * d < den * n then e - 1 else e
  max (e - 52) (-1074)

/-- The bits of the binary64 number nearest to the fraction `num / den`. The leading bit of a normal
mantissa adds one to the exponent field, and so does a mantissa that rounds up to a power of two. -/
def nearestBits (num den : Nat) : Nat :=
  if num = 0 then 0
  else
    let q := lastBit num den
    let (n, d) := binaryFraction 1 q
    let mantissa := roundDiv (num * d) (den * n) .toEven
    min ((q + 1074).toNat * Nat.pow 2 52 + mantissa) (2047 * Nat.pow 2 52)

/-- **The binary64 number nearest to the fraction `num / den`.** -/
def nearestFloat (num den : Nat) : Float := Float.ofBits (UInt64.ofNat (nearestBits num den))

/-- The binary64 number nearest to `coefficient · 10 ^ exponent`. Beyond the exponents tested first,
the answer is infinite or zero whatever the digits. -/
def nearestDecimal (coefficient : Nat) (exponent : Int) : Float :=
  if coefficient = 0 then 0.0
  else
    let size : Int := (Nat.toDigits 10 coefficient).length + exponent
    if size > 400 then Float.ofBits (UInt64.ofNat (2047 * Nat.pow 2 52))
    else if size < -400 then 0.0
    else
      let (n, d) := inUnits (-exponent) coefficient 1
      nearestFloat n d

end Harmony.Decimal
