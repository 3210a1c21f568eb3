import Harmony.Decimal.Shortest
import Harmony.Decimal.Integer

/-! # Numbers as text

Three ways to write a binary64 number in decimal.

* `positionalText`: the shortest digits that read back, never with an exponent and without a point
  where there is no fraction. In the middle of two decimals of equal length the larger is taken.
* `scientificText`: a fixed number of places after the first digit, then the exponent.
* `fixedText`: a fixed number of places, and all digits before the point.

The last two round the exact value, ties to even. -/

namespace Harmony.Decimal

/-- The digits of a number, padded with zeros in front to the given length. -/
def padded (length n : Nat) : List Char :=
  let digits := Nat.toDigits 10 n
  List.replicate (length - digits.length) '0' ++ digits

/-- The digits of `coefficient · 10 ^ (-places)` before and after the point. -/
def splitAtPoint (coefficient places : Nat) : List Char × List Char :=
  let digits := padded (places + 1) coefficient
  digits.splitAt (digits.length - places)

/-- Digits before and after a point, which is left out where nothing follows it. -/
def withPoint (parts : List Char × List Char) : String :=
  match parts with
  | (whole, []) => String.ofList whole
  | (whole, fraction) => String.ofList (whole ++ '.' :: fraction)

/-- A decimal without an exponent. -/
def Digits.positional (d : Digits) : String :=
  match d.exponent with
  | .ofNat n => (d.coefficient * Nat.pow 10 n).repr
  | .negSucc n => withPoint (splitAtPoint d.coefficient (n + 1))

/-- The exponent of the first digit. -/
def Digits.leading (d : Digits) : Int :=
  d.exponent + (Nat.toDigits 10 d.coefficient).length - 1

/-- A decimal with one digit before the point, and its exponent of ten as `exponentText` writes it. -/
def Digits.scientific (d : Digits) (exponentText : Int → String) : String :=
  withPoint ((Nat.toDigits 10 d.coefficient).splitAt 1) ++ "e" ++ exponentText d.leading

/-- The text of a number whose positive finite values `magnitude` writes. -/
def Binary.text (magnitude : Nat → Int → String) : Binary → String
  | .notANumber => "NaN"
  | .infinite negative => if negative then "-inf" else "inf"
  | .finite negative mantissa exponent =>
    (if negative then "-" else "") ++ magnitude mantissa exponent

/-- The shortest decimal that reads back, without an exponent. -/
def positionalText (x : Float) : String :=
  (Binary.ofFloat x).text fun mantissa exponent =>
    if mantissa = 0 then "0" else (shortest mantissa exponent .up).positional

/-- The positive fraction `num / den` rounded to one digit and the given number of places. -/
def roundToPlaces (places num den : Nat) : Digits :=
  let unit := decimalExponent num den - places
  let (n, d) := inUnits unit num den
  let c := roundDiv n d .toEven
  if c < Nat.pow 10 (places + 1) then ⟨c, unit⟩ else ⟨c / 10, unit + 1⟩

/-- One digit, the given number of places and an exponent. -/
def scientificText (places : Nat) (x : Float) : String :=
  (Binary.ofFloat x).text fun mantissa exponent =>
    if mantissa = 0 then withPoint (splitAtPoint 0 places) ++ "e0"
    else
      let (num, den) := binaryFraction mantissa exponent
      (roundToPlaces places num den).scientific Int.repr

/-- All digits before the point and the given number of places. -/
def fixedText (places : Nat) (x : Float) : String :=
  (Binary.ofFloat x).text fun mantissa exponent =>
    let (num, den) := binaryFraction mantissa exponent
    withPoint (splitAtPoint (roundDiv (num * Nat.pow 10 places) den .toEven) places)

example : (Digits.mk 15 20).positional = "1500000000000000000000" := by decide +kernel

example : (Digits.mk 15 (-3)).positional = "0.015" := by decide +kernel

example : (Digits.mk 15 (-3)).scientific Int.repr = "1.5e-2" := by decide +kernel

end Harmony.Decimal
