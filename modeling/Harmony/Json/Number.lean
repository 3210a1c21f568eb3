import Harmony.Decimal.Reading
import Harmony.Decimal.Text

/-! # JSON numbers

* `isNumber`: the form of a number.
* `naturalValue?`, `integerValue?`: its value, if it is written as an integer. `-0` is not: there is
  no such integer.
* `floatValue?`: the binary64 number nearest to its value. A value that rounds to infinity is refused.
* `floatLexeme?`: the text of a binary64 number, its shortest digits with a fraction or an exponent.
  There is none for infinities and for what is not a number. -/

namespace Harmony.Json

open Decimal

/-- A run of digits without a zero in front, unless the zero stands alone. -/
def isNatural : List Char → Bool
  | [] => false
  | ['0'] => true
  | c :: cs => c != '0' && (c :: cs).all Char.isDigit

/-- One or more digits. -/
def isDigits (cs : List Char) : Bool := cs != [] && cs.all Char.isDigit

/-- The exponent of a number: nothing, or `e` or `E`, at most one sign and digits. -/
def isExponent : List Char → Bool
  | [] => true
  | c :: cs => (c == 'e' || c == 'E') && isDigits (splitSign cs).2

/-- The part of a number behind its first digits. -/
def isNumberTail : List Char → Bool
  | '.' :: cs => isDigits (cs.takeWhile Char.isDigit) && isExponent (cs.dropWhile Char.isDigit)
  | cs => isExponent cs

/-- A number without its minus sign, and whether there was one. -/
def splitMinus : List Char → Bool × List Char
  | '-' :: cs => (true, cs)
  | cs => (false, cs)

/-- The form of a number. -/
def isNumber (lexeme : List Char) : Bool :=
  let cs := (splitMinus lexeme).2
  isNatural (cs.takeWhile Char.isDigit) && isNumberTail (cs.dropWhile Char.isDigit)

/-- The characters that stand in numbers. -/
def isNumberChar (c : Char) : Bool :=
  c.isDigit || c == '-' || c == '+' || c == '.' || c == 'e' || c == 'E'

/-- The value of a number written as digits. -/
def naturalValue? (lexeme : List Char) : Option Nat :=
  if isNatural lexeme then readNat? lexeme else none

/-- The value of a number written as an integer. -/
def integerValue? (lexeme : List Char) : Option Int :=
  match splitMinus lexeme with
  | (false, cs) => (naturalValue? cs).map Int.ofNat
  | (true, cs) =>
    match naturalValue? cs with
    | some (n + 1) => some (Int.negSucc n)
    | _ => none

/-- The binary64 number nearest to a number as written. It has the sign of the text, also where it is
zero, and there is none beyond the greatest finite number. -/
def floatValue? (lexeme : List Char) : Option Float :=
  let (negative, cs) := splitMinus lexeme
  match readMagnitude? cs with
  | some x => if x.isInf then none else some (if negative then -x else x)
  | none => none

/-- The exponent of a number with its sign: `e+21`, `e-7`. -/
def exponentText (exponent : Int) : String := signed exponent

/-- The shortest digits of a number: without an exponent from `10 ^ (-5)` to below `10 ^ 16`, and then
with a fraction. -/
def digitsLexeme (d : Digits) : String :=
  if d.leading < -5 ∨ 16 ≤ d.leading then d.scientific exponentText
  else if 0 ≤ d.exponent then d.positional ++ ".0"
  else d.positional

/-- The text of a binary64 number. -/
def floatLexeme? (x : Float) : Option String :=
  match Binary.ofFloat x with
  | .finite negative mantissa exponent =>
    let magnitude := if mantissa = 0 then "0.0" else digitsLexeme (shortest mantissa exponent .toEven)
    some ((if negative then "-" else "") ++ magnitude)
  | _ => none

end Harmony.Json
