import Harmony.Decimal.Binary
import Harmony.Decimal.Integer

/-! # Numbers read from text

`readFloat?` takes the number nearest to a text: digits with at most one point among them, at least
one digit, then perhaps an exponent, after at most one sign; or `inf`, `infinity` or `nan` in any
letter case. -/

namespace Harmony.Decimal

/-- A text without its sign, and whether the sign was a minus. -/
def splitSign : List Char → Bool × List Char
  | '-' :: cs => (true, cs)
  | '+' :: cs => (false, cs)
  | cs => (false, cs)

/-- The parts of a number without its sign: the digits before the point, those after it and the text
behind them. -/
def splitNumber (cs : List Char) : List Char × List Char × List Char :=
  let whole := cs.takeWhile Char.isDigit
  match cs.dropWhile Char.isDigit with
  | '.' :: rest => (whole, rest.takeWhile Char.isDigit, rest.dropWhile Char.isDigit)
  | rest => (whole, [], rest)

/-- The exponent written behind the digits: nothing, or `e` or `E` and an integer. -/
def readExponent? : List Char → Option Int
  | [] => some 0
  | c :: cs => if c = 'e' ∨ c = 'E' then readInt? cs else none

/-- The number nearest to a text of digits, without a sign. -/
def readMagnitude? (cs : List Char) : Option Float :=
  let (whole, fraction, rest) := splitNumber cs
  match readNat? (whole ++ fraction), readExponent? rest with
  | some coefficient, some exponent =>
    some (nearestDecimal coefficient (exponent - fraction.length))
  | _, _ => none

/-- **The number nearest to a text.** -/
def readFloat? (cs : List Char) : Option Float :=
  let (negative, cs) := splitSign cs
  let magnitude : Option Float :=
    match cs.map Char.toLower with
    | ['i', 'n', 'f'] | ['i', 'n', 'f', 'i', 'n', 'i', 't', 'y'] => some (1.0 / 0.0)
    | ['n', 'a', 'n'] => some (0.0 / 0.0)
    | _ => readMagnitude? cs
  magnitude.map fun x => if negative then -x else x

end Harmony.Decimal
