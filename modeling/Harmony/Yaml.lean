import Harmony.Decimal.Reading

/-! # YAML scalars

A text is written plain where it is read back as that text, and between single quotes otherwise. These
are the two ways of writing a printable text of one line; there is no other text in what is shown.

* `readsAsOther`: would the plain text be read as a number, a truth value or nothing?
* `hasIndicator`: would a character of the plain text be read as markup?
* `scalar`: the text as it is written. -/

namespace Harmony.Yaml

/-- The words that some readers take for a truth value or for nothing. -/
def reservedWords : List String :=
  ["", "~", "null", "true", "false", "y", "yes", "n", "no", "on", "off", ".inf", ".nan"]

/-- Is the text a number without its sign? -/
def isUnsignedNumber (cs : List Char) : Bool :=
  (Decimal.readMagnitude? cs).isSome ||
    match cs with
    | '0' :: base :: digits =>
      ['x', 'o', 'b'].contains base && digits != [] && digits.all Char.isAlphanum
    | _ => false

/-- Would the plain text be read as something else than a text? -/
def readsAsOther (cs : List Char) : Bool :=
  let bare := (Decimal.splitSign cs).2
  reservedWords.contains (String.ofList (bare.map Char.toLower)) || isUnsignedNumber bare

/-- The characters with which no plain text begins. -/
def startIndicators : List Char := "#,[]\x7b\x7d&*!|>'\"%@`".toList

/-- Is the first character of the text read as markup? Some are only before a space or the end. -/
def startsWithIndicator : List Char → Bool
  | [] => false
  | c :: cs =>
    startIndicators.contains c ||
      ((c == '?' || c == ':' || c == '-') && match cs with
        | [] => true
        | d :: _ => d == ' ')

/-- Is a colon before a space or the end, or a hash sign behind a space, in the text? -/
def hasInnerIndicator : List Char → Bool
  | [] => false
  | [c] => c == ':'
  | c :: d :: cs =>
    (c == ':' && d == ' ') || (c == ' ' && d == '#') || hasInnerIndicator (d :: cs)

/-- Would a part of the plain text be read as markup? -/
def hasIndicator (cs : List Char) : Bool :=
  startsWithIndicator cs || hasInnerIndicator cs || "---".toList.isPrefixOf cs ||
    "...".toList.isPrefixOf cs

/-- Does the text begin or end with a space? -/
def hasOuterBlank (cs : List Char) : Bool := cs.head? == some ' ' || cs.getLast? == some ' '

/-- A text between single quotes, in which a quote is written twice. -/
def quoted (cs : List Char) : List Char :=
  '\'' :: cs.flatMap (fun c => if c = '\'' then ['\'', '\''] else [c]) ++ ['\'']

/-- **A text as it is written.** -/
def scalar (cs : List Char) : List Char :=
  if readsAsOther cs || hasIndicator cs || hasOuterBlank cs then quoted cs else cs

example : scalar "D#".toList = "D#".toList := by decide +kernel

example : scalar "13".toList = "'13'".toList := by decide +kernel

end Harmony.Yaml
