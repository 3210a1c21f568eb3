/-! # Escapes in JSON strings

* `encode`: a text as it is written between quotes. The quote, the backslash and the characters below
  the blank are escaped, by a letter where there is one; all others stand for themselves.
* `decode?`: the text that is written. It is read as `Piece`s first. A character beyond the basic
  plane may be written as a pair of surrogates; a surrogate without its partner stands for no text.
* `scan?`: the part of a text up to the next quote, as written. It checks the form of the escapes
  only, so a lone surrogate passes here. -/

namespace Harmony.Json

/-- The letter that follows the backslash in the short escape of a character. -/
def shortEscape? : Char → Option Char
  | '"' => some '"'
  | '\\' => some '\\'
  | '\x08' => some 'b'
  | '\t' => some 't'
  | '\n' => some 'n'
  | '\x0c' => some 'f'
  | '\r' => some 'r'
  | _ => none

/-- The character that a letter stands for in a short escape. A slash may be escaped, too. -/
def shortEscaped? : Char → Option Char
  | '"' => some '"'
  | '\\' => some '\\'
  | '/' => some '/'
  | 'b' => some '\x08'
  | 't' => some '\t'
  | 'n' => some '\n'
  | 'f' => some '\x0c'
  | 'r' => some '\r'
  | _ => none

theorem shortEscaped?_of_shortEscape? {c e : Char} (h : shortEscape? c = some e) :
    shortEscaped? e = some c := by
  unfold shortEscape? at h
  split at h <;> simp at h <;> subst h <;> rfl

/-- Control characters may not stand in a string as they are. -/
def isControl (c : Char) : Bool := c.toNat < 0x20

/-- A character as it is written in a string. -/
def encodeChar (c : Char) : List Char :=
  match shortEscape? c with
  | some letter => ['\\', letter]
  | none =>
    if isControl c then
      ['\\', 'u', '0', '0', Nat.digitChar (c.toNat / 16), Nat.digitChar (c.toNat % 16)]
    else [c]

/-- A text as it is written between quotes. -/
def encode (cs : List Char) : List Char := cs.flatMap encodeChar

/-- The value of a hexadecimal digit. -/
def hexDigit? (c : Char) : Option Nat :=
  if '0' ≤ c ∧ c ≤ '9' then some (c.toNat - '0'.toNat)
  else if 'a' ≤ c ∧ c ≤ 'f' then some (c.toNat - 'a'.toNat + 10)
  else if 'A' ≤ c ∧ c ≤ 'F' then some (c.toNat - 'A'.toNat + 10)
  else none

/-- The value of four hexadecimal digits. -/
def hexValue? (a b c d : Char) : Option Nat := do
  let a ← hexDigit? a
  let b ← hexDigit? b
  let c ← hexDigit? c
  let d ← hexDigit? d
  return ((16 * a + b) * 16 + c) * 16 + d

/-- The first halves of surrogate pairs. -/
def isHighSurrogate (n : Nat) : Bool := 0xD800 ≤ n && n < 0xDC00

/-- The second halves of surrogate pairs. -/
def isLowSurrogate (n : Nat) : Bool := 0xDC00 ≤ n && n < 0xE000

/-- What one escape or one character stands for: a character, or a number written in hexadecimal. -/
inductive Piece where
  | char (c : Char)
  | code (n : Nat)
deriving Repr, DecidableEq

/-- The pieces of a text between quotes. -/
def pieces? : List Char → Option (List Piece)
  | [] => some []
  | c :: cs =>
    if c = '\\' then
      match cs with
      | [] => none
      | letter :: cs =>
        if letter = 'u' then
          match cs with
          | a :: b :: c :: d :: cs =>
            match hexValue? a b c d with
            | some n => (pieces? cs).map (.code n :: ·)
            | none => none
          | _ => none
        else
          match shortEscaped? letter with
          | some c => (pieces? cs).map (.char c :: ·)
          | none => none
    else if isControl c then none
    else (pieces? cs).map (.char c :: ·)

/-- The character of a pair of surrogates. -/
def surrogatePair (high low : Nat) : Char :=
  Char.ofNat (0x10000 + (high - 0xD800) * 0x400 + (low - 0xDC00))

/-- The text of pieces, with the pairs of surrogates joined. -/
def joinPieces? : List Piece → Option (List Char)
  | [] => some []
  | .char c :: pieces => (joinPieces? pieces).map (c :: ·)
  | .code high :: pieces =>
    if isLowSurrogate high then none
    else if isHighSurrogate high then
      match pieces with
      | .code low :: pieces =>
        if isLowSurrogate low then (joinPieces? pieces).map (surrogatePair high low :: ·) else none
      | _ => none
    else (joinPieces? pieces).map (Char.ofNat high :: ·)

/-- **The text that is written between quotes.** -/
def decode? (written : List Char) : Option (List Char) := (pieces? written).bind joinPieces?

/-- Puts characters in front of what was scanned. -/
def prepend (front : List Char) (scanned : List Char × List Char) : List Char × List Char :=
  (front ++ scanned.1, scanned.2)

/-- The text up to the next quote, as it is written, and the text behind that quote. -/
def scan? : List Char → Option (List Char × List Char)
  | [] => none
  | c :: cs =>
    if c = '"' then some ([], cs)
    else if c = '\\' then
      match cs with
      | [] => none
      | letter :: cs =>
        if letter = 'u' then
          match cs with
          | a :: b :: c :: d :: cs =>
            if (hexValue? a b c d).isSome then
              (scan? cs).map (prepend ['\\', 'u', a, b, c, d])
            else none
          | _ => none
        else if (shortEscaped? letter).isSome then (scan? cs).map (prepend ['\\', letter])
        else none
    else if isControl c then none
    else (scan? cs).map (prepend [c])

example : decode? (encode ['"', '\n', '\x01', 'é']) = some ['"', '\n', '\x01', 'é'] := by decide +kernel

example : decode? "\\ud834\\udd1e".toList = some ['𝄞'] := by decide +kernel

example : decode? "\\ud834x".toList = none := by decide +kernel

end Harmony.Json
