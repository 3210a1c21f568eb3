import Harmony.Text.Blank
import Harmony.Text.CaseFold

/-! # Patterns

A small language of text patterns. Letters are matched without regard to case, by simple case
folding, except in a group that asks for the exact case.

* `CharClass`: what one character may be. `CharClass.accepts` decides it.
* `Pattern`: sequences, choices, options, runs of one class, groups and the two ends of the text.
* `Pattern.source`: the pattern as it is written.
* `Pattern.seqOf`, `Pattern.altOf`, `Pattern.word`, …: patterns put together from parts. -/

namespace Harmony

/-- Is the case of a letter told apart? -/
inductive Casing where
  /-- A letter stands for all its variants. -/
  | folded
  /-- A letter stands for itself. -/
  | exact
deriving Repr, DecidableEq

/-- The characters from `first` to `last`. -/
structure CharRange where
  first : Char
  last : Char
deriving Repr, DecidableEq

/-- Does the range hold the character? -/
def CharRange.holds (range : CharRange) (c : Char) : Bool := range.first ≤ c && c ≤ range.last

/-- A range as it is written. -/
def CharRange.source (range : CharRange) : List Char :=
  if range.first = range.last then [range.first] else [range.first, '-', range.last]

/-- What one character may be. -/
inductive CharClass where
  /-- The given character. -/
  | char (c : Char)
  /-- The given character, which has another meaning without a backslash. -/
  | escaped (c : Char)
  /-- A blank. -/
  | blank
  /-- Any character outside the ranges, and, where case is folded, with no variant in them. -/
  | excluding (ranges : List CharRange)
deriving Repr, DecidableEq

namespace CharClass

/-- **May the character stand here?** -/
def accepts : CharClass → Casing → Char → Bool
  | .char c, .folded, x => Text.sameLetter c x
  | .char c, .exact, x => c == x
  | .escaped c, .folded, x => Text.sameLetter c x
  | .escaped c, .exact, x => c == x
  | .blank, _, x => Text.isBlank x
  | .excluding ranges, .folded, x => !(Text.variants x).any fun y => ranges.any (·.holds y)
  | .excluding ranges, .exact, x => !ranges.any (·.holds x)

/-- A class as it is written. -/
def source : CharClass → List Char
  | .char c => [c]
  | .escaped c => ['\\', c]
  | .blank => ['\\', 's']
  | .excluding ranges => '[' :: '^' :: ranges.flatMap (·.source) ++ [']']

end CharClass

/-- The kinds of groups. -/
inductive GroupKind where
  /-- `(…)` -/
  | numbered
  /-- `(?:…)` -/
  | plain
  /-- `(?-i:…)`, in which case is told apart -/
  | exact
deriving Repr, DecidableEq

/-- The bracket that opens a group. -/
def GroupKind.opening : GroupKind → List Char
  | .numbered => ['(']
  | .plain => ['(', '?', ':']
  | .exact => ['(', '?', '-', 'i', ':']

/-- A pattern. -/
inductive Pattern where
  /-- The empty text. -/
  | empty
  /-- One character. -/
  | one (cls : CharClass)
  /-- Any number of characters of one class. -/
  | many (cls : CharClass)
  /-- The pattern or nothing. -/
  | opt (p : Pattern)
  /-- The first pattern and the second behind it. -/
  | seq (p q : Pattern)
  /-- Either pattern. -/
  | alt (p q : Pattern)
  /-- A pattern in brackets. -/
  | group (kind : GroupKind) (p : Pattern)
  /-- The start of the text. -/
  | start
  /-- The end of the text. -/
  | stop
deriving Repr, DecidableEq

namespace Pattern

/-- A pattern as it is written. -/
def sourceChars : Pattern → List Char
  | .empty => []
  | .one cls => cls.source
  | .many cls => cls.source ++ ['*']
  | .opt p => p.sourceChars ++ ['?']
  | .seq p q => p.sourceChars ++ q.sourceChars
  | .alt p q => p.sourceChars ++ '|' :: q.sourceChars
  | .group kind p => kind.opening ++ p.sourceChars ++ [')']
  | .start => ['^']
  | .stop => ['$']

/-- A pattern as it is written. -/
def source (p : Pattern) : String := String.ofList p.sourceChars

/-! ### Patterns from parts -/

/-- One pattern behind the other. -/
def seqOf : List Pattern → Pattern
  | [] => .empty
  | [p] => p
  | p :: ps => .seq p (seqOf ps)

/-- A choice of patterns. -/
def altOf : List Pattern → Pattern
  | [] => .empty
  | [p] => p
  | p :: ps => .alt p (altOf ps)

/-- A choice of patterns, in brackets. -/
def oneOf (ps : List Pattern) : Pattern := .group .plain (altOf ps)

/-- The letters of a text, in any case. -/
def word (text : String) : Pattern := seqOf (text.toList.map fun c => .one (.char c))

/-- A letter in the given case only. -/
def exactly (c : Char) : Pattern := .group .exact (.one (.char c))

/-- A word that may be left out. -/
def optionally (text : String) : Pattern := .opt (.group .plain (word text))

/-- Any number of blanks. -/
def blanks : Pattern := .many .blank

/-- A character that is no letter of the Latin alphabet. -/
def nonLetter : Pattern := .one (.excluding [⟨'a', 'z'⟩])

end Pattern

end Harmony
