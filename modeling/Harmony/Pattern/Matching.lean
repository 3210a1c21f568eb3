import Harmony.Pattern.Basic

/-! # Where a pattern matches

A `Cursor` is a place in a text: the rest of the text behind it, and whether it is the start.

* `Pattern.ends`: the places where a match that begins at the cursor may end.
* `Pattern.occursIn`: does the pattern match somewhere in the text? -/

namespace Harmony

/-- A place in a text. -/
structure Cursor where
  /-- Is nothing of the text before the place? -/
  atStart : Bool
  /-- The text behind the place. -/
  rest : List Char
deriving Repr, DecidableEq

namespace Pattern

/-- The places behind any number of accepted characters. -/
def runEnds (accepts : Char → Bool) : Bool → List Char → List Cursor
  | atStart, [] => [⟨atStart, []⟩]
  | atStart, c :: cs => ⟨atStart, c :: cs⟩ :: if accepts c then runEnds accepts false cs else []

/-- **The places where a match may end**, for one that begins at the cursor. -/
def ends : Pattern → Casing → Cursor → List Cursor
  | .empty, _, cursor => [cursor]
  | .one cls, casing, cursor =>
    match cursor.rest with
    | [] => []
    | c :: cs => if cls.accepts casing c then [⟨false, cs⟩] else []
  | .many cls, casing, cursor => runEnds (cls.accepts casing) cursor.atStart cursor.rest
  | .opt p, casing, cursor => cursor :: p.ends casing cursor
  | .seq p q, casing, cursor => (p.ends casing cursor).flatMap (q.ends casing)
  | .alt p q, casing, cursor => p.ends casing cursor ++ q.ends casing cursor
  | .group .exact p, _, cursor => p.ends .exact cursor
  | .group .numbered p, casing, cursor => p.ends casing cursor
  | .group .plain p, casing, cursor => p.ends casing cursor
  | .start, _, cursor => if cursor.atStart then [cursor] else []
  | .stop, _, cursor => if cursor.rest.isEmpty then [cursor] else []

/-- Does the pattern match at the cursor? -/
def matchesAt (p : Pattern) (cursor : Cursor) : Bool := !(p.ends .folded cursor).isEmpty

/-- Does the pattern match at some place from here on? -/
def occursFrom (p : Pattern) : Bool → List Char → Bool
  | atStart, [] => p.matchesAt ⟨atStart, []⟩
  | atStart, c :: cs => p.matchesAt ⟨atStart, c :: cs⟩ || p.occursFrom false cs

/-- **Does the pattern match somewhere in the text?** -/
def occursIn (p : Pattern) (text : List Char) : Bool := p.occursFrom true text

example : (seqOf [.start, word "m", oneOf [nonLetter, .stop]]).occursIn "M7".toList = true := by
  decide +kernel

example : (exactly 'M').occursIn "maj".toList = false := by decide +kernel

end Pattern

end Harmony
