import Harmony.Note
import Harmony.Text.Alphabetic

/-! # Names

A name of a chord, a scale or a key is a root and a *modifier*, the text behind the root without the
blanks around it. The modifier is not cut any further: every rule looks for its own words in it, and
several may read the same characters.

* `hasMinorMarker`: does the text behind a root begin with the `m` of a minor quality?
* `tokenize`: the parts of a name. -/

namespace Harmony

/-- The parts of a name. -/
structure ParsedName where
  /-- The root as written. -/
  root : Note
  /-- A lower-case `m` directly behind the root that does not begin a longer word. -/
  minor : Bool
  /-- All text behind the root, trimmed, the minor marker included. -/
  modifier : String
deriving Repr, DecidableEq

/-- May the character follow the minor marker? A letter makes the `m` part of a word, but the major
qualities `M` and `Δ` may stand directly behind it. -/
def endsMinorMarker (c : Char) : Bool := !Text.isAlphabetic c || c == 'M' || c == 'Δ'

/-- Does the text begin with the minor marker? -/
def hasMinorMarker : List Char → Bool
  | ['m'] => true
  | 'm' :: c :: _ => endsMinorMarker c
  | _ => false

/-- **The parts of a name.** -/
def tokenize (name : String) : Except ResolveError ParsedName :=
  match Note.read? name.toList with
  | some (root, rest) => .ok ⟨root, hasMinorMarker rest, String.ofList (Text.trim rest)⟩
  | none => .error (.invalidRoot name)

example : tokenize "Cm nondominant -5 679" =
    .ok ⟨⟨.C, .natural⟩, true, "m nondominant -5 679"⟩ := by rfl

example : tokenize "Cmaj7" = .ok ⟨⟨.C, .natural⟩, false, "maj7"⟩ := by rfl

end Harmony
