import Harmony.Catalogue.Chord

/-! # The scale rules

Every mode replaces the whole tone set, so of several modes that fire the last one counts. A mode
whose name contains that of another stands below it: `Melodic Minor Descend` below
`Melodic Minor Ascend` below `Minor`, and `Mixolydian` below `Lydian`.

A minor word ends where no letter follows, so the `m` of `harmonic major` is no minor. -/

namespace Harmony.Catalogue

open Pattern

/-! ### Intervals -/

/-- The major scale. -/
def ionian : List Int := [0, 2, 4, 5, 7, 9, 11]

/-- The natural minor scale. -/
def aeolian : List Int := [0, 2, 3, 5, 7, 8, 10]

/-! ### Triggers -/

/-- A minor word at the end of a word. -/
def minorEnd : List Pattern := [minorSigns, wordEnd]

/-- The words of the natural, melodic and harmonic kinds, with the ending that may be left out. -/
def kindOf (short ending : String) : List Pattern := [word short, optionally ending, blanks]

/-! ### Rules -/

/-- A scale rule. -/
def scaleRule (name : String) (p : Pattern) (intervals : List Int) : Rule Pattern :=
  ⟨name, .scale, .pattern p, [.replace intervals]⟩

/-- The name of the mode of a scale without a mode. -/
def defaultMode : String := "Default (Major)"

/-- The rules of major, minor and their kin. -/
def majorMinorRules : List (Rule Pattern) := [
  ⟨defaultMode, .scale, .always, [.replace ionian]⟩,
  scaleRule "Minor" (seqOf (wordStart :: minorEnd)) aeolian,
  scaleRule "Major" (seqOf [wordStart, oneOf majorWords, wordEnd]) ionian,
  scaleRule "Natural Minor" (seqOf (kindOf "nat" "ural" ++ minorEnd)) aeolian,
  scaleRule "Diminished" (seqOf [wordStart, diminishedSigns]) [0, 2, 3, 5, 6, 8, 9, 11],
  scaleRule "Augmented" (seqOf [wordStart, augmentedSigns]) [0, 3, 4, 7, 8, 11],
  scaleRule "Melodic Minor Ascend" (seqOf (kindOf "mel" "odic" ++ minorEnd))
    [0, 2, 3, 5, 7, 9, 11],
  scaleRule "Melodic Minor Descend"
    (seqOf (kindOf "mel" "odic" ++ minorEnd ++
      [blanks, word "desc", .opt (.group .plain (seqOf [word "end", optionally "ing"]))]))
    aeolian,
  scaleRule "Harmonic Minor" (seqOf (kindOf "harm" "onic" ++ minorEnd)) [0, 2, 3, 5, 7, 8, 11]]

/-- The rules of the modes with names of their own. -/
def modeRules : List (Rule Pattern) := [
  scaleRule "Ionian" (word "ionian") ionian,
  scaleRule "Dorian" (word "dorian") [0, 2, 3, 5, 7, 9, 10],
  scaleRule "Phrygian" (word "phrygian") [0, 1, 3, 5, 7, 8, 10],
  scaleRule "Lydian" (word "lydian") [0, 2, 4, 6, 7, 9, 11],
  scaleRule "Mixolydian" (word "mixolydian") [0, 2, 4, 5, 7, 9, 10],
  scaleRule "Aeolian" (word "aeolian") aeolian,
  scaleRule "Locrian" (word "locrian") [0, 1, 3, 5, 6, 8, 10]]

/-- **The scale rules**, in order of precedence. -/
def scales : Registry Pattern := ⟨.scale, majorMinorRules ++ modeRules⟩

/-- The built-in rules of a kind. -/
def rulesOf : RuleKind → Registry Pattern
  | .chord => chords
  | .scale => scales

end Harmony.Catalogue
