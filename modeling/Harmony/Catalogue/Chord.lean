import Harmony.Registry

/-! # The chord rules

The order is precedence: every rule that fires applies, from first to last, and a later rule
overwrites what an earlier one wrote at the same degree. So general rules (`Add Seventh`) stand above
those that refine them (`Major Seventh`), and omissions below the additions they undo.

A quality word begins the modifier or follows a character that is no letter; so the `m` of `dim7` is
no minor. Major qualities may also follow a minor word directly, as in `mM7`. A single `M` is major
and a single `m` is minor; words may be written in any case. -/

namespace Harmony.Catalogue

open Pattern

/-! ### Words -/

/-- `M`, `maj` or `major`. -/
def majorWords : List Pattern := [exactly 'M', word "maj", word "major"]

/-- `m`, `min` or `minor`. -/
def minorWords : List Pattern := [exactly 'm', word "min", word "minor"]

/-- The words of a major seventh, `Δ` included. -/
def majorSigns : Pattern := oneOf (majorWords ++ [word "Δ"])

/-- The words of a minor quality. -/
def minorSigns : Pattern := oneOf minorWords

/-- The words of a diminished quality. -/
def diminishedSigns : Pattern := oneOf [word "°", word "dim", word "diminished"]

/-- A plus sign. -/
def plus : Pattern := .one (.escaped '+')

/-- The words of an augmented quality. -/
def augmentedSigns : Pattern := oneOf [plus, word "aug", word "augmented"]

/-- The start of the modifier or a character that is no letter. -/
def wordStart : Pattern := oneOf [.start, nonLetter]

/-- A character that is no letter or the end of the modifier. -/
def wordEnd : Pattern := oneOf [nonLetter, .stop]

/-- What may stand before a dominant word: not a letter, a bang or a hyphen, so that `nondominant` is
not dominant. -/
def dominantStart : Pattern := oneOf [.start, .one (.excluding [⟨'a', 'z'⟩, ⟨'!', '!'⟩, ⟨'-', '-'⟩])]

/-- What may stand before a major quality: no letter, or a minor word. -/
def majorStart : Pattern := oneOf ([.start, nonLetter] ++ minorWords)

/-! ### Triggers -/

/-- A number after an omitting word, `no5` or `-5`. -/
def omitted (number : String) : Pattern :=
  seqOf [oneOf [seqOf [word "omit", blanks], seqOf [word "no", blanks], word "-"], word number]

/-- A dominant quality with its number. -/
def dominant (number : String) : Pattern :=
  seqOf [dominantStart, oneOf [word "dom", word "dominant"], blanks, word number]

/-- A major quality with its number. -/
def major (number : String) : Pattern := seqOf [majorStart, majorSigns, blanks, word number]

/-- A minor quality with its number. -/
def minor (number : String) : Pattern := seqOf [wordStart, minorSigns, blanks, word number]

/-! ### Rules -/

/-- A chord rule. -/
def chordRule (name : String) (p : Pattern) (effects : List Effect) : Rule Pattern :=
  ⟨name, .chord, .pattern p, effects⟩

/-- The rules of triads. -/
def triadRules : List (Rule Pattern) := [
  ⟨"Basic", .chord, .always, [.add 1 0, .add 3 4, .add 5 7]⟩,
  chordRule "Nondominant"
    (seqOf [oneOf [seqOf [word "non", .opt (.one (.char '-')), blanks], word "!"], word "dom",
      optionally "inant"])
    [.omit 1],
  chordRule "Major Triad" (seqOf [.start, oneOf majorWords, wordEnd]) [.add 3 4, .add 5 7],
  chordRule "Minor Triad"
    (seqOf [.start, minorSigns, oneOf [nonLetter, exactly 'M', word "maj", .stop]])
    [.add 3 3, .add 5 7],
  chordRule "Augmented Triad" (seqOf [.start, augmentedSigns]) [.add 3 4, .add 5 8],
  chordRule "Diminished Triad" (seqOf [.start, diminishedSigns]) [.add 3 3, .add 5 6],
  chordRule "Suspended Triad" (seqOf [word "sus", optionally "pended"])
    [.omit 3, .add 4 5, .add 5 7]]

/-- The rules of the fifth and the sixth. -/
def sixthRules : List (Rule Pattern) := [
  chordRule "Omit Fifth" (omitted "5") [.omit 5],
  chordRule "Flat Fifth"
    (seqOf [oneOf [word "b", word "♭", seqOf [word "flat", blanks]], word "5"]) [.alter 5 (-1)],
  chordRule "Add Sixth" (word "6") [.add 6 9],
  chordRule "Augmented Sixth"
    (seqOf [oneOf [plus, word "aug", word "augmented", word "#", word "♯"], blanks, word "6"])
    [.add 6 10],
  chordRule "Omit Sixth" (omitted "6") [.omit 6]]

/-- The rules of the seventh. -/
def seventhRules : List (Rule Pattern) := [
  chordRule "Add Seventh" (word "7") [.add 7 10],
  chordRule "Dominant Seventh" (dominant "7") [.add 7 10],
  chordRule "Major Seventh" (major "7") [.add 7 11],
  chordRule "Minor Seventh" (minor "7") [.add 7 10],
  chordRule "Diminished Seventh" (seqOf [diminishedSigns, blanks, word "7"]) [.add 7 9],
  chordRule "Half Diminished Seventh"
    (seqOf [oneOf [word "ø", seqOf [word "half", blanks, word "dim", optionally "inished"]], blanks,
      word "7"])
    [.add 3 3, .add 5 6, .add 7 10],
  chordRule "Diminished Major Seventh"
    (seqOf [diminishedSigns, blanks, majorSigns, blanks, word "7"]) [.add 3 3, .add 5 6, .add 7 11],
  chordRule "Augmented Major Seventh"
    (seqOf [augmentedSigns, blanks, majorSigns, blanks, word "7"]) [.add 3 4, .add 5 8, .add 7 11],
  chordRule "Augmented Minor Seventh"
    (seqOf [augmentedSigns, blanks, minorSigns, blanks, word "7"]) [.add 3 4, .add 5 8, .add 7 10],
  chordRule "Harmonic Seventh" (seqOf [word "harm", optionally "onic", blanks, word "7"])
    [.add 7 10],
  chordRule "Omit Seventh" (omitted "7") [.omit 7]]

/-- The rules of the ninth. -/
def ninthRules : List (Rule Pattern) := [
  chordRule "Add Ninth" (word "9") [.add 9 14],
  chordRule "Dominant Ninth" (dominant "9") [.add 7 10, .add 9 14],
  chordRule "Major Ninth" (major "9") [.add 7 11, .add 9 14],
  chordRule "Minor Ninth" (minor "9") [.add 3 3, .add 7 10, .add 9 14],
  chordRule "Sharp Ninth"
    (seqOf [oneOf [word "#", word "♯", seqOf [word "sharp", blanks]], word "9"]) [.add 9 15],
  chordRule "Omit Ninth" (omitted "9") [.omit 9]]

/-- The rules of the eleventh. -/
def eleventhRules : List (Rule Pattern) := [
  chordRule "Add Eleventh" (word "11") [.add 11 17],
  chordRule "Dominant Eleventh" (dominant "11") [.add 7 10, .add 9 14, .add 11 17],
  chordRule "Major Eleventh" (major "11") [.add 7 11, .add 9 14, .add 11 17],
  chordRule "Minor Eleventh" (minor "11") [.add 3 3, .add 7 10, .add 9 14, .add 11 17],
  chordRule "Omit Eleventh" (omitted "11") [.omit 11]]

/-- The rules of the thirteenth. -/
def thirteenthRules : List (Rule Pattern) := [
  chordRule "Add Thirteenth" (word "13") [.add 13 21],
  chordRule "Dominant Thirteenth" (dominant "13") [.add 7 10, .add 9 14, .add 11 17, .add 13 21],
  chordRule "Major Thirteenth" (major "13") [.add 7 11, .add 9 14, .add 11 17, .add 13 21],
  chordRule "Minor Thirteenth" (minor "13")
    [.add 3 3, .add 7 10, .add 9 14, .add 11 17, .add 13 21]]

/-- **The chord rules**, in order of precedence. -/
def chords : Registry Pattern :=
  ⟨.chord, triadRules ++ sixthRules ++ seventhRules ++ ninthRules ++ eleventhRules ++ thirteenthRules⟩

end Harmony.Catalogue
