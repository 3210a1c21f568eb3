import Harmony.Catalogue.Chord
import Harmony.Chain
import Harmony.Name
import Harmony.Options

/-! # Chords

A chord is the result of the chord rules on the modifier of its name. `Chord.resolve` fails only if
the name has no root; its value is `Chord.ofName`. -/

namespace Harmony

/-- A chord resolved from its name. -/
structure Chord where
  /-- The name as given. -/
  name : String
  root : PitchClass
  spelling : Spelling
  tones : ToneSet
  /-- The names of the rules that fired, in order. -/
  rules : List String
deriving Repr, DecidableEq

namespace Chord

/-- The name of the root. -/
def rootName (chord : Chord) : String := chord.root.name chord.spelling

/-- The name of the note at every degree. -/
def noteNames (chord : Chord) : DegreeMap String := chord.tones.noteNames chord.spelling

/-- The record of a resolved chord. -/
def record (name : String) (parsed : ParsedName) (output : ChainOutput) : LogRecord :=
  ⟨.debug, .chord, "chord '" ++ name ++ "': root " ++ parsed.root.display ++ ", minor marker " ++
    (if parsed.minor then "true" else "false") ++ ", " ++ output.applied.length.repr ++
    " rule(s), " ++ output.tones.size.repr ++ " tone(s)"⟩

/-- **The chord of a name**, with the records of its resolution. -/
def resolve (name : String) (options : ResolveOptions) : Traced (Except ResolveError Chord) :=
  match tokenize name with
  | .error e => .quiet (.error e)
  | .ok parsed =>
    let root := parsed.root.pitchClass
    (Catalogue.chords.run root parsed.modifier).andThen fun output =>
      .note (record name parsed output)
        (.ok ⟨name, root, options.spellingFor parsed.root, output.tones, output.applied⟩)

/-- The chord of a name. -/
def ofName (name : String) (options : ResolveOptions) : Except ResolveError Chord :=
  (resolve name options).value

end Chord

end Harmony
