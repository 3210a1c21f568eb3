import Harmony.Decimal.Integer
import Harmony.Decimal.Text
import Harmony.Note

/-! # Pitch

The frequency of a note in twelve-tone equal temperament.

* `midiNumber`: the number of a note, 60 for C4 and 69 for A4, in the range of 32-bit integers.
* `frequency`: the tuning of A4 times a power of two.
* `ofNote`: the frequency of a note with its octave behind it, `A4`, `C#-1`, `Bb`.
* `ofClassAndOctave`: the frequency of a note in an octave given apart. -/

namespace Harmony

/-- How frequencies are computed. -/
structure PitchOptions where
  /-- The frequency of A4 in Hz. -/
  tuning : Float := 440.0
  /-- The octave of a note written without one. -/
  defaultOctave : Int := 4

namespace Pitch

open Decimal

/-- **The number of a note in an octave.** The octaves are numbered from C, and a note keeps the
octave of its letter, so `Cb4` lies below `C4`. None as soon as a step leaves the range of 32-bit
integers. -/
def midiNumber (note : Note) (octave : Int) : Option Int := do
  let octaves ← word? (octave + 1)
  let semitones ← word? (octaves * 12)
  word? (semitones + note.semitone)

/-- The frequency of a numbered note. -/
def frequency (n : Int) (tuning : Float) : Float :=
  tuning * (2.0 : Float).pow ((Float.ofInt n - 69.0) / 12.0)

/-- Only finite positive tunings have a meaning. -/
def checkTuning (tuning : Float) : Except ResolveError Unit :=
  if tuning.isFinite && decide (0.0 < tuning) then .ok ()
  else .error (.invalidPitch (positionalText tuning) .tuningNotPositive)

/-- The note at the front of a text and the trimmed text behind it. -/
def readNote (text : String) : Except ResolveError (Note × List Char) :=
  match Note.read? text.toList with
  | some (note, rest) => .ok (note, Text.trim rest)
  | none => .error (.invalidPitch text .noNoteLetter)

/-- The octave that a text writes: at most one sign and digits, in the range of 32-bit integers. -/
def octave? (text : List Char) : Option Int := (readInt? text).bind word?

/-- The octave that a part of the input writes. -/
def readOctave (text : List Char) (input : String) : Except ResolveError Int :=
  match octave? text with
  | some octave => .ok octave
  | none => .error (.invalidPitch input (.notAnOctave (String.ofList text)))

/-- The frequency of a note in an octave, both read from the input. -/
def inOctave (note : Note) (octave : Int) (input : String) (tuning : Float) :
    Except ResolveError Float :=
  match midiNumber note octave with
  | some n => .ok (frequency n tuning)
  | none => .error (.invalidPitch input (.octaveOutOfRange octave))

/-- **The frequency of a note with an optional octave behind it.** -/
def ofNote (name : String) (options : PitchOptions) : Except ResolveError Float := do
  checkTuning options.tuning
  let (note, rest) ← readNote name
  let octave ← if rest.isEmpty then .ok options.defaultOctave else readOctave rest name
  inOctave note octave name options.tuning

/-- **The frequency of a note in an octave given apart.** -/
def ofClassAndOctave (name octave : String) (options : PitchOptions) :
    Except ResolveError Float := do
  checkTuning options.tuning
  let (note, rest) ← readNote name
  if rest.isEmpty then
    let number ← readOctave (Text.trim octave.toList) octave
    inOctave note number name options.tuning
  else .error (.invalidPitch name (.trailingText (String.ofList rest)))

end Pitch

end Harmony
