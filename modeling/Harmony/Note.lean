import Harmony.Error
import Harmony.PitchClass
import Harmony.Text.Blank

/-! # Notes

A note is a letter `A` to `G` and at most one accidental. Only upper-case letters are note letters,
so a lower-case `b` behind one is always a flat.

* `Note.semitone`: the semitones above C of the same octave, not reduced: `Cb` lies below `C`.
* `Note.read?`: the note at the front of a text, behind blanks, and the text behind it.
* `parseRoot`: the same, with the error of a name that has no root. -/

namespace Harmony

/-- The note letters. -/
inductive Letter where
  | A | B | C | D | E | F | G
deriving Repr, DecidableEq

namespace Letter

/-- The letter as a character. -/
def toChar : Letter → Char
  | A => 'A'
  | B => 'B'
  | C => 'C'
  | D => 'D'
  | E => 'E'
  | F => 'F'
  | G => 'G'

/-- The letter that a character is. -/
def ofChar? : Char → Option Letter
  | 'A' => some A
  | 'B' => some B
  | 'C' => some C
  | 'D' => some D
  | 'E' => some E
  | 'F' => some F
  | 'G' => some G
  | _ => none

/-- The semitones of the letter above C. -/
def semitone : Letter → Int
  | C => 0
  | D => 2
  | E => 4
  | F => 5
  | G => 7
  | A => 9
  | B => 11

theorem ofChar?_toChar (l : Letter) : ofChar? l.toChar = some l := by cases l <;> rfl

theorem toChar_of_ofChar? {c : Char} {l : Letter} (h : ofChar? c = some l) : l.toChar = c := by
  unfold ofChar? at h
  split at h <;> simp at h <;> subst h <;> rfl

end Letter

/-- The sign behind a note letter. -/
inductive Accidental where
  | natural
  | sharp
  | flat
deriving Repr, DecidableEq

namespace Accidental

/-- The accidental that a character stands for. -/
def ofChar? : Char → Option Accidental
  | '#' => some sharp
  | '♯' => some sharp
  | 'b' => some flat
  | '♭' => some flat
  | _ => none

/-- The semitones by which the accidental moves its letter. -/
def offset : Accidental → Int
  | natural => 0
  | sharp => 1
  | flat => -1

/-- The accidental in plain characters. -/
def display : Accidental → List Char
  | natural => []
  | sharp => ['#']
  | flat => ['b']

end Accidental

/-- A written note. -/
structure Note where
  letter : Letter
  accidental : Accidental
deriving Repr, DecidableEq

namespace Note

/-- The semitones above C of the same octave, not reduced: `Cb` is -1 and `B#` is 12. -/
def semitone (note : Note) : Int := note.letter.semitone + note.accidental.offset

/-- The pitch class that sounds. -/
def pitchClass (note : Note) : PitchClass := .ofInt note.semitone

/-- The spelling that a root suggests: flats for a flat, sharps for all others. -/
def spelling (note : Note) : Spelling :=
  match note.accidental with
  | .flat => .flat
  | .natural | .sharp => .sharp

/-- The characters of a note. -/
def chars (note : Note) : List Char := note.letter.toChar :: note.accidental.display

/-- The text of a note. -/
def display (note : Note) : String := String.ofList note.chars

/-- The accidental at the front of a text, and the text behind it. -/
def readAccidental : List Char → Accidental × List Char
  | [] => (.natural, [])
  | c :: cs =>
    match Accidental.ofChar? c with
    | some accidental => (accidental, cs)
    | none => (.natural, c :: cs)

/-- **The longest note at the front of a text**, behind blanks, and the text behind it. -/
def read? (cs : List Char) : Option (Note × List Char) :=
  match Text.trimStart cs with
  | [] => none
  | c :: cs =>
    (Letter.ofChar? c).map fun letter =>
      let (accidental, rest) := readAccidental cs
      (⟨letter, accidental⟩, rest)

end Note

/-- The root of a name and the text behind it. -/
def parseRoot (text : String) : Except ResolveError (Note × String) :=
  match Note.read? text.toList with
  | some (note, rest) => .ok (note, String.ofList rest)
  | none => .error (.invalidRoot text)

example : parseRoot " C#m7" = .ok (⟨.C, .sharp⟩, "m7") := by rfl

example : parseRoot "H7" = .error (.invalidRoot "H7") := by rfl

end Harmony
