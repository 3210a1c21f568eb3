/-! # Pitch classes

The twelve pitch classes of equal temperament, and their names.

* `PitchClass`: the semitones above C, below twelve.
* `PitchClass.ofInt`: any number of semitones, reduced.
* `transpose` moves a pitch class, `intervalFrom` is the upward distance between two.
* `PitchClass.name`: the name under a `Spelling`, with a sharp or with a flat. -/

namespace Harmony

/-- The way to name the five pitch classes between the letters. -/
inductive Spelling where
  /-- C# D# F# G# A# -/
  | sharp
  /-- Db Eb Gb Ab Bb -/
  | flat
deriving Repr, DecidableEq

/-- A pitch class: 0 is C and 11 is B. -/
structure PitchClass where
  /-- The semitones above C. -/
  value : Nat
  value_lt : value < 12
deriving Repr, DecidableEq

namespace PitchClass

instance : LT PitchClass := ⟨fun p q => p.value < q.value⟩

instance (p q : PitchClass) : Decidable (p < q) := inferInstanceAs (Decidable (p.value < q.value))

/-- The pitch class of any number of semitones above C, reduced modulo twelve. -/
def ofInt (semitones : Int) : PitchClass := ⟨(semitones % 12).toNat, by omega⟩

/-- Moves a pitch class up, or down by a negative number. -/
def transpose (p : PitchClass) (semitones : Int) : PitchClass := ofInt (p.value + semitones)

/-- The semitones from `q` up to `p`. -/
def intervalFrom (p q : PitchClass) : Nat := (p.value + 12 - q.value) % 12

theorem value_ofInt (n : Int) : ((ofInt n).value : Int) = n % 12 := by
  simp only [ofInt]; omega

theorem ext_value {p q : PitchClass} (h : p.value = q.value) : p = q := by
  cases p; cases q; cases h; rfl

/-- The names of the pitch classes from C on, with sharps. -/
def sharpNames : List String := ["C", "C#", "D", "D#", "E", "F", "F#", "G", "G#", "A", "A#", "B"]

/-- The names of the pitch classes from C on, with flats. -/
def flatNames : List String := ["C", "Db", "D", "Eb", "E", "F", "Gb", "G", "Ab", "A", "Bb", "B"]

/-- **The name of a pitch class.** -/
def name (p : PitchClass) : Spelling → String
  | .sharp => sharpNames.get ⟨p.value, p.value_lt⟩
  | .flat => flatNames.get ⟨p.value, p.value_lt⟩

end PitchClass

end Harmony
