import Harmony.Pitch
import Harmony.Proofs.Decimal

/-! # Numbers of notes

The number of a note is reached in steps, and every step has to stay in the range of 32-bit integers.
One of them is the number of the C of the octave. It is in the range wherever the number of the note is,
with one exception: the range begins in the middle of an octave, between its D# and its E, and of this
octave no note has a number.

* `exactNumber`: the number of a note in whole numbers of any size.
* `cutOctave`: the octave in which the range begins.
* `midiNumber_eq_some_iff`: the notes that have a number. -/

namespace Harmony.Pitch

open Decimal

variable {note : Note} {octave n : Int}

/-- The number of a note in an octave, in whole numbers of any size. -/
def exactNumber (note : Note) (octave : Int) : Int := (octave + 1) * 12 + note.semitone

/-- The octave whose C lies below the range of 32-bit integers and whose B lies in it: its C would have
the number -2147483652. -/
def cutOctave : Int := -178956972

/-- A note lies in its octave, or a semitone outside. -/
theorem semitone_bounds (note : Note) : -1 ≤ note.semitone ∧ note.semitone ≤ 12 := by
  obtain ⟨letter, accidental⟩ := note
  cases letter <;> cases accidental <;> decide

/-- All steps to a number stay in the range. -/
theorem midiNumber_eq_some_iff_steps : midiNumber note octave = some n ↔
    InWord (octave + 1) ∧ InWord ((octave + 1) * 12) ∧ InWord n ∧ exactNumber note octave = n := by
  unfold midiNumber exactNumber
  simp only [Option.bind_eq_bind, Option.bind_eq_some_iff, word?_eq_some_iff]
  constructor
  · rintro ⟨octaves, ⟨hoctaves, rfl⟩, semitones, ⟨hsemitones, rfl⟩, hword, rfl⟩
    exact ⟨hoctaves, hsemitones, hword, rfl⟩
  · rintro ⟨hoctaves, hsemitones, hword, rfl⟩
    exact ⟨_, ⟨hoctaves, rfl⟩, _, ⟨hsemitones, rfl⟩, hword, rfl⟩

/-- **The C of the octave** is in the range with every note of the octave, but in one octave. -/
theorem inWord_steps_iff (h : InWord (exactNumber note octave)) :
    InWord (octave + 1) ∧ InWord ((octave + 1) * 12) ↔ octave ≠ cutOctave := by
  have hbounds := semitone_bounds note
  unfold InWord exactNumber at *
  unfold cutOctave
  omega

theorem exactNumber_emod (note : Note) (octave : Int) :
    exactNumber note octave % 12 = note.pitchClass.value := by
  have hvalue : (note.pitchClass.value : Int) = note.semitone % 12 := PitchClass.value_ofInt _
  unfold exactNumber
  omega

/-- **The notes that have a number** are those whose number is in the range, but for the octave in which
the range begins. The number sounds as the note. -/
theorem midiNumber_eq_some_iff (note : Note) (octave : Int) :
    (∀ n, midiNumber note octave = some n ↔
      InWord (exactNumber note octave) ∧ octave ≠ cutOctave ∧ n = exactNumber note octave) ∧
    exactNumber note octave % 12 = note.pitchClass.value ∧
    (InWord (exactNumber note cutOctave) ↔ 4 ≤ note.semitone) := by
  refine ⟨fun n => ?_, exactNumber_emod note octave, ?_⟩
  · rw [midiNumber_eq_some_iff_steps]
    constructor
    · rintro ⟨hoctaves, hsemitones, hword, rfl⟩
      exact ⟨hword, (inWord_steps_iff hword).mp ⟨hoctaves, hsemitones⟩, rfl⟩
    · rintro ⟨hword, hcut, rfl⟩
      obtain ⟨hoctaves, hsemitones⟩ := (inWord_steps_iff hword).mpr hcut
      exact ⟨hoctaves, hsemitones, hword, rfl⟩
  · have hbounds := semitone_bounds note
    unfold InWord exactNumber cutOctave
    omega

/-- The G of the octave in which the range begins has no number, though its number is in the range. -/
theorem midiNumber_of_cutOctave : InWord cutOctave ∧
    ¬ ∀ n, midiNumber ⟨.G, .natural⟩ cutOctave = some n ↔
      InWord (exactNumber ⟨.G, .natural⟩ cutOctave) ∧ n = exactNumber ⟨.G, .natural⟩ cutOctave := by
  refine ⟨by decide, fun h => ?_⟩
  have hsome := (h (exactNumber ⟨.G, .natural⟩ cutOctave)).mpr ⟨by decide, rfl⟩
  have hnone : midiNumber ⟨.G, .natural⟩ cutOctave = none := by decide
  rw [hnone] at hsome
  cases hsome

end Harmony.Pitch
