import Harmony.Proofs.Catalogue.ChordShape
import Harmony.Proofs.Chain.Firing

/-! # Sevenths and extended chords

A quality and a number name a chord: its seventh, and all odd degrees above it up to the number. The
chords are listed with their wordings, that is, with all cases of their letters and all blanks between
their words. The rules that refine others stand below them, so on every text of a wording the last word
is theirs.

* `majorWord`, `minorWord`, …: the words of a quality.
* `spelledChords`: wordings and the tones they stand for.
* `get?_execute_of_spelled`: the chord rules give these tones and no others. -/

namespace Harmony.Catalogue

open Wording

/-! ### Words -/

/-- `M`, and `maj` or `major` in any case. -/
def majorWord : Wording → Wording := oneOf (exact "M") [word "maj", word "major"]

/-- The words of a major seventh, `Δ` included. -/
def majorSign : Wording → Wording := oneOf majorWord [exact "Δ"]

/-- `m`, and `min` or `minor` in any case. -/
def minorWord : Wording → Wording := oneOf (exact "m") [word "min", word "minor"]

def dominantWord : Wording → Wording := oneOf (word "dom") [word "dominant"]

/-- `dim` and `diminished`. -/
def diminishedName : Wording → Wording := oneOf (word "dim") [word "diminished"]

def diminishedWord : Wording → Wording := oneOf (exact "°") [diminishedName]

def augmentedWord : Wording → Wording := oneOf (exact "+") [word "aug", word "augmented"]

def harmonicWord : Wording → Wording := oneOf (word "harm") [word "harmonic"]

def digits (number : Nat) (rest : Wording) : Wording :=
  (Nat.toDigits 10 number).foldr (.glyph ∘ .sign) rest

/-! ### Chords -/

structure SpelledChord where
  wording : Wording
  /-- The distances of all tones above the root. -/
  tones : List (Degree × Int)

/-- The tones of a chord up to a degree. From the ninth on they do not depend on the quality. -/
def tonesUpTo (number : Nat) (third seventh : Int) : List (Degree × Int) :=
  let extensions : List (Degree × Int) := [(9, 14), (11, 17), (13, 21)]
  [(3, third), (5, 7), (7, seventh)] ++ extensions.filter (·.1.val ≤ number)

def extendedChords (number : Nat) : List SpelledChord := [
  ⟨ofParts [majorSign, gap, digits number], tonesUpTo number 4 11⟩,
  ⟨ofParts [minorWord, gap, digits number], tonesUpTo number 3 10⟩,
  ⟨ofParts [dominantWord, gap, digits number], tonesUpTo number 4 10⟩,
  ⟨ofParts [minorWord, gap, majorSign, gap, digits number], tonesUpTo number 3 11⟩]

/-- The sevenths of other qualities. -/
def seventhChords : List SpelledChord := [
  ⟨ofParts [diminishedWord, gap, digits 7], [(3, 3), (5, 6), (7, 9)]⟩,
  ⟨ofParts [exact "ø", gap, digits 7], [(3, 3), (5, 6), (7, 10)]⟩,
  ⟨ofParts [word "half", gap, diminishedName, gap, digits 7], [(3, 3), (5, 6), (7, 10)]⟩,
  ⟨ofParts [diminishedWord, gap, majorSign, gap, digits 7], [(3, 3), (5, 6), (7, 11)]⟩,
  ⟨ofParts [augmentedWord, gap, majorSign, gap, digits 7], [(3, 4), (5, 8), (7, 11)]⟩,
  ⟨ofParts [augmentedWord, gap, minorWord, gap, digits 7], [(3, 4), (5, 8), (7, 10)]⟩,
  ⟨ofParts [harmonicWord, gap, digits 7], [(3, 4), (5, 7), (7, 10)]⟩]

/-- **All chords of a quality and a number.** -/
def spelledChords : List SpelledChord := [7, 9, 11, 13].flatMap extendedChords ++ seventhChords

namespace SpelledChord

/-- The distance of a degree above the root. -/
def distance (chord : SpelledChord) (d : Degree) : Option Int :=
  if d = 1 then some 0 else chord.tones.lookup d

/-- Do the rules leave every degree the distance of the chord only, whichever of those that may fire
do? -/
def isSettled (chord : SpelledChord) : Bool :=
  chordDegrees.all fun d => (chords.outcomesOn chord.wording d).all (· == chord.distance d)

end SpelledChord

set_option maxRecDepth 4096 in
theorem isSettled_extendedChords :
    [7, 9, 11, 13].all (fun number => (extendedChords number).all (·.isSettled)) = true := by
  decide

theorem isSettled_seventhChords : seventhChords.all (·.isSettled) = true := by decide

theorem tones_within_chordDegrees :
    spelledChords.all (·.tones.all fun tone => chordDegrees.contains tone.1) = true := by decide

variable {chord : SpelledChord} {modifier : String}

theorem isSettled_of_mem_spelledChords (hchord : chord ∈ spelledChords) : chord.isSettled = true := by
  rcases List.mem_append.mp hchord with hchord | hchord
  · obtain ⟨number, hnumber, hchord⟩ := List.mem_flatMap.mp hchord
    have hall := List.all_eq_true.mp isSettled_extendedChords number hnumber
    exact List.all_eq_true.mp hall chord hchord
  · exact List.all_eq_true.mp isSettled_seventhChords chord hchord

theorem distance_eq_none_of_not_mem_chordDegrees (hchord : chord ∈ spelledChords) {d : Degree}
    (hd : d ∉ chordDegrees) : chord.distance d = none := by
  have hfirst : d ≠ 1 := fun h => hd (h ▸ List.mem_cons_self)
  unfold SpelledChord.distance
  rw [if_neg hfirst, List.lookup_eq_none_iff]
  intro tone htone
  have hall := List.all_eq_true.mp tones_within_chordDegrees chord hchord
  have hmem : tone.1 ∈ chordDegrees := List.contains_iff_mem.mp (List.all_eq_true.mp hall tone htone)
  exact bne_iff_ne.mpr fun h => hd (h ▸ hmem)

/-- **On every text of the wording** the chord rules come to the distances of the chord. -/
theorem distance_of_spelled (hchord : chord ∈ spelledChords)
    (hallows : chord.wording.Allows modifier.toList) (d : Degree) :
    chords.distance modifier d = chord.distance d := by
  by_cases hd : d ∈ chordDegrees
  · have hsettled := List.all_eq_true.mp (isSettled_of_mem_spelledChords hchord) d hd
    have hmem := Registry.distance_mem_outcomesOn hallows nodup_names_chords d
    exact eq_of_beq (List.all_eq_true.mp hsettled _ hmem)
  · rw [distance_of_not_mem_chordDegrees hd, distance_eq_none_of_not_mem_chordDegrees hchord hd]

/-- **The tones of a chord written in any of its ways**: the root, the tones of the chord, and no
others. -/
theorem get?_execute_of_spelled (hchord : chord ∈ spelledChords)
    (hallows : chord.wording.Allows modifier.toList) (root : PitchClass) :
    (chords.execute root modifier).tones.get? 1 = some root ∧
      ∀ d, d ≠ 1 → (chords.execute root modifier).tones.get? d =
        (chord.tones.lookup d).map root.transpose := by
  have htones : ∀ d, (chords.execute root modifier).tones.get? d =
      (chord.distance d).map root.transpose := fun d => by
    rw [get?_execute, distance_of_spelled hchord hallows]
  refine ⟨?_, fun d hd => ?_⟩
  · rw [htones, SpelledChord.distance, if_pos rfl, Option.map_some, root.transpose_zero]
  · rw [htones, SpelledChord.distance, if_neg hd]

theorem get?_execute_of_spelled_minor_major :
    ∃ chord ∈ spelledChords, chord.wording.Allows "MIN \t mAj11".toList ∧
      (chords.execute (.ofInt 2) "MIN \t mAj11").tones.get? 7 = some (.ofInt 1) ∧
      (chords.execute (.ofInt 2) "MIN \t mAj11").tones.get? 13 = none := by
  have hchord : ⟨ofParts [minorWord, gap, majorSign, gap, digits 11], tonesUpTo 11 3 11⟩ ∈
      spelledChords := by simp [spelledChords, extendedChords]
  have hallows : (ofParts [minorWord, gap, majorSign, gap, digits 11]).Allows
      "MIN \t mAj11".toList := by decide +kernel
  obtain ⟨-, htones⟩ := get?_execute_of_spelled hchord hallows (.ofInt 2)
  exact ⟨_, hchord, hallows, htones 7 (by decide), htones 13 (by decide)⟩

end Harmony.Catalogue
