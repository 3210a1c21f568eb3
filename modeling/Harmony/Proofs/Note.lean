import Harmony.Note

/-! # Notes in front of other text

A note is read as far as it goes, so text behind it is left as it is, unless it begins with a sign that
the note itself lacks. -/

namespace Harmony

/-! ### Accidentals -/

namespace Accidental

/-- The characters that stand for an accidental. -/
def signs : List Char := ['#', '♯', 'b', '♭']

theorem ofChar?_eq_none {c : Char} (hc : c ∉ signs) : ofChar? c = none := by
  unfold ofChar?
  split
  all_goals first | rfl | exact absurd (by decide) hc

/-- What holds of no sign holds of no accidental. -/
theorem ofChar?_eq_none_of_all {P : Char → Bool} (hsigns : signs.all (!P ·) = true) {c : Char}
    (hc : P c = true) : ofChar? c = none := by
  refine ofChar?_eq_none fun hsign => ?_
  have hother := List.all_eq_true.mp hsigns c hsign
  rw [hc] at hother
  cases hother

theorem ofChar?_of_isBlank {c : Char} (hc : Text.isBlank c = true) : ofChar? c = none :=
  ofChar?_eq_none_of_all rfl hc

end Accidental

/-! ### Notes -/

namespace Note

variable {text more rest : List Char} {note : Note}

theorem readAccidental_append {accidental : Accidental}
    (h : readAccidental text = (accidental, rest))
    (hmore : ∀ c ∈ more.head?, Accidental.ofChar? c = none) :
    readAccidental (text ++ more) = (accidental, rest ++ more) := by
  cases text with
  | nil =>
    obtain ⟨rfl, rfl⟩ := Prod.mk.inj h
    cases more with
    | nil => rfl
    | cons c cs => simp [readAccidental, hmore c rfl]
  | cons c cs =>
    simp only [List.cons_append, readAccidental] at h ⊢
    cases hc : Accidental.ofChar? c with
    | none | some sign =>
      rw [hc] at h
      obtain ⟨rfl, rfl⟩ := Prod.mk.inj h
      rfl

/-- **A note in front of more text** is read as it is alone. -/
theorem read?_append (h : read? text = some (note, rest))
    (hmore : ∀ c ∈ more.head?, Accidental.ofChar? c = none) :
    read? (text ++ more) = some (note, rest ++ more) := by
  unfold read? Text.trimStart at h ⊢
  cases htrim : text.dropWhile Text.isBlank with
  | nil =>
    rw [htrim] at h
    cases h
  | cons c cs =>
    have happend : (text ++ more).dropWhile Text.isBlank = c :: (cs ++ more) := by
      rw [List.dropWhile_append, htrim]
      rfl
    rw [htrim] at h
    rw [happend]
    obtain ⟨letter, hletter, hnote⟩ := Option.map_eq_some_iff.mp h
    obtain ⟨rfl, rfl⟩ := Prod.mk.inj hnote
    simp only [hletter, Option.map_some, readAccidental_append rfl hmore]

/-- **The text of a note** is read back. -/
theorem read?_chars (note : Note) : read? note.chars = some (note, []) := by
  obtain ⟨letter, accidental⟩ := note
  cases letter <;> cases accidental <;> rfl

theorem pitchClass_read?_names : ∀ n : Fin 12, ∀ spelling ∈ [Spelling.sharp, .flat],
    (read? (PitchClass.name ⟨n, n.isLt⟩ spelling).toList).map (Prod.map pitchClass id) =
      some (⟨n, n.isLt⟩, []) := by decide

/-- **The name of a pitch class** is read as a note that sounds as the pitch class. -/
theorem read?_name (p : PitchClass) (spelling : Spelling) :
    ∃ note : Note, read? (p.name spelling).toList = some (note, []) ∧ note.pitchClass = p := by
  have hspelling : spelling ∈ [Spelling.sharp, .flat] := by cases spelling <;> decide
  have hread := pitchClass_read?_names ⟨p.value, p.value_lt⟩ spelling hspelling
  obtain ⟨⟨note, rest⟩, hfound, heq⟩ := Option.map_eq_some_iff.mp hread
  obtain ⟨hsounds, hrest⟩ := Prod.mk.inj heq
  have hnil : rest = [] := hrest
  rw [hnil] at hfound
  exact ⟨note, hfound, hsounds⟩

theorem read?_of_parseRoot {text rest : String} (h : parseRoot text = .ok (note, rest)) :
    read? text.toList = some (note, rest.toList) := by
  unfold parseRoot at h
  split at h
  · rename_i read more hread
    obtain ⟨rfl, rfl⟩ := Prod.mk.inj (Except.ok.inj h)
    rw [hread, String.toList_ofList]
  · cases h

end Note
end Harmony
