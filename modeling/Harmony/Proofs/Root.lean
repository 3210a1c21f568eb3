import Harmony.Proofs.Note
import Harmony.Proofs.Text.Trim
import Mathlib.Data.List.TakeWhile

/-! # Roots

A root is the longest note at the front of a text, behind blanks: a letter and at most one accidental,
in a plain character or in the musical sign. So a text is cut in one way only. The printed root in front
of the rest is cut at the same place again, since behind a note without accidental no accidental
follows.

* `Note.writings`: the ways to write a note.
* `Note.Splits`: a text as blanks, a note and a rest. `Note.read?_eq_some_iff`: notes are read so.
* `HasRoot`: the first character that is no blank is a note letter (`isSome_read?_iff`).
* `RootIsCut`, `rootIsCut_of_text`: what holds of every text. -/

namespace Harmony

/-! ### Ways to write -/

namespace Accidental

/-- The ways to write an accidental. -/
def writings : Accidental → List (List Char)
  | natural => [[]]
  | sharp => [['#'], ['♯']]
  | flat => [['b'], ['♭']]

theorem display_mem_writings (accidental : Accidental) : accidental.display ∈ accidental.writings := by
  cases accidental <;> decide

theorem not_mem_signs_iff {c : Char} : c ∉ signs ↔ ofChar? c = none := by
  refine ⟨ofChar?_eq_none, fun h hsign => ?_⟩
  simp only [signs, List.mem_cons, List.not_mem_nil, or_false] at hsign
  rcases hsign with rfl | rfl | rfl | rfl
  all_goals cases h

/-- A character stands for the accidental that it is a way to write. -/
theorem ofChar?_eq_some_iff {c : Char} {accidental : Accidental} :
    ofChar? c = some accidental ↔ [c] ∈ accidental.writings := by
  constructor
  · intro h
    unfold ofChar? at h
    split at h
    all_goals cases h
    all_goals decide
  · intro h
    cases accidental with
    | natural => cases List.mem_singleton.mp h
    | sharp | flat =>
      simp only [writings, List.mem_cons, List.cons.injEq, and_true, List.not_mem_nil, or_false] at h
      rcases h with rfl | rfl
      all_goals rfl

end Accidental

namespace Note

variable {text rest : List Char} {note : Note}

/-- The ways to write a note. -/
def writings (note : Note) : List (List Char) :=
  note.accidental.writings.map (note.letter.toChar :: ·)

theorem chars_mem_writings (note : Note) : note.chars ∈ note.writings :=
  List.mem_map.mpr ⟨_, note.accidental.display_mem_writings, rfl⟩

/-- The text is the note in one of the ways to write it, behind blanks, and the rest behind it. No
accidental follows a note without one. -/
def Splits (text : List Char) (note : Note) (rest : List Char) : Prop :=
  (∃ run, (∀ c ∈ run, Text.isBlank c = true) ∧ ∃ form ∈ note.writings, text = run ++ form ++ rest) ∧
  (note.accidental = .natural → ∀ c ∈ rest.head?, c ∉ Accidental.signs)

/-! ### Reading -/

theorem readAccidental_eq_iff {accidental : Accidental} :
    readAccidental text = (accidental, rest) ↔
      (∃ sign ∈ accidental.writings, text = sign ++ rest) ∧
      (accidental = .natural → ∀ c ∈ rest.head?, c ∉ Accidental.signs) := by
  constructor
  · intro h
    cases text with
    | nil =>
      obtain ⟨rfl, rfl⟩ := Prod.mk.inj h
      exact ⟨⟨[], by decide, rfl⟩, nofun⟩
    | cons c cs =>
      simp only [readAccidental] at h
      cases hc : Accidental.ofChar? c with
      | none =>
        rw [hc] at h
        obtain ⟨rfl, rfl⟩ := Prod.mk.inj h
        refine ⟨⟨[], by decide, rfl⟩, fun _ d hd => ?_⟩
        obtain rfl := Option.some.inj hd
        exact Accidental.not_mem_signs_iff.mpr hc
      | some found =>
        rw [hc] at h
        obtain ⟨rfl, rfl⟩ := Prod.mk.inj h
        refine ⟨⟨[c], Accidental.ofChar?_eq_some_iff.mp hc, rfl⟩, ?_⟩
        -- no character stands for the accidental that is left out
        rintro rfl
        cases List.mem_singleton.mp (Accidental.ofChar?_eq_some_iff.mp hc)
  · rintro ⟨⟨sign, hsign, rfl⟩, hnatural⟩
    cases accidental with
    | natural =>
      rw [List.mem_singleton.mp hsign, List.nil_append]
      cases rest with
      | nil => rfl
      | cons c cs => simp only [readAccidental, Accidental.not_mem_signs_iff.mp (hnatural rfl c rfl)]
    | sharp | flat =>
      simp only [Accidental.writings, List.mem_cons, List.not_mem_nil, or_false] at hsign
      rcases hsign with rfl | rfl
      all_goals rfl

theorem isBlank_toChar (letter : Letter) : Text.isBlank letter.toChar = false := by
  cases letter <;> decide

/-- **A note is read** from the texts that it splits, and from no others. -/
theorem read?_eq_some_iff : read? text = some (note, rest) ↔ Splits text note rest := by
  constructor
  · intro h
    unfold read? at h
    split at h
    · cases h
    · rename_i c cs htrim
      obtain ⟨letter, hletter, hnote⟩ := Option.map_eq_some_iff.mp h
      obtain ⟨rfl, rfl⟩ := Prod.mk.inj hnote
      obtain ⟨-, run, hrun, rfl⟩ := Text.trimStart_eq_cons_iff.mp htrim
      obtain ⟨⟨sign, hsign, hcs⟩, hnatural⟩ := readAccidental_eq_iff.mp (Eq.refl (readAccidental cs))
      refine ⟨⟨run, hrun, letter.toChar :: sign, List.mem_map.mpr ⟨sign, hsign, rfl⟩, ?_⟩, hnatural⟩
      rw [Letter.toChar_of_ofChar? hletter, List.append_assoc, List.cons_append, ← hcs]
  · rintro ⟨⟨run, hrun, form, hform, rfl⟩, hnatural⟩
    obtain ⟨sign, hsign, rfl⟩ := List.mem_map.mp hform
    have htrim : Text.trimStart (run ++ note.letter.toChar :: sign ++ rest) =
        note.letter.toChar :: (sign ++ rest) :=
      Text.trimStart_eq_cons_iff.mpr ⟨isBlank_toChar _, run, hrun, by rw [List.append_assoc]; rfl⟩
    have haccidental : readAccidental (sign ++ rest) = (note.accidental, rest) :=
      readAccidental_eq_iff.mpr ⟨⟨sign, hsign, rfl⟩, hnatural⟩
    unfold read?
    rw [htrim]
    simp only [Letter.ofChar?_toChar, Option.map_some, haccidental]

/-- A note in one of the ways to write it, behind blanks and in front of no accidental, is read. -/
theorem read?_writing {run form : List Char} (hrun : ∀ c ∈ run, Text.isBlank c = true)
    (hform : form ∈ note.writings) (hrest : ∀ c ∈ rest.head?, Accidental.ofChar? c = none) :
    read? (run ++ form ++ rest) = some (note, rest) :=
  read?_eq_some_iff.mpr ⟨⟨run, hrun, form, hform, rfl⟩, fun _ c hc =>
    Accidental.not_mem_signs_iff.mpr (hrest c hc)⟩

/-- The printed note in front of the rest of a text is read as the note of the text. -/
theorem Splits.display (h : Splits text note rest) : Splits (note.chars ++ rest) note rest :=
  ⟨⟨[], nofun, note.chars, note.chars_mem_writings, rfl⟩, h.2⟩

/-- **A text is split in one way only.** -/
theorem Splits.unique {other : Note} {rest' : List Char} (h : Splits text note rest)
    (h' : Splits text other rest') : note = other ∧ rest = rest' := by
  have heq := (read?_eq_some_iff.mpr h).symm.trans (read?_eq_some_iff.mpr h')
  exact Prod.mk.inj (Option.some.inj heq)

end Note

/-! ### Texts that begin with a root -/

/-- The first character of the name that is no blank is a letter from `A` to `G`. -/
def HasRoot (name : String) : Prop :=
  ∃ c, name.toList.find? (fun c => !Text.isBlank c) = some c ∧ 'A' ≤ c ∧ c ≤ 'G'

theorem isSome_ofChar?_iff {c : Char} : (Letter.ofChar? c).isSome = true ↔ 'A' ≤ c ∧ c ≤ 'G' := by
  constructor
  · intro h
    obtain ⟨l, hl⟩ := Option.isSome_iff_exists.mp h
    rw [← Letter.toChar_of_ofChar? hl]
    cases l <;> decide
  · rintro ⟨hA, hG⟩
    have hlow : 65 ≤ c.toNat := hA
    have hhigh : c.toNat ≤ 71 := hG
    have hletters : ∀ n ∈ List.range' 65 7, (Letter.ofChar? (Char.ofNat n)).isSome = true := by decide
    rw [← Char.ofNat_toNat c]
    exact hletters c.toNat (List.mem_range'_1.mpr ⟨hlow, by omega⟩)

theorem isSome_read?_iff {name : String} :
    (Note.read? name.toList).isSome = true ↔ HasRoot name := by
  unfold Note.read? HasRoot Text.trimStart
  rw [List.find?_not_eq_head?_dropWhile]
  cases name.toList.dropWhile Text.isBlank with
  | nil => simp
  | cons c cs => simp [isSome_ofChar?_iff]

/-! ### Cutting off the root -/

section Cut
variable {text rest : String} {note : Note} {e : ResolveError}

theorem parseRoot_eq_ok_iff :
    parseRoot text = .ok (note, rest) ↔ Note.Splits text.toList note rest.toList := by
  rw [← Note.read?_eq_some_iff]
  constructor
  · exact Note.read?_of_parseRoot
  · intro h
    unfold parseRoot
    rw [h]
    simp only [String.ofList_toList]

theorem parseRoot_eq_error_iff : parseRoot text = .error e ↔ ¬ HasRoot text ∧ e = .invalidRoot text := by
  rw [← isSome_read?_iff]
  unfold parseRoot
  cases Note.read? text.toList with
  | none => simp [eq_comm]
  | some found => simp

end Cut

/-- What holds of the root of a text. -/
structure RootIsCut (text : String) : Prop where
  splits : ∀ note rest, parseRoot text = .ok (note, rest) ↔ Note.Splits text.toList note rest.toList
  unique : ∀ note rest other rest', Note.Splits text.toList note rest →
    Note.Splits text.toList other rest' → note = other ∧ rest = rest'
  /-- The printed root in front of the rest is cut at the same place. -/
  again : ∀ note rest, parseRoot text = .ok (note, rest) →
    parseRoot (note.display ++ rest) = .ok (note, rest)
  refused : ∀ e, parseRoot text = .error e ↔ ¬ HasRoot text ∧ e = .invalidRoot text

/-- **Roots are cut off** in the one way there is, unless the text begins with no note letter. -/
theorem rootIsCut_of_text (text : String) : RootIsCut text where
  splits _ _ := parseRoot_eq_ok_iff
  unique _ _ _ _ := Note.Splits.unique
  again note rest h := by
    have hdisplay := (parseRoot_eq_ok_iff.mp h).display
    refine parseRoot_eq_ok_iff.mpr ?_
    rwa [String.toList_append, Note.display, String.toList_ofList]
  refused _ := parseRoot_eq_error_iff

example : parseRoot "\u3000 B♭bb" = .ok (⟨.B, .flat⟩, "bb") := by rfl

end Harmony
