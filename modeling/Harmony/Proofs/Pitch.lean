import Harmony.Proofs.Decimal
import Harmony.Proofs.Note
import Harmony.Proofs.Pitch.Number
import Harmony.Proofs.View.Pitch
import Harmony.Report

/-! # The two ways to give a pitch

A pitch is given by a note with its octave behind it, or by a note and an octave apart. Both come to
the same: put together, a note and its octave are read as they were apart, since an octave never begins
with an accidental, and the octave that is left out is as good as its number written out.

* `Pitch.Sounds`: the frequency of a note in an octave.
* `ofNote_eq_ok_iff`, `ofClassAndOctave_eq_ok_iff`: what each of the two reads.
* `shows_of_report`: what is read from the text of a report.
* `WaysAgree`, `waysAgree_of_options`: the two agree under all options. -/

namespace Harmony.Pitch

open Text Decimal

variable {options : PitchOptions} {note : Note} {octave : Int} {name text : String} {f : Float}

/-! ### What is read -/

/-- The tuning has a meaning, and under it the note in the octave has the frequency. -/
def Sounds (options : PitchOptions) (note : Note) (octave : Int) (f : Float) : Prop :=
  checkTuning options.tuning = .ok () ∧
    ∃ n, midiNumber note octave = some n ∧ frequency n options.tuning = f

theorem inOctave_eq_ok_iff {input : String} {tuning : Float} :
    inOctave note octave input tuning = .ok f ↔
      ∃ n, midiNumber note octave = some n ∧ frequency n tuning = f := by
  unfold inOctave
  cases midiNumber note octave with
  | none => simp
  | some n => simp

theorem readOctave_eq_ok_iff {cs : List Char} {input : String} :
    readOctave cs input = .ok octave ↔ octave? cs = some octave := by
  unfold readOctave
  cases octave? cs with
  | none => simp
  | some n => simp

theorem readNote_eq_ok_iff {rest : List Char} : readNote name = .ok (note, rest) ↔
    ∃ behind, Note.read? name.toList = some (note, behind) ∧ trim behind = rest := by
  unfold readNote
  cases Note.read? name.toList with
  | none => simp
  | some found =>
    obtain ⟨other, behind⟩ := found
    simp

theorem bind_eq_ok_iff {α β : Type} {x : Except ResolveError α} {k : α → Except ResolveError β}
    {b : β} : (x >>= k) = .ok b ↔ ∃ a, x = .ok a ∧ k a = .ok b := by
  cases x with
  | error e => exact iff_of_false nofun nofun
  | ok a => simp [bind, Except.bind]

/-- The octave of the trimmed text behind a note. -/
def octaveOf (options : PitchOptions) (rest : List Char) : Option Int :=
  if rest = [] then some options.defaultOctave else octave? rest

theorem octave_bind_eq_ok_iff {rest : List Char} {input : String}
    {k : Int → Except ResolveError Float} :
    (if rest.isEmpty then Except.ok options.defaultOctave >>= k else readOctave rest input >>= k) =
      .ok f ↔ ∃ octave, octaveOf options rest = some octave ∧ k octave = .ok f := by
  unfold octaveOf
  cases rest with
  | nil => simp [bind_eq_ok_iff]
  | cons c cs => simp [bind_eq_ok_iff, readOctave_eq_ok_iff]

theorem ofNote_eq_ok_iff : ofNote name options = .ok f ↔
    ∃ note behind octave, Note.read? name.toList = some (note, behind) ∧
      octaveOf options (trim behind) = some octave ∧ Sounds options note octave f := by
  unfold ofNote
  simp only [bind_eq_ok_iff, octave_bind_eq_ok_iff, inOctave_eq_ok_iff]
  constructor
  · rintro ⟨⟨⟩, htuning, ⟨note, rest⟩, hnote, octave, hoctave, hsounds⟩
    obtain ⟨behind, hread, rfl⟩ := readNote_eq_ok_iff.mp hnote
    exact ⟨note, behind, octave, hread, hoctave, htuning, hsounds⟩
  · rintro ⟨note, behind, octave, hread, hoctave, htuning, hsounds⟩
    have hnote := readNote_eq_ok_iff.mpr ⟨behind, hread, rfl⟩
    exact ⟨(), htuning, (note, trim behind), hnote, octave, hoctave, hsounds⟩

theorem ofClassAndOctave_eq_ok_iff : ofClassAndOctave name text options = .ok f ↔
    ∃ note behind octave, Note.read? name.toList = some (note, behind) ∧ trim behind = [] ∧
      octave? (trim text.toList) = some octave ∧ Sounds options note octave f := by
  unfold ofClassAndOctave
  simp only [bind_eq_ok_iff]
  constructor
  · rintro ⟨⟨⟩, htuning, ⟨note, rest⟩, hnote, h⟩
    obtain ⟨behind, hread, rfl⟩ := readNote_eq_ok_iff.mp hnote
    split at h
    · obtain ⟨octave, hoctave, hsounds⟩ := bind_eq_ok_iff.mp h
      exact ⟨note, behind, octave, hread, List.isEmpty_iff.mp ‹_›, readOctave_eq_ok_iff.mp hoctave,
        htuning, inOctave_eq_ok_iff.mp hsounds⟩
    · cases h
  · rintro ⟨note, behind, octave, hread, hnil, hoctave, htuning, hsounds⟩
    have hnote := readNote_eq_ok_iff.mpr ⟨behind, hread, hnil⟩
    refine ⟨(), htuning, (note, []), hnote, bind_eq_ok_iff.mpr ⟨octave, ?_, ?_⟩⟩
    · exact readOctave_eq_ok_iff.mpr hoctave
    · exact inOctave_eq_ok_iff.mpr hsounds

/-! ### Octaves -/

/-- No octave begins with an accidental. -/
theorem ofChar?_head_of_octave? {cs : List Char} (h : octave? (trim cs) = some octave) :
    ∀ c ∈ cs.head?, Accidental.ofChar? c = none := by
  intro c hc
  obtain ⟨rest, rfl⟩ := List.head?_eq_some_iff.mp hc
  by_cases hblank : isBlank c = true
  · exact Accidental.ofChar?_of_isBlank hblank
  · rw [Bool.not_eq_true] at hblank
    rw [trim_cons hblank] at h
    obtain ⟨n, hn, -⟩ := Option.bind_eq_some_iff.mp h
    exact Accidental.ofChar?_eq_none_of_all (by decide) (startsInteger_of_readInt? hn)

theorem octaveOf_eq_of_octave? {cs : List Char} (h : octave? cs = some octave) :
    octaveOf options cs = some octave := by
  have hne : cs ≠ [] := by
    rintro rfl
    cases h
  unfold octaveOf
  rwa [if_neg hne]

/-- An octave in which a note has a number is in the range of 32-bit integers. -/
theorem inWord_of_midiNumber {n : Int} (h : midiNumber note octave = some n) : InWord octave := by
  obtain ⟨-, hsemitones, -⟩ := midiNumber_eq_some_iff_steps.mp h
  unfold InWord at hsemitones ⊢
  omega

/-- **The octave that is left out** may be written out. -/
theorem octave?_repr {n : Int} (h : midiNumber note octave = some n) :
    octave? (trim octave.repr.toList) = some octave := by
  unfold octave?
  rw [trim_repr, readInt?_repr]
  exact word?_eq_some_iff.mpr ⟨inWord_of_midiNumber h, rfl⟩

/-! ### Together and apart -/

theorem ofNote_append (h : ofClassAndOctave name text options = .ok f) :
    ofNote (name ++ text) options = .ok f := by
  obtain ⟨note, behind, octave, hread, hnil, hoctave, hsounds⟩ := ofClassAndOctave_eq_ok_iff.mp h
  have happend := Note.read?_append hread (ofChar?_head_of_octave? hoctave)
  refine ofNote_eq_ok_iff.mpr ⟨note, behind ++ text.toList, octave, ?_, ?_, hsounds⟩
  · rwa [String.toList_append]
  · rw [trim_append_left (trim_eq_nil_iff.mp hnil)]
    exact octaveOf_eq_of_octave? hoctave

theorem ofClassAndOctave_display {rest : String} (h : ofNote name options = .ok f)
    (hroot : parseRoot name = .ok (note, rest)) :
    ofClassAndOctave note.display
      (if trim rest.toList ≠ [] then rest else options.defaultOctave.repr) options = .ok f := by
  obtain ⟨other, behind, octave, hread, hoctave, hsounds⟩ := ofNote_eq_ok_iff.mp h
  unfold parseRoot at hroot
  rw [hread] at hroot
  obtain ⟨rfl, rfl⟩ := Prod.mk.inj (Except.ok.inj hroot)
  rw [String.toList_ofList]
  have hdisplay : Note.read? other.display.toList = some (other, []) := by
    unfold Note.display
    rw [String.toList_ofList, Note.read?_chars]
  refine ofClassAndOctave_eq_ok_iff.mpr ⟨other, [], octave, hdisplay, rfl, ?_, hsounds⟩
  unfold octaveOf at hoctave
  by_cases hnil : trim behind = []
  · rw [if_pos hnil] at hoctave
    obtain rfl := Option.some.inj hoctave
    obtain ⟨-, n, hn, -⟩ := hsounds
    rw [if_neg (not_not.mpr hnil)]
    exact octave?_repr hn
  · rw [if_neg hnil] at hoctave
    rwa [if_pos hnil, String.toList_ofList]

/-! ### Reports -/

/-- Only under a finite tuning does a note have a frequency. -/
theorem isFinite_of_ofNote (h : ofNote name options = .ok f) : options.tuning.isFinite = true := by
  obtain ⟨-, -, -, -, -, htuning, -⟩ := ofNote_eq_ok_iff.mp h
  unfold checkTuning at htuning
  split at htuning
  · exact (Bool.and_eq_true_iff.mp ‹_›).1
  · cases htuning

theorem report_of_ofNote (h : ofNote name options = .ok f) :
    (Report.pitch name none options .json).value =
      .ok (PitchView.toJson ⟨name, options.tuning, f⟩).pretty := by
  unfold Report.pitch
  simp only [h]
  unfold Report.pitchText
  rw [Option.getD_none, String.append_empty]
  rfl

theorem report_of_ofClassAndOctave (h : ofClassAndOctave name text options = .ok f) :
    (Report.pitch name (some text) options .json).value =
      .ok (PitchView.toJson ⟨name ++ text, options.tuning, f⟩).pretty := by
  unfold Report.pitch
  simp only [h]
  rfl

/-- What is reported is the frequency of the note with the octave behind it. -/
theorem exists_ofNote_of_report {given : Option String}
    (h : (Report.pitch name given options .json).value = .ok text) :
    ∃ f, ofNote (name ++ given.getD "") options = .ok f ∧
      text = (PitchView.toJson ⟨name ++ given.getD "", options.tuning, f⟩).pretty := by
  cases given with
  | none =>
    cases hf : ofNote name options with
    | error e =>
      unfold Report.pitch at h
      simp only [hf] at h
      cases h
    | ok f =>
      rw [report_of_ofNote hf] at h
      rw [Option.getD_none, String.append_empty]
      exact ⟨f, hf, (Except.ok.inj h).symm⟩
  | some octave =>
    cases hf : ofClassAndOctave name octave options with
    | error e =>
      unfold Report.pitch at h
      simp only [hf] at h
      cases h
    | ok f =>
      rw [report_of_ofClassAndOctave hf] at h
      exact ⟨f, ofNote_append hf, (Except.ok.inj h).symm⟩

/-- **A report in JSON** shows a note and the frequency of that note, and asked for the note again it is
the same. -/
theorem shows_of_report {given : Option String}
    (h : (Report.pitch name given options .json).value = .ok text) :
    ∃ f, ofNote (name ++ given.getD "") options = .ok f ∧
      PitchView.Shows text (name ++ given.getD "") options.tuning f ∧
      (Report.pitch (name ++ given.getD "") none options .json).value = .ok text := by
  obtain ⟨f, hf, rfl⟩ := exists_ofNote_of_report h
  exact ⟨f, hf, PitchView.shows_toJson _ f (isFinite_of_ofNote hf), report_of_ofNote hf⟩

/-! ### Agreement -/

/-- What holds of the two ways to give a pitch. -/
structure WaysAgree (options : PitchOptions) : Prop where
  /-- A note and its octave may be put together. -/
  together : ∀ name octave f, ofClassAndOctave name octave options = .ok f →
    ofNote (name ++ octave) options = .ok f
  /-- Whatever has a frequency is reported. -/
  reports : ∀ name octave f, ofClassAndOctave name octave options = .ok f →
    ∃ text, (Report.pitch name (some octave) options .json).value = .ok text
  /-- The note that is read from a report has the frequency that is read from it, which is null where it
  is not finite; and the report on that note is the same. -/
  reported : ∀ name octave text, (Report.pitch name octave options .json).value = .ok text →
    ∃ f, ofNote (name ++ octave.getD "") options = .ok f ∧
      PitchView.Shows text (name ++ octave.getD "") options.tuning f ∧
      (Report.pitch (name ++ octave.getD "") none options .json).value = .ok text
  /-- A note may be taken apart from its octave, the one that is left out included. -/
  apart : ∀ name f note rest, ofNote name options = .ok f → parseRoot name = .ok (note, rest) →
    ofClassAndOctave note.display
      (if trim rest.toList ≠ [] then rest else options.defaultOctave.repr) options = .ok f

/-- **The two ways to give a pitch agree**, under all options. -/
theorem waysAgree_of_options (options : PitchOptions) : WaysAgree options where
  together _ _ _ := ofNote_append
  reports _ _ _ h := ⟨_, report_of_ofClassAndOctave h⟩
  reported _ _ _ := shows_of_report
  apart _ _ _ _ := ofClassAndOctave_display

end Harmony.Pitch
