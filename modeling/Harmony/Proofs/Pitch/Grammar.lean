import Harmony.Proofs.Pitch
import Harmony.Proofs.Root

/-! # The texts that are pitches

A pitch is written as a note and maybe an octave, with blanks in front of, between and behind them. All
other texts are refused, with the whole text in the error; a wrong tuning is refused before any text is
read.

* `WritesPitch`: the texts of a note and maybe an octave.
* `exists_read?_iff_writesPitch`: they are what is read.
* `Quotes`: every error quotes the input (`quotes_ofNote`).
* `PitchGrammar`, `pitchGrammar_of_name`: what holds of every text, under all options. -/

namespace Harmony.Pitch

open Text Decimal

variable {options : PitchOptions} {note : Note} {octave : Int} {name : String}

/-! ### Written pitches -/

/-- A text of a note, and of an octave if one is written, with blanks in front of both, between them and
behind. -/
inductive WritesPitch (note : Note) : List Char → Option Int → Prop
  | note {u form v : List Char} (hu : ∀ c ∈ u, isBlank c = true) (hform : form ∈ note.writings)
      (hv : ∀ c ∈ v, isBlank c = true) : WritesPitch note (u ++ form ++ v) none
  | inOctave {u form v digits w : List Char} {octave : Int} (hu : ∀ c ∈ u, isBlank c = true)
      (hform : form ∈ note.writings) (hv : ∀ c ∈ v, isBlank c = true)
      (hdigits : WritesInt digits octave) (hword : InWord octave) (hw : ∀ c ∈ w, isBlank c = true) :
      WritesPitch note (u ++ form ++ (v ++ digits ++ w)) (some octave)

theorem octave?_eq_some_iff {cs : List Char} :
    octave? cs = some octave ↔ WritesInt cs octave ∧ InWord octave := by
  unfold octave?
  simp only [Option.bind_eq_some_iff, word?_eq_some_iff, readInt?_eq_some_iff]
  constructor
  · rintro ⟨n, hn, hword, rfl⟩
    exact ⟨hn, hword⟩
  · rintro ⟨hn, hword⟩
    exact ⟨octave, hn, hword, rfl⟩

theorem trim_octave {v digits w : List Char} (hv : ∀ c ∈ v, isBlank c = true)
    (hdigits : WritesInt digits octave) (hw : ∀ c ∈ w, isBlank c = true) :
    trim (v ++ digits ++ w) = digits := by
  rw [trim_append_right _ hw, trim_append_left hv, trim_of_readInt? (readInt?_eq_some_iff.mpr hdigits)]

/-- **What is read of a text** is what it writes, the octave that is left out included. -/
theorem exists_read?_iff_writesPitch {text : List Char} :
    (∃ behind, Note.read? text = some (note, behind) ∧
      octaveOf options (trim behind) = some octave) ↔
    ∃ written, WritesPitch note text written ∧ written.getD options.defaultOctave = octave := by
  constructor
  · rintro ⟨behind, hread, hoctave⟩
    obtain ⟨⟨u, hu, form, hform, rfl⟩, -⟩ := Note.read?_eq_some_iff.mp hread
    unfold octaveOf at hoctave
    split at hoctave
    · rename_i hnil
      exact ⟨none, .note hu hform (trim_eq_nil_iff.mp hnil), Option.some.inj hoctave⟩
    · obtain ⟨hdigits, hword⟩ := octave?_eq_some_iff.mp hoctave
      obtain ⟨v, w, hv, hw, hbehind⟩ := exists_eq_append_trim behind
      rw [hbehind]
      exact ⟨some octave, .inOctave hu hform hv hdigits hword hw, rfl⟩
  · rintro ⟨written, hwrites, hoctave⟩
    -- the note ends where it is written to end: neither a blank nor an octave begins with an accidental
    cases hwrites with
    | @note u form v hu hform hv =>
      have hread := Note.read?_writing hu hform fun c hc =>
        Accidental.ofChar?_of_isBlank (hv c (List.mem_of_mem_head? hc))
      refine ⟨v, hread, ?_⟩
      unfold octaveOf
      rw [if_pos (trim_eq_nil_iff.mpr hv)]
      exact congrArg some hoctave
    | @inOctave u form v digits w octave hu hform hv hdigits hword hw =>
      obtain rfl := hoctave
      have htrim : octave? (trim (v ++ digits ++ w)) = some octave := by
        rw [trim_octave hv hdigits hw]
        exact octave?_eq_some_iff.mpr ⟨hdigits, hword⟩
      have hread := Note.read?_writing hu hform (ofChar?_head_of_octave? htrim)
      exact ⟨v ++ digits ++ w, hread, octaveOf_eq_of_octave? htrim⟩

/-! ### Errors -/

/-- The tuning is a finite positive number. -/
def IsTuning (tuning : Float) : Prop := tuning.isFinite = true ∧ 0.0 < tuning

theorem checkTuning_eq_ok_iff {tuning : Float} : checkTuning tuning = .ok () ↔ IsTuning tuning := by
  unfold checkTuning IsTuning
  split
  · rename_i h
    exact iff_of_true rfl (by simpa using h)
  · rename_i h
    exact iff_of_false nofun (by simpa using h)

/-- Every error of the result quotes the input. -/
def Quotes {α : Type} (input : String) (result : Except ResolveError α) : Prop :=
  ∀ e, result = .error e → ∃ fault, e = .invalidPitch input fault

section Quotes
variable {α β : Type} {input : String}

theorem quotes_ok (a : α) : Quotes input (.ok a) := nofun

theorem quotes_error (fault : PitchFault) :
    Quotes input (.error (.invalidPitch input fault) : Except ResolveError α) :=
  fun _ h => ⟨fault, (Except.error.inj h).symm⟩

/-- **Steps that quote the input** quote it one after the other. -/
theorem Quotes.bind {x : Except ResolveError α} {k : α → Except ResolveError β} (hx : Quotes input x)
    (hk : ∀ a, Quotes input (k a)) : Quotes input (x >>= k) := by
  cases x with
  | error e =>
    obtain ⟨fault, rfl⟩ := hx e rfl
    exact quotes_error fault
  | ok a => exact hk a

theorem quotes_readNote (name : String) : Quotes name (readNote name) := by
  unfold readNote
  split
  · exact quotes_ok _
  · exact quotes_error _

theorem quotes_readOctave (cs : List Char) (input : String) : Quotes input (readOctave cs input) := by
  unfold readOctave
  split
  · exact quotes_ok _
  · exact quotes_error _

theorem quotes_inOctave (note : Note) (octave : Int) (input : String) (tuning : Float) :
    Quotes input (inOctave note octave input tuning) := by
  unfold inOctave
  split
  · exact quotes_ok _
  · exact quotes_error _

end Quotes

/-- **The error of a refused text** quotes the whole text. -/
theorem quotes_ofNote (htuning : IsTuning options.tuning) (name : String) :
    Quotes name (ofNote name options) := by
  unfold ofNote
  rw [checkTuning_eq_ok_iff.mpr htuning]
  refine (quotes_ok ()).bind fun _ => (quotes_readNote name).bind fun found => ?_
  obtain ⟨note, rest⟩ := found
  simp only
  split
  · exact (quotes_ok _).bind fun octave => quotes_inOctave _ octave name _
  · exact (quotes_readOctave _ name).bind fun octave => quotes_inOctave _ octave name _

/-- **A wrong tuning** is refused before the text is read. -/
theorem ofNote_of_not_isTuning (h : ¬ IsTuning options.tuning) :
    ofNote name options = .error (.invalidPitch (positionalText options.tuning) .tuningNotPositive) := by
  have hcheck : checkTuning options.tuning =
      .error (.invalidPitch (positionalText options.tuning) .tuningNotPositive) := by
    unfold checkTuning
    exact if_neg (by simpa [IsTuning] using h)
  unfold ofNote
  rw [hcheck]
  rfl

/-! ### The grammar -/

/-- Under the options the text writes a note in an octave in which it has the number. -/
def WritesNumber (name : String) (options : PitchOptions) (n : Int) : Prop :=
  ∃ note written, WritesPitch note name.toList written ∧
    midiNumber note (written.getD options.defaultOctave) = some n

theorem ofNote_eq_ok_iff_writesNumber {f : Float} : ofNote name options = .ok f ↔
    IsTuning options.tuning ∧ ∃ n, WritesNumber name options n ∧ f = frequency n options.tuning := by
  rw [ofNote_eq_ok_iff]
  constructor
  · rintro ⟨note, behind, octave, hread, hoctave, htuning, n, hn, rfl⟩
    obtain ⟨written, hwrites, rfl⟩ := exists_read?_iff_writesPitch.mp ⟨behind, hread, hoctave⟩
    exact ⟨checkTuning_eq_ok_iff.mp htuning, n, ⟨note, written, hwrites, hn⟩, rfl⟩
  · rintro ⟨htuning, n, ⟨note, written, hwrites, hn⟩, rfl⟩
    obtain ⟨behind, hread, hoctave⟩ := exists_read?_iff_writesPitch.mpr ⟨written, hwrites, rfl⟩
    exact ⟨note, behind, _, hread, hoctave, checkTuning_eq_ok_iff.mpr htuning, n, hn, rfl⟩

/-- What holds of a text that is to be a pitch. -/
structure PitchGrammar (name : String) (options : PitchOptions) : Prop where
  accepted : ∀ f, ofNote name options = .ok f ↔
    IsTuning options.tuning ∧ ∃ n, WritesNumber name options n ∧ f = frequency n options.tuning
  wrong_tuning : ¬ IsTuning options.tuning → ∃ fault,
    ofNote name options = .error (.invalidPitch (positionalText options.tuning) fault)
  wrong_text : IsTuning options.tuning → (¬ ∃ n, WritesNumber name options n) → ∃ fault,
    ofNote name options = .error (.invalidPitch name fault)

/-- **The texts that are pitches** are those that write one, and all others are refused. -/
theorem pitchGrammar_of_name (name : String) (options : PitchOptions) : PitchGrammar name options where
  accepted _ := ofNote_eq_ok_iff_writesNumber
  wrong_tuning h := ⟨_, ofNote_of_not_isTuning h⟩
  wrong_text htuning hnone := by
    cases hresult : ofNote name options with
    | ok f =>
      obtain ⟨-, n, hn, -⟩ := ofNote_eq_ok_iff_writesNumber.mp hresult
      exact absurd ⟨n, hn⟩ hnone
    | error e =>
      obtain ⟨fault, rfl⟩ := quotes_ofNote htuning name e hresult
      exact ⟨fault, rfl⟩

end Harmony.Pitch
