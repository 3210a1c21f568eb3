import Harmony.Json.Escape
import Mathlib.Tactic.SplitIfs

/-! # Escapes are read back

A character is written in one of three forms: as itself, by a letter behind a backslash, or by four
hexadecimal digits. Whatever the form, it is scanned as a whole and read as the character, so every
text is read back from what is written for it.

* `Form`: what may be written for a character (`form_encodeChar`).
* `scan?_encode`: a written text is scanned up to the quote behind it.
* `decode?_encode`: and it is read back. -/

namespace Harmony.Json

/-! ### Hexadecimal digits -/

theorem hexDigit?_digitChar : ∀ n < 16, hexDigit? (Nat.digitChar n) = some n := by decide

theorem hexValue?_of_isControl {c : Char} (h : isControl c = true) :
    hexValue? '0' '0' (Nat.digitChar (c.toNat / 16)) (Nat.digitChar (c.toNat % 16)) =
      some c.toNat := by
  have hlow : c.toNat < 32 := by simpa [isControl] using h
  have hhigh := hexDigit?_digitChar (c.toNat / 16) (by omega)
  have hunit := hexDigit?_digitChar (c.toNat % 16) (by omega)
  have hzero : hexDigit? '0' = some 0 := by decide
  unfold hexValue?
  simp only [hzero, hhigh, hunit, Option.bind_eq_bind, Option.bind_some, Option.pure_def,
    Option.some.injEq]
  omega

/-! ### The forms of a character -/

/-- What may be written for a character. -/
inductive Form (c : Char) : List Char → Prop
  /-- The letter of a short escape. -/
  | short {letter : Char} (h : shortEscaped? letter = some c) : Form c ['\\', letter]
  /-- The number of a control character. -/
  | number {high low : Char} (hcontrol : isControl c = true)
      (h : hexValue? '0' '0' high low = some c.toNat) : Form c ['\\', 'u', '0', '0', high, low]
  /-- The character itself. -/
  | plain (hquote : c ≠ '"') (hbackslash : c ≠ '\\') (hcontrol : isControl c = false) : Form c [c]

/-- **A character is written in one of its forms.** -/
theorem form_encodeChar (c : Char) : Form c (encodeChar c) := by
  unfold encodeChar
  cases hshort : shortEscape? c with
  | some letter => exact .short (shortEscaped?_of_shortEscape? hshort)
  | none =>
    by_cases hcontrol : isControl c = true
    · rw [if_pos hcontrol]
      exact .number hcontrol (hexValue?_of_isControl hcontrol)
    · have hquote : c ≠ '"' := by
        rintro rfl
        cases hshort
      have hbackslash : c ≠ '\\' := by
        rintro rfl
        cases hshort
      rw [if_neg hcontrol]
      exact .plain hquote hbackslash (Bool.not_eq_true _ ▸ hcontrol)

/-- No short escape has the letter of the numbers. -/
theorem ne_u_of_shortEscaped? {letter c : Char} (h : shortEscaped? letter = some c) :
    letter ≠ 'u' := by
  rintro rfl
  cases h

section Form
variable {c : Char} {written : List Char} (h : Form c written)
include h

/-- A form is scanned as a whole. -/
theorem Form.scan?_append (rest : List Char) :
    scan? (written ++ rest) = (scan? rest).map (prepend written) := by
  cases h with
  | short hletter =>
    have hsome := Option.isSome_of_eq_some hletter
    rw [List.cons_append, List.cons_append, List.nil_append, scan?.eq_def]
    simp only [ne_u_of_shortEscaped? hletter, hsome, if_true, if_false, Char.reduceEq]
  | number hcontrol hvalue =>
    have hsome := Option.isSome_of_eq_some hvalue
    simp only [List.cons_append, List.nil_append, scan?, hsome, if_true, if_false, Char.reduceEq]
  | plain hquote hbackslash hcontrol =>
    rw [List.cons_append, List.nil_append, scan?.eq_def]
    simp only [hquote, hbackslash, hcontrol, if_false, Bool.false_eq_true]

/-- A form is read as one piece, and that stands for the character. -/
theorem Form.pieces?_append (rest : List Char) :
    ∃ piece, pieces? (written ++ rest) = (pieces? rest).map (piece :: ·) ∧
      ∀ pieces, joinPieces? (piece :: pieces) = (joinPieces? pieces).map (c :: ·) := by
  cases h with
  | short hletter =>
    refine ⟨.char c, ?_, fun pieces => rfl⟩
    rw [List.cons_append, List.cons_append, List.nil_append, pieces?.eq_def]
    simp only [ne_u_of_shortEscaped? hletter, hletter, if_true, if_false]
  | number hcontrol hvalue =>
    -- a control character is no half of a surrogate pair
    have hlow : c.toNat < 32 := by simpa [isControl] using hcontrol
    have hnotLow : isLowSurrogate c.toNat = false := by
      simp only [isLowSurrogate, Bool.and_eq_false_iff, decide_eq_false_iff_not]
      omega
    have hnotHigh : isHighSurrogate c.toNat = false := by
      simp only [isHighSurrogate, Bool.and_eq_false_iff, decide_eq_false_iff_not]
      omega
    refine ⟨.code c.toNat, ?_, fun pieces => ?_⟩
    · simp only [List.cons_append, List.nil_append, pieces?, hvalue, if_true]
    · rw [joinPieces?.eq_def]
      simp only [hnotLow, hnotHigh, Bool.false_eq_true, if_false, Char.ofNat_toNat]
  | plain hquote hbackslash hcontrol =>
    refine ⟨.char c, ?_, fun pieces => rfl⟩
    rw [List.cons_append, List.nil_append, pieces?.eq_def]
    simp only [hbackslash, hcontrol, if_false, Bool.false_eq_true]

end Form

/-! ### Texts -/

theorem encode_cons (c : Char) (cs : List Char) : encode (c :: cs) = encodeChar c ++ encode cs :=
  List.flatMap_cons

/-- **A written text is scanned** up to the quote behind it. -/
theorem scan?_encode (cs rest : List Char) :
    scan? (encode cs ++ '"' :: rest) = some (encode cs, rest) := by
  induction cs with
  | nil =>
    show scan? ('"' :: rest) = some ([], rest)
    rw [scan?.eq_def]
    rfl
  | cons c cs ih =>
    rw [encode_cons, List.append_assoc, (form_encodeChar c).scan?_append, ih]
    rfl

/-- **A written text is read back.** -/
theorem decode?_encode (cs : List Char) : decode? (encode cs) = some cs := by
  have hpieces : ∃ pieces, pieces? (encode cs) = some pieces ∧ joinPieces? pieces = some cs := by
    induction cs with
    | nil => exact ⟨[], rfl, rfl⟩
    | cons c cs ih =>
      obtain ⟨pieces, hrest, hjoin⟩ := ih
      obtain ⟨piece, hfirst, hpiece⟩ := (form_encodeChar c).pieces?_append (encode cs)
      refine ⟨piece :: pieces, ?_, ?_⟩
      · rw [encode_cons, hfirst, hrest]
        rfl
      · rw [hpiece, hjoin]
        rfl
  obtain ⟨pieces, hread, hjoin⟩ := hpieces
  unfold decode?
  rw [hread]
  exact hjoin

theorem encodeChar_of_isDigit {c : Char} (h : c.isDigit = true) : encodeChar c = [c] := by
  have hshort : shortEscape? c = none := by
    unfold shortEscape?
    split
    all_goals first | rfl | cases h
  have hcontrol : isControl c = false := by
    have hlow : 48 ≤ c.toNat := (Char.isDigit_iff_toNat.mp h).1
    simp only [isControl, decide_eq_false_iff_not]
    omega
  unfold encodeChar
  simp only [hshort, hcontrol, Bool.false_eq_true, if_false]

/-- Digits are written as themselves. -/
theorem encode_of_isDigit {cs : List Char} (h : ∀ c ∈ cs, c.isDigit = true) : encode cs = cs := by
  induction cs with
  | nil => rfl
  | cons c cs ih =>
    obtain ⟨hdigit, hrest⟩ := List.forall_mem_cons.mp h
    rw [encode_cons, encodeChar_of_isDigit hdigit, ih hrest, List.singleton_append]

end Harmony.Json
