import Harmony.Proofs.Decimal.Reading
import Harmony.Proofs.Json.Number

/-! # Binary64 numbers in JSON texts

A finite binary64 number is written with its shortest digits, and it is read back from them, its sign
included. What is not finite has no text.

* `exists_parts`: the digits of a number in one of the three ways in which they are written.
* `isNumber_of_floatLexeme?`: what is written has the form of a number.
* `floatValue?_of_floatLexeme?`: it is read back. -/

namespace Harmony.Json

open Decimal

variable {x : Float} {lexeme : String}

/-! ### The form of a written number -/

theorem isDigits_toDigits (n : Nat) : isDigits (Nat.toDigits 10 n) = true := by
  unfold isDigits
  rw [List.all_eq_true.mpr isDigit_of_mem_toDigits, bne_iff_ne.mpr Nat.toDigits_ne_nil]
  rfl

theorem isExponent_exponentChars (exponent : Option Int) :
    isExponent (Parts.exponentChars exponent) = true := by
  cases exponent with
  | none => rfl
  | some n =>
    show isDigits (splitSign (signed n).toList).2 = true
    obtain ⟨sign, m, htext, ⟨rfl, -⟩ | ⟨rfl, -⟩⟩ := exists_toList_signed n
    · rw [htext]
      exact isDigits_toDigits m
    · rw [htext]
      exact isDigits_toDigits m

theorem isNumberTail_chars {fraction : List Char} (h : ∀ c ∈ fraction, c.isDigit = true)
    (exponent : Option Int) :
    isNumberTail (Parts.pointChars fraction ++ Parts.exponentChars exponent) = true := by
  cases fraction with
  | nil =>
    cases exponent with
    | none => rfl
    | some n => exact isExponent_exponentChars (some n)
  | cons c cs =>
    have hends := Parts.endsRun_exponentChars exponent
    show (isDigits ((c :: cs ++ Parts.exponentChars exponent).takeWhile Char.isDigit) &&
      isExponent ((c :: cs ++ Parts.exponentChars exponent).dropWhile Char.isDigit)) = true
    rw [Text.takeWhile_append_of_endsRun h hends, Text.dropWhile_append_of_endsRun h hends,
      isExponent_exponentChars, Bool.and_true]
    unfold isDigits
    rw [List.all_eq_true.mpr h]
    rfl

theorem ne_nil_of_isNatural {cs : List Char} (h : isNatural cs = true) : cs ≠ [] := by
  rintro rfl
  cases h

/-- The digits before the point begin with no sign. -/
theorem splitMinus_append {cs : List Char} (hne : cs ≠ []) (h : ∀ c ∈ cs, c.isDigit = true)
    (rest : List Char) : splitMinus (cs ++ rest) = (false, cs ++ rest) := by
  obtain ⟨c, cs, rfl⟩ := List.exists_cons_of_ne_nil hne
  unfold splitMinus
  split
  · rename_i heq
    obtain rfl := (List.cons.inj heq).1
    exact absurd (h _ List.mem_cons_self) (by decide)
  · rfl

/-- Parts that write a number in the form of JSON. -/
structure WritesNumber (p : Parts) (d : Digits) : Prop extends p.Writes d where
  natural : isNatural p.whole = true

theorem splitMinus_chars {p : Parts} {d : Digits} (h : WritesNumber p d) :
    splitMinus p.chars = (false, p.chars) :=
  splitMinus_append (ne_nil_of_isNatural h.natural) h.whole _

theorem isNumber_chars {p : Parts} {d : Digits} (h : WritesNumber p d) : isNumber p.chars = true := by
  have hends := Parts.endsRun_pointChars p.fraction p.exponent
  unfold isNumber
  rw [splitMinus_chars h]
  unfold Parts.chars
  simp only
  rw [Text.takeWhile_append_of_endsRun h.whole hends, Text.dropWhile_append_of_endsRun h.whole hends,
    h.natural, isNumberTail_chars h.fraction]
  rfl

/-! ### Three ways to write digits -/

/-- One digit before the point. -/
theorem exists_parts_scientific (d : Digits) :
    ∃ p, (d.scientific exponentText).toList = p.chars ∧ WritesNumber p d := by
  have hdigits := isDigit_of_mem_toDigits (n := d.coefficient)
  have hread := readNat?_toDigits d.coefficient
  have hleading : d.leading = d.exponent + (Nat.toDigits 10 d.coefficient).length - 1 := rfl
  obtain ⟨c, cs, hcs⟩ := List.exists_cons_of_ne_nil (Nat.toDigits_ne_nil (n := d.coefficient) (b := 10))
  rw [hcs] at hdigits hread hleading
  obtain ⟨hc, htail⟩ := List.forall_mem_cons.mp hdigits
  refine ⟨⟨[c], cs, some d.leading⟩, ?_, ⟨⟨⟨?_, htail⟩, d.coefficient, hread, ?_⟩, ?_⟩⟩
  · unfold Digits.scientific
    rw [hcs, String.toList_append, String.toList_append, Parts.toList_withPoint, List.splitAt_eq]
    show [c] ++ Parts.pointChars cs ++ ['e'] ++ (signed d.leading).toList = _
    rw [List.append_assoc, List.append_assoc]
    rfl
  · exact List.forall_mem_singleton.mpr hc
  · show (d.coefficient : ℚ) * 10 ^ (d.leading - cs.length) = d.coefficient * 10 ^ d.exponent
    rw [hleading, List.length_cons]
    congr 2
    omega
  · exact isNatural_singleton hc

/-- All digits before the point. -/
theorem exists_parts_whole {d : Digits} (h : 0 ≤ d.exponent) :
    ∃ p, (d.positional ++ ".0").toList = p.chars ∧ WritesNumber p d := by
  obtain ⟨c, exponent⟩ := d
  obtain ⟨n, rfl⟩ := Int.eq_ofNat_of_zero_le h
  have hread : readNat? (Nat.toDigits 10 (c * 10 ^ n) ++ ['0']) = some (10 * (c * 10 ^ n) + 0) := by
    rw [readNat?_append_singleton Nat.toDigits_ne_nil, readNat?_toDigits]
    rfl
  refine ⟨⟨Nat.toDigits 10 (c * 10 ^ n), ['0'], none⟩, ?_, ⟨⟨⟨isDigit_of_mem_toDigits, ?_⟩,
    _, hread, ?_⟩, isNatural_toDigits _⟩⟩
  · rw [String.toList_append]
    exact congrArg (· ++ ['.', '0']) String.toList_ofList
  · exact List.forall_mem_singleton.mpr rfl
  · show ((10 * (c * 10 ^ n) + 0 : Nat) : ℚ) * 10 ^ (0 - ((1 : Nat) : Int)) = c * 10 ^ (n : Int)
    push_cast
    rw [zpow_natCast]
    norm_num
    ring

/-- The digits before the point begin with a zero only if nothing else stands there. -/
theorem isNatural_take_padded {n : Nat} (hn : 0 < n) (places : Nat) :
    isNatural ((padded (places + 1) n).take ((padded (places + 1) n).length - places)) = true := by
  have hdigits := isDigit_of_mem_padded (places + 1) n
  by_cases hshort : (Nat.toDigits 10 n).length ≤ places
  · have hlength : (padded (places + 1) n).length = places + 1 := by
      simp only [padded, List.length_append, List.length_replicate]
      omega
    obtain ⟨c, cs, hcs⟩ := List.exists_cons_of_length_eq_add_one hlength
    rw [hlength, Nat.add_sub_cancel_left, hcs]
    rw [hcs] at hdigits
    exact isNatural_singleton (hdigits c List.mem_cons_self)
  · have hpadded : padded (places + 1) n = Nat.toDigits 10 n := by
      simp only [padded, Nat.sub_eq_zero_of_le (Nat.not_le.mp hshort), List.replicate_zero,
        List.nil_append]
    rw [hpadded] at hdigits ⊢
    obtain ⟨k, hk⟩ : ∃ k, (Nat.toDigits 10 n).length - places = k + 1 :=
      ⟨_, (Nat.succ_pred_eq_of_pos (by omega)).symm⟩
    have hhead := head?_toDigits hn
    obtain ⟨c, cs, hcs⟩ := List.exists_cons_of_ne_nil (Nat.toDigits_ne_nil (n := n) (b := 10))
    rw [hk]
    rw [hcs] at hdigits hhead ⊢
    exact isNatural_of_head? nofun (fun d hd => hdigits d (List.mem_of_mem_take hd)) hhead

/-- Some digits behind the point. -/
theorem exists_parts_fraction {d : Digits} (hd : 0 < d.coefficient) (h : d.exponent < 0) :
    ∃ p, d.positional.toList = p.chars ∧ WritesNumber p d := by
  obtain ⟨c, exponent⟩ := d
  obtain ⟨n, rfl⟩ := Int.eq_negSucc_of_lt_zero h
  have hlength := le_length_padded (n + 2) c
  have hread := readNat?_padded (n + 2) c
  have hdigits := isDigit_of_mem_padded (n + 2) c
  have hpositional : (Digits.mk c (.negSucc n)).positional =
      withPoint ((padded (n + 2) c).splitAt ((padded (n + 2) c).length - (n + 1))) := rfl
  have hnatural := isNatural_take_padded hd (n + 1)
  rw [hpositional, Parts.toList_withPoint, List.splitAt_eq]
  generalize padded (n + 2) c = digits at hlength hread hdigits hnatural ⊢
  refine ⟨⟨digits.take (digits.length - (n + 1)), digits.drop (digits.length - (n + 1)), none⟩, ?_,
    ⟨⟨⟨fun c hc => hdigits c (List.mem_of_mem_take hc), fun c hc => hdigits c (List.mem_of_mem_drop hc)⟩,
      c, ?_, ?_⟩, hnatural⟩⟩
  · unfold Parts.chars Parts.exponentChars
    rw [List.append_nil]
  · rwa [List.take_append_drop]
  · show (c : ℚ) * 10 ^ (0 - ((digits.drop (digits.length - (n + 1))).length : Int)) =
      c * 10 ^ (Int.negSucc n)
    rw [List.length_drop]
    congr 2
    omega

/-- **The digits of a number** are written in one of the three ways. -/
theorem exists_parts {d : Digits} (hd : 0 < d.coefficient) :
    ∃ p, (digitsLexeme d).toList = p.chars ∧ WritesNumber p d := by
  unfold digitsLexeme
  split
  · exact exists_parts_scientific d
  · split
    · exact exists_parts_whole ‹_›
    · exact exists_parts_fraction hd (Int.not_le.mp ‹_›)

/-! ### Binary64 numbers -/

/-- The text of a magnitude without a sign. -/
theorem exists_parts_magnitude {m : Nat} {e : Int} (h : IsBinary m e) :
    ∃ p : Parts, (if m = 0 then "0.0" else digitsLexeme (shortest m e .toEven)).toList = p.chars ∧
      isNumber p.chars = true ∧ splitMinus p.chars = (false, p.chars) ∧
      readMagnitude? p.chars = some (magnitude m e) := by
  rcases Nat.eq_zero_or_pos m with rfl | hm
  · obtain rfl : e = -1074 := h.normal.resolve_left (by decide)
    have hzeros : ∀ c ∈ ['0'], c.isDigit = true := List.forall_mem_singleton.mpr rfl
    have hwrites : WritesNumber ⟨['0'], ['0'], none⟩ ⟨0, 0⟩ :=
      ⟨⟨⟨hzeros, hzeros⟩, 0, rfl, by simp [Digits.value]⟩, rfl⟩
    refine ⟨_, rfl, isNumber_chars hwrites, splitMinus_chars hwrites, ?_⟩
    rw [Parts.readMagnitude?_chars hwrites.toIsDecimal]
    exact congrArg some (nearestDecimal_zero _)
  · have hrounds := roundsTo_shortest hm h .toEven
    obtain ⟨p, htext, hwrites⟩ := exists_parts (hrounds.pos_of_mul hm)
    rw [if_neg hm.ne']
    exact ⟨p, htext, isNumber_chars hwrites, splitMinus_chars hwrites,
      Parts.readMagnitude?_shortest hm h hwrites.toWrites⟩

/-- What is written of a finite number: its magnitude, with a minus in front if it has one. -/
theorem exists_chars_of_floatLexeme? (h : floatLexeme? x = some lexeme) :
    ∃ negative m e, ∃ p : Parts, Binary.ofFloat x = .finite negative m e ∧
      lexeme.toList = (if negative = true then ['-'] else []) ++ p.chars ∧
      isNumber p.chars = true ∧ splitMinus p.chars = (false, p.chars) ∧
      readMagnitude? p.chars = some (magnitude m e) := by
  unfold floatLexeme? at h
  split at h
  · rename_i negative m e hvalue
    obtain ⟨p, htext, hp⟩ := exists_parts_magnitude (isBinary_of_ofFloat hvalue)
    obtain rfl := Option.some.inj h
    refine ⟨negative, m, e, p, hvalue, ?_, hp⟩
    rw [String.toList_append, htext]
    cases negative <;> rfl
  · cases h

/-- **A finite number** has a text. -/
theorem exists_floatLexeme? (h : x.isFinite = true) : ∃ lexeme, floatLexeme? x = some lexeme := by
  obtain ⟨negative, m, e, hvalue⟩ := isFinite_iff.mp h
  unfold floatLexeme?
  rw [hvalue]
  exact ⟨_, rfl⟩

theorem floatLexeme?_eq_none (h : x.isFinite = false) : floatLexeme? x = none := by
  unfold floatLexeme?
  split
  · rename_i negative m e hvalue
    rw [isFinite_iff.mpr ⟨negative, m, e, hvalue⟩] at h
    cases h
  · rfl

theorem isNumber_minus {cs : List Char} (h : isNumber cs = true)
    (hminus : splitMinus cs = (false, cs)) : isNumber ('-' :: cs) = true := by
  unfold isNumber at h ⊢
  rw [hminus] at h
  exact h

/-- **The text of a number** has the form of a number. -/
theorem isNumber_of_floatLexeme? (h : floatLexeme? x = some lexeme) :
    isNumber lexeme.toList = true := by
  obtain ⟨negative, m, e, p, -, htext, hnumber, hminus, -⟩ := exists_chars_of_floatLexeme? h
  rw [htext]
  cases negative with
  | true => exact isNumber_minus hnumber hminus
  | false => exact hnumber

/-- **The text of a number is read back** as the number. -/
theorem floatValue?_of_floatLexeme? (h : floatLexeme? x = some lexeme) :
    floatValue? lexeme.toList = some x := by
  obtain ⟨negative, m, e, p, hvalue, htext, -, hminus, hread⟩ := exists_chars_of_floatLexeme? h
  obtain ⟨hsign, hinf⟩ := withSign_magnitude hvalue
  have hsplit : splitMinus lexeme.toList = (negative, p.chars) := by
    rw [htext]
    cases negative with
    | true => rfl
    | false => exact hminus
  unfold floatValue?
  rw [hsplit]
  simp only [hread, hinf, Bool.false_eq_true, if_false, hsign]

end Harmony.Json
