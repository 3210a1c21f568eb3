import Harmony.Json.Number
import Harmony.Proofs.Decimal
import Mathlib.Data.List.TakeWhile

/-! # Numbers in JSON texts

* `isNumberChar_of_isNumber`: what has the form of a number consists of the characters of numbers, so
  its end is seen from the character behind it.
* `isNumber_toDigits`, `naturalValue?_toDigits`, `integerValue?_toDigits`: the decimal digits of a
  natural number have the form of a number, and their value is the number. -/

namespace Harmony.Json

open Decimal

variable {cs lexeme : List Char} {c : Char}

/-! ### The characters of numbers -/

theorem isNumberChar_of_isDigit (h : c.isDigit = true) : isNumberChar c = true := by
  simp [isNumberChar, h]

theorem isNumberChar_of_isDigits (h : isDigits cs = true) : ∀ c ∈ cs, isNumberChar c = true := by
  obtain ⟨-, hall⟩ := Bool.and_eq_true_iff.mp h
  exact fun c hc => isNumberChar_of_isDigit (List.all_eq_true.mp hall c hc)

theorem isNumberChar_of_isExponent (h : isExponent cs = true) :
    ∀ c ∈ cs, isNumberChar c = true := by
  cases cs with
  | nil => exact fun c hc => absurd hc List.not_mem_nil
  | cons e cs =>
    obtain ⟨hletter, hdigits⟩ := Bool.and_eq_true_iff.mp h
    refine List.forall_mem_cons.mpr ⟨?_, ?_⟩
    · rcases Bool.or_eq_true_iff.mp hletter with he | he
      · rw [eq_of_beq he]
        rfl
      · rw [eq_of_beq he]
        rfl
    · -- at most one sign stands before the digits
      unfold splitSign at hdigits
      split at hdigits
      · exact List.forall_mem_cons.mpr ⟨rfl, isNumberChar_of_isDigits hdigits⟩
      · exact List.forall_mem_cons.mpr ⟨rfl, isNumberChar_of_isDigits hdigits⟩
      · exact isNumberChar_of_isDigits hdigits

theorem isNumberChar_of_takeWhile (cs : List Char) :
    ∀ c ∈ cs.takeWhile Char.isDigit, isNumberChar c = true :=
  fun _ hc => isNumberChar_of_isDigit (List.mem_takeWhile_imp hc)

theorem isNumberChar_of_isNumberTail (h : isNumberTail cs = true) :
    ∀ c ∈ cs, isNumberChar c = true := by
  unfold isNumberTail at h
  split at h
  · rename_i fraction
    obtain ⟨-, hexponent⟩ := Bool.and_eq_true_iff.mp h
    refine List.forall_mem_cons.mpr ⟨rfl, ?_⟩
    rw [← List.takeWhile_append_dropWhile (p := Char.isDigit) (l := fraction)]
    exact List.forall_mem_append.mpr
      ⟨isNumberChar_of_takeWhile fraction, isNumberChar_of_isExponent hexponent⟩
  · exact isNumberChar_of_isExponent h

/-- **A number consists of the characters of numbers.** -/
theorem isNumberChar_of_isNumber (h : isNumber lexeme = true) :
    ∀ c ∈ lexeme, isNumberChar c = true := by
  obtain ⟨-, htail⟩ := Bool.and_eq_true_iff.mp h
  have hbare : ∀ c ∈ (splitMinus lexeme).2, isNumberChar c = true := by
    rw [← List.takeWhile_append_dropWhile (p := Char.isDigit) (l := (splitMinus lexeme).2)]
    exact List.forall_mem_append.mpr
      ⟨isNumberChar_of_takeWhile _, isNumberChar_of_isNumberTail htail⟩
  unfold splitMinus at hbare
  split at hbare
  · exact List.forall_mem_cons.mpr ⟨rfl, hbare⟩
  · exact hbare

theorem ne_nil_of_isNumber (h : isNumber lexeme = true) : lexeme ≠ [] := by
  rintro rfl
  cases h

theorem isBlank_of_isNumberChar (h : isNumberChar c = true) : Text.isBlank c = false := by
  simp only [isNumberChar, Bool.or_eq_true, beq_iff_eq] at h
  rcases h with ((((hdigit | rfl) | rfl) | rfl) | rfl) | rfl
  · exact isBlank_of_isDigit hdigit
  all_goals decide

/-! ### Digits -/

theorem isDigit_of_mem_toDigits {n : Nat} : ∀ c ∈ Nat.toDigits 10 n, c.isDigit = true :=
  fun _ hc => Nat.isDigit_of_mem_toDigits (by decide) (by decide) hc

/-- The digits of a positive number do not begin with a zero. -/
theorem head?_toDigits {n : Nat} (hn : 0 < n) : (Nat.toDigits 10 n).head? ≠ some '0' := by
  induction n using Nat.strong_induction_on with
  | _ n ih =>
    rw [Nat.toDigits_eq_if (by decide)]
    split
    · rename_i hlt
      have hsmall : ∀ m < 10, 0 < m → [Nat.digitChar m].head? ≠ some '0' := by decide
      exact hsmall n hlt hn
    · rename_i hge
      have hquotient := ih (n / 10) (by omega) (by omega)
      obtain ⟨c, cs, hcs⟩ := List.exists_cons_of_ne_nil (Nat.toDigits_ne_nil (n := n / 10) (b := 10))
      rw [hcs] at hquotient ⊢
      exact hquotient

theorem isNatural_of_head? (hne : cs ≠ []) (hall : ∀ c ∈ cs, c.isDigit = true)
    (hhead : cs.head? ≠ some '0') : isNatural cs = true := by
  have hdigits : cs.all Char.isDigit = true := List.all_eq_true.mpr hall
  unfold isNatural
  split
  · exact absurd rfl hne
  · rfl
  · rename_i c cs _
    have hzero : c ≠ '0' := fun heq => hhead (congrArg some heq)
    rw [hdigits, bne_iff_ne.mpr hzero]
    rfl

theorem isNatural_singleton (h : c.isDigit = true) : isNatural [c] = true := by
  by_cases hzero : c = '0'
  · subst hzero
    rfl
  · exact isNatural_of_head? nofun (List.forall_mem_singleton.mpr h) (by simpa using hzero)

theorem isNatural_toDigits (n : Nat) : isNatural (Nat.toDigits 10 n) = true := by
  rcases Nat.eq_zero_or_pos n with rfl | hn
  · decide
  · exact isNatural_of_head? Nat.toDigits_ne_nil isDigit_of_mem_toDigits (head?_toDigits hn)

theorem splitMinus_of_isDigit (h : ∀ c ∈ cs, c.isDigit = true) : splitMinus cs = (false, cs) := by
  unfold splitMinus
  split
  · exact absurd (h _ List.mem_cons_self) (by decide)
  · rfl

/-- **The digits of a natural number** have the form of a number. -/
theorem isNumber_toDigits (n : Nat) : isNumber (Nat.toDigits 10 n) = true := by
  have htake : (Nat.toDigits 10 n).takeWhile Char.isDigit = Nat.toDigits 10 n :=
    List.takeWhile_eq_self_iff.mpr isDigit_of_mem_toDigits
  have hdrop : (Nat.toDigits 10 n).dropWhile Char.isDigit = [] :=
    List.dropWhile_eq_nil_iff.mpr isDigit_of_mem_toDigits
  unfold isNumber
  simp only [splitMinus_of_isDigit isDigit_of_mem_toDigits, htake, hdrop, isNatural_toDigits]
  rfl

/-- **The digits of a natural number** have the number as their value. -/
theorem naturalValue?_toDigits (n : Nat) : naturalValue? (Nat.toDigits 10 n) = some n := by
  unfold naturalValue?
  rw [if_pos (isNatural_toDigits n), readNat?_toDigits]

theorem integerValue?_toDigits (n : Nat) : integerValue? (Nat.toDigits 10 n) = some n := by
  unfold integerValue?
  rw [splitMinus_of_isDigit isDigit_of_mem_toDigits]
  simp only [naturalValue?_toDigits, Option.map_some]
  rfl

end Harmony.Json
