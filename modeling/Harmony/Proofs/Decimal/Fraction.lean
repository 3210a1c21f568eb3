import Harmony.Decimal.Shortest
import Mathlib.Algebra.Order.Field.Power
import Mathlib.Algebra.Order.Ring.Rat
import Mathlib.Data.Rat.Cast.Order
import Mathlib.Tactic.FieldSimp
import Mathlib.Tactic.Linarith
import Mathlib.Tactic.Positivity
import Mathlib.Tactic.Ring

/-! # Fractions and their exponents

A fraction is a numerator and a denominator; what is proved of it is proved of the rational number that
it stands for.

* `ratio`, `ratio_binaryFraction`, `ratio_inUnits`: the rational number of a fraction.
* `exists_lastBit`: the last bit that a binary64 number keeps of a fraction.
* `ten_zpow_decimalExponent_le`: the search for the decimal exponent starts low enough. -/

namespace Harmony.Decimal

variable {num den : Nat}

/-- The rational number that a numerator and a denominator stand for. -/
def ratio (f : Nat × Nat) : ℚ := f.1 / f.2

theorem ratio_binaryFraction (m : Nat) (e : Int) : ratio (binaryFraction m e) = m * 2 ^ e := by
  cases e with
  | ofNat n =>
    show ((m * 2 ^ n : Nat) : ℚ) / (1 : Nat) = m * 2 ^ (n : Int)
    push_cast
    rw [zpow_natCast, div_one]
  | negSucc n =>
    show (m : ℚ) / ((2 ^ (n + 1) : Nat) : ℚ) = m * 2 ^ (Int.negSucc n)
    push_cast
    rw [zpow_negSucc, div_eq_mul_inv]

theorem binaryFraction_pos (m : Nat) (e : Int) : 0 < (binaryFraction m e).2 := by
  cases e with
  | ofNat n => exact Nat.one_pos
  | negSucc n => exact Nat.pow_pos (by decide)

theorem binaryFraction_num_pos {m : Nat} (hm : 0 < m) (e : Int) : 0 < (binaryFraction m e).1 := by
  cases e with
  | ofNat n => exact Nat.mul_pos hm (Nat.pow_pos (by decide))
  | negSucc n => exact hm

theorem ratio_inUnits (k : Int) (num den : Nat) :
    ratio (inUnits k num den) = ratio (num, den) / 10 ^ k := by
  cases k with
  | ofNat n =>
    show (num : ℚ) / ((den * 10 ^ n : Nat) : ℚ) = num / den / 10 ^ (n : Int)
    push_cast
    rw [zpow_natCast, div_div]
  | negSucc n =>
    show ((num * 10 ^ (n + 1) : Nat) : ℚ) / den = num / den / 10 ^ (Int.negSucc n)
    push_cast
    rw [zpow_negSucc, div_inv_eq_mul, div_mul_eq_mul_div]

theorem inUnits_pos (k : Int) (num : Nat) (h : 0 < den) : 0 < (inUnits k num den).2 := by
  cases k with
  | ofNat n => exact Nat.mul_pos h (Nat.pow_pos (by decide))
  | negSucc n => exact h

/-- Fractions are compared without dividing. -/
theorem ratio_lt_ratio_iff {f g : Nat × Nat} (hf : 0 < f.2) (hg : 0 < g.2) :
    ratio f < ratio g ↔ f.1 * g.2 < f.2 * g.1 := by
  unfold ratio
  rw [div_lt_div_iff₀ (by exact_mod_cast hf) (by exact_mod_cast hg), Nat.mul_comm f.2]
  exact_mod_cast Iff.rfl

theorem one_le_ratio_iff {f : Nat × Nat} (hf : 0 < f.2) : 1 ≤ ratio f ↔ f.2 ≤ f.1 := by
  unfold ratio
  rw [one_le_div (by exact_mod_cast hf)]
  exact_mod_cast Iff.rfl

/-! ### Binary exponents -/

theorem two_zpow_log2_le (hnum : 0 < num) (hden : 0 < den) :
    (2 : ℚ) ^ ((num.log2 : Int) - den.log2 - 1) < ratio (num, den) := by
  have hlow : ((2 ^ num.log2 : Nat) : ℚ) ≤ num := by exact_mod_cast Nat.log2_self_le hnum.ne'
  have hhigh : (den : ℚ) < ((2 ^ (den.log2 + 1) : Nat) : ℚ) := by exact_mod_cast Nat.lt_log2_self
  push_cast at hlow hhigh
  have hden' : (0 : ℚ) < den := by exact_mod_cast hden
  have hexponent :
      (num.log2 : Int) - den.log2 - 1 = (num.log2 : Int) - ((den.log2 + 1 : Nat) : Int) := by
    push_cast
    ring
  show _ < (num : ℚ) / den
  rw [hexponent, zpow_sub₀ (by norm_num), zpow_natCast, zpow_natCast,
    div_lt_div_iff₀ (by positivity) hden']
  calc (2 : ℚ) ^ num.log2 * den < 2 ^ num.log2 * 2 ^ (den.log2 + 1) := by gcongr
    _ ≤ num * 2 ^ (den.log2 + 1) := by gcongr

theorem ratio_lt_two_zpow_log2 (num : Nat) (hden : 0 < den) :
    ratio (num, den) < (2 : ℚ) ^ ((num.log2 : Int) - den.log2 + 1) := by
  have hlow : ((2 ^ den.log2 : Nat) : ℚ) ≤ den := by exact_mod_cast Nat.log2_self_le hden.ne'
  have hhigh : (num : ℚ) < ((2 ^ (num.log2 + 1) : Nat) : ℚ) := by exact_mod_cast Nat.lt_log2_self
  push_cast at hlow hhigh
  have hden' : (0 : ℚ) < den := by exact_mod_cast hden
  have hexponent : (num.log2 : Int) - den.log2 + 1 = ((num.log2 + 1 : Nat) : Int) - den.log2 := by
    push_cast
    ring
  show (num : ℚ) / den < _
  rw [hexponent, zpow_sub₀ (by norm_num), zpow_natCast, zpow_natCast,
    div_lt_div_iff₀ hden' (by positivity)]
  calc (num : ℚ) * 2 ^ den.log2 < 2 ^ (num.log2 + 1) * 2 ^ den.log2 := by gcongr
    _ ≤ 2 ^ (num.log2 + 1) * den := by gcongr

theorem log2_binaryFraction {m : Nat} (hm : 0 < m) (e : Int) :
    ((binaryFraction m e).1.log2 : Int) - (binaryFraction m e).2.log2 = m.log2 + e := by
  cases e with
  | ofNat n =>
    have hne : m * 2 ^ n ≠ 0 := by positivity
    have hlog : (m * 2 ^ n).log2 = m.log2 + n := by
      rw [Nat.log2_eq_iff hne, Nat.pow_add, Nat.add_right_comm, Nat.pow_add]
      exact ⟨Nat.mul_le_mul_right _ (Nat.log2_self_le hm.ne'),
        Nat.mul_lt_mul_of_pos_right Nat.lt_log2_self (by positivity)⟩
    show (((m * 2 ^ n).log2 : Nat) : Int) - ((1 : Nat).log2 : Nat) = m.log2 + (n : Int)
    rw [hlog, show (1 : Nat).log2 = 0 by decide]
    omega
  | negSucc n =>
    show (m.log2 : Int) - ((2 ^ (n + 1)).log2 : Nat) = m.log2 + Int.negSucc n
    rw [Nat.log2_two_pow]
    omega

/-- **The last bit that is kept** lies 52 places below the first, but not below the least exponent. -/
theorem exists_lastBit (hnum : 0 < num) (hden : 0 < den) :
    ∃ e : Int, 2 ^ e ≤ ratio (num, den) ∧ ratio (num, den) < 2 ^ (e + 1) ∧
      lastBit num den = max (e - 52) (-1074) := by
  have hlow := two_zpow_log2_le hnum hden
  have hhigh := ratio_lt_two_zpow_log2 num hden
  have htest := ratio_lt_ratio_iff (f := (num, den)) hden
    (binaryFraction_pos 1 ((num.log2 : Int) - den.log2))
  rw [ratio_binaryFraction, Nat.cast_one, one_mul] at htest
  unfold lastBit
  simp only
  split
  · refine ⟨_, hlow.le, ?_, rfl⟩
    rw [sub_add_cancel]
    exact htest.mpr ‹_›
  · exact ⟨_, not_lt.mp fun h => ‹¬ _› (htest.mp h), hhigh, rfl⟩

/-! ### Decimal exponents -/

theorem ten_zpow_exponentFrom_le (hden : 0 < den) {e : Int} (h : (10 : ℚ) ^ e ≤ ratio (num, den))
    (steps : Nat) : (10 : ℚ) ^ exponentFrom num den steps e ≤ ratio (num, den) := by
  induction steps generalizing e with
  | zero => exact h
  | succ steps ih =>
    have htest := one_le_ratio_iff (inUnits_pos (e + 1) num hden)
    rw [ratio_inUnits, one_le_div (by positivity)] at htest
    unfold exponentFrom
    simp only
    split
    · exact ih (htest.mpr ‹_›)
    · exact h

/-- The search starts low enough: `30103 / 100000` is so close to the logarithm of two that the powers
of the exponents of binary64 numbers keep their order. -/
theorem ten_zpow_start_le {bits : Int} (hlow : -1100 < bits) (hhigh : bits < 1100) :
    (10 : ℚ) ^ ((bits * 30103).fdiv 100000 - 1) ≤ 2 ^ bits := by
  have hup : ∀ n < 1100, 10 ^ (n * 30103 / 100000) ≤ 10 * 2 ^ n := by decide +kernel
  have hdown : ∀ n < 1100, 2 ^ n ≤ 10 ^ ((n * 30103 + 99999) / 100000 + 1) := by decide +kernel
  have hdiv : (bits * 30103).fdiv 100000 = bits * 30103 / 100000 :=
    Int.fdiv_eq_ediv_of_nonneg _ (by decide)
  rw [hdiv]
  obtain ⟨n, rfl | rfl⟩ := Int.eq_nat_or_neg bits
  · have hpow : ((10 ^ (n * 30103 / 100000) : Nat) : ℚ) ≤ ((10 * 2 ^ n : Nat) : ℚ) := by
      exact_mod_cast hup n (by omega)
    have hexponent : (n : Int) * 30103 / 100000 = ((n * 30103 / 100000 : Nat) : Int) := by omega
    push_cast at hpow
    rw [hexponent, zpow_sub₀ (by norm_num), zpow_one, zpow_natCast, zpow_natCast,
      div_le_iff₀ (by norm_num)]
    linarith
  · have hpow : ((2 ^ n : Nat) : ℚ) ≤ ((10 ^ ((n * 30103 + 99999) / 100000 + 1) : Nat) : ℚ) := by
      exact_mod_cast hdown n (by omega)
    have hexponent : -(n : Int) * 30103 / 100000 - 1 =
        -(((n * 30103 + 99999) / 100000 + 1 : Nat) : Int) := by omega
    push_cast at hpow
    rw [hexponent, zpow_neg, zpow_neg, zpow_natCast, zpow_natCast]
    gcongr

/-- **The decimal exponent of a fraction** is low enough, where the fraction is in the range of
binary64 numbers. -/
theorem ten_zpow_decimalExponent_le (hnum : 0 < num) (hden : 0 < den)
    (hlow : -1099 < (num.log2 : Int) - den.log2) (hhigh : (num.log2 : Int) - den.log2 < 1100) :
    (10 : ℚ) ^ decimalExponent num den ≤ ratio (num, den) := by
  refine ten_zpow_exponentFrom_le hden ?_ 4
  exact (ten_zpow_start_le (by omega) (by omega)).trans (two_zpow_log2_le hnum hden).le

end Harmony.Decimal
