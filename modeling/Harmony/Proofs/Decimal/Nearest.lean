import Harmony.Proofs.Decimal.Fraction
import Mathlib.Algebra.Order.Ring.Abs

/-! # The numbers that round to a binary64 number

A positive finite binary64 number `m · 2 ^ e` is the nearest one to every number in an interval around
it. The interval reaches half a unit up and down, but only a quarter down where `m` is a power of two and
the neighbour below is nearer. The ends belong to it where `m` is even.

* `IsBinary`: the mantissas and exponents of finite numbers.
* `RoundsTo`: a number lies in the interval.
* `nearestBits_of_roundsTo`: such a number has the bits of `m · 2 ^ e`. -/

namespace Harmony.Decimal

variable {num den m : Nat} {e : Int} {v : ℚ}

/-- The mantissa and the exponent of a finite binary64 number. -/
structure IsBinary (m : Nat) (e : Int) : Prop where
  mantissa_lt : m < 2 ^ 53
  least_le : -1074 ≤ e
  le_greatest : e ≤ 971
  normal : 2 ^ 52 ≤ m ∨ e = -1074

/-- How far the interval reaches down, in units of `2 ^ e`. -/
def reachBelow (m : Nat) (e : Int) : ℚ := if m = 2 ^ 52 ∧ -1074 < e then 1 / 4 else 1 / 2

/-- **The number rounds to** `m · 2 ^ e`. -/
def RoundsTo (m : Nat) (e : Int) (v : ℚ) : Prop :=
  if m % 2 = 0 then (m - reachBelow m e) * 2 ^ e ≤ v ∧ v ≤ (m + 1 / 2) * 2 ^ e
  else (m - reachBelow m e) * 2 ^ e < v ∧ v < (m + 1 / 2) * 2 ^ e

theorem reachBelow_le : reachBelow m e ≤ 1 / 2 := by
  unfold reachBelow
  split <;> norm_num

theorem le_reachBelow : 1 / 4 ≤ reachBelow m e := by
  unfold reachBelow
  split <;> norm_num

namespace RoundsTo

theorem le (h : RoundsTo m e v) : (m - reachBelow m e) * 2 ^ e ≤ v := by
  unfold RoundsTo at h
  split at h
  · exact h.1
  · exact h.1.le

theorem ge (h : RoundsTo m e v) : v ≤ (m + 1 / 2) * 2 ^ e := by
  unfold RoundsTo at h
  split at h
  · exact h.2
  · exact h.2.le

theorem half_le (h : RoundsTo m e v) : (m - 1 / 2) * 2 ^ e ≤ v :=
  le_trans (by gcongr; exact reachBelow_le) h.le

theorem pos (h : RoundsTo m e v) (hm : 0 < m) : 0 < v := by
  have hm' : (1 : ℚ) ≤ m := by exact_mod_cast hm
  have hlow : (0 : ℚ) < (m - 1 / 2) * 2 ^ e := mul_pos (by linarith) (by positivity)
  exact hlow.trans_le h.half_le

theorem pos_of_mul {c : Nat} {unit : ℚ} (h : RoundsTo m e (c * unit)) (hm : 0 < m) : 0 < c := by
  refine Nat.pos_of_ne_zero fun hzero => ?_
  have hpos := h.pos hm
  rw [hzero, Nat.cast_zero, zero_mul] at hpos
  exact lt_irrefl _ hpos

/-- In units of `2 ^ e` the number is at most half a unit away. -/
theorem near (h : RoundsTo m e v) : |v / 2 ^ e - m| ≤ 1 / 2 := by
  have hpos : (0 : ℚ) < 2 ^ e := by positivity
  have hlow : (m : ℚ) - 1 / 2 ≤ v / 2 ^ e := (le_div_iff₀ hpos).mpr h.half_le
  have hhigh : v / 2 ^ e ≤ m + 1 / 2 := (div_le_iff₀ hpos).mpr h.ge
  rw [abs_le]
  constructor <;> linarith

theorem near_of_odd (h : RoundsTo m e v) (hodd : m % 2 = 1) : |v / 2 ^ e - m| < 1 / 2 := by
  have hpos : (0 : ℚ) < 2 ^ e := by positivity
  have hreach : reachBelow m e = 1 / 2 := if_neg fun hpow => by omega
  unfold RoundsTo at h
  rw [if_neg (by omega), hreach] at h
  have hlow : (m : ℚ) - 1 / 2 < v / 2 ^ e := (lt_div_iff₀ hpos).mpr h.1
  have hhigh : v / 2 ^ e < m + 1 / 2 := (div_lt_iff₀ hpos).mpr h.2
  rw [abs_lt]
  constructor <;> linarith

/-- What is a little less than the number rounds to it. -/
theorem of_near (hlow : (m - 1 / 4) * 2 ^ e < v) (hhigh : v ≤ m * 2 ^ e) : RoundsTo m e v := by
  have hpos : (0 : ℚ) < 2 ^ e := by positivity
  have hbelow : (m - reachBelow m e) * 2 ^ e < v :=
    lt_of_le_of_lt (by gcongr; exact le_reachBelow) hlow
  have habove : v < (m + 1 / 2) * 2 ^ e := by linarith
  unfold RoundsTo
  split
  · exact ⟨hbelow.le, habove.le⟩
  · exact ⟨hbelow, habove⟩

end RoundsTo

/-! ### Rounding to an integer -/

theorem ratio_mul_mul (f g : Nat × Nat) : ratio (f.1 * g.2, f.2 * g.1) = ratio f / ratio g := by
  unfold ratio
  push_cast
  rw [div_div_div_eq]

theorem abs_ratio_sub_roundDiv_le (num : Nat) (hden : 0 < den) (tie : Tie) :
    |ratio (num, den) - roundDiv num den tie| ≤ 1 / 2 := by
  obtain ⟨hlow, hhigh⟩ := roundDiv_near num hden tie
  generalize roundDiv num den tie = c at hlow hhigh ⊢
  have hden' : (0 : ℚ) < den := by exact_mod_cast hden
  have hlow' : (2 : ℚ) * (c * den) ≤ 2 * num + den := by exact_mod_cast hlow
  have hhigh' : (2 : ℚ) * num ≤ 2 * (c * den) + den := by exact_mod_cast hhigh
  show |(num : ℚ) / den - c| ≤ 1 / 2
  rw [abs_le]
  constructor
  · rw [neg_le_sub_iff_le_add, div_add' _ _ _ hden'.ne', le_div_iff₀ hden']
    linarith
  · rw [sub_le_iff_le_add, div_le_iff₀ hden']
    linarith

/-- In the middle of two integers the even one is taken. -/
theorem even_roundDiv_of_tie (num : Nat) (hden : 0 < den)
    (h : |ratio (num, den) - roundDiv num den .toEven| = 1 / 2) :
    roundDiv num den .toEven % 2 = 0 := by
  have hden' : (den : ℚ) ≠ 0 := by exact_mod_cast hden.ne'
  have hnum := Nat.div_add_mod num den
  have hmod := Nat.mod_lt num hden
  have hratio : ratio (num, den) = (num / den : Nat) + (num % den : Nat) / (den : ℚ) := by
    show (num : ℚ) / den = _
    rw [eq_comm, add_div' _ _ _ hden']
    congr 1
    rw [mul_comm]
    exact_mod_cast hnum
  have htwice : ∀ n : Nat, (n : ℚ) / den = 1 / 2 → 2 * n = den := fun n hn => by
    rw [div_eq_div_iff hden' (by norm_num)] at hn
    have : n * 2 = 1 * den := by exact_mod_cast hn
    omega
  unfold roundDiv at h ⊢
  simp only at h ⊢
  rw [hratio] at h
  by_cases hlt : 2 * (num % den) < den
  · rw [if_pos hlt, add_sub_cancel_left, abs_of_nonneg (by positivity)] at h
    exact absurd (htwice _ h) hlt.ne
  · rw [if_neg hlt] at h ⊢
    by_cases heq : 2 * (num % den) = den
    · rw [if_pos heq]
      omega
    · rw [if_neg heq] at h
      have hrest : (num / den : Nat) + (num % den : Nat) / (den : ℚ) - (num / den + 1 : Nat) =
          -((den - num % den : Nat) / (den : ℚ)) := by
        rw [Nat.cast_sub hmod.le]
        push_cast
        field_simp
        ring
      rw [hrest, abs_neg, abs_of_nonneg (by positivity)] at h
      have := htwice _ h
      omega

/-- **The nearest integer** of a fraction, ties to even. -/
theorem roundDiv_toEven_eq {f : Nat × Nat} (hf : 0 < f.2) (hnear : |ratio f - m| ≤ 1 / 2)
    (hodd : m % 2 = 1 → |ratio f - m| < 1 / 2) : roundDiv f.1 f.2 .toEven = m := by
  have hround := abs_ratio_sub_roundDiv_le f.1 hf .toEven
  have htie := even_roundDiv_of_tie f.1 hf
  change |ratio f - _| ≤ 1 / 2 at hround
  change |ratio f - _| = 1 / 2 → _ at htie
  generalize roundDiv f.1 f.2 .toEven = c at hround htie ⊢
  by_contra hne
  have hgap : (1 : ℚ) ≤ |(c : ℚ) - m| := by
    exact_mod_cast Int.one_le_abs (show (c : Int) - m ≠ 0 by omega)
  have hsum : |(c : ℚ) - m| ≤ |ratio f - c| + |ratio f - m| := by
    rw [abs_sub_comm (ratio f) c]
    exact abs_sub_le _ _ _
  -- both are half a unit away, so both would be even
  have hc : c % 2 = 0 := htie (by linarith)
  have hm : m % 2 = 0 := by
    by_contra h
    have := hodd (by omega)
    linarith
  have hclose : |(c : ℚ) - m| ≤ 1 := by linarith
  have hone : |(c : Int) - m| ≤ 1 := by exact_mod_cast hclose
  rw [abs_le] at hone
  omega

/-! ### Rounding to a binary64 number -/

theorem lastBit_eq (hnum : 0 < num) (hden : 0 < den) (he : -1074 ≤ e)
    (hlow : 2 ^ (e + 52) ≤ ratio (num, den) ∨ e = -1074) (hhigh : ratio (num, den) < 2 ^ (e + 53)) :
    lastBit num den = e := by
  obtain ⟨b, hb, hb', hlast⟩ := exists_lastBit hnum hden
  have hle : b < e + 53 := (zpow_lt_zpow_iff_right₀ (by norm_num : (1 : ℚ) < 2)).mp (hb.trans_lt hhigh)
  have hge : e + 52 ≤ b ∨ e = -1074 := hlow.imp_left fun h => by
    have := (zpow_lt_zpow_iff_right₀ (by norm_num : (1 : ℚ) < 2)).mp (h.trans_lt hb')
    omega
  rw [hlast]
  omega

theorem nearestBits_eq (hnum : 0 < num) (hden : 0 < den) (he : -1074 ≤ e)
    (hlow : 2 ^ (e + 52) ≤ ratio (num, den) ∨ e = -1074) (hhigh : ratio (num, den) < 2 ^ (e + 53))
    (hnear : |ratio (num, den) / 2 ^ e - m| ≤ 1 / 2)
    (hodd : m % 2 = 1 → |ratio (num, den) / 2 ^ e - m| < 1 / 2) :
    nearestBits num den = min ((e + 1074).toNat * 2 ^ 52 + m) (2047 * 2 ^ 52) := by
  have hunit : ratio (binaryFraction 1 e) = 2 ^ e := by
    rw [ratio_binaryFraction, Nat.cast_one, one_mul]
  have hratio : ratio (num * (binaryFraction 1 e).2, den * (binaryFraction 1 e).1) =
      ratio (num, den) / 2 ^ e := by
    rw [← hunit]
    exact ratio_mul_mul (num, den) _
  have hpos : 0 < den * (binaryFraction 1 e).1 := by
    refine Nat.mul_pos hden (Nat.pos_of_ne_zero fun hzero => ?_)
    have hpow : (0 : ℚ) < 2 ^ e := by positivity
    unfold ratio at hunit
    rw [hzero, Nat.cast_zero, zero_div] at hunit
    exact hpow.ne hunit
  have hround := roundDiv_toEven_eq hpos (by rwa [hratio]) (by rwa [hratio])
  unfold nearestBits
  rw [if_neg hnum.ne', lastBit_eq hnum hden he hlow hhigh]
  simp only [hround]
  rfl

/-- Below a power of two the interval reaches into numbers of which one more bit is kept. -/
theorem eq_two_pow_of_lt (hnormal : 2 ^ 52 ≤ m) (h : RoundsTo m e v) (hv : v < 2 ^ (e + 52)) :
    m = 2 ^ 52 := by
  have hpow : (0 : ℚ) < 2 ^ e := by positivity
  rw [zpow_add₀ (by norm_num), mul_comm] at hv
  have hlt : (m : ℚ) - 1 / 2 < 2 ^ (52 : Int) := by
    refine (mul_lt_mul_iff_left₀ hpow).mp ?_
    exact h.half_le.trans_lt hv
  by_contra hne
  have hle : (2 : ℚ) ^ 52 + 1 ≤ m := by exact_mod_cast (show 2 ^ 52 + 1 ≤ m by omega)
  rw [zpow_ofNat] at hlt
  linarith

/-- Below a power of two one more bit is kept, and the mantissa rounds up to twice `2 ^ 52`. -/
theorem nearestBits_below_power (hnum : 0 < num) (hden : 0 < den) (hleast : -1074 < e) (hgreatest : e ≤ 971)
    (h : RoundsTo (2 ^ 52) e (ratio (num, den))) (hbelow : ratio (num, den) < 2 ^ (e + 52)) :
    nearestBits num den = (e + 1074).toNat * 2 ^ 52 + 2 ^ 52 := by
  have hreach : reachBelow (2 ^ 52) e = 1 / 4 := if_pos ⟨rfl, hleast⟩
  have hpow : (0 : ℚ) < 2 ^ (e - 1) := by positivity
  have hunit : (2 : ℚ) ^ e = 2 ^ (e - 1) * 2 := by
    rw [← zpow_add_one₀ (by norm_num), sub_add_cancel]
  have hhigh : ratio (num, den) < 2 ^ (e - 1 + 53) := by
    rwa [show e - 1 + 53 = e + 52 by ring]
  have hquotient : ratio (num, den) / 2 ^ (e - 1) < 2 ^ 53 := by
    rwa [div_lt_iff₀ hpow, ← zpow_ofNat, ← zpow_add₀ (by norm_num), add_comm]
  have habove : 2 ^ 53 - 1 / 2 ≤ ratio (num, den) / 2 ^ (e - 1) := by
    have hquarter := h.le
    rw [hreach, hunit] at hquarter
    rw [le_div_iff₀ hpow]
    push_cast at hquarter
    linarith
  have hlow : (2 : ℚ) ^ (e - 1 + 52) ≤ ratio (num, den) := by
    rw [add_comm, zpow_add₀ (by norm_num), zpow_ofNat, ← le_div_iff₀ hpow]
    exact le_trans (by norm_num) habove
  rw [nearestBits_eq hnum hden (e := e - 1) (m := 2 ^ 53) (by omega) (.inl hlow) hhigh]
  · omega
  · rw [abs_le]
    push_cast
    constructor <;> linarith
  · intro hodd
    norm_num at hodd

/-- **What rounds to a number has its bits.** -/
theorem nearestBits_of_roundsTo {f : Nat × Nat} (hden : 0 < f.2) (hm : 0 < m)
    (hbinary : IsBinary m e) (h : RoundsTo m e (ratio f)) :
    nearestBits f.1 f.2 = (e + 1074).toNat * 2 ^ 52 + m := by
  obtain ⟨num, den⟩ := f
  obtain ⟨hlt, hleast, hgreatest, hnormal⟩ := hbinary
  have hnum : 0 < num := by
    refine Nat.pos_of_ne_zero fun hzero => ?_
    have hpos := h.pos hm
    unfold ratio at hpos
    simp [hzero] at hpos
  by_cases hlow : 2 ^ (e + 52) ≤ ratio (num, den) ∨ e = -1074
  · have hpow : (0 : ℚ) < 2 ^ e := by positivity
    have hhigh : ratio (num, den) < 2 ^ (e + 53) := by
      have hmantissa : (m : ℚ) + 1 ≤ 2 ^ 53 := by exact_mod_cast hlt
      rw [zpow_add₀ (by norm_num), mul_comm]
      refine h.ge.trans_lt ((mul_lt_mul_iff_left₀ hpow).mpr ?_)
      exact (show (m : ℚ) + 1 / 2 < m + 1 by linarith).trans_le hmantissa
    rw [nearestBits_eq hnum hden hleast hlow hhigh h.near h.near_of_odd]
    omega
  · obtain ⟨hbelow, hne⟩ := not_or.mp hlow
    rw [not_le] at hbelow
    obtain rfl := eq_two_pow_of_lt (hnormal.resolve_right hne) h hbelow
    exact nearestBits_below_power hnum hden (by omega) hgreatest h hbelow

end Harmony.Decimal
