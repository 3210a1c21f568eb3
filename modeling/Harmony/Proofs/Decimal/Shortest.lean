import Harmony.Proofs.Decimal.Nearest

/-! # The shortest digits round to the number

The search for the shortest decimal stops in the interval of the number, and it does stop there: once
the unit is no more than a quarter of the last bit, the multiple below the number is near enough. That
is so eighteen places below the first digit.

* `holds_iff`: the test of the search.
* `roundsTo_shortestFrom`: the search, by induction on its steps.
* `roundsTo_shortest`: the shortest decimal rounds to the number. -/

namespace Harmony.Decimal

variable {m c : Nat} {e k : Int} {tie : Tie}

/-- The rational number that a decimal stands for. -/
def Digits.value (d : Digits) : ℚ := d.coefficient * 10 ^ d.exponent

/-! ### The test -/

/-- A quarter of the last bit in units of `10 ^ k`, as a fraction. -/
def quarter (e k : Int) : Nat × Nat :=
  inUnits k (binaryFraction 1 (e - 2)).1 (binaryFraction 1 (e - 2)).2

theorem quarter_pos (e k : Int) : 0 < (quarter e k).2 :=
  inUnits_pos k _ (binaryFraction_pos 1 (e - 2))

theorem ratio_quarter (e k : Int) : ratio (quarter e k) = 2 ^ e / 4 / 10 ^ k := by
  unfold quarter
  rw [ratio_inUnits, ratio_binaryFraction, Nat.cast_one, one_mul, zpow_sub₀ (by norm_num)]
  norm_num

theorem quarter_fst_eq (e k : Int) :
    ((quarter e k).1 : ℚ) = 2 ^ e / 4 / 10 ^ k * (quarter e k).2 := by
  have hpos : (0 : ℚ) < (quarter e k).2 := by exact_mod_cast quarter_pos e k
  exact (div_eq_iff hpos.ne').mp (ratio_quarter e k)

/-- Quarters of the last bit are compared with multiples of `10 ^ k`. -/
theorem quarters_lt_iff (x c : Nat) :
    x * (quarter e k).1 < c * (quarter e k).2 ↔ (x / 4 : ℚ) * 2 ^ e < c * 10 ^ k := by
  have hpos : (0 : ℚ) < (quarter e k).2 := by exact_mod_cast quarter_pos e k
  have hcast : x * (quarter e k).1 < c * (quarter e k).2 ↔
      (x : ℚ) * (quarter e k).1 < c * (quarter e k).2 := by exact_mod_cast Iff.rfl
  rw [hcast, quarter_fst_eq, ← mul_assoc, mul_lt_mul_iff_left₀ hpos, mul_div_assoc',
    div_lt_iff₀ (by positivity), mul_div_assoc', mul_div_right_comm]

theorem lt_quarters_iff (x c : Nat) :
    c * (quarter e k).2 < x * (quarter e k).1 ↔ (c : ℚ) * 10 ^ k < x / 4 * 2 ^ e := by
  have hpos : (0 : ℚ) < (quarter e k).2 := by exact_mod_cast quarter_pos e k
  have hcast : c * (quarter e k).2 < x * (quarter e k).1 ↔
      (c : ℚ) * (quarter e k).2 < x * (quarter e k).1 := by exact_mod_cast Iff.rfl
  rw [hcast, quarter_fst_eq, ← mul_assoc, mul_lt_mul_iff_left₀ hpos, mul_div_assoc',
    lt_div_iff₀ (by positivity), mul_div_assoc', mul_div_right_comm]

theorem quarters_le_iff (x c : Nat) :
    x * (quarter e k).1 ≤ c * (quarter e k).2 ↔ (x / 4 : ℚ) * 2 ^ e ≤ c * 10 ^ k := by
  rw [← not_lt, ← not_lt, lt_quarters_iff]

theorem le_quarters_iff (x c : Nat) :
    c * (quarter e k).2 ≤ x * (quarter e k).1 ↔ (c : ℚ) * 10 ^ k ≤ x / 4 * 2 ^ e := by
  rw [← not_lt, ← not_lt, quarters_lt_iff]

theorem quarters_low (hm : 0 < m) (e : Int) :
    ((4 * m - if m = Nat.pow 2 52 ∧ -1074 < e then 1 else 2 : Nat) : ℚ) / 4 = m - reachBelow m e := by
  rw [Nat.cast_sub (by split <;> omega)]
  unfold reachBelow
  split
  · rw [if_pos ‹_›]
    push_cast
    ring
  · rw [if_neg ‹_›]
    push_cast
    ring

/-- **The test of the search**: does the multiple of `10 ^ k` round to the number? -/
theorem holds_iff (hm : 0 < m) :
    (Scaled.of m e k).holds c = true ↔ RoundsTo m e (c * 10 ^ k) := by
  have hhigh : ((4 * m + 2 : Nat) : ℚ) / 4 = m + 1 / 2 := by
    push_cast
    ring
  have hholds : (Scaled.of m e k).holds c =
      if (m % 2 == 0) = true then
        decide ((4 * m - if m = Nat.pow 2 52 ∧ -1074 < e then 1 else 2) * (quarter e k).1 ≤
          c * (quarter e k).2) && decide (c * (quarter e k).2 ≤ (4 * m + 2) * (quarter e k).1)
      else
        decide ((4 * m - if m = Nat.pow 2 52 ∧ -1074 < e then 1 else 2) * (quarter e k).1 <
          c * (quarter e k).2) && decide (c * (quarter e k).2 < (4 * m + 2) * (quarter e k).1) := rfl
  unfold RoundsTo
  rw [hholds, ← quarters_low hm e, ← hhigh]
  by_cases heven : m % 2 = 0
  · rw [if_pos (beq_iff_eq.mpr heven), if_pos heven, Bool.and_eq_true, decide_eq_true_eq,
      decide_eq_true_eq, quarters_le_iff, le_quarters_iff]
  · rw [if_neg (mt beq_iff_eq.mp heven), if_neg heven, Bool.and_eq_true, decide_eq_true_eq,
      decide_eq_true_eq, quarters_lt_iff, lt_quarters_iff]

theorem roundDiv_eq_or (num den : Nat) (tie : Tie) :
    roundDiv num den tie = num / den ∨ roundDiv num den tie = num / den + 1 := by
  unfold roundDiv
  simp only
  split
  · exact .inl rfl
  · split
    · cases tie
      · simp only
        omega
      · exact .inr rfl
    · exact .inr rfl

theorem holds_of_nearest? {s : Scaled} (h : s.nearest? tie = some c) : s.holds c = true := by
  unfold Scaled.nearest? at h
  simp only at h
  split at h
  · obtain rfl := Option.some.inj h
    rcases roundDiv_eq_or s.value s.denominator tie with heq | heq <;> rw [heq] <;> assumption
  · obtain rfl := Option.some.inj h
    assumption
  · obtain rfl := Option.some.inj h
    assumption
  · cases h

/-! ### The search -/

/-- A unit that is at most a quarter of the last bit is small enough. -/
theorem holds_floor (hm : 0 < m) (h : 4 * (10 : ℚ) ^ k ≤ 2 ^ e) :
    (Scaled.of m e k).holds
      ((Scaled.of m e k).value / (Scaled.of m e k).denominator) = true := by
  have hvalue : ((4 * m : Nat) : ℚ) / 4 = m := by
    push_cast
    ring
  have hfloor : (Scaled.of m e k).value / (Scaled.of m e k).denominator =
      4 * m * (quarter e k).1 / (quarter e k).2 := rfl
  have hle := (le_quarters_iff _ _).mp (Nat.div_mul_le_self (4 * m * (quarter e k).1) (quarter e k).2)
  have hlt := (quarters_lt_iff _ _).mp
    (Nat.lt_mul_of_div_lt (Nat.lt_succ_self (4 * m * (quarter e k).1 / (quarter e k).2))
      (quarter_pos e k))
  rw [holds_iff hm, hfloor]
  rw [hvalue] at hle hlt
  refine .of_near ?_ hle
  push_cast at hlt ⊢
  linarith

theorem exists_nearest? (tie : Tie) {s : Scaled} (h : s.holds (s.value / s.denominator) = true) :
    ∃ c, s.nearest? tie = some c := by
  unfold Scaled.nearest?
  simp only [h]
  split
  · exact ⟨_, rfl⟩
  · exact ⟨_, rfl⟩
  · simp_all
  · simp_all

/-- **The search** ends with a decimal that rounds to the number, if the last unit that it comes to is
small enough. -/
theorem roundsTo_shortestFrom (hm : 0 < m) (tie : Tie) {steps : Nat} (hsteps : 0 < steps)
    (h : 4 * (10 : ℚ) ^ (k - steps + 1) ≤ 2 ^ e) :
    RoundsTo m e (shortestFrom m e tie steps k).value := by
  induction steps generalizing k with
  | zero => exact absurd hsteps (Nat.lt_irrefl 0)
  | succ steps ih =>
    unfold shortestFrom
    split
    · exact (holds_iff hm).mp (holds_of_nearest? ‹_›)
    · rename_i hnone
      refine ih (Nat.pos_of_ne_zero ?_) ?_
      · rintro rfl
        obtain ⟨c, hc⟩ := exists_nearest? tie (holds_floor hm (k := k) (by simpa using h))
        rw [hnone] at hc
        cases hc
      · refine le_of_eq_of_le ?_ h
        push_cast
        congr 2
        ring

/-- **The shortest decimal rounds to the number.** -/
theorem roundsTo_shortest (hm : 0 < m) (hbinary : IsBinary m e) (tie : Tie) :
    RoundsTo m e (shortest m e tie).value := by
  obtain ⟨hlt, hleast, hgreatest, -⟩ := hbinary
  have hlog := log2_binaryFraction hm e
  have hbits : m.log2 < 53 := (Nat.log2_lt hm.ne').mpr hlt
  have hmantissa : (m : ℚ) ≤ 2 ^ 53 := by exact_mod_cast hlt.le
  have hpow : (0 : ℚ) < 2 ^ e := by positivity
  have hexponent : (10 : ℚ) ^ decimalExponent (binaryFraction m e).1 (binaryFraction m e).2 ≤
      m * 2 ^ e := by
    rw [← ratio_binaryFraction]
    exact ten_zpow_decimalExponent_le (binaryFraction_num_pos hm e) (binaryFraction_pos m e) (by omega)
      (by omega)
  have hlast : 4 * (10 : ℚ) ^ (decimalExponent (binaryFraction m e).1 (binaryFraction m e).2 - 18) ≤
      2 ^ e := by
    rw [zpow_sub₀ (by norm_num)]
    calc 4 * ((10 : ℚ) ^ decimalExponent (binaryFraction m e).1 (binaryFraction m e).2 / 10 ^ (18 : Int))
        ≤ 4 * (2 ^ 53 * 2 ^ e / 10 ^ (18 : Int)) := by gcongr; exact hexponent.trans (by gcongr)
      _ ≤ 2 ^ e := by norm_num; linarith
  show RoundsTo m e (shortestFrom m e tie 20
    (decimalExponent (binaryFraction m e).1 (binaryFraction m e).2 + 1)).value
  refine roundsTo_shortestFrom hm tie (by decide) (le_of_eq_of_le ?_ hlast)
  push_cast
  congr 2
  ring

end Harmony.Decimal
