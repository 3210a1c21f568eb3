import Harmony.Decimal.Reading
import Harmony.Decimal.Text
import Harmony.Proofs.Decimal
import Harmony.Proofs.Decimal.Bits
import Harmony.Proofs.Decimal.Shortest

/-! # Decimals that are read back

The nearest binary64 number to a decimal depends on its value only, and it is found for all values that
round to a finite number: the exponents at which the reader stops are out of their reach.

* `nearestDecimal_of_roundsTo`: the number that is read from a decimal.
* `Parts`, `readMagnitude?_chars`: the parts of a written number, and what is read from them.
* `Parts.Writes`: parts that write a decimal; `readMagnitude?_shortest`: the shortest digits of a
  number are read back, in whichever way they are written. -/

namespace Harmony.Decimal

variable {m c : Nat} {e k : Int}

/-! ### The nearest number -/

theorem ten_pow_pred_length_le (hc : 0 < c) : 10 ^ ((Nat.toDigits 10 c).length - 1) ≤ c := by
  rcases Nat.eq_zero_or_pos ((Nat.toDigits 10 c).length - 1) with hzero | hpos
  · rw [hzero]
    exact hc
  · have hlength := Nat.length_toDigits_le_iff (b := 10) (n := c) (by decide) hpos
    exact Nat.not_lt.mp fun hlt => by
      have := hlength.mpr hlt
      omega

theorem lt_ten_pow_length (c : Nat) : c < 10 ^ (Nat.toDigits 10 c).length :=
  (Nat.length_toDigits_le_iff (by decide) Nat.length_toDigits_pos).mp (Nat.le_refl _)

/-- The length of a decimal before the point tells its size. -/
theorem ten_zpow_size_le (hc : 0 < c) (k : Int) :
    (10 : ℚ) ^ ((Nat.toDigits 10 c).length + k - 1) ≤ c * 10 ^ k := by
  have hle : ((10 ^ ((Nat.toDigits 10 c).length - 1) : Nat) : ℚ) ≤ c := by
    exact_mod_cast ten_pow_pred_length_le hc
  have hpos := Nat.length_toDigits_pos (b := 10) (n := c)
  have hsplit : ((Nat.toDigits 10 c).length : Int) + k - 1 =
      ((Nat.toDigits 10 c).length - 1 : Nat) + k := by omega
  rw [hsplit, zpow_add₀ (by norm_num), zpow_natCast]
  push_cast at hle
  gcongr

theorem lt_ten_zpow_size (c : Nat) (k : Int) :
    (c : ℚ) * 10 ^ k < 10 ^ ((Nat.toDigits 10 c).length + k : Int) := by
  have hlt : (c : ℚ) < ((10 ^ (Nat.toDigits 10 c).length : Nat) : ℚ) := by
    exact_mod_cast lt_ten_pow_length c
  rw [zpow_add₀ (by norm_num), zpow_natCast]
  push_cast at hlt
  gcongr

/-- What rounds to a finite number is not too long for the reader. -/
theorem size_le_of_roundsTo (hc : 0 < c) (hbinary : IsBinary m e) (h : RoundsTo m e (c * 10 ^ k)) :
    (Nat.toDigits 10 c).length + k ≤ 400 := by
  have hlarge : 2 ^ 53 * 2 ^ 971 < 10 ^ 400 := by decide +kernel
  have hlarge' : (2 : ℚ) ^ 53 * 2 ^ (971 : Int) < 10 ^ (400 : Int) := by
    rw [zpow_ofNat, zpow_ofNat]
    exact_mod_cast hlarge
  have hmantissa : (m : ℚ) + 1 ≤ 2 ^ 53 := by exact_mod_cast hbinary.mantissa_lt
  have hvalue : (c : ℚ) * 10 ^ k ≤ 2 ^ 53 * 2 ^ (971 : Int) := by
    refine h.ge.trans (mul_le_mul ?_ ?_ (by positivity) (by positivity))
    · linarith
    · exact zpow_le_zpow_right₀ (by norm_num) hbinary.le_greatest
  have hlt := (zpow_lt_zpow_iff_right₀ (by norm_num : (1 : ℚ) < 10)).mp
    (((ten_zpow_size_le hc k).trans hvalue).trans_lt hlarge')
  omega

theorem le_size_of_roundsTo (hm : 0 < m) (hbinary : IsBinary m e) (h : RoundsTo m e (c * 10 ^ k)) :
    -400 ≤ (Nat.toDigits 10 c).length + k := by
  have hsmall : 2 * 2 ^ 1074 < 10 ^ 401 := by decide +kernel
  have hsmall' : (10 : ℚ) ^ (-401 : Int) < 1 / 2 * 2 ^ (-1074 : Int) := by
    rw [zpow_neg, zpow_neg, zpow_ofNat, zpow_ofNat, one_div, ← mul_inv]
    exact inv_strictAnti₀ (by positivity) (by exact_mod_cast hsmall)
  have hm' : (1 : ℚ) ≤ m := by exact_mod_cast hm
  have hvalue : (1 / 2 : ℚ) * 2 ^ (-1074 : Int) ≤ c * 10 ^ k := by
    refine le_trans (mul_le_mul ?_ ?_ (by positivity) ?_) h.half_le
    · linarith
    · exact zpow_le_zpow_right₀ (by norm_num) hbinary.least_le
    · linarith
  have hlt := (zpow_lt_zpow_iff_right₀ (by norm_num : (1 : ℚ) < 10)).mp
    ((hsmall'.trans_le hvalue).trans (lt_ten_zpow_size c k))
  omega

/-- **The nearest number to a decimal** is the one that the decimal rounds to. -/
theorem nearestDecimal_of_roundsTo (hm : 0 < m) (hbinary : IsBinary m e)
    (h : RoundsTo m e (c * 10 ^ k)) : nearestDecimal c k = magnitude m e := by
  have hc := h.pos_of_mul hm
  have hhigh := size_le_of_roundsTo hc hbinary h
  have hlow := le_size_of_roundsTo hm hbinary h
  have hratio : ratio (inUnits (-k) c 1) = c * 10 ^ k := by
    rw [ratio_inUnits, zpow_neg, div_inv_eq_mul]
    unfold ratio
    rw [Nat.cast_one, div_one]
  have hbits := nearestBits_of_roundsTo (inUnits_pos (-k) c Nat.one_pos) hm hbinary
    (show RoundsTo m e (ratio (inUnits (-k) c 1)) by rwa [hratio])
  unfold nearestDecimal
  simp only
  rw [if_neg hc.ne', if_neg (by omega), if_neg (by omega)]
  unfold nearestFloat magnitude
  rw [hbits]

theorem nearestDecimal_zero (k : Int) : nearestDecimal 0 k = magnitude 0 (-1074) := by
  have hzero : (0.0 : Float) = magnitude 0 (-1074) := by decide +kernel
  exact hzero

/-! ### Zeros in front -/

theorem readNat?_cons_zero {cs : List Char} (hne : cs ≠ []) : readNat? ('0' :: cs) = readNat? cs := by
  have hdigits : ('0' :: cs ≠ [] ∧ ('0' :: cs).all Char.isDigit = true) ↔
      (cs ≠ [] ∧ cs.all Char.isDigit = true) := by simp [hne]
  have hvalue : Nat.ofDigitChars 10 ('0' :: cs) 0 = Nat.ofDigitChars 10 cs 0 := by
    rw [Nat.ofDigitChars_cons]
    rfl
  unfold readNat?
  rw [hvalue]
  exact if_congr hdigits rfl rfl

/-- **Zeros in front** are of no account. -/
theorem readNat?_padded (length n : Nat) : readNat? (padded length n) = some n := by
  unfold padded
  simp only
  generalize length - (Nat.toDigits 10 n).length = zeros
  induction zeros with
  | zero => exact readNat?_toDigits n
  | succ zeros ih =>
    rw [List.replicate_succ, List.cons_append, readNat?_cons_zero (by simp [Nat.toDigits_ne_nil])]
    exact ih

theorem le_length_padded (length n : Nat) : length ≤ (padded length n).length := by
  unfold padded
  simp only [List.length_append, List.length_replicate]
  omega

theorem isDigit_of_mem_padded (length n : Nat) : ∀ c ∈ padded length n, c.isDigit = true :=
  isDigit_of_readNat? (readNat?_padded length n)

/-! ### The parts of a written number -/

/-- The parts of a written number: digits, perhaps digits behind a point, perhaps an exponent. -/
structure Parts where
  whole : List Char
  fraction : List Char
  exponent : Option Int

namespace Parts

variable {p : Parts}

/-- Digits behind a point. -/
def pointChars : List Char → List Char
  | [] => []
  | c :: cs => '.' :: c :: cs

/-- An exponent with its sign. -/
def exponentChars : Option Int → List Char
  | none => []
  | some n => 'e' :: (signed n).toList

/-- The text of a number. -/
def chars (p : Parts) : List Char := p.whole ++ (pointChars p.fraction ++ exponentChars p.exponent)

/-- Digits stand before the point and behind it. -/
structure IsDecimal (p : Parts) : Prop where
  whole : ∀ c ∈ p.whole, c.isDigit = true
  fraction : ∀ c ∈ p.fraction, c.isDigit = true

theorem endsRun_exponentChars (exponent : Option Int) :
    Text.EndsRun Char.isDigit (exponentChars exponent) := by
  cases exponent with
  | none => exact Text.endsRun_nil _
  | some n => exact Text.endsRun_cons rfl

theorem endsRun_pointChars (fraction : List Char) (exponent : Option Int) :
    Text.EndsRun Char.isDigit (pointChars fraction ++ exponentChars exponent) := by
  cases fraction with
  | nil => exact endsRun_exponentChars exponent
  | cons c cs => exact Text.endsRun_cons rfl

/-- The parts are found again in the text. -/
theorem splitNumber_chars (h : p.IsDecimal) :
    splitNumber p.chars = (p.whole, p.fraction, exponentChars p.exponent) := by
  obtain ⟨whole, fraction, exponent⟩ := p
  have hends := endsRun_pointChars fraction exponent
  unfold splitNumber chars
  simp only
  rw [Text.takeWhile_append_of_endsRun h.whole hends, Text.dropWhile_append_of_endsRun h.whole hends]
  cases fraction with
  | nil =>
    cases exponent with
    | none => rfl
    | some n => rfl
  | cons c cs =>
    have hends := endsRun_exponentChars exponent
    show (whole, (c :: cs ++ exponentChars exponent).takeWhile Char.isDigit,
      (c :: cs ++ exponentChars exponent).dropWhile Char.isDigit) = _
    rw [Text.takeWhile_append_of_endsRun h.fraction hends,
      Text.dropWhile_append_of_endsRun h.fraction hends]

theorem readExponent?_exponentChars (exponent : Option Int) :
    readExponent? (exponentChars exponent) = some (exponent.getD 0) := by
  cases exponent with
  | none => rfl
  | some n => exact readInt?_signed n

/-- **What is read from a written number**: its digits, without the point, in the unit of the last. -/
theorem readMagnitude?_chars (h : p.IsDecimal) : readMagnitude? p.chars =
    (readNat? (p.whole ++ p.fraction)).map fun n =>
      nearestDecimal n (p.exponent.getD 0 - p.fraction.length) := by
  unfold readMagnitude?
  rw [splitNumber_chars h]
  simp only
  rw [readExponent?_exponentChars]
  cases readNat? (p.whole ++ p.fraction) <;> rfl

theorem toList_withPoint (parts : List Char × List Char) :
    (withPoint parts).toList = parts.1 ++ pointChars parts.2 := by
  obtain ⟨whole, fraction⟩ := parts
  cases fraction with
  | nil =>
    show (String.ofList whole).toList = _
    rw [String.toList_ofList]
    exact (List.append_nil _).symm
  | cons c cs => exact String.toList_ofList

/-- The parts write the decimal. -/
structure Writes (p : Parts) (d : Digits) : Prop extends IsDecimal p where
  value : ∃ n, readNat? (p.whole ++ p.fraction) = some n ∧
    (n : ℚ) * 10 ^ (p.exponent.getD 0 - p.fraction.length : Int) = d.value

/-- **The shortest digits are read back**, in whichever way they are written. -/
theorem readMagnitude?_shortest (hm : 0 < m) (hbinary : IsBinary m e) {tie : Tie}
    (h : p.Writes (shortest m e tie)) : readMagnitude? p.chars = some (magnitude m e) := by
  obtain ⟨n, hn, hvalue⟩ := h.value
  have hrounds := roundsTo_shortest hm hbinary tie
  rw [← hvalue] at hrounds
  rw [readMagnitude?_chars h.toIsDecimal, hn, Option.map_some,
    nearestDecimal_of_roundsTo hm hbinary hrounds]

end Parts

end Harmony.Decimal
