/-! # Rounding a quotient

`roundDiv` is the integer nearest to a quotient of natural numbers; `Tie` says where the middle
between two integers goes. -/

namespace Harmony.Decimal

/-- Where a value in the middle of its two neighbours goes. -/
inductive Tie where
  /-- To the even neighbour. -/
  | toEven
  /-- To the larger neighbour. -/
  | up
deriving Repr, DecidableEq

/-- The integer nearest to `num / den`. -/
def roundDiv (num den : Nat) (tie : Tie) : Nat :=
  let floor := num / den
  let twice := 2 * (num % den)
  if twice < den then floor
  else if twice = den then
    match tie with
    | .toEven => floor + floor % 2
    | .up => floor + 1
  else floor + 1

/-- **The nearest integer is at most half a unit away.** -/
theorem roundDiv_near (num : Nat) {den : Nat} (h : 0 < den) (tie : Tie) :
    2 * (roundDiv num den tie * den) ≤ 2 * num + den ∧
      2 * num ≤ 2 * (roundDiv num den tie * den) + den := by
  have hd := Nat.div_add_mod num den
  have hm := Nat.mod_lt num h
  rw [Nat.mul_comm] at hd
  have hs : (num / den + 1) * den = num / den * den + den := Nat.succ_mul _ _
  unfold roundDiv
  simp only
  split
  · omega
  · split
    · cases tie
      · rcases Nat.mod_two_eq_zero_or_one (num / den) with h0 | h1
        · simp only [h0, Nat.add_zero]; omega
        · simp only [h1, hs]; omega
      · simp only [hs]; omega
    · simp only [hs]; omega

/-- The fraction `num / den` in units of `10 ^ k`, as a numerator and a denominator. -/
def inUnits (k : Int) (num den : Nat) : Nat × Nat :=
  match k with
  | .ofNat n => (num, den * Nat.pow 10 n)
  | .negSucc n => (num * Nat.pow 10 (n + 1), den)

/-- The larger of the exponents `e` with `10 ^ e ≤ num / den`, searched upwards from `e`. -/
def exponentFrom (num den : Nat) : Nat → Int → Int
  | 0, e => e
  | steps + 1, e =>
    let (n, d) := inUnits (e + 1) num den
    if d ≤ n then exponentFrom num den steps (e + 1) else e

/-- The greatest `e` with `10 ^ e ≤ num / den`, for a positive fraction: the search starts below it,
from the number of bits by which the numerator is longer than the denominator. -/
def decimalExponent (num den : Nat) : Int :=
  let bits : Int := (num.log2 : Int) - (den.log2 : Int) - 1
  exponentFrom num den 4 ((bits * 30103).fdiv 100000 - 1)

end Harmony.Decimal
