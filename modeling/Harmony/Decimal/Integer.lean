/-! # Integers in decimal

* `readNat?`: a text of ASCII digits, at least one, as its value.
* `readInt?`: the same after at most one sign.
* `signed`: an integer with its sign, also when it is not negative.
* `InWord`: the range of 32-bit integers. -/

namespace Harmony.Decimal

/-- The number written by a text of one or more ASCII digits. -/
def readNat? (cs : List Char) : Option Nat :=
  if cs ≠ [] ∧ cs.all Char.isDigit then some (Nat.ofDigitChars 10 cs 0) else none

/-- The integer written by ASCII digits after at most one sign. -/
def readInt? : List Char → Option Int
  | '+' :: cs => (readNat? cs).map Int.ofNat
  | '-' :: cs => (readNat? cs).map fun n => -Int.ofNat n
  | cs => (readNat? cs).map Int.ofNat

theorem readNat?_toDigits (n : Nat) : readNat? (Nat.toDigits 10 n) = some n := by
  have h : (Nat.toDigits 10 n).all Char.isDigit = true :=
    List.all_eq_true.mpr fun _ hc => Nat.isDigit_of_mem_toDigits (by decide) (by decide) hc
  simp [readNat?, h, Nat.toDigits_ne_nil, Nat.ofDigitChars_ten_toDigits]

/-- An integer with its sign in front: `+0`, `+3`, `-1`. -/
def signed (n : Int) : String := if n < 0 then n.repr else "+" ++ n.repr

/-- The range of 32-bit integers. -/
def InWord (n : Int) : Prop := -2147483648 ≤ n ∧ n ≤ 2147483647

instance (n : Int) : Decidable (InWord n) := inferInstanceAs (Decidable (_ ∧ _))

/-- The integer itself, if it is in the range of 32-bit integers. -/
def word? (n : Int) : Option Int := if InWord n then some n else none

end Harmony.Decimal
