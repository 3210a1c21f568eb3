import Harmony.Decimal.Integer
import Harmony.Proofs.Transposition

/-! # Pitch classes in machine words

A pitch class fits into a byte, and a move into a 32-bit word. In words there are three places to go
wrong. The remainder of a signed division may be negative; it is moved up before it is cut to a byte. The
sum of a pitch class and a move may leave the range of words; where it does not, the result is that in
whole numbers. The difference of two bytes must not fall below zero; it is taken from an octave above.

* `residueByte_eq`, `moveByte_byte`, `distanceByte_byte`: what is reached in words.
* `ActsByResidues`, `actsByResidues`: the laws of moves and intervals, with what becomes of them in
  words. -/

namespace Harmony.PitchClass

open Decimal

/-- A pitch class as a byte. -/
def byte (p : PitchClass) : UInt8 := .ofNat p.value

/-- The residue of a word modulo twelve: the signed remainder, moved up where it is negative. -/
def residueWord (n : Int32) : Int32 := if n % 12 < 0 then n % 12 + 12 else n % 12

/-- The residue of a word, cut to a byte. -/
def residueByte (n : Int32) : UInt8 := (residueWord n).toUInt32.toUInt8

/-- Moves a pitch class by a word. -/
def moveByte (p : UInt8) (n : Int32) : UInt8 := residueByte (p.toUInt32.toInt32 + n)

/-- The upward distance from `q` to the byte `p`, taken from an octave above. -/
def distanceByte (p q : UInt8) : UInt8 := (p + 12 - q) % 12

theorem toNat_byte (p : PitchClass) : p.byte.toNat = p.value := by
  have hp := p.value_lt
  unfold byte
  rw [UInt8.toNat_ofNat']
  omega

/-! ### Sums of words -/

theorem toInt_add_of_inWord {a b : Int32} (h : InWord (a.toInt + b.toInt)) :
    (a + b).toInt = a.toInt + b.toInt := by
  unfold InWord at h
  rw [Int32.toInt_add]
  exact Int.bmod_eq_of_le (by omega) (by omega)

/-- **The residue of a word** is that of the number. -/
theorem toInt_residueWord (n : Int32) : (residueWord n).toInt = n.toInt % 12 := by
  have hrem : (n % 12).toInt = n.toInt.tmod 12 := Int32.toInt_mod n 12
  have hres : n.toInt.tmod 12 = n.toInt % 12 ∨ n.toInt.tmod 12 = n.toInt % 12 - 12 := by
    rw [Int.tmod_eq_emod]
    split
    · exact .inl (Int.sub_zero _)
    · exact .inr rfl
  have htwelve : (12 : Int32).toInt = 12 := by decide
  have hneg : n % 12 < 0 ↔ (n % 12).toInt < 0 := Int32.lt_iff_toInt_lt
  unfold residueWord
  split
  · rename_i h
    rw [hneg] at h
    have hsum : ((n % 12) + 12).toInt = (n % 12).toInt + (12 : Int32).toInt :=
      toInt_add_of_inWord (by unfold InWord; omega)
    omega
  · rename_i h
    rw [hneg] at h
    have hlt : n.toInt.tmod 12 < 12 := Int.tmod_lt_of_pos _ (by decide)
    omega

/-! ### Bytes and words -/

/-- A word read with its sign is the same number, or the number of all words less. -/
theorem toInt_toInt32 (w : UInt32) : w.toInt32.toInt =
    if 2 * w.toNat < 4294967296 then (w.toNat : Int) else w.toNat - 4294967296 :=
  BitVec.toInt_eq_toNat_cond w.toBitVec

/-- **A word is cut to a byte** without loss, once it is reduced. -/
theorem residueByte_eq (n : Int32) : residueByte n = (ofInt n.toInt).byte := by
  have hres := toInt_residueWord n
  have hvalue := value_ofInt n.toInt
  have hword : ((residueWord n).toUInt32.toNat : Int) = (residueWord n).toInt := by
    have hsign : (residueWord n).toInt = _ := toInt_toInt32 (residueWord n).toUInt32
    have hlt := (residueWord n).toUInt32.toNat_lt
    split at hsign <;> omega
  apply UInt8.toNat_inj.mp
  rw [toNat_byte]
  unfold residueByte
  rw [UInt32.toNat_toUInt8]
  omega

theorem toInt_byte (p : PitchClass) : p.byte.toUInt32.toInt32.toInt = p.value := by
  have hp := p.value_lt
  rw [toInt_toInt32, UInt8.toNat_toUInt32, toNat_byte, if_pos (by omega)]

/-- **A move in words** is the move in whole numbers, if the sum stays in the range of words. -/
theorem moveByte_byte {p : PitchClass} {n : Int32} (h : InWord (p.value + n.toInt)) :
    moveByte p.byte n = (p.transpose n.toInt).byte := by
  unfold moveByte
  rw [← toInt_byte p] at h
  rw [residueByte_eq, toInt_add_of_inWord h, toInt_byte]
  rfl

/-- Outside the range the sum is another one: from B on up by the greatest word. -/
example : let p : PitchClass := ⟨11, by decide⟩
    ¬ InWord (p.value + 2147483647) ∧ moveByte p.byte 2147483647 ≠ (p.transpose 2147483647).byte := by
  decide

/-- **An interval in bytes** is the interval. Neither the sum nor the difference leaves the range. -/
theorem distanceByte_byte (p q : PitchClass) : (p.byte + 12).toNat = p.value + 12 ∧
    q.byte ≤ p.byte + 12 ∧ (distanceByte p.byte q.byte).toNat = p.intervalFrom q := by
  have hp := p.value_lt
  have hq := q.value_lt
  have hsum : (p.byte + 12).toNat = p.value + 12 := by
    have htwelve : (12 : UInt8).toNat = 12 := rfl
    rw [UInt8.toNat_add, toNat_byte, htwelve]
    omega
  have hle : q.byte ≤ p.byte + 12 := by
    rw [UInt8.le_iff_toNat_le, hsum, toNat_byte]
    omega
  refine ⟨hsum, hle, ?_⟩
  unfold distanceByte intervalFrom
  rw [UInt8.toNat_mod, UInt8.toNat_sub_of_le _ _ hle, hsum, toNat_byte]
  rfl

/-! ### The laws -/

/-- The laws of moves and intervals, in whole numbers and in words. -/
structure ActsByResidues : Prop where
  residue : ∀ n : Int, ((ofInt n).value : Int) = n % 12
  /-- Two moves are one by the sum. -/
  moves : ∀ (p : PitchClass) (a b : Int), (p.transpose a).transpose b = p.transpose (a + b)
  /-- Whole octaves, and nothing else, move to the same pitch class. -/
  kept : ∀ (p : PitchClass) (a : Int), p.transpose a = p ↔ 12 ∣ a
  reached : ∀ p q : PitchClass, q.transpose (p.intervalFrom q) = p
  moved_together : ∀ (p q : PitchClass) (a : Int),
    (p.transpose a).intervalFrom (q.transpose a) = p.intervalFrom q
  turned : ∀ p q : PitchClass, p.intervalFrom q + q.intervalFrom p = if p = q then 0 else 12
  /-- A byte holds the pitch class. -/
  byte : ∀ p : PitchClass, p.byte.toNat = p.value
  residue_word : ∀ n : Int32, residueByte n = (ofInt n.toInt).byte
  move_word : ∀ (p : PitchClass) (n : Int32), InWord (p.value + n.toInt) →
    moveByte p.byte n = (p.transpose n.toInt).byte
  moves_word : ∀ (p : PitchClass) (a b : Int32), InWord (p.value + a.toInt) →
    InWord ((p.transpose a.toInt).value + b.toInt) → InWord (a.toInt + b.toInt) →
    InWord (p.value + (a.toInt + b.toInt)) →
    moveByte (moveByte p.byte a) b = moveByte p.byte (a + b)
  /-- Neither the sum nor the difference of bytes leaves the range. -/
  interval_byte : ∀ p q : PitchClass, (p.byte + 12).toNat = p.value + 12 ∧ q.byte ≤ p.byte + 12 ∧
    (distanceByte p.byte q.byte).toNat = p.intervalFrom q

/-- **Pitch classes are moved by residues modulo twelve**, in whole numbers by any, in words as long as
the sums stay in the range. -/
theorem actsByResidues : ActsByResidues where
  residue := value_ofInt
  moves := transpose_transpose
  kept := transpose_eq_self_iff
  reached p q := transpose_intervalFrom q p
  moved_together := intervalFrom_transpose_transpose
  turned := intervalFrom_add_intervalFrom
  byte := toNat_byte
  residue_word := residueByte_eq
  move_word _ _ := moveByte_byte
  moves_word p a b ha hb hab hsum := by
    rw [← toInt_add_of_inWord hab] at hsum
    rw [moveByte_byte ha, moveByte_byte hb, moveByte_byte hsum, transpose_transpose,
      toInt_add_of_inWord hab]
  interval_byte := distanceByte_byte

end Harmony.PitchClass
