import Harmony.PitchClass

/-! # Transposition

The whole numbers act on the pitch classes: moving by `a` and then by `b` is moving by `a + b`, and
`q.intervalFrom p` is the one number below twelve that moves `p` to `q`. Nothing is moved by whole
octaves only, and two pitch classes that are moved together keep the interval between them. -/

namespace Harmony.PitchClass

@[simp] theorem transpose_zero (p : PitchClass) : p.transpose 0 = p := by
  apply ext_value
  have h := value_ofInt (p.value + 0)
  have hp := p.value_lt
  unfold transpose
  omega

/-- **Two moves are one move by the sum.** -/
@[simp] theorem transpose_transpose (p : PitchClass) (a b : Int) :
    (p.transpose a).transpose b = p.transpose (a + b) := by
  apply ext_value
  have ha := value_ofInt (p.value + a)
  have hb := value_ofInt ((ofInt (p.value + a)).value + b)
  have hab := value_ofInt (p.value + (a + b))
  unfold transpose
  omega

/-- Only the residue of a move counts. -/
theorem transpose_congr {a b : Int} (h : a % 12 = b % 12) (p : PitchClass) :
    p.transpose a = p.transpose b := by
  apply ext_value
  have ha := value_ofInt (p.value + a)
  have hb := value_ofInt (p.value + b)
  unfold transpose
  omega

theorem transpose_comm (p : PitchClass) (a b : Int) :
    (p.transpose a).transpose b = (p.transpose b).transpose a := by
  rw [transpose_transpose, transpose_transpose, Int.add_comm]

/-- **The interval from `p` to `q` moves `p` to `q`.** -/
@[simp] theorem transpose_intervalFrom (p q : PitchClass) : p.transpose (q.intervalFrom p) = q := by
  apply ext_value
  have h := value_ofInt (p.value + (q.intervalFrom p : Int))
  have hp := p.value_lt
  have hq := q.value_lt
  unfold intervalFrom at h
  unfold transpose intervalFrom
  omega

theorem intervalFrom_lt (p q : PitchClass) : p.intervalFrom q < 12 := Nat.mod_lt _ (by decide)

/-- The interval to a moved pitch class is the reduced move. -/
theorem intervalFrom_transpose_self (p : PitchClass) (n : Int) :
    ((p.transpose n).intervalFrom p : Int) = n % 12 := by
  have h := value_ofInt (p.value + n)
  have hp := p.value_lt
  unfold transpose intervalFrom
  omega

/-- **A move keeps a pitch class** if it goes by whole octaves, and only then. -/
theorem transpose_eq_self_iff (p : PitchClass) (n : Int) : p.transpose n = p ↔ 12 ∣ n := by
  have h := value_ofInt (p.value + n)
  have hp := p.value_lt
  constructor
  · intro heq
    have hvalue : (ofInt (p.value + n)).value = p.value := congrArg value heq
    omega
  · intro hn
    apply ext_value
    unfold transpose
    omega

/-- A move of both pitch classes keeps the interval between them. -/
theorem intervalFrom_transpose_transpose (p q : PitchClass) (n : Int) :
    (p.transpose n).intervalFrom (q.transpose n) = p.intervalFrom q := by
  have hp := value_ofInt (p.value + n)
  have hq := value_ofInt (q.value + n)
  have hp' := p.value_lt
  have hq' := q.value_lt
  unfold transpose intervalFrom
  omega

/-- **Up and back up again** is an octave, unless there is nothing to go. -/
theorem intervalFrom_add_intervalFrom (p q : PitchClass) :
    p.intervalFrom q + q.intervalFrom p = if p = q then 0 else 12 := by
  have hp := p.value_lt
  have hq := q.value_lt
  unfold intervalFrom
  split
  · rename_i h
    rw [h]
    omega
  · rename_i h
    have hne : p.value ≠ q.value := fun heq => h (ext_value heq)
    omega

end Harmony.PitchClass
