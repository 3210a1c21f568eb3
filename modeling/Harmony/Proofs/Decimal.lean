import Harmony.Decimal.Integer
import Harmony.Proofs.Text.Trim
import Mathlib.Data.List.Induction

/-! # Integers and their texts

The decimal text of an integer has no blanks, and it is read back to the integer. A number may be
written in more than one way: leading zeros are of no account, and neither is a plus sign.

* `readInt?_repr`, `readInt?_signed`: the text of an integer is read back.
* `eq_of_append_eq`: an integer in front of other text.
* `WritesNat`, `WritesInt`: the texts that write a number (`readNat?_eq_some_iff`,
  `readInt?_eq_some_iff`). -/

namespace Harmony.Decimal

theorem isBlank_of_isDigit {c : Char} (hc : c.isDigit = true) : Text.isBlank c = false := by
  obtain ⟨hlow, hhigh⟩ := Char.isDigit_iff_toNat.mp hc
  have h0 : '0'.toNat = 48 := rfl
  have h9 : '9'.toNat = 57 := rfl
  simp only [Text.isBlank, Bool.or_eq_false_iff, beq_eq_false_iff_ne, Bool.and_eq_false_iff,
    decide_eq_false_iff_not]
  omega

theorem isDigit_of_readNat? {cs : List Char} {n : Nat} (h : readNat? cs = some n) :
    ∀ c ∈ cs, c.isDigit = true := by
  unfold readNat? at h
  split at h
  · rename_i hdigits
    exact List.all_eq_true.mp hdigits.2
  · cases h

/-- May an integer begin with the character? -/
def startsInteger (c : Char) : Bool := c == '+' || c == '-' || c.isDigit

/-- Every character of an integer may begin one. -/
theorem startsInteger_of_mem {cs : List Char} {n : Int} (h : readInt? cs = some n) :
    ∀ c ∈ cs, startsInteger c = true := by
  have hdigits : ∀ {ds : List Char} {toInt : Nat → Int}, (readNat? ds).map toInt = some n →
      ∀ c ∈ ds, startsInteger c = true := fun hread c hc => by
    obtain ⟨m, hm, -⟩ := Option.map_eq_some_iff.mp hread
    simp [startsInteger, isDigit_of_readNat? hm c hc]
  unfold readInt? at h
  split at h
  · exact List.forall_mem_cons.mpr ⟨by decide, hdigits h⟩
  · exact List.forall_mem_cons.mpr ⟨by decide, hdigits h⟩
  · exact hdigits h

theorem startsInteger_of_readInt? {c : Char} {cs : List Char} {n : Int}
    (h : readInt? (c :: cs) = some n) : startsInteger c = true :=
  startsInteger_of_mem h c List.mem_cons_self

theorem readInt?_of_readNat? {cs : List Char} {n : Nat} (h : readNat? cs = some n) :
    readInt? cs = some n := by
  have hdigits := isDigit_of_readNat? h
  unfold readInt?
  split
  · exact absurd (hdigits _ List.mem_cons_self) (by decide)
  · exact absurd (hdigits _ List.mem_cons_self) (by decide)
  · rw [h]
    rfl

/-- **The text of an integer is read back.** -/
theorem readInt?_repr (n : Int) : readInt? n.repr.toList = some n := by
  cases n with
  | ofNat n =>
    have htext : (Int.ofNat n).repr.toList = Nat.toDigits 10 n := String.toList_ofList
    rw [htext, readInt?_of_readNat? (readNat?_toDigits n)]
    rfl
  | negSucc n =>
    have htext : (Int.negSucc n).repr.toList = '-' :: Nat.toDigits 10 (n + 1) := by
      show ("-" ++ (n + 1).repr).toList = _
      rw [String.toList_append]
      exact congrArg ('-' :: ·) String.toList_ofList
    rw [htext]
    show (readNat? (Nat.toDigits 10 (n + 1))).map _ = _
    rw [readNat?_toDigits]
    rfl

/-- An integer with its sign: the sign and digits. -/
theorem exists_toList_signed (n : Int) : ∃ sign m, (signed n).toList = sign :: Nat.toDigits 10 m ∧
    (sign = '-' ∧ n = -(m : Int) ∨ sign = '+' ∧ n = m) := by
  unfold signed
  cases n with
  | ofNat n =>
    refine ⟨'+', n, ?_, .inr ⟨rfl, rfl⟩⟩
    rw [if_neg (show ¬Int.ofNat n < 0 from Int.not_lt.mpr (Int.natCast_nonneg n)), String.toList_append]
    exact congrArg ('+' :: ·) String.toList_ofList
  | negSucc n =>
    refine ⟨'-', n + 1, ?_, .inl ⟨rfl, rfl⟩⟩
    rw [if_pos (Int.negSucc_lt_zero n)]
    show ("-" ++ (n + 1).repr).toList = _
    rw [String.toList_append]
    exact congrArg ('-' :: ·) String.toList_ofList

/-- **An integer with its sign is read back.** -/
theorem readInt?_signed (n : Int) : readInt? (signed n).toList = some n := by
  obtain ⟨sign, m, htext, ⟨rfl, rfl⟩ | ⟨rfl, rfl⟩⟩ := exists_toList_signed n
  · rw [htext]
    show (readNat? (Nat.toDigits 10 m)).map _ = _
    rw [readNat?_toDigits]
    rfl
  · rw [htext]
    show (readNat? (Nat.toDigits 10 m)).map _ = _
    rw [readNat?_toDigits]
    rfl

theorem isBlank_of_startsInteger {c : Char} (h : startsInteger c = true) : Text.isBlank c = false := by
  simp only [startsInteger, Bool.or_eq_true, beq_iff_eq] at h
  rcases h with (rfl | rfl) | hdigit
  · rfl
  · rfl
  · exact isBlank_of_isDigit hdigit

/-- What is read as an integer has no blanks. -/
theorem isBlank_of_readInt? {cs : List Char} {n : Int} (h : readInt? cs = some n) :
    ∀ c ∈ cs, Text.isBlank c = false :=
  fun c hc => isBlank_of_startsInteger (startsInteger_of_mem h c hc)

theorem trim_of_readInt? {cs : List Char} {n : Int} (h : readInt? cs = some n) :
    Text.trim cs = cs := by
  have hblank := isBlank_of_readInt? h
  exact Text.trim_eq_self (fun c hc => hblank c (List.mem_of_mem_head? hc))
    fun c hc => hblank c (List.mem_of_mem_getLast? hc)

theorem trim_repr (n : Int) : Text.trim n.repr.toList = n.repr.toList :=
  trim_of_readInt? (readInt?_repr n)

/-! ### Integers in front of other text -/

/-- A text is read as one integer at most. -/
theorem eq_of_readInt? {cs ds : List Char} {n m : Int} (hn : readInt? cs = some n)
    (hm : readInt? ds = some m) (h : cs = ds) : n = m :=
  Option.some.inj (hn.symm.trans ((congrArg readInt? h).trans hm))

/-- **Integers in front of other text** are told from it: equal texts have equal integers in front, and
go on alike. -/
theorem eq_of_append_eq {cs ds rest rest' : List Char} {n m : Int} (hn : readInt? cs = some n)
    (hm : readInt? ds = some m) (hrest : Text.EndsRun startsInteger rest)
    (hrest' : Text.EndsRun startsInteger rest') (h : cs ++ rest = ds ++ rest') :
    n = m ∧ rest = rest' := by
  obtain ⟨hfront, hbehind⟩ :=
    Text.append_inj_of_endsRun (startsInteger_of_mem hn) (startsInteger_of_mem hm) hrest hrest' h
  exact ⟨eq_of_readInt? hn hm hfront, hbehind⟩

/-! ### Written numbers -/

/-- A text of ASCII digits, at least one, and the number that they write. -/
inductive WritesNat : List Char → Nat → Prop
  | digit {c : Char} (hc : c.isDigit = true) : WritesNat [c] (c.toNat - '0'.toNat)
  | snoc {cs : List Char} {n : Nat} {c : Char} (h : WritesNat cs n) (hc : c.isDigit = true) :
      WritesNat (cs ++ [c]) (10 * n + (c.toNat - '0'.toNat))

/-- A text of digits behind at most one sign, and the integer that it writes. -/
inductive WritesInt : List Char → Int → Prop
  | unsigned {cs : List Char} {n : Nat} (h : WritesNat cs n) : WritesInt cs n
  | plus {cs : List Char} {n : Nat} (h : WritesNat cs n) : WritesInt ('+' :: cs) n
  | minus {cs : List Char} {n : Nat} (h : WritesNat cs n) : WritesInt ('-' :: cs) (-n)

theorem readNat?_singleton {c : Char} (hc : c.isDigit = true) :
    readNat? [c] = some (c.toNat - '0'.toNat) := by
  simp [readNat?, hc, Nat.ofDigitChars_cons]

theorem readNat?_append_singleton {cs : List Char} (hne : cs ≠ []) (c : Char) :
    readNat? (cs ++ [c]) =
      if c.isDigit = true then (readNat? cs).map fun n => 10 * n + (c.toNat - '0'.toNat) else none := by
  by_cases hc : c.isDigit = true
  · by_cases hcs : cs.all Char.isDigit = true
    · simp [readNat?, hne, hc, hcs, Nat.ofDigitChars_append, Nat.ofDigitChars_cons]
    · simp [readNat?, hne, hc, hcs]
  · simp [readNat?, hc]

/-- **A number is read** from the digits that write it. -/
theorem readNat?_eq_some_iff {cs : List Char} {n : Nat} : readNat? cs = some n ↔ WritesNat cs n := by
  constructor
  · intro h
    -- from the end, since the last digit counts one
    induction cs using List.reverseRecOn generalizing n with
    | nil => cases h
    | append_singleton cs c ih =>
      have hc : c.isDigit = true := isDigit_of_readNat? h c (by simp)
      by_cases hne : cs = []
      · subst hne
        rw [List.nil_append, readNat?_singleton hc] at h
        obtain rfl := Option.some.inj h
        exact .digit hc
      · rw [readNat?_append_singleton hne, if_pos hc] at h
        obtain ⟨m, hm, rfl⟩ := Option.map_eq_some_iff.mp h
        exact (ih hm).snoc hc
  · intro h
    induction h with
    | digit hc => exact readNat?_singleton hc
    | @snoc cs n c h hc ih =>
      have hne : cs ≠ [] := by
        rintro rfl
        cases ih
      rw [readNat?_append_singleton hne, if_pos hc, ih]
      rfl

/-- **An integer is read** from its digits behind at most one sign. -/
theorem readInt?_eq_some_iff {cs : List Char} {n : Int} : readInt? cs = some n ↔ WritesInt cs n := by
  constructor
  · intro h
    unfold readInt? at h
    split at h
    · obtain ⟨m, hm, rfl⟩ := Option.map_eq_some_iff.mp h
      exact .plus (readNat?_eq_some_iff.mp hm)
    · obtain ⟨m, hm, rfl⟩ := Option.map_eq_some_iff.mp h
      exact .minus (readNat?_eq_some_iff.mp hm)
    · obtain ⟨m, hm, rfl⟩ := Option.map_eq_some_iff.mp h
      exact .unsigned (readNat?_eq_some_iff.mp hm)
  · intro h
    cases h with
    | unsigned h => exact readInt?_of_readNat? (readNat?_eq_some_iff.mpr h)
    | plus h | minus h =>
      simp only [readInt?, readNat?_eq_some_iff.mpr h, Option.map_some]
      rfl

/-! ### The range of 32-bit integers -/

theorem word?_eq_some_iff {n m : Int} : word? n = some m ↔ InWord n ∧ n = m := by
  unfold word?
  split
  · rw [Option.some.injEq]
    exact (and_iff_right ‹_›).symm
  · exact iff_of_false nofun fun h => absurd h.1 ‹_›

end Harmony.Decimal
