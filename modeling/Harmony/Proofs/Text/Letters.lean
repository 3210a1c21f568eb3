import Harmony.Proofs.Text.CaseFold
import Harmony.Text.Alphabetic

/-! # Latin letters

A Latin letter is a character with a variant from `a` to `z`: a letter of the alphabet in either case,
the long s or the Kelvin sign. Where case is folded, a pattern that excludes `a` to `z` excludes just
these. All of them are alphabetic (`isAlphabetic_of_isLatin`), but far from all alphabetic characters
are Latin. -/

namespace Harmony.Text

/-- Has the character a variant from `a` to `z`? -/
def isLatin (c : Char) : Bool := (variants c).any fun x => 'a' ≤ x && x ≤ 'z'

/-- The letters from `a` to `z`. -/
def smallLetters : List Char := (List.range' 97 26).map Char.ofNat

theorem mem_smallLetters {c : Char} : c ∈ smallLetters ↔ 97 ≤ c.toNat ∧ c.toNat ≤ 122 := by
  constructor
  · intro hc
    obtain ⟨n, hn, rfl⟩ := List.mem_map.mp hc
    rw [List.mem_range'_1] at hn
    rw [toNat_ofNat_of_valid (Or.inl (by omega))]
    omega
  · rintro ⟨hlow, hhigh⟩
    exact List.mem_map.mpr ⟨c.toNat, List.mem_range'_1.mpr ⟨hlow, by omega⟩, Char.ofNat_toNat c⟩

set_option maxRecDepth 2000 in
/-- No run folds a letter from `a` to `z`. -/
theorem small_outside_foldRuns : ∀ run ∈ foldRuns, run.last < 97 ∨ 122 < run.first := by decide

theorem holds_eq_false_of_small {run : FoldRun} {n : Nat} (hrun : run ∈ foldRuns) (hlow : 97 ≤ n)
    (hhigh : n ≤ 122) : run.holds n = false := by
  rw [← Bool.not_eq_true]
  intro hholds
  have houtside := small_outside_foldRuns run hrun
  have hle := le_of_holds hholds
  omega

theorem foldCase_of_small {c : Char} (hc : c ∈ smallLetters) : foldCase c = c := by
  obtain ⟨hlow, hhigh⟩ := mem_smallLetters.mp hc
  unfold foldCase
  cases hrun : runHolding? c.toNat foldRuns with
  | none => rfl
  | some run =>
    obtain ⟨hmem, hholds⟩ := holds_of_runHolding? hrun
    rw [holds_eq_false_of_small hmem hlow hhigh] at hholds
    cases hholds

/-- **A variant from `a` to `z` is the folding**: the other variants are folded by some run. -/
theorem foldCase_eq_of_small {c x : Char} (hx : x ∈ variants c) (hsmall : x ∈ smallLetters) :
    foldCase c = x := by
  rcases List.mem_cons.mp hx with heq | hx
  · exact heq.symm
  · obtain ⟨n, hn, rfl⟩ := List.mem_map.mp hx
    obtain ⟨run, hrun, hsource⟩ := List.mem_filterMap.mp hn
    obtain ⟨hholds, heq⟩ := Option.ite_none_right_eq_some.mp hsource
    rw [Option.some.inj heq] at hholds
    rw [mem_smallLetters] at hsmall
    by_cases hvalid : n.isValidChar
    · rw [toNat_ofNat_of_valid hvalid] at hsmall
      rw [holds_eq_false_of_small hrun hsmall.1 hsmall.2] at hholds
      cases hholds
    · unfold Char.ofNat at hsmall
      rw [dif_neg hvalid] at hsmall
      exact absurd hsmall.1 (by decide)

set_option maxRecDepth 2000 in
theorem isAlphabetic_variants_small :
    smallLetters.all (fun c => (variants c).all isAlphabetic) = true := by decide

/-- **Latin letters are alphabetic.** -/
theorem isAlphabetic_of_isLatin {c : Char} (h : isLatin c = true) : isAlphabetic c = true := by
  obtain ⟨x, hx, hlimits⟩ := List.any_eq_true.mp h
  rw [Bool.and_eq_true, decide_eq_true_eq, decide_eq_true_eq] at hlimits
  have hsmall : x ∈ smallLetters := mem_smallLetters.mpr hlimits
  have hfold : foldCase c = foldCase x :=
    (foldCase_eq_of_small hx hsmall).trans (foldCase_of_small hsmall).symm
  have hvariants := List.all_eq_true.mp isAlphabetic_variants_small x hsmall
  exact List.all_eq_true.mp hvariants c (mem_variants_of_foldCase hfold)

end Harmony.Text
