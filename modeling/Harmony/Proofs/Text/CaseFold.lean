import Harmony.Text.CaseFold

/-! # Variants of a character

Main statement: `variants c` holds every character that folds like `c`. So what a letter of a pattern
stands for can be read off a list, and a character that is its only variant stands for itself. -/

namespace Harmony.Text

/-! ### Folding along a run -/

theorem holds_of_runHolding? {n : Nat} {runs : List FoldRun} {run : FoldRun}
    (h : runHolding? n runs = some run) : run ∈ runs ∧ run.holds n = true := by
  induction runs with
  | nil => cases h
  | cons first runs ih =>
    unfold runHolding? at h
    split at h
    · cases h
    · split at h
      · obtain rfl := Option.some.inj h
        exact ⟨List.mem_cons_self, ‹_›⟩
      · exact ⟨List.mem_cons_of_mem _ (ih h).1, (ih h).2⟩

/-- All code points of a run fold to characters. -/
def FoldRun.FoldsToChars (run : FoldRun) : Prop :=
  0 ≤ run.first + run.shift ∧ (run.last + run.shift < 0xD800 ∨
    0xDFFF < run.first + run.shift ∧ run.last + run.shift < 0x110000)

instance : DecidablePred FoldRun.FoldsToChars := fun run => by
  unfold FoldRun.FoldsToChars
  infer_instance

theorem foldsToChars_of_mem_foldRuns : ∀ run ∈ foldRuns, run.FoldsToChars := by decide +kernel

theorem le_of_holds {run : FoldRun} {n : Nat} (h : run.holds n = true) :
    run.first ≤ n ∧ n ≤ run.last := by
  unfold FoldRun.holds at h
  simp only [Bool.and_eq_true, decide_eq_true_eq] at h
  exact h.1

theorem toNat_ofNat_of_valid {n : Nat} (h : n.isValidChar) : (Char.ofNat n).toNat = n := by
  unfold Char.ofNat
  rw [dif_pos h]
  rfl

theorem toNat_ofNat_of_holds {run : FoldRun} {n : Nat} (hrun : run.FoldsToChars)
    (h : run.holds n = true) :
    (Char.ofNat ((n : Int) + run.shift).toNat).toNat = ((n : Int) + run.shift).toNat := by
  obtain ⟨hfirst, hlast⟩ := le_of_holds h
  obtain ⟨hpos, hvalid⟩ := hrun
  have hchar : ((n : Int) + run.shift).toNat.isValidChar := by
    unfold Nat.isValidChar
    omega
  exact toNat_ofNat_of_valid hchar

/-- The run gives back the code point that it folded. -/
theorem source?_of_holds {run : FoldRun} {n : Nat} (hrun : run.FoldsToChars)
    (h : run.holds n = true) : run.source? ((n : Int) + run.shift).toNat = some n := by
  have hfirst := (le_of_holds h).1
  have hpos := hrun.1
  have hback : ((((n : Int) + run.shift).toNat : Int) - run.shift).toNat = n := by omega
  unfold FoldRun.source?
  rw [hback, if_pos h]

/-! ### Variants -/

theorem mem_variants_self (c : Char) : c ∈ variants c := by
  unfold variants
  cases h : runHolding? c.toNat foldRuns with
  | none =>
    have hfold : foldCase c = c := by unfold foldCase; rw [h]
    rw [hfold]
    exact List.mem_cons_self
  | some run =>
    obtain ⟨hmem, hholds⟩ := holds_of_runHolding? h
    have hrun := foldsToChars_of_mem_foldRuns run hmem
    have hfold : (foldCase c).toNat = ((c.toNat : Int) + run.shift).toNat := by
      unfold foldCase
      rw [h]
      exact toNat_ofNat_of_holds hrun hholds
    have hsource : run.source? (foldCase c).toNat = some c.toNat := by
      rw [hfold]
      exact source?_of_holds hrun hholds
    refine List.mem_cons_of_mem _ (List.mem_map.mpr ⟨c.toNat, ?_, Char.ofNat_toNat c⟩)
    exact List.mem_filterMap.mpr ⟨run, hmem, hsource⟩

/-- **Every character that folds like `c` is a variant of `c`.** -/
theorem mem_variants_of_foldCase {c d : Char} (h : foldCase d = foldCase c) : d ∈ variants c := by
  have hd := mem_variants_self d
  unfold variants at hd ⊢
  rwa [h] at hd

/-- The character has no other variant. -/
def Caseless (c : Char) : Prop := variants c = [c]

instance : DecidablePred Caseless := fun c => by
  unfold Caseless
  infer_instance

theorem Caseless.eq_of_foldCase {c d : Char} (hc : Caseless c) (h : foldCase d = foldCase c) :
    d = c := by
  have hd := mem_variants_of_foldCase h
  rw [hc] at hd
  exact List.mem_singleton.mp hd

/-- The run folds no character between the two code points, and none to one of them. -/
def FoldRun.Avoids (low high : Nat) (run : FoldRun) : Prop :=
  0 < run.first ∧ (high < run.first ∨ run.last < low) ∧
    ((high : Int) < run.first + run.shift ∨ run.last + run.shift < low)

instance (low high : Nat) : DecidablePred (FoldRun.Avoids low high) := fun run => by
  unfold FoldRun.Avoids
  infer_instance

/-- **A character that all runs avoid is caseless.** -/
theorem caseless_of_avoids {low high : Nat} (h : ∀ run ∈ foldRuns, run.Avoids low high) {c : Char}
    (hlow : low ≤ c.toNat) (hhigh : c.toNat ≤ high) : Caseless c := by
  have hfold : foldCase c = c := by
    unfold foldCase
    cases hrun : runHolding? c.toNat foldRuns with
    | none => rfl
    | some run =>
      obtain ⟨hmem, hholds⟩ := holds_of_runHolding? hrun
      obtain ⟨-, haway, -⟩ := h run hmem
      have hle := le_of_holds hholds
      omega
  have hsources : foldRuns.filterMap (·.source? c.toNat) = [] := by
    refine List.filterMap_eq_nil_iff.mpr fun run hmem => ?_
    obtain ⟨hpos, -, haway⟩ := h run hmem
    unfold FoldRun.source?
    refine if_neg fun hholds => ?_
    have hle := le_of_holds hholds
    omega
  unfold Caseless variants
  simp only [hfold, hsources]
  rfl

/-- Digits have no case. -/
theorem caseless_of_isDigit {c : Char} (hc : c.isDigit = true) : Caseless c := by
  have hdigits : ∀ n ∈ List.range' 48 10, Caseless (Char.ofNat n) := by decide
  have hmem : c.toNat ∈ List.range' 48 10 := by
    obtain ⟨hlow, hhigh⟩ := Char.isDigit_iff_toNat.mp hc
    have h0 : '0'.toNat = 48 := rfl
    have h9 : '9'.toNat = 57 := rfl
    rw [List.mem_range'_1]
    omega
  rw [← Char.ofNat_toNat c]
  exact hdigits c.toNat hmem

/-- Only itself folds like a text of caseless characters. -/
theorem eq_of_map_foldCase {text read : List Char} (htext : ∀ c ∈ text, Caseless c)
    (h : read.map foldCase = text.map foldCase) : read = text := by
  induction text generalizing read with
  | nil => exact List.map_eq_nil_iff.mp h
  | cons c text ih =>
    obtain ⟨hc, hrest⟩ := List.forall_mem_cons.mp htext
    obtain ⟨d, read, rfl, hd, hread⟩ := List.map_eq_cons_iff.mp h
    rw [hc.eq_of_foldCase hd, ih hrest hread]

end Harmony.Text
