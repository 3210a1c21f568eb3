import Harmony.Proofs.Catalogue.ChordShape
import Harmony.Proofs.Pattern.Anchored
import Harmony.Proofs.Pattern.Wording

/-! # Nondominant chords

A dominant word is made nondominant by a negation in front of it, and the dominant rules are to leave
such a word alone. They look back at one character only: it must not be a Latin letter, a bang or a
hyphen. But a negation may also end with a blank, so that behind `non`, a blank and `dom` the chord is
dominant and nondominant at once.

* `DomNegated`: every dominant word of a modifier is negated.
* `accepts_unlinked`: of the characters that a negation may end with, the dominant rules let blanks pass.
* `applied_of_domNegated`: which of the rules fire on such a modifier.
* `nondominant_reads_as_dominant`: a negation that is overlooked. -/

namespace Harmony.Catalogue

open Pattern

/-! ### Triggers -/

/-- **A negation** of a dominant word: `non`, with or without a hyphen and blanks, or a bang. -/
def negation : Pattern := oneOf [seqOf [word "non", .opt (.one (.char '-')), blanks], word "!"]

/-- What a dominant word may stand behind, if it is not the start of the modifier. -/
def unlinked : CharClass := .excluding [⟨'a', 'z'⟩, ⟨'!', '!'⟩, ⟨'-', '-'⟩]

/-- A dominant word with its number. -/
def dominantNumber (number : String) : Pattern :=
  seqOf [oneOf [word "dom", word "dominant"], blanks, word number]

/-- A dominant word with its number, behind a blank. -/
def spacedDominant (number : String) : Pattern := .seq (.one .blank) (dominantNumber number)

/-- The rules of dominant chords, with the numbers that they look for. -/
def dominantRules : List (String × String) := [("Dominant Seventh", "7"), ("Dominant Ninth", "9"),
  ("Dominant Eleventh", "11"), ("Dominant Thirteenth", "13")]

theorem hasTrigger_nondominant : chords.HasTrigger "Nondominant"
    (.pattern (.seq negation (.seq (word "dom") (optionally "inant")))) := by decide

theorem hasTrigger_dominant : ∀ rule ∈ dominantRules,
    chords.HasTrigger rule.1 (.pattern (dominant rule.2)) := by decide

theorem dominant_eq (number : String) :
    dominant number = .seq (oneOf [.start, .one unlinked]) (dominantNumber number) := rfl

/-! ### Negations -/

/-- Every `dom` of the modifier, in any case, stands behind a negation. -/
def DomNegated (modifier : String) : Prop :=
  ∀ before behind, modifier.toList = before ++ behind → Text.BeginsWith "dom" behind →
    negation.EndsAt before behind

instance : DecidablePred DomNegated := fun _ => decidable_of_iff' _ forall_split_iff

/-- **The last character of a negation** is an `n`, a hyphen, a bang or a blank. The dominant rules
refuse all of them but the blank. -/
theorem accepts_unlinked {c : Char} (h : negation.mayEndWith .folded (some c) = true) :
    unlinked.accepts .folded c = Text.isBlank c := by
  have hvariant : ∀ d, Text.sameLetter d c = true → unlinked.accepts .folded d = Text.isBlank d →
      unlinked.accepts .folded c = Text.isBlank c := by
    intro d hsame hd
    have hfold : Text.foldCase d = Text.foldCase c := eq_of_beq hsame
    have hblank := CharClass.isBlank_eq_of_foldCase_eq hfold
    rwa [CharClass.accepts_folded_congr unlinked hfold hblank, hblank] at hd
  have hlast : Text.isBlank c = true ∨ Text.sameLetter '-' c = true ∨ Text.sameLetter 'n' c = true ∨
      Text.sameLetter '!' c = true := by
    simpa [negation, mayEndWith, CharClass.accepts, GroupKind.casing, seqOf, oneOf, altOf, word,
      blanks, or_assoc] using h
  rcases hlast with hblank | hhyphen | hn | hbang
  · rw [hblank]
    exact CharClass.accepts_excluding (by decide) (Or.inl hblank)
  · exact hvariant '-' hhyphen (by decide)
  · exact hvariant 'n' hn (by decide)
  · exact hvariant '!' hbang (by decide)

variable {modifier number : String}

theorem beginsWith_dom_of_matchesAt {atStart : Bool} {text : List Char}
    (h : (dominantNumber number).matchesAt ⟨atStart, text⟩ = true) : Text.BeginsWith "dom" text := by
  have hlonger : "dom".toList.map Text.foldCase <+: "dominant".toList.map Text.foldCase := by
    decide
  simp only [dominantNumber, seqOf, matchesAt_iff_followed, followed_seq, oneOf, altOf,
    followed_group, followed_alt] at h
  rcases h with h | h
  · exact beginsWith_of_followed_word h
  · exact hlonger.trans (beginsWith_of_followed_word h)

/-- **A negated word is dominant only behind a blank.** -/
theorem occursIn_dominant_iff (hnegated : DomNegated modifier) :
    (dominant number).occursIn modifier.toList = true ↔
      (spacedDominant number).occursIn modifier.toList = true := by
  unfold spacedDominant
  rw [dominant_eq, occursIn_seq_iff, occursIn_seq_iff]
  refine exists_congr fun before => exists_congr fun behind => ?_
  refine and_congr_right fun htext => and_congr_left fun hmatch => ?_
  have hends := hnegated before behind htext (beginsWith_dom_of_matchesAt hmatch)
  obtain ⟨c, hc, hlast⟩ := exists_getLast?_of_endsAt (by decide) hends
  have hbefore : before ≠ [] := by
    rintro rfl
    cases hc
  rw [endsAt_oneOf, endsAt_start, endsAt_one, endsAt_one, or_iff_right hbefore]
  refine exists_congr fun d => and_congr_right fun hd => ?_
  obtain rfl : c = d := Option.some.inj (hc.symm.trans hd)
  exact Eq.congr_left (accepts_unlinked hlast)

/-- A negated word fires `Nondominant`. -/
theorem occursIn_nondominant_iff (hnegated : DomNegated modifier) :
    (seq negation (.seq (word "dom") (optionally "inant"))).occursIn modifier.toList = true ↔
      (word "dom").occursIn modifier.toList = true := by
  constructor
  · exact occursIn_of_mem_parts (by decide)
  · intro h
    obtain ⟨before, behind, htext, hdom⟩ := occursIn_iff.mp h
    have hends := hnegated before behind htext (matchesAt_word_iff.mp hdom)
    refine occursIn_seq_iff.mpr ⟨before, behind, htext, hends, ?_⟩
    rw [matchesAt_iff_followed] at hdom ⊢
    simpa only [followed_seq, optionally, followed_opt, true_or] using hdom

/-! ### Rules that fire -/

/-- **If every dominant word is negated**, `Nondominant` fires where there is one, and a dominant rule
exactly where one with its number stands behind a blank. -/
theorem applied_of_domNegated (root : PitchClass) (hnegated : DomNegated modifier) :
    ("Nondominant" ∈ (chords.execute root modifier).applied ↔
        (word "dom").occursIn modifier.toList = true) ∧
      ∀ rule ∈ dominantRules, rule.1 ∈ (chords.execute root modifier).applied ↔
        (spacedDominant rule.2).occursIn modifier.toList = true := by
  have hnil : ∀ rule ∈ dominantRules, (dominant rule.2).occursIn [] = false := by decide
  rw [execute_applied]
  constructor
  · rw [mem_applied_iff_fires hasTrigger_nondominant, fires_pattern_iff_of_nil (by decide),
      occursIn_nondominant_iff hnegated]
  · intro rule hrule
    rw [mem_applied_iff_fires (hasTrigger_dominant rule hrule),
      fires_pattern_iff_of_nil (hnil rule hrule), occursIn_dominant_iff hnegated]

theorem applied_of_domNegated_blank :
    DomNegated "non-dominant7 !dom9 Non  DOM11" ∧
      "Nondominant" ∈ (chords.execute (.ofInt 3) "non-dominant7 !dom9 Non  DOM11").applied ∧
      "Dominant Seventh" ∉ (chords.execute (.ofInt 3) "non-dominant7 !dom9 Non  DOM11").applied ∧
      "Dominant Eleventh" ∈ (chords.execute (.ofInt 3) "non-dominant7 !dom9 Non  DOM11").applied := by
  have hnegated : DomNegated "non-dominant7 !dom9 Non  DOM11" := by decide
  obtain ⟨hnondominant, hdominant⟩ := applied_of_domNegated (.ofInt 3) hnegated
  refine ⟨hnegated, hnondominant.mpr (by decide), ?_, ?_⟩
  · rw [hdominant ("Dominant Seventh", "7") (by simp [dominantRules])]
    decide
  · rw [hdominant ("Dominant Eleventh", "11") (by simp [dominantRules])]
    decide

/-- The blank of a negation lets the dominant rules pass. -/
theorem nondominant_reads_as_dominant :
    ¬ ∀ (root : PitchClass) (modifier : String), DomNegated modifier →
      (∀ rule ∈ dominantRules, rule.1 ∉ (chords.execute root modifier).applied) ∧
        ((word "dom").occursIn modifier.toList = true →
          "Nondominant" ∈ (chords.execute root modifier).applied) := by
  intro hnever
  have hnegated : DomNegated "non dom9" := by decide
  have hninth : ("Dominant Ninth", "9") ∈ dominantRules := by simp [dominantRules]
  have hfires : "Dominant Ninth" ∈ (chords.execute (.ofInt 0) "non dom9").applied := by
    rw [execute_applied, mem_applied_iff_fires (hasTrigger_dominant _ hninth)]
    decide
  exact (hnever (.ofInt 0) "non dom9" hnegated).1 _ hninth hfires

end Harmony.Catalogue
