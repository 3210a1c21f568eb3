import Harmony.Proofs.Catalogue.ChordShape
import Harmony.Proofs.Chain.Alphabet

/-! # Chords of numbers

A modifier of digits, hyphens and blanks speaks of single degrees only. Of the chord rules it leaves
`Basic`, which always fires, and ten that look for a number as it is written: a bare number adds its
degree, and one behind a hyphen omits it. Numbers may overlap, as in `679` or `1113`, so each is looked
for by itself.

* `numberRules`: these rules, with the number that each looks for (`chords_within_numerals`).
* `NumberChord`: what holds of the chord of such a modifier.
* `numberChord_execute`: it does. -/

namespace Harmony.Catalogue

open Pattern

/-! ### Numerals -/

/-- A digit, a hyphen or a blank. -/
def IsNumeral (c : Char) : Prop := c.isDigit = true ∨ c = '-' ∨ Text.isBlank c = true

instance : DecidablePred IsNumeral := fun c => by
  unfold IsNumeral
  infer_instance

def numerals : List Glyph := .blank :: .sign '-' :: "0123456789".toList.map .sign

theorem mem_digits_of_isDigit {c : Char} (hc : c.isDigit = true) : c ∈ "0123456789".toList := by
  have hdigits : ∀ n ∈ List.range' 48 10, Char.ofNat n ∈ "0123456789".toList := by decide
  obtain ⟨hlow, hhigh⟩ := Char.isDigit_iff_toNat.mp hc
  have h0 : '0'.toNat = 48 := rfl
  have h9 : '9'.toNat = 57 := rfl
  rw [← Char.ofNat_toNat c]
  exact hdigits c.toNat (List.mem_range'_1.mpr (by omega))

theorem over_numerals {text : List Char} (h : ∀ c ∈ text, IsNumeral c) : Text.Over numerals text := by
  intro c hc
  rcases h c hc with hdigit | rfl | hblank
  · have hmem : Glyph.sign c ∈ "0123456789".toList.map Glyph.sign :=
      List.mem_map_of_mem (mem_digits_of_isDigit hdigit)
    exact ⟨.sign c, List.mem_cons_of_mem _ (List.mem_cons_of_mem _ hmem), rfl⟩
  · exact ⟨.sign '-', List.mem_cons_of_mem _ List.mem_cons_self, rfl⟩
  · exact ⟨.blank, List.mem_cons_self, hblank⟩

/-! ### The rules of numbers -/

/-- A rule that looks for a number as it is written. -/
structure NumberRule where
  name : String
  number : String
  effect : Effect
deriving DecidableEq

/-- Is the number written somewhere in the modifier? -/
def Written (number modifier : String) : Prop := number.toList <:+: modifier.toList

instance (number modifier : String) : Decidable (Written number modifier) := by
  unfold Written
  infer_instance

/-- **The rules of numbers**, in order of precedence. -/
def numberRules : List NumberRule := [
  ⟨"Omit Fifth", "-5", .omit 5⟩,
  ⟨"Add Sixth", "6", .add 6 9⟩, ⟨"Omit Sixth", "-6", .omit 6⟩,
  ⟨"Add Seventh", "7", .add 7 10⟩, ⟨"Omit Seventh", "-7", .omit 7⟩,
  ⟨"Add Ninth", "9", .add 9 14⟩, ⟨"Omit Ninth", "-9", .omit 9⟩,
  ⟨"Add Eleventh", "11", .add 11 17⟩, ⟨"Omit Eleventh", "-11", .omit 11⟩,
  ⟨"Add Thirteenth", "13", .add 13 21⟩]

def NumberRule.rule (r : NumberRule) : Rule Pattern := chordRule r.name (word r.number) [r.effect]

/-- The chord rules that are left on numerals. -/
def numberRegistry : Registry Pattern :=
  ⟨.chord, ⟨"Basic", .chord, .always, [.add 1 0, .add 3 4, .add 5 7]⟩ :: numberRules.map (·.rule)⟩

set_option maxRecDepth 4096 in
/-- **On numerals** nothing is left of the other chord rules, and of an omission only its hyphen. -/
theorem chords_within_numerals : chords.within numerals = numberRegistry := by decide

/-! ### Rules that fire -/

theorem caseless_of_isNumeral {c : Char} (hc : IsNumeral c) : Text.Caseless c := by
  rcases hc with hdigit | rfl | hblank
  · exact Text.caseless_of_isDigit hdigit
  · decide
  · exact Text.caseless_of_isBlank hblank

theorem isNumeral_numbers :
    numberRules.all (fun r => r.number != "" && r.number.toList.all (IsNumeral ·)) = true := by
  decide

variable {modifier : String}

theorem fires_numberRule {r : NumberRule} (hr : r ∈ numberRules) :
    r.rule.fires modifier = decide (Written r.number modifier) := by
  obtain ⟨hne, hnumerals⟩ := Bool.and_eq_true_iff.mp (List.all_eq_true.mp isNumeral_numbers r hr)
  have hcaseless : ∀ c ∈ r.number.toList, Text.Caseless c := fun c hc =>
    caseless_of_isNumeral (of_decide_eq_true (List.all_eq_true.mp hnumerals c hc))
  rw [Bool.eq_iff_iff, decide_eq_true_iff]
  exact fires_word_iff hcaseless (bne_iff_ne.mp hne)

/-- The rules that fire, in order: `Basic`, and those whose number is written. -/
theorem applied_numberRegistry (modifier : String) : numberRegistry.applied modifier =
    "Basic" :: (numberRules.filter (Written ·.number modifier)).map (·.name) := by
  have hfiring : (numberRules.map (·.rule)).filter (·.fires modifier) =
      (numberRules.filter (Written ·.number modifier)).map (·.rule) := by
    rw [List.filter_map]
    exact congrArg (List.map _) (List.filter_congr fun r hr => fires_numberRule hr)
  unfold Registry.applied Registry.firing numberRegistry
  rw [List.filter_cons_of_pos rfl, hfiring, List.map_cons, List.map_map]
  rfl

theorem nodup_names_numberRegistry : numberRegistry.names.Nodup := by decide

/-- The names of the rules with their numbers. -/
def ruleNumbers : List (String × String) := numberRules.map fun r => (r.name, r.number)

theorem mem_applied_numberRegistry {name number : String} (h : (name, number) ∈ ruleNumbers) :
    name ∈ numberRegistry.applied modifier ↔ Written number modifier := by
  obtain ⟨r, hr, heq⟩ := List.mem_map.mp h
  obtain ⟨rfl, rfl⟩ := Prod.mk.inj heq
  have hmem : r.rule ∈ numberRegistry.rules := List.mem_cons_of_mem _ (List.mem_map_of_mem hr)
  have hfires : r.name ∈ numberRegistry.applied modifier ↔ r.rule.fires modifier = true :=
    name_mem_applied_iff nodup_names_numberRegistry hmem
  rw [hfires, fires_numberRule hr, decide_eq_true_iff]

/-! ### Distances -/

/-- A degree that a number adds and that the number behind a hyphen omits. -/
structure NumberTone where
  degree : Degree
  number : String
  /-- The distance above the root, within an octave. -/
  semitones : Int
  /-- The name of the rule that adds the degree. -/
  adding : String
  /-- The name of the rule that omits it. -/
  omitting : String

/-- What stands for an omission. -/
def NumberTone.omission (tone : NumberTone) : String := "-" ++ tone.number

def numberTones : List NumberTone := [
  ⟨6, "6", 9, "Add Sixth", "Omit Sixth"⟩,
  ⟨7, "7", 10, "Add Seventh", "Omit Seventh"⟩,
  ⟨9, "9", 2, "Add Ninth", "Omit Ninth"⟩,
  ⟨11, "11", 5, "Add Eleventh", "Omit Eleventh"⟩]

theorem ruleNumbers_numberTones : ∀ tone ∈ numberTones,
    (tone.adding, tone.number) ∈ ruleNumbers ∧ (tone.omitting, tone.omission) ∈ ruleNumbers := by
  decide

section Known
variable {known : List (String × Bool)} (hknown : numberRegistry.Agrees modifier known)
include hknown

theorem agrees_written {name number : String} (h : (name, number) ∈ ruleNumbers) :
    numberRegistry.Agrees modifier ((name, decide (Written number modifier)) :: known) :=
  agrees_cons (decide_eq_decide.mpr (mem_applied_numberRegistry h)) hknown

/-- `Basic` fires always, so it is known to. -/
theorem distance_numberRegistry_mem (d : Degree) : numberRegistry.distance modifier d ∈
    outcomes (("Basic", true) :: known) d numberRegistry.rules [none] := by
  have hbasic : "Basic" ∈ numberRegistry.applied modifier := by
    rw [applied_numberRegistry]
    exact List.mem_cons_self
  have hall := agrees_cons (decide_eq_true hbasic) hknown
  exact distance_mem_outcomes nodup_names_numberRegistry hall d

end Known

/-- `Basic` alone writes the root and the third. -/
theorem distance_number_basic : ∀ tone ∈ ([(1, 0), (3, 4)] : List (Degree × Int)),
    numberRegistry.distance modifier tone.1 = some tone.2 := by
  have hall : ∀ tone ∈ ([(1, 0), (3, 4)] : List (Degree × Int)), ∀ distance ∈
      outcomes [("Basic", true)] tone.1 numberRegistry.rules [none],
      distance = some tone.2 := by decide
  exact fun tone htone => hall tone htone _ (distance_numberRegistry_mem agrees_nil tone.1)

theorem distance_number_fifth : numberRegistry.distance modifier 5 =
    if Written "-5" modifier then none else some 7 := by
  have hall : ∀ omitted, ∀ distance ∈
      outcomes [("Basic", true), ("Omit Fifth", omitted)] 5 numberRegistry.rules [none],
      distance = if omitted = true then none else some 7 := by decide
  have hknown : numberRegistry.Agrees modifier [("Omit Fifth", decide (Written "-5" modifier))] :=
    agrees_written agrees_nil (by decide)
  simpa using hall _ _ (distance_numberRegistry_mem hknown 5)

theorem distance_added {tone : NumberTone} (h : tone ∈ numberTones) :
    (numberRegistry.distance modifier tone.degree).map (· % 12) =
      if Written tone.number modifier ∧ ¬ Written tone.omission modifier then some tone.semitones
      else none := by
  have hall : ∀ tone ∈ numberTones, ∀ added omitted, ∀ distance ∈
      outcomes [("Basic", true), (tone.adding, added), (tone.omitting, omitted)] tone.degree
        numberRegistry.rules [none],
      distance.map (· % 12) =
        if added = true ∧ omitted = false then some tone.semitones else none := by decide
  obtain ⟨hadding, homitting⟩ := ruleNumbers_numberTones tone h
  have hknown : numberRegistry.Agrees modifier
      [(tone.adding, decide (Written tone.number modifier)),
        (tone.omitting, decide (Written tone.omission modifier))] :=
    agrees_written (agrees_written agrees_nil homitting) hadding
  simpa using hall tone h _ _ _ (distance_numberRegistry_mem hknown tone.degree)

theorem distance_number_thirteenth : numberRegistry.distance modifier 13 =
    if Written "13" modifier then some 21 else none := by
  have hall : ∀ added, ∀ distance ∈
      outcomes [("Basic", true), ("Add Thirteenth", added)] 13 numberRegistry.rules [none],
      distance = if added = true then some 21 else none := by decide
  have hknown : numberRegistry.Agrees modifier [("Add Thirteenth", decide (Written "13" modifier))] :=
    agrees_written agrees_nil (by decide)
  simpa using hall _ _ (distance_numberRegistry_mem hknown 13)

/-- The degrees of chords of numbers. -/
def numberDegrees : List Degree := [1, 3, 5, 6, 7, 9, 11, 13]

theorem addsWithin_numberDegrees : ∀ rule ∈ numberRegistry.rules, ∀ effect ∈ rule.effects,
    addsWithin numberDegrees effect = true := by decide

/-! ### Chords -/

/-- What holds of the chord of a modifier of numerals above a root. -/
structure NumberChord (root : PitchClass) (modifier : String) (output : ChainOutput) : Prop where
  applied : output.applied =
    "Basic" :: (numberRules.filter (Written ·.number modifier)).map (·.name)
  first : output.tones.get? 1 = some root
  third : output.tones.get? 3 = some (root.transpose 4)
  fifth : output.tones.get? 5 =
    if Written "-5" modifier then none else some (root.transpose 7)
  added : ∀ tone ∈ numberTones, output.tones.get? tone.degree =
    if Written tone.number modifier ∧ ¬ Written tone.omission modifier then
      some (root.transpose tone.semitones)
    else none
  thirteenth : output.tones.get? 13 =
    if Written "13" modifier then some (root.transpose 9) else none
  others : ∀ d, d ∉ numberDegrees → output.tones.get? d = none

/-- Octaves make no difference to a tone. -/
theorem map_transpose_emod (root : PitchClass) (distance : Option Int) :
    (distance.map (· % 12)).map root.transpose = distance.map root.transpose := by
  rw [Option.map_map]
  congr 1
  funext n
  exact root.transpose_congr (Int.emod_emod_of_dvd n (Int.dvd_refl 12))

theorem numberChord_numberRegistry (root : PitchClass) (modifier : String) :
    NumberChord root modifier (numberRegistry.execute root modifier) where
  applied := applied_numberRegistry modifier
  first := by
    rw [get?_execute, distance_number_basic (1, 0) (by simp), Option.map_some, root.transpose_zero]
  third := by rw [get?_execute, distance_number_basic (3, 4) (by simp), Option.map_some]
  fifth := by
    rw [get?_execute, distance_number_fifth]
    split_ifs <;> rfl
  added tone htone := by
    rw [get?_execute, ← map_transpose_emod, distance_added htone]
    split_ifs <;> rfl
  thirteenth := by
    rw [get?_execute, distance_number_thirteenth]
    split_ifs
    · exact congrArg some (root.transpose_congr (by decide))
    · rfl
  others d hd := by
    rw [get?_execute, distance_of_addsWithin addsWithin_numberDegrees hd, Option.map_none]

/-- **The chord of numbers**: `Basic`, and of the numbers that are written each one for itself. -/
theorem numberChord_execute (root : PitchClass) {modifier : String}
    (h : ∀ c ∈ modifier.toList, IsNumeral c) :
    NumberChord root modifier (chords.execute root modifier) := by
  rw [← execute_within (over_numerals h), chords_within_numerals]
  exact numberChord_numberRegistry root modifier

theorem numberChord_execute_overlapping :
    (∀ c ∈ "679 -5\t-1113".toList, IsNumeral c) ∧
      (chords.execute (.ofInt 2) "679 -5\t-1113").applied =
        ["Basic", "Omit Fifth", "Add Sixth", "Add Seventh", "Add Ninth", "Add Eleventh",
          "Omit Eleventh", "Add Thirteenth"] ∧
      (chords.execute (.ofInt 2) "679 -5\t-1113").tones.get? 11 = none ∧
      (chords.execute (.ofInt 2) "679 -5\t-1113").tones.get? 13 = some (.ofInt 11) := by
  have hnumerals : ∀ c ∈ "679 -5\t-1113".toList, IsNumeral c := by
    simp [IsNumeral, Text.isBlank]
  have hchord := numberChord_execute (.ofInt 2) hnumerals
  refine ⟨hnumerals, hchord.applied.trans (by decide), ?_, hchord.thirteenth.trans (by decide)⟩
  have heleventh : ⟨11, "11", 5, "Add Eleventh", "Omit Eleventh"⟩ ∈ numberTones := by
    simp [numberTones]
  exact (hchord.added _ heleventh).trans (by decide)

end Harmony.Catalogue
