import Harmony.Proofs.Catalogue.ExtendedChords
import Harmony.Proofs.Note
import Harmony.Proofs.Resolution.Strictness
import Harmony.Proofs.Text.Trim

/-! # Modes by their words

A mode is written with the words of its name, in any case and with any blanks between them. Of the
rules that may fire on a text of the wording the last one is that of the mode, and it fires on all of
them. So a root with the words behind it names a scale in that mode, however strictly it is read.

* `spelledModes`: wordings and the modes they stand for.
* `exists_ofName_of_spelled`: the scale of a root and the words of a mode. -/

namespace Harmony

namespace Catalogue

open Wording

/-! ### Wordings -/

def naturalWord : Wording → Wording := oneOf (word "nat") [word "natural"]

def melodicWord : Wording → Wording := oneOf (word "mel") [word "melodic"]

def descendingWord : Wording → Wording := oneOf (word "desc") [word "descend", word "descending"]

structure SpelledMode where
  wording : Wording
  mode : String

/-- **The wordings of all modes.** -/
def spelledModes : List SpelledMode := [
  ⟨ofParts [minorWord], "Minor"⟩,
  ⟨ofParts [majorWord], "Major"⟩,
  ⟨ofParts [naturalWord, gap, minorWord], "Natural Minor"⟩,
  ⟨ofParts [melodicWord, gap, minorWord], "Melodic Minor Ascend"⟩,
  ⟨ofParts [melodicWord, gap, minorWord, spaced, descendingWord], "Melodic Minor Descend"⟩,
  ⟨ofParts [harmonicWord, gap, minorWord], "Harmonic Minor"⟩,
  ⟨ofParts [oneOf naturalWord [melodicWord, harmonicWord], spaced, majorWord], "Major"⟩,
  ⟨ofParts [diminishedWord], "Diminished"⟩,
  ⟨ofParts [augmentedWord], "Augmented"⟩] ++
  ["Ionian", "Dorian", "Phrygian", "Lydian", "Mixolydian", "Aeolian", "Locrian"].map fun mode =>
    ⟨ofParts [word mode], mode⟩

/-- Is the rule of the mode the last that may fire, and does it fire on every text? -/
def SpelledMode.isSettled (spelled : SpelledMode) : Bool :=
  (scales.mayFire spelled.wording).getLast?.any fun rule =>
    rule.name == spelled.mode && rule.trigger.mustFire spelled.wording

/-- What a modifier may not begin with: blanks, and the signs that a root takes up. -/
def rootSigns : List CharClass := .blank :: Accidental.signs.map .char

/-- Does a text of the wording stay as it is between a root and blanks? -/
def SpelledMode.standsAlone (spelled : SpelledMode) : Bool :=
  rootSigns.all (fun cls => !(Pattern.seqOf [.start, .one cls]).mayOccurIn spelled.wording) &&
    !(Pattern.seqOf [.one .blank, .stop]).mayOccurIn spelled.wording

theorem isSettled_spelledModes : spelledModes.all (·.isSettled) = true := by decide

set_option maxRecDepth 4096 in
theorem standsAlone_spelledModes : spelledModes.all (·.standsAlone) = true := by decide

theorem mode_ne_defaultMode : ∀ mode ∈ spelledModes.map (·.mode), mode ≠ defaultMode := by decide

/-! ### Modifiers -/

section Modifier
variable {spelled : SpelledMode} (hspelled : spelled ∈ spelledModes) {modifier : String}
  (hallows : spelled.wording.Allows modifier.toList)
include hspelled hallows

/-- **The rule of the mode is the last to fire.** -/
theorem exists_lastFiring_of_spelled :
    ∃ rule, scales.LastFiring modifier rule ∧ rule.name = spelled.mode := by
  have hsettled := List.all_eq_true.mp isSettled_spelledModes spelled hspelled
  unfold SpelledMode.isSettled at hsettled
  cases hlast : (scales.mayFire spelled.wording).getLast? with
  | none =>
    rw [hlast] at hsettled
    cases hsettled
  | some rule =>
    rw [hlast, Option.any_some, Bool.and_eq_true, beq_iff_eq] at hsettled
    exact ⟨rule, Registry.lastFiring_of_getLast? hallows hlast hsettled.2, hsettled.1⟩

theorem accepts_head_of_spelled {c : Char} (hc : c ∈ modifier.toList.head?) {cls : CharClass}
    (hcls : cls ∈ rootSigns) : cls.accepts .folded c = false := by
  have halone := List.all_eq_true.mp standsAlone_spelledModes spelled hspelled
  obtain ⟨hfront, -⟩ := Bool.and_eq_true_iff.mp halone
  obtain ⟨cs, hmodifier⟩ := List.head?_eq_some_iff.mp hc
  by_contra haccepts
  rw [Bool.not_eq_false] at haccepts
  have hoccurs := Pattern.mayOccurIn_of_occursIn hallows (hmodifier ▸ Pattern.occursIn_front haccepts)
  have hnever := List.all_eq_true.mp hfront cls hcls
  rw [hoccurs] at hnever
  cases hnever

theorem isBlank_getLast_of_spelled {c : Char} (hc : c ∈ modifier.toList.getLast?) :
    Text.isBlank c = false := by
  have halone := List.all_eq_true.mp standsAlone_spelledModes spelled hspelled
  obtain ⟨-, hback⟩ := Bool.and_eq_true_iff.mp halone
  obtain ⟨cs, hmodifier⟩ := List.getLast?_eq_some_iff.mp hc
  by_contra hblank
  rw [Bool.not_eq_false] at hblank
  have haccepts : CharClass.blank.accepts .folded c = true := hblank
  have hoccurs := Pattern.mayOccurIn_of_occursIn hallows (hmodifier ▸ Pattern.occursIn_back haccepts)
  rw [hoccurs] at hback
  cases hback

theorem trim_of_spelled : Text.trim modifier.toList = modifier.toList := by
  refine Text.trim_eq_self (fun c hc => ?_) fun c => isBlank_getLast_of_spelled hspelled hallows
  have hblank : CharClass.blank ∈ rootSigns := List.mem_cons_self
  exact accepts_head_of_spelled hspelled hallows hc hblank

/-- No accidental stands behind the root. -/
theorem ofChar?_of_spelled {before behind : List Char} (hbefore : ∀ c ∈ before, Text.isBlank c = true)
    (hbehind : ∀ c ∈ behind, Text.isBlank c = true) :
    ∀ c ∈ (before ++ (modifier.toList ++ behind)).head?, Accidental.ofChar? c = none := by
  intro c hc
  cases before with
  | cons b before =>
    obtain rfl : b = c := Option.some.inj hc
    exact Accidental.ofChar?_of_isBlank (hbefore b List.mem_cons_self)
  | nil =>
    cases hmodifier : modifier.toList with
    | cons d ds =>
      rw [hmodifier] at hc
      obtain rfl : d = c := Option.some.inj hc
      have hhead : d ∈ modifier.toList.head? := by rw [hmodifier]; rfl
      refine Accidental.ofChar?_eq_none fun hsign => ?_
      have hcls : CharClass.char d ∈ rootSigns := List.mem_cons_of_mem _ (List.mem_map_of_mem hsign)
      have hnever := accepts_head_of_spelled hspelled hallows hhead hcls
      rw [CharClass.accepts_self] at hnever
      cases hnever
    | nil =>
      rw [hmodifier] at hc
      exact Accidental.ofChar?_of_isBlank (hbehind c (List.mem_of_mem_head? hc))

/-- **The parts of a name** with the words of a mode: any root, and between blanks the words. -/
theorem tokenize_of_spelled {root before behind : String} {note : Note}
    (hroot : parseRoot root = .ok (note, "")) (hbefore : ∀ c ∈ before.toList, Text.isBlank c = true)
    (hbehind : ∀ c ∈ behind.toList, Text.isBlank c = true) :
    ∃ minor, tokenize (root ++ before ++ modifier ++ behind) = .ok ⟨note, minor, modifier⟩ := by
  have hname := Note.read?_append (Note.read?_of_parseRoot hroot)
    (ofChar?_of_spelled hspelled hallows hbefore hbehind)
  rw [String.toList_empty, List.nil_append] at hname
  have htrim : Text.trim (before.toList ++ (modifier.toList ++ behind.toList)) = modifier.toList := by
    rw [Text.trim_append_left hbefore, Text.trim_append_right _ hbehind,
      trim_of_spelled hspelled hallows]
  refine ⟨hasMinorMarker (before.toList ++ (modifier.toList ++ behind.toList)), ?_⟩
  rw [tokenize_eq_ok (by simpa using hname), htrim, String.ofList_toList]

/-- **The scale of a root and the words of a mode** is in that mode, strict or not. -/
theorem exists_ofName_of_spelled {root before behind : String} {note : Note}
    (hroot : parseRoot root = .ok (note, "")) (hbefore : ∀ c ∈ before.toList, Text.isBlank c = true)
    (hbehind : ∀ c ∈ behind.toList, Text.isBlank c = true) (options : ResolveOptions) :
    ∃ scale, Scale.ofName (root ++ before ++ modifier ++ behind) options = .ok scale ∧
      scale.mode = spelled.mode := by
  obtain ⟨minor, htokens⟩ := tokenize_of_spelled hspelled hallows hroot hbefore hbehind
  obtain ⟨rule, hlast, hname⟩ := exists_lastFiring_of_spelled hspelled hallows
  have hmode : ∀ name spelling,
      (Scale.ofParts name spelling ⟨note, minor, modifier⟩).mode = spelled.mode :=
    fun name spelling => (mode_ofParts hlast name spelling).trans hname
  have hdefault := mode_ne_defaultMode spelled.mode (List.mem_map_of_mem hspelled)
  refine ⟨_, (Scale.ofName_eq htokens options).trans (if_neg ?_), hmode _ _⟩
  rintro ⟨-, -, hno⟩
  exact hdefault ((hmode _ _).symm.trans hno)

end Modifier

theorem exists_ofName_of_spelled_melodic_minor :
    ∃ scale, Scale.ofName (" Eb" ++ "\t" ++ "MELODIC\t minor  Descending" ++ " ") ⟨none, true⟩ =
      .ok scale ∧ scale.mode = "Melodic Minor Descend" := by
  have hspelled : ⟨ofParts [melodicWord, gap, minorWord, spaced, descendingWord],
      "Melodic Minor Descend"⟩ ∈ spelledModes := by simp [spelledModes]
  have hallows : (ofParts [melodicWord, gap, minorWord, spaced, descendingWord]).Allows
      "MELODIC\t minor  Descending".toList := by decide +kernel
  have hroot : parseRoot " Eb" = .ok (⟨.E, .flat⟩, "") := rfl
  have hbefore : ∀ c ∈ "\t".toList, Text.isBlank c = true := by simp [Text.isBlank]
  have hbehind : ∀ c ∈ " ".toList, Text.isBlank c = true := by simp [Text.isBlank]
  exact exists_ofName_of_spelled hspelled hallows hroot hbefore hbehind ⟨none, true⟩

end Catalogue
end Harmony
