import Harmony.Catalogue.Scale
import Harmony.Proofs.Catalogue.ChordOmission
import Harmony.Proofs.Catalogue.ScaleModes

/-! # General and special rules

A rule is a special case of a general one if its trigger has that of the general one as a part and it
stands below the general one: where it fires, the general rule fires as well, and its own word is the
later one.

This does not yet make its word the last one. Further down there are general rules for stacks of tones,
and they write the degrees that they stack again. So a ninth that was raised by name is raised in the
chord exactly if no stack above the ninth is asked for.

* `Registry.Specializes`: a special rule and a general one.
* `refinements`: the general rules of both catalogues, with those that refine them.
* `sublist_applied_of_refinement`: they fire together, the general rule first.
* `get?_ninth_of_sharp`: the ninth behind `Sharp Ninth`.
* `sharp_ninth_not_final`: a raised ninth that is undone. -/

namespace Harmony

/-! ### General and special rules -/

/-- A rule of the first name stands below one of the second, and its trigger has that of the other as a
part. -/
def Registry.Specializes (registry : Registry Pattern) (special general : String) : Prop :=
  ∃ other ∈ registry.rules, other.name = general ∧ ∃ rule ∈ registry.rules, rule.name = special ∧
    rule.trigger.HasPart other.trigger ∧ [other, rule].Sublist registry.rules

instance (registry : Registry Pattern) : DecidableRel registry.Specializes := fun special general => by
  unfold Registry.Specializes
  infer_instance

/-- **A special rule fires only together with the general one**, which comes first. -/
theorem sublist_applied_of_specializes {registry : Registry Pattern} {modifier special general : String}
    (hnames : registry.names.Nodup) (h : registry.Specializes special general)
    (hfires : special ∈ registry.applied modifier) :
    [general, special].Sublist (registry.applied modifier) := by
  obtain ⟨other, -, rfl, rule, hrule, rfl, hpart, hbelow⟩ := h
  have hspecial : rule.fires modifier = true := (name_mem_applied_iff hnames hrule).mp hfires
  have hgeneral : other.fires modifier = true := fires_of_hasPart hpart hspecial
  have hboth : [other, rule].filter (·.fires modifier) = [other, rule] := by
    simp [hgeneral, hspecial]
  have hfiring : [other, rule].Sublist (registry.firing modifier) :=
    hboth ▸ hbelow.filter (·.fires modifier)
  exact hfiring.map (·.name)

namespace Catalogue

/-- **The general rules of a catalogue**, each with those that refine it. -/
def refinements : RuleKind → List (String × List String)
  | .chord => [
    ("Add Sixth", ["Augmented Sixth", "Omit Sixth"]),
    ("Add Seventh", ["Dominant Seventh", "Major Seventh", "Minor Seventh", "Diminished Seventh",
      "Half Diminished Seventh", "Diminished Major Seventh", "Augmented Major Seventh",
      "Augmented Minor Seventh", "Harmonic Seventh", "Omit Seventh"]),
    ("Add Ninth", ["Dominant Ninth", "Major Ninth", "Minor Ninth", "Sharp Ninth", "Omit Ninth"]),
    ("Add Eleventh", ["Dominant Eleventh", "Major Eleventh", "Minor Eleventh", "Omit Eleventh"]),
    ("Add Thirteenth", ["Dominant Thirteenth", "Major Thirteenth", "Minor Thirteenth"])]
  | .scale => [
    ("Melodic Minor Ascend", ["Melodic Minor Descend"]),
    ("Lydian", ["Mixolydian"])]

theorem specializes_chords : ∀ general ∈ refinements .chord, ∀ special ∈ general.2,
    chords.Specializes special general.1 := by decide

theorem specializes_scales : ∀ general ∈ refinements .scale, ∀ special ∈ general.2,
    scales.Specializes special general.1 := by decide

theorem specializes_of_refinement {kind : RuleKind} {general : String × List String}
    (hgeneral : general ∈ refinements kind) {special : String} (hspecial : special ∈ general.2) :
    (rulesOf kind).Specializes special general.1 := by
  cases kind with
  | chord => exact specializes_chords general hgeneral special hspecial
  | scale => exact specializes_scales general hgeneral special hspecial

theorem nodup_names_rulesOf (kind : RuleKind) : (rulesOf kind).names.Nodup := by
  cases kind with
  | chord => exact nodup_names_chords
  | scale => decide

/-- **A refining rule fires only together with the general rule**, and behind it. -/
theorem sublist_applied_of_refinement {kind : RuleKind} {general : String × List String}
    (hgeneral : general ∈ refinements kind) {special : String} (hspecial : special ∈ general.2)
    {root : PitchClass} {modifier : String}
    (hfires : special ∈ ((rulesOf kind).execute root modifier).applied) :
    [general.1, special].Sublist ((rulesOf kind).execute root modifier).applied := by
  rw [execute_applied] at hfires ⊢
  exact sublist_applied_of_specializes (nodup_names_rulesOf kind)
    (specializes_of_refinement hgeneral hspecial) hfires

theorem sublist_applied_of_refinement_descending :
    ("Melodic Minor Ascend", ["Melodic Minor Descend"]) ∈ refinements .scale ∧
      "Melodic Minor Descend" ∈ (scales.execute (.ofInt 4) "MEL m  desc").applied ∧
      ["Melodic Minor Ascend", "Melodic Minor Descend"].Sublist
        (scales.execute (.ofInt 4) "MEL m  desc").applied := by
  have hgeneral : ("Melodic Minor Ascend", ["Melodic Minor Descend"]) ∈ refinements .scale := by
    decide
  have hfires : "Melodic Minor Descend" ∈
      ((rulesOf .scale).execute (.ofInt 4) "MEL m  desc").applied := by decide
  exact ⟨hgeneral, hfires, sublist_applied_of_refinement hgeneral List.mem_cons_self hfires⟩

/-! ### The raised ninth -/

variable {modifier : String}

/-- If no rule for a stack above the ninth fires, the ninth stays raised. -/
theorem outcomes_of_sharp_ninth : ∀ distance ∈
    outcomes (("Basic", true) :: ("Sharp Ninth", true) :: ("Omit Ninth", false) ::
      (reinstating 9).map (·, false)) 9 chords.rules [none], distance = some 15 := by decide

/-- If one of them fires, the ninth is the plain one. -/
theorem outcomes_of_stack : ∀ name ∈ reinstating 9, ∀ distance ∈
    outcomes [("Basic", true), (name, true)] 9 chords.rules [none], distance = some 14 := by decide

theorem distance_ninth_of_sharp (hsharp : "Sharp Ninth" ∈ chords.applied modifier)
    (homit : "Omit Ninth" ∉ chords.applied modifier) : chords.distance modifier 9 =
      some (if ∀ name ∈ reinstating 9, name ∉ chords.applied modifier then 15 else 14) := by
  split_ifs with hstacks
  · have hknown := agrees_cons (decide_eq_true hsharp)
      (agrees_cons (decide_eq_false homit) (agrees_map_false hstacks))
    exact outcomes_of_sharp_ninth _ (distance_chords_mem hknown 9)
  · simp only [not_forall, not_not, exists_prop] at hstacks
    obtain ⟨name, hname, hfires⟩ := hstacks
    have hknown := agrees_cons (decide_eq_true hfires) agrees_nil
    exact outcomes_of_stack name hname _ (distance_chords_mem hknown 9)

/-- **The ninth behind `Sharp Ninth`** is the raised one, unless a rule fires that would put an omitted
ninth back: those for the elevenths and thirteenths of a quality. Then it is the plain one. -/
theorem get?_ninth_of_sharp {root : PitchClass}
    (hsharp : "Sharp Ninth" ∈ (chords.execute root modifier).applied)
    (homit : "Omit Ninth" ∉ (chords.execute root modifier).applied) :
    (chords.execute root modifier).tones.get? 9 = some (root.transpose
      (if ∀ name ∈ reinstating 9, name ∉ (chords.execute root modifier).applied then 15
        else 14)) := by
  rw [execute_applied] at hsharp homit
  rw [get?_execute, distance_ninth_of_sharp hsharp homit]
  rfl

theorem get?_ninth_of_sharp_seventh :
    "Sharp Ninth" ∈ (chords.execute (.ofInt 4) "7 SHARP 9").applied ∧
      "Omit Ninth" ∉ (chords.execute (.ofInt 4) "7 SHARP 9").applied ∧
      (chords.execute (.ofInt 4) "7 SHARP 9").tones.get? 9 = some (.ofInt 7) := by
  have happlied : (chords.execute (.ofInt 4) "7 SHARP 9").applied =
      ["Basic", "Add Seventh", "Add Ninth", "Sharp Ninth"] := by decide +kernel
  have hsharp : "Sharp Ninth" ∈ (chords.execute (.ofInt 4) "7 SHARP 9").applied := by
    simp [happlied]
  have homit : "Omit Ninth" ∉ (chords.execute (.ofInt 4) "7 SHARP 9").applied := by
    simp [happlied]
  refine ⟨hsharp, homit, (get?_ninth_of_sharp hsharp homit).trans ?_⟩
  rw [happlied]
  decide

/-- `Major Eleventh` stands below `Sharp Ninth` and writes the ninth again. -/
theorem sharp_ninth_not_final :
    ¬ ∀ (root : PitchClass) (modifier : String),
      "Sharp Ninth" ∈ (chords.execute root modifier).applied →
      "Omit Ninth" ∉ (chords.execute root modifier).applied →
        (chords.execute root modifier).tones.get? 9 = some (root.transpose 15) := by
  intro hfinal
  have hplain : "Sharp Ninth" ∈ (chords.execute (.ofInt 0) "maj11 #9").applied ∧
      "Omit Ninth" ∉ (chords.execute (.ofInt 0) "maj11 #9").applied ∧
      (chords.execute (.ofInt 0) "maj11 #9").tones.get? 9 = some (.ofInt 2) := by decide +kernel
  obtain ⟨hsharp, homit, hninth⟩ := hplain
  rw [hfinal (.ofInt 0) "maj11 #9" hsharp homit] at hninth
  exact absurd hninth (by decide)

end Catalogue

end Harmony
