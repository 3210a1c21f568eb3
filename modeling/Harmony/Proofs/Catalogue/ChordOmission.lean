import Harmony.Proofs.Catalogue.ChordShape

/-! # Omissions in chords

An omission removes what the rules above it wrote, and nothing else: a rule below it may write the
degree again. For some degrees such rules exist, and they are general rules for a stack of tones, not
refinements of the omission. So an omitted degree is absent exactly if none of them fires.

* `omissions`: the rules that omit a degree, with the rules below them that write it.
* `contains_omitted_iff`: when an omitted degree is absent.
* `omission_not_final`: an omission that is undone. -/

namespace Harmony.Catalogue

variable {modifier : String}

/-! ### The rules below an omission -/

/-- A rule that omits a degree. -/
structure Omission where
  /-- The name of the rule. -/
  rule : String
  degree : Degree
  /-- The names of the rules below it that write the degree. -/
  reinstating : List String

/-- The omissions in chords, from first to last. -/
def omissions : List Omission := [
  ⟨"Nondominant", 1, []⟩,
  ⟨"Suspended Triad", 3, ["Half Diminished Seventh", "Diminished Major Seventh",
    "Augmented Major Seventh", "Augmented Minor Seventh", "Minor Ninth", "Minor Eleventh",
    "Minor Thirteenth"]⟩,
  ⟨"Omit Fifth", 5, ["Half Diminished Seventh", "Diminished Major Seventh",
    "Augmented Major Seventh", "Augmented Minor Seventh"]⟩,
  ⟨"Omit Sixth", 6, []⟩,
  ⟨"Omit Seventh", 7, ["Dominant Ninth", "Major Ninth", "Minor Ninth", "Dominant Eleventh",
    "Major Eleventh", "Minor Eleventh", "Dominant Thirteenth", "Major Thirteenth",
    "Minor Thirteenth"]⟩,
  ⟨"Omit Ninth", 9, ["Dominant Eleventh", "Major Eleventh", "Minor Eleventh",
    "Dominant Thirteenth", "Major Thirteenth", "Minor Thirteenth"]⟩,
  ⟨"Omit Eleventh", 11, ["Dominant Thirteenth", "Major Thirteenth", "Minor Thirteenth"]⟩]

/-- The rules that put a degree back below its omission. -/
def reinstating (d : Degree) : List String :=
  ((omissions.find? (·.degree == d)).map (·.reinstating)).getD []

/-- The degrees that a rule omits. -/
def omittedBy (rule : Rule Pattern) : List Degree :=
  rule.effects.filterMap fun
    | .omit d => some d
    | _ => none

theorem mem_omittedBy {rule : Rule Pattern} {d : Degree} (h : Effect.omit d ∈ rule.effects) :
    d ∈ omittedBy rule := List.mem_filterMap.mpr ⟨_, h, rfl⟩

/-- The chord rules omit what is listed, and nothing else. -/
theorem flatMap_omittedBy_chords :
    (chords.rules.flatMap fun rule => (omittedBy rule).map (rule.name, ·)) =
      omissions.map fun omission => (omission.rule, omission.degree) := by decide

theorem reinstating_degree :
    ∀ omission ∈ omissions, reinstating omission.degree = omission.reinstating := by decide

theorem exists_omission {rule : Rule Pattern} (hrule : rule ∈ chords.rules) {d : Degree}
    (homit : Effect.omit d ∈ rule.effects) :
    ∃ omission ∈ omissions, omission.rule = rule.name ∧ omission.degree = d := by
  have hmem : (rule.name, d) ∈
      chords.rules.flatMap fun rule => (omittedBy rule).map (rule.name, ·) :=
    List.mem_flatMap.mpr ⟨rule, hrule, List.mem_map_of_mem (mem_omittedBy homit)⟩
  rw [flatMap_omittedBy_chords] at hmem
  obtain ⟨omission, homission, h⟩ := List.mem_map.mp hmem
  exact ⟨omission, homission, Prod.mk.inj h⟩

/-! ### Outcomes behind an omission -/

/-- If no rule that puts the degree back fires, the degree is absent. -/
theorem outcomes_of_omission : ∀ omission ∈ omissions, ∀ distance ∈
    outcomes (("Basic", true) :: (omission.rule, true) :: omission.reinstating.map (·, false))
      omission.degree chords.rules [none], distance = none := by decide

/-- If one of them fires, it is not. -/
theorem outcomes_of_reinstating : ∀ omission ∈ omissions, ∀ name ∈ omission.reinstating,
    ∀ distance ∈ outcomes [("Basic", true), (name, true)] omission.degree chords.rules [none],
      distance ≠ none := by decide

theorem agrees_map_false {names : List String} (h : ∀ name ∈ names, name ∉ chords.applied modifier) :
    chords.Agrees modifier (names.map (·, false)) := by
  intro entry hentry
  obtain ⟨name, hname, rfl⟩ := List.mem_map.mp hentry
  exact decide_eq_false (h name hname)

theorem distance_omitted_eq_none_iff {omission : Omission} (h : omission ∈ omissions)
    (happlied : omission.rule ∈ chords.applied modifier) :
    chords.distance modifier omission.degree = none ↔
      ∀ name ∈ omission.reinstating, name ∉ chords.applied modifier := by
  constructor
  · intro habsent name hname hback
    have hmem := distance_chords_mem (agrees_cons (decide_eq_true hback) agrees_nil) omission.degree
    exact outcomes_of_reinstating omission h name hname _ hmem habsent
  · intro hnone
    have hknown := agrees_cons (decide_eq_true happlied) (agrees_map_false hnone)
    exact outcomes_of_omission omission h _ (distance_chords_mem hknown omission.degree)

/-! ### Omitted degrees -/

/-- **When an omission is final**: a degree that a firing rule omits is absent exactly if no rule that
puts it back fires. The root and the sixth are never put back. -/
theorem contains_omitted_iff (root : PitchClass) (modifier : String) {rule : Rule Pattern}
    (hrule : rule ∈ chords.rules) {d : Degree} (homit : Effect.omit d ∈ rule.effects)
    (hfires : rule.fires modifier = true) :
    (chords.execute root modifier).tones.contains d = false ↔
      ∀ name ∈ reinstating d, name ∉ (chords.execute root modifier).applied := by
  have happlied := (name_mem_applied_iff nodup_names_chords hrule).mpr hfires
  obtain ⟨omission, homission, hname, rfl⟩ := exists_omission hrule homit
  rw [← hname] at happlied
  rw [contains_execute, Option.isSome_eq_false_iff, Option.isNone_iff_eq_none, execute_applied,
    reinstating_degree omission homission]
  exact distance_omitted_eq_none_iff homission happlied

theorem contains_omitted_iff_no_seventh :
    ∃ rule ∈ chords.rules, rule.name = "Omit Seventh" ∧ Effect.omit 7 ∈ rule.effects ∧
      rule.fires "9 -7 #9" = true ∧
      (chords.execute (.ofInt 2) "9 -7 #9").tones.contains 7 = false := by
  have hfires : ∃ rule ∈ chords.rules, rule.name = "Omit Seventh" ∧ Effect.omit 7 ∈ rule.effects ∧
      rule.fires "9 -7 #9" = true := by decide
  have hnone : ∀ name ∈ reinstating 7,
      name ∉ (chords.execute (.ofInt 2) "9 -7 #9").applied := by decide +kernel
  obtain ⟨rule, hrule, hname, homit, hrule_fires⟩ := hfires
  exact ⟨rule, hrule, hname, homit, hrule_fires,
    (contains_omitted_iff (.ofInt 2) "9 -7 #9" hrule homit hrule_fires).mpr hnone⟩

/-- `Major Ninth` stands below `Omit Seventh` and writes the seventh again. -/
theorem omission_not_final :
    ¬ ∀ (root : PitchClass) (modifier : String), ∀ rule ∈ chords.rules, ∀ d : Degree,
      Effect.omit d ∈ rule.effects → rule.fires modifier = true →
        (chords.execute root modifier).tones.contains d = false := by
  intro hfinal
  have hfires : ∃ rule ∈ chords.rules, Effect.omit 7 ∈ rule.effects ∧
      rule.fires "maj9 -7" = true := by decide
  have hpresent : (chords.execute (.ofInt 0) "maj9 -7").tones.contains 7 = true := by decide +kernel
  obtain ⟨rule, hrule, homit, hrule_fires⟩ := hfires
  rw [hfinal (.ofInt 0) "maj9 -7" rule hrule 7 homit hrule_fires] at hpresent
  cases hpresent

end Harmony.Catalogue
