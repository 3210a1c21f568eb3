import Harmony.Catalogue.Chord
import Harmony.Proofs.Chain.Outcome
import Mathlib.Data.List.Infix

/-! # The shape of chords

Whatever the modifier says, the chord rules keep to a few degrees, and to a few distances at each of
them. The outcomes of the rules bound the distances; where a degree is told exactly, the rules that
write it are known to fire together, since the trigger of the one ends with that of the other.

* `ChordShape`: what holds of every chord.
* `chordShape_execute`: it does. -/

namespace Harmony.Catalogue

open Pattern

variable {modifier : String}

/-! ### The rules of a chord -/

theorem nodup_names_chords : chords.names.Nodup := by decide

theorem basic_mem_applied (modifier : String) : "Basic" ∈ chords.applied modifier :=
  (mem_applied_iff_fires (show chords.HasTrigger "Basic" .always by decide)).mpr rfl

/-- `Basic` fires always, so it is known to. -/
theorem distance_chords_mem {known : List (String × Bool)} (hknown : chords.Agrees modifier known)
    (d : Degree) :
    chords.distance modifier d ∈ outcomes (("Basic", true) :: known) d chords.rules [none] := by
  refine distance_mem_outcomes nodup_names_chords (fun entry hentry => ?_) d
  rcases List.mem_cons.mp hentry with rfl | hentry
  · simp [basic_mem_applied]
  · exact hknown entry hentry

/-! ### Degrees -/

/-- The degrees that chords may have. -/
def chordDegrees : List Degree := [1, 3, 4, 5, 6, 7, 9, 11, 13]

/-- Does the effect add nothing outside the degrees? -/
def addsWithin (degrees : List Degree) : Effect → Bool
  | .add d _ => degrees.contains d
  | .replace _ => false
  | _ => true

theorem addsWithin_chordDegrees :
    ∀ rule ∈ chords.rules, ∀ effect ∈ rule.effects, addsWithin chordDegrees effect = true := by
  decide

theorem move_none_of_addsWithin {degrees : List Degree} {d : Degree} (hd : d ∉ degrees)
    {effect : Effect} (h : addsWithin degrees effect = true) : effect.move d none = none := by
  rcases effect with ⟨e, semitones⟩ | e | ⟨e, semitones⟩ | intervals
  · have hmem : e ∈ degrees := List.contains_iff_mem.mp h
    have hne : d ≠ e := fun he => hd (he ▸ hmem)
    exact if_neg hne
  · exact ite_self none
  · exact ite_self none
  · cases h

theorem foldl_move_none {d : Degree} {effects : List Effect}
    (h : ∀ effect ∈ effects, effect.move d none = none) :
    effects.foldl (Effect.move d) none = none := by
  induction effects with
  | nil => rfl
  | cons effect effects ih =>
    obtain ⟨hfirst, hrest⟩ := List.forall_mem_cons.mp h
    rw [List.foldl_cons, hfirst, ih hrest]

/-- **Outside the degrees that effects add** there is nothing. -/
theorem distance_of_addsWithin {registry : Registry Pattern} {degrees : List Degree}
    (hadds : ∀ rule ∈ registry.rules, ∀ effect ∈ rule.effects, addsWithin degrees effect = true)
    {d : Degree} (hd : d ∉ degrees) : registry.distance modifier d = none := by
  refine foldl_move_none fun effect heffect => ?_
  obtain ⟨rule, hrule, heffect⟩ := List.mem_flatMap.mp heffect
  exact move_none_of_addsWithin hd (hadds rule (List.mem_filter.mp hrule).1 effect heffect)

theorem distance_of_not_mem_chordDegrees {d : Degree} (hd : d ∉ chordDegrees) :
    chords.distance modifier d = none := distance_of_addsWithin addsWithin_chordDegrees hd

/-! ### Distances -/

theorem distance_first : chords.distance modifier 1 =
    if "Nondominant" ∈ chords.applied modifier then none else some 0 := by
  have hall : ∀ omitted, ∀ distance ∈
      outcomes [("Basic", true), ("Nondominant", omitted)] 1 chords.rules [none],
      distance = if omitted = true then none else some 0 := by decide
  have h := hall _ (chords.distance modifier 1) (distance_chords_mem (agrees_cons rfl agrees_nil) 1)
  simpa using h

theorem distance_third_ne_none (h : "Suspended Triad" ∉ chords.applied modifier) :
    chords.distance modifier 3 ≠ none := by
  have hall : ∀ distance ∈
      outcomes [("Basic", true), ("Suspended Triad", false)] 3 chords.rules [none],
      distance ≠ none := by decide
  exact hall _ (distance_chords_mem (agrees_cons (decide_eq_false h) agrees_nil) 3)

theorem distance_fourth : chords.distance modifier 4 =
    if "Suspended Triad" ∈ chords.applied modifier then some 5 else none := by
  have hall : ∀ suspended, ∀ distance ∈
      outcomes [("Basic", true), ("Suspended Triad", suspended)] 4 chords.rules [none],
      distance = if suspended = true then some 5 else none := by decide
  have h := hall _ (chords.distance modifier 4) (distance_chords_mem (agrees_cons rfl agrees_nil) 4)
  simpa using h

theorem augmented_sixth_refines : chords.Refines "Augmented Sixth" "Add Sixth" := by decide

theorem distance_sixth : chords.distance modifier 6 =
    if "Add Sixth" ∈ chords.applied modifier ∧ "Omit Sixth" ∉ chords.applied modifier then
      some (if "Augmented Sixth" ∈ chords.applied modifier then 10 else 9)
    else none := by
  -- `outcomes` takes the rules to fire independently, so it is told that the augmented sixth needs
  -- the added one
  have hall : ∀ added augmented omitted, (augmented = true → added = true) → ∀ distance ∈
      outcomes [("Basic", true), ("Add Sixth", added), ("Augmented Sixth", augmented),
        ("Omit Sixth", omitted)] 6 chords.rules [none],
      distance = if added = true ∧ omitted = false then some (if augmented = true then 10 else 9)
        else none := by decide
  have hadded : decide ("Augmented Sixth" ∈ chords.applied modifier) = true →
      decide ("Add Sixth" ∈ chords.applied modifier) = true :=
    decide_applied_of_refines augmented_sixth_refines
  have h := hall _ _ _ hadded _
    (distance_chords_mem (agrees_cons rfl (agrees_cons rfl (agrees_cons rfl agrees_nil))) 6)
  simpa using h

/-- All rules that write the thirteenth refine the one that adds it. -/
theorem thirteenths_refine : ∀ name ∈ ["Dominant Thirteenth", "Major Thirteenth", "Minor Thirteenth"],
    chords.Refines name "Add Thirteenth" := by decide

theorem added_thirteenth_iff : "Add Thirteenth" ∈ chords.applied modifier ↔
    "13".toList <:+: modifier.toList := by
  have hadd : chords.HasTrigger "Add Thirteenth" (.pattern (word "13")) := by decide
  rw [mem_applied_iff_fires hadd, fires_word_iff (by simp [Text.caseless_of_isDigit]) (by decide)]

theorem distance_thirteenth : chords.distance modifier 13 =
    if "13".toList <:+: modifier.toList then some 21 else none := by
  have hall : ∀ added dominated majored minored, (dominated = true → added = true) →
      (majored = true → added = true) → (minored = true → added = true) → ∀ distance ∈
      outcomes [("Basic", true), ("Add Thirteenth", added), ("Dominant Thirteenth", dominated),
        ("Major Thirteenth", majored), ("Minor Thirteenth", minored)] 13 chords.rules [none],
      distance = if added = true then some 21 else none := by decide
  have hadded : ∀ name ∈ ["Dominant Thirteenth", "Major Thirteenth", "Minor Thirteenth"],
      decide (name ∈ chords.applied modifier) = true →
        decide ("Add Thirteenth" ∈ chords.applied modifier) = true :=
    fun name hname => decide_applied_of_refines (thirteenths_refine name hname)
  have h := hall _ _ _ _ (hadded _ (by simp)) (hadded _ (by simp)) (hadded _ (by simp)) _
    (distance_chords_mem (agrees_cons rfl (agrees_cons rfl (agrees_cons rfl (agrees_cons rfl
      agrees_nil)))) 13)
  simpa [added_thirteenth_iff] using h

/-- The distances that a degree has, if any, where more than one rule writes it. -/
def chordRanges : List (Degree × List Int) :=
  [(3, [3, 4]), (5, [5, 6, 7, 8]), (7, [9, 10, 11]), (9, [14, 15]), (11, [17])]

theorem distance_mem_range {d : Degree} {range : List Int} (h : (d, range) ∈ chordRanges)
    (modifier : String) :
    chords.distance modifier d ∈ none :: range.map some := by
  have hall : ∀ entry ∈ chordRanges, ∀ distance ∈ outcomes [("Basic", true)] entry.1 chords.rules
      [none], distance ∈ none :: entry.2.map some := by decide
  exact hall _ h _ (distance_chords_mem agrees_nil d)

/-! ### Chords -/

/-- What holds of the result of the chord rules above a root. -/
structure ChordShape (root : PitchClass) (modifier : String) (output : ChainOutput) : Prop where
  degrees : ∀ d ∈ output.tones.degrees, d ∈ chordDegrees
  first : output.tones.get? 1 = if "Nondominant" ∈ output.applied then none else some root
  fourth : output.tones.get? 4 =
    if "Suspended Triad" ∈ output.applied then some (root.transpose 5) else none
  third_or_fourth : output.tones.contains 3 = true ∨ output.tones.contains 4 = true
  nonempty : output.tones.isEmpty = false
  third : ∀ p, output.tones.get? 3 = some p → p = root.transpose 3 ∨ p = root.transpose 4
  fifth : ∀ p, output.tones.get? 5 = some p → ∃ n ∈ [5, 6, 7, 8], p = root.transpose n
  sixth : output.tones.get? 6 =
    if "Add Sixth" ∈ output.applied ∧ "Omit Sixth" ∉ output.applied then
      some (root.transpose (if "Augmented Sixth" ∈ output.applied then 10 else 9))
    else none
  seventh : ∀ p, output.tones.get? 7 = some p → ∃ n ∈ [9, 10, 11], p = root.transpose n
  ninth : ∀ p, output.tones.get? 9 = some p → p = root.transpose 2 ∨ p = root.transpose 3
  eleventh : ∀ p, output.tones.get? 11 = some p → p = root.transpose 5
  thirteenth : output.tones.get? 13 =
    if "13".toList <:+: modifier.toList then some (root.transpose 9) else none

/-- A tone lies at one of the distances of its degree. -/
theorem tone_mem_range {d : Degree} {range : List Int} (h : (d, range) ∈ chordRanges)
    {root p : PitchClass} (hp : (chords.execute root modifier).tones.get? d = some p) :
    ∃ n ∈ range, p = root.transpose n := by
  rw [get?_execute, Option.map_eq_some_iff] at hp
  obtain ⟨n, hn, rfl⟩ := hp
  have hmem := distance_mem_range h modifier
  rw [hn] at hmem
  exact ⟨n, by simpa using hmem, rfl⟩

theorem third_or_fourth_execute (root : PitchClass) (modifier : String) :
    (chords.execute root modifier).tones.contains 3 = true ∨
      (chords.execute root modifier).tones.contains 4 = true := by
  by_cases h : "Suspended Triad" ∈ chords.applied modifier
  · right
    rw [contains_execute, distance_fourth, if_pos h]
    rfl
  · left
    rw [contains_execute, Option.isSome_iff_ne_none]
    exact distance_third_ne_none h

/-- **The shape of every chord**: its degrees, and at each of them the few tones it may have. -/
theorem chordShape_execute (root : PitchClass) (modifier : String) :
    ChordShape root modifier (chords.execute root modifier) where
  degrees d hd := by
    rw [DegreeMap.mem_degrees_iff, contains_execute, Option.isSome_iff_ne_none] at hd
    by_contra hout
    exact hd (distance_of_not_mem_chordDegrees hout)
  first := by
    rw [get?_execute, distance_first, execute_applied]
    split_ifs <;> simp
  fourth := by
    rw [get?_execute, distance_fourth, execute_applied]
    split_ifs <;> rfl
  third_or_fourth := third_or_fourth_execute root modifier
  nonempty := by
    rcases third_or_fourth_execute root modifier with h | h
    · exact DegreeMap.isEmpty_eq_false_of_contains h
    · exact DegreeMap.isEmpty_eq_false_of_contains h
  third p hp := by
    obtain ⟨n, hn, rfl⟩ := tone_mem_range (show (3, [3, 4]) ∈ chordRanges by decide) hp
    simp only [List.mem_cons, List.not_mem_nil, or_false] at hn
    rcases hn with rfl | rfl
    · exact Or.inl rfl
    · exact Or.inr rfl
  fifth p hp := tone_mem_range (by decide) hp
  sixth := by
    rw [get?_execute, distance_sixth, execute_applied]
    split_ifs <;> rfl
  seventh p hp := tone_mem_range (by decide) hp
  ninth p hp := by
    obtain ⟨n, hn, rfl⟩ := tone_mem_range (show (9, [14, 15]) ∈ chordRanges by decide) hp
    simp only [List.mem_cons, List.not_mem_nil, or_false] at hn
    rcases hn with rfl | rfl
    · exact Or.inl (root.transpose_congr (by decide))
    · exact Or.inr (root.transpose_congr (by decide))
  eleventh p hp := by
    obtain ⟨n, hn, rfl⟩ := tone_mem_range (show (11, [17]) ∈ chordRanges by decide) hp
    obtain rfl := List.mem_singleton.mp hn
    exact root.transpose_congr (by decide)
  thirteenth := by
    rw [get?_execute, distance_thirteenth]
    split_ifs
    · exact congrArg some (root.transpose_congr (by decide))
    · rfl

end Harmony.Catalogue
