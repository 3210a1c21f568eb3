import Harmony.Chain
import Harmony.Proofs.Transposition
import Mathlib.Tactic.SplitIfs

/-! # A chain at one degree

What an effect does at a degree depends on nothing but what stands at that degree. Measured from the
root it does not depend on the root either: an addition sets a distance, an omission removes it, an
alteration shifts it. So a run of a chain is, at every degree, a run on distances.

* `Effect.move`: what an effect does to the distance at a degree; `Rule.move` does all of a rule.
* `Registry.distance`: the distance that a chain leaves at a degree. The root does not occur in it.
* `get?_execute`: the chain on pitch classes is the chain on distances, moved to the root. -/

namespace Harmony

/-! ### Distances -/

namespace Effect

/-- The distance that a list of intervals puts at a degree. -/
def intervalAt (intervals : List Int) (d : Degree) : Option Int :=
  (intervals.zipIdx.map fun x => (Degree.ofIndex x.2, x.1)).reverse.lookup d

/-- What an effect does to the distance at a degree. -/
def move (d : Degree) (distance : Option Int) : Effect → Option Int
  | .add e semitones => if d = e then some semitones else distance
  | .omit e => if d = e then none else distance
  | .alter e semitones => if d = e then distance.map (· + semitones) else distance
  | .replace intervals => intervalAt intervals d

end Effect

section Rules
variable {P : Type}

/-- What all effects of a rule do to the distance at a degree. -/
def Rule.move (d : Degree) (distance : Option Int) (rule : Rule P) : Option Int :=
  rule.effects.foldl (Effect.move d) distance

namespace Registry

variable [Matcher P]

/-- The effects of the rules that fire, in order. -/
def effects (registry : Registry P) (modifier : String) : List Effect :=
  (registry.firing modifier).flatMap (·.effects)

/-- The distance that the chain leaves at a degree. -/
def distance (registry : Registry P) (modifier : String) (d : Degree) : Option Int :=
  (registry.effects modifier).foldl (Effect.move d) none

/-- The names of the rules that fire, in order. -/
def applied (registry : Registry P) (modifier : String) : List String :=
  (registry.firing modifier).map (·.name)

theorem distance_eq_foldl (registry : Registry P) (modifier : String) (d : Degree) :
    registry.distance modifier d = (registry.firing modifier).foldl (Rule.move d) none := by
  unfold distance effects
  rw [List.foldl_flatMap]
  rfl

end Registry

theorem execute_applied [Matcher P] (registry : Registry P) (root : PitchClass) (modifier : String) :
    (registry.execute root modifier).applied = registry.applied modifier := rfl

end Rules

/-! ### From distances to pitch classes -/

theorem lookup_map_snd {α β : Type} (f : α → β) (d : Degree) (l : List (Degree × α)) :
    (l.map fun x => (x.1, f x.2)).lookup d = (l.lookup d).map f := by
  induction l with
  | nil => rfl
  | cons x rest ih =>
    obtain ⟨e, a⟩ := x
    cases h : d == e <;> simp [List.lookup_cons, h, ih]

theorem get?_ofIntervals (root : PitchClass) (intervals : List Int) (d : Degree) :
    (ToneSet.ofIntervals root intervals).get? d =
      (Effect.intervalAt intervals d).map root.transpose := by
  unfold ToneSet.ofIntervals Effect.intervalAt
  rw [DegreeMap.get?_ofList, ← lookup_map_snd, ← List.map_reverse, ← List.map_reverse, List.map_map]
  rfl

section Root
variable {P : Type} {root : PitchClass} {tones : ToneSet} {d : Degree} {distance : Option Int}

/-- **One effect**: tones at given distances from the root stay at the moved distances. -/
theorem get?_apply (h : tones.get? d = distance.map root.transpose) (effect : Effect) :
    (effect.apply root tones).get? d = (effect.move d distance).map root.transpose := by
  rcases effect with ⟨e, semitones⟩ | e | ⟨e, semitones⟩ | intervals
  · simp only [Effect.apply, Effect.move, DegreeMap.get?_insert]
    split_ifs
    · rfl
    · exact h
  · simp only [Effect.apply, Effect.move, DegreeMap.get?_erase]
    split_ifs
    · rfl
    · exact h
  · simp only [Effect.apply, Effect.move]
    by_cases hd : d = e
    · subst hd
      cases distance <;> simp [h]
    · rw [if_neg hd, ← h]
      cases tones.get? e <;> simp [hd]
  · exact get?_ofIntervals root intervals d

theorem get?_foldl_apply (h : tones.get? d = distance.map root.transpose) (effects : List Effect) :
    (effects.foldl (Effect.apply root) tones).get? d =
      (effects.foldl (Effect.move d) distance).map root.transpose := by
  induction effects generalizing tones distance with
  | nil => exact h
  | cons effect effects ih => exact ih (get?_apply h effect)

/-- A whole rule. -/
theorem get?_apply_rule (h : tones.get? d = distance.map root.transpose) (rule : Rule P) :
    (rule.apply root tones).get? d = (rule.move d distance).map root.transpose :=
  get?_foldl_apply h rule.effects

/-- **Any number of rules.** -/
theorem get?_foldl_apply_rule (h : tones.get? d = distance.map root.transpose)
    (rules : List (Rule P)) :
    (rules.foldl (fun tones rule => rule.apply root tones) tones).get? d =
      (rules.foldl (Rule.move d) distance).map root.transpose := by
  induction rules generalizing tones distance with
  | nil => exact h
  | cons rule rules ih => exact ih (get?_apply_rule h rule)

end Root

section Chain
variable {P : Type} [Matcher P]

/-- **The chain at one degree** is the chain on distances, moved to the root. -/
theorem get?_execute (registry : Registry P) (root : PitchClass) (modifier : String) (d : Degree) :
    (registry.execute root modifier).tones.get? d =
      (registry.distance modifier d).map root.transpose := by
  rw [Registry.distance_eq_foldl]
  exact get?_foldl_apply_rule (by simp) (registry.firing modifier)

/-- The degrees of a chain are those with a distance. -/
theorem contains_execute (registry : Registry P) (root : PitchClass) (modifier : String)
    (d : Degree) :
    (registry.execute root modifier).tones.contains d = (registry.distance modifier d).isSome := by
  unfold DegreeMap.contains
  rw [get?_execute, Option.isSome_map]

end Chain

end Harmony
