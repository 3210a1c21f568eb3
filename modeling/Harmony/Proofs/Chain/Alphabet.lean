import Harmony.Proofs.Chain.Outcome
import Harmony.Proofs.Pattern.Alphabet

/-! # Chains over an alphabet

On the texts over a small alphabet most rules of a registry never fire, and of the others a short trigger
is left. The registry of these rules does all that the whole one does.

* `Registry.within`: what is left of a registry.
* `execute_within`: it gives the same tones and the same rules. -/

namespace Harmony

variable {alphabet : List Glyph} {modifier : String}

/-! ### Rules -/

/-- What is left of a trigger, none if it fires on no text over the alphabet. -/
def Trigger.within? (alphabet : List Glyph) : Trigger Pattern → Option (Trigger Pattern)
  | .always => some .always
  | .pattern p => (p.within? alphabet .folded).map .pattern

theorem fires_eq_within? (hover : Text.Over alphabet modifier.toList) (trigger : Trigger Pattern) :
    trigger.fires modifier = (trigger.within? alphabet).any (·.fires modifier) := by
  cases trigger with
  | always => rfl
  | pattern p =>
    show (modifier != "" && p.occursIn modifier.toList) =
      ((p.within? alphabet .folded).map Trigger.pattern).any (·.fires modifier)
    rw [Pattern.occursIn_eq_within? hover]
    cases p.within? alphabet .folded with
    | none => exact Bool.and_false _
    | some left => rfl

/-- The rule with what is left of its trigger. -/
def Rule.within? (alphabet : List Glyph) (rule : Rule Pattern) : Option (Rule Pattern) :=
  (rule.trigger.within? alphabet).map fun trigger => { rule with trigger }

/-- **What is left of a registry** on the texts over an alphabet. -/
def Registry.within (alphabet : List Glyph) (registry : Registry Pattern) : Registry Pattern :=
  { registry with rules := registry.rules.filterMap (·.within? alphabet) }

/-! ### Chains -/

/-- The result of a chain is told from the effects and the names of the rules that fire. -/
theorem execute_eq_foldl (registry : Registry Pattern) (root : PitchClass) (modifier : String) :
    registry.execute root modifier =
      ⟨(registry.effects modifier).foldl (Effect.apply root) .empty, registry.applied modifier⟩ := by
  unfold Registry.effects
  rw [List.foldl_flatMap]
  rfl

section Over
variable (hover : Text.Over alphabet modifier.toList)
include hover

/-- What is left of a rule fires where the rule does. -/
theorem map_filter_within? {β : Type} {f : Rule Pattern → β}
    (hf : ∀ rule trigger, f { rule with trigger } = f rule) (rule : Rule Pattern) :
    ((rule.within? alphabet).filter (·.fires modifier)).map f =
      (Option.guard (·.fires modifier) rule).map f := by
  have hfires : rule.fires modifier =
      (rule.trigger.within? alphabet).any (·.fires modifier) := fires_eq_within? hover rule.trigger
  unfold Rule.within? Option.guard
  simp only [hfires]
  cases rule.trigger.within? alphabet with
  | none => rfl
  | some trigger =>
    have hsame : Rule.fires { rule with trigger } modifier = trigger.fires modifier := rfl
    cases h : trigger.fires modifier <;> simp [hsame, h, hf]

/-- The rules that fire are the same up to their triggers. -/
theorem map_firing_within {β : Type} {f : Rule Pattern → β}
    (hf : ∀ rule trigger, f { rule with trigger } = f rule) (registry : Registry Pattern) :
    ((registry.within alphabet).firing modifier).map f = (registry.firing modifier).map f := by
  unfold Registry.firing Registry.within
  rw [List.filter_filterMap, List.map_filterMap, ← List.filterMap_eq_filter, List.map_filterMap]
  exact List.filterMap_congr fun rule _ => map_filter_within? hover hf rule

theorem applied_within (registry : Registry Pattern) :
    (registry.within alphabet).applied modifier = registry.applied modifier :=
  map_firing_within hover (fun _ _ => rfl) registry

theorem effects_within (registry : Registry Pattern) :
    (registry.within alphabet).effects modifier = registry.effects modifier := by
  unfold Registry.effects
  rw [List.flatMap_def, List.flatMap_def, map_firing_within hover (fun _ _ => rfl)]

/-- **What is left of a registry** gives the same tones and the same rules. -/
theorem execute_within (registry : Registry Pattern) (root : PitchClass) :
    (registry.within alphabet).execute root modifier = registry.execute root modifier := by
  rw [execute_eq_foldl, execute_eq_foldl, effects_within hover, applied_within hover]

end Over

end Harmony
