import Harmony.Catalogue.Scale
import Harmony.Proofs.Chain.Outcome
import Harmony.Proofs.Pattern.Notation

/-! # The catalogues in variants of a modifier

Every trigger of the two catalogues leads, so it fires on all modifiers of one plain form or on none, and
a chain gives all of them the same tones and the same rules.

* `Trigger.leads`, `fires_eq_of_plain_eq`: a trigger that tells no variants apart.
* `Catalogue.execute_eq_of_plain_eq`: variants of a modifier give one result. -/

namespace Harmony

open Text

/-- Does the trigger have a leading pattern, or none? -/
def Trigger.leads : Trigger Pattern → Bool
  | .always => true
  | .pattern p => p.leads .folded Pattern.atEnd

variable {modifier modifier' : String}

theorem eq_empty_of_plain_eq (h : plain modifier.toList = plain modifier'.toList)
    (hempty : modifier = "") : modifier' = "" := by
  subst hempty
  exact String.toList_eq_nil_iff.mp (alike_of_plain_eq h).eq_nil

/-- **A leading trigger fires on all modifiers of one plain form or on none.** -/
theorem fires_eq_of_plain_eq {trigger : Trigger Pattern} (htrigger : trigger.leads = true)
    (h : plain modifier.toList = plain modifier'.toList) :
    trigger.fires modifier = trigger.fires modifier' := by
  cases trigger with
  | always => rfl
  | pattern p =>
    have hempty : modifier ≠ "" ↔ modifier' ≠ "" :=
      not_congr ⟨eq_empty_of_plain_eq h, eq_empty_of_plain_eq h.symm⟩
    rw [Bool.eq_iff_iff, fires_pattern_iff, fires_pattern_iff, hempty,
      Pattern.occursIn_eq_of_plain_eq htrigger h]

theorem execute_eq_of_leads {registry : Registry Pattern}
    (hrules : ∀ rule ∈ registry.rules, rule.trigger.leads = true) (root : PitchClass)
    (h : plain modifier.toList = plain modifier'.toList) :
    registry.execute root modifier = registry.execute root modifier' := by
  have hfiring : registry.firing modifier = registry.firing modifier' :=
    List.filter_congr fun rule hrule => fires_eq_of_plain_eq (hrules rule hrule) h
  unfold Registry.execute
  rw [hfiring]

namespace Catalogue

theorem leads_of_mem_chords : ∀ rule ∈ chords.rules, rule.trigger.leads = true := by decide

theorem leads_of_mem_scales : ∀ rule ∈ scales.rules, rule.trigger.leads = true := by decide

/-- **Variants of a modifier give one result.** -/
theorem execute_eq_of_plain_eq (root : PitchClass) {modifier modifier' : String}
    (h : plain modifier.toList = plain modifier'.toList) :
    chords.execute root modifier = chords.execute root modifier' ∧
      scales.execute root modifier = scales.execute root modifier' :=
  ⟨execute_eq_of_leads leads_of_mem_chords root h, execute_eq_of_leads leads_of_mem_scales root h⟩

theorem execute_eq_of_plain_eq_sharp_ninth :
    plain "MAJ7 \t♯9".toList = plain "Maj7 #9".toList ∧
      chords.execute (.ofInt 0) "MAJ7 \t♯9" = chords.execute (.ofInt 0) "Maj7 #9" ∧
      scales.execute (.ofInt 0) "MAJ7 \t♯9" = scales.execute (.ofInt 0) "Maj7 #9" := by
  have h : plain "MAJ7 \t♯9".toList = plain "Maj7 #9".toList := by decide
  exact ⟨h, execute_eq_of_plain_eq (.ofInt 0) h⟩

end Catalogue

end Harmony
