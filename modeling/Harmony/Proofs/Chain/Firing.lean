import Harmony.Proofs.Chain.Outcome
import Harmony.Proofs.Chain.Replacement
import Harmony.Proofs.Pattern.Certain

/-! # Which rules fire on a wording

Some rules fire on every text of a wording, some on none, and of the others it depends on the text. For
the tones of a chain this is often enough: the outcomes of a degree, with what is known of the rules,
leave one distance; or the last of the rules that may fire is one that must.

* `Trigger.mayFire`, `Trigger.mustFire`: a trigger on a wording.
* `Registry.outcomesOn`: the distances of a degree (`distance_mem_outcomesOn`).
* `lastFiring_of_getLast?`: the last rule that fires. -/

namespace Harmony

variable {registry : Registry Pattern} {w : Wording} {modifier : String}

/-! ### Triggers -/

namespace Trigger

/-- May the trigger fire on a text of the wording? All that its pattern ends with has to occur; what
comes last is tried first, since it is shortest. -/
def mayFire (w : Wording) : Trigger Pattern → Bool
  | .always => true
  | .pattern p => p.endings.reverse.all (·.mayOccurIn w)

/-- Does the trigger fire on every text of the wording? -/
def mustFire (w : Wording) : Trigger Pattern → Bool
  | .always => true
  | .pattern p => !w.mayStop && p.mustOccurIn w

variable {trigger : Trigger Pattern} (hallows : w.Allows modifier.toList)
include hallows

theorem mayFire_of_fires (h : trigger.fires modifier = true) : trigger.mayFire w = true := by
  cases trigger with
  | always => rfl
  | pattern p =>
    obtain ⟨-, hoccurs⟩ := fires_pattern_iff.mp h
    refine List.all_eq_true.mpr fun q hq => Pattern.mayOccurIn_of_occursIn hallows ?_
    exact Pattern.occursIn_of_mem_endings (List.mem_reverse.mp hq) hoccurs

theorem fires_of_mustFire (h : trigger.mustFire w = true) : trigger.fires modifier = true := by
  cases trigger with
  | always => rfl
  | pattern p =>
    obtain ⟨hstop, hoccurs⟩ := Bool.and_eq_true_iff.mp h
    refine fires_pattern_iff.mpr ⟨?_, Pattern.occursIn_of_mustOccurIn hoccurs hallows⟩
    rintro rfl
    rw [Wording.mayStop_of_allows hallows] at hstop
    cases hstop

end Trigger

/-! ### Registries -/

namespace Registry

/-- The rules that may fire on a text of the wording. -/
def mayFire (registry : Registry Pattern) (w : Wording) : List (Rule Pattern) :=
  registry.rules.filter (·.trigger.mayFire w)

/-- What is known of the rules on the texts of a wording: some fire on all of them. -/
def knownOn (registry : Registry Pattern) (w : Wording) : List (String × Bool) :=
  ((registry.mayFire w).filter (·.trigger.mustFire w)).map fun rule => (rule.name, true)

/-- **The distances that a degree may hold** on the texts of a wording. -/
def outcomesOn (registry : Registry Pattern) (w : Wording) (d : Degree) : List (Option Int) :=
  outcomes (registry.knownOn w) d (registry.mayFire w) [none]

variable (hallows : w.Allows modifier.toList)
include hallows

theorem firing_eq_filter_mayFire :
    registry.firing modifier = (registry.mayFire w).filter (·.fires modifier) := by
  unfold firing mayFire
  rw [List.filter_filter]
  refine List.filter_congr fun rule _ => ?_
  rw [Bool.eq_iff_iff, Bool.and_eq_true, iff_self_and]
  exact Trigger.mayFire_of_fires hallows

theorem fires_of_lookup_knownOn (hnames : registry.names.Nodup) {rule : Rule Pattern}
    (hrule : rule ∈ registry.rules) {fired : Bool}
    (h : (registry.knownOn w).lookup rule.name = some fired) : rule.fires modifier = fired := by
  obtain ⟨before, behind, hsplit, -⟩ := List.lookup_eq_some_iff.mp h
  have hmem : (rule.name, fired) ∈ registry.knownOn w := by simp [hsplit]
  obtain ⟨other, hother, heq⟩ := List.mem_map.mp hmem
  obtain ⟨hname, rfl⟩ := Prod.mk.inj heq
  obtain ⟨hmay, hmust⟩ := List.mem_filter.mp hother
  obtain rfl : other = rule := List.inj_on_of_nodup_map hnames (List.mem_filter.mp hmay).1 hrule hname
  exact Trigger.fires_of_mustFire hallows hmust

theorem distance_mem_outcomesOn (hnames : registry.names.Nodup) (d : Degree) :
    registry.distance modifier d ∈ registry.outcomesOn w d := by
  rw [distance_eq_foldl, firing_eq_filter_mayFire hallows]
  refine foldl_filter_mem_outcomes d (fun rule hrule fired hlookup => ?_) List.mem_cons_self
  exact fires_of_lookup_knownOn hallows hnames (List.mem_filter.mp hrule).1 hlookup

/-- **The last of the rules that may fire**, if it must, is the last that fires. -/
theorem lastFiring_of_getLast? {rule : Rule Pattern} (hlast : (registry.mayFire w).getLast? = some rule)
    (hmust : rule.trigger.mustFire w = true) : registry.LastFiring modifier rule := by
  obtain ⟨others, hothers⟩ := List.getLast?_eq_some_iff.mp hlast
  obtain ⟨above, rest, hrules, -, hrest⟩ := List.filter_eq_append_iff.mp hothers
  obtain ⟨skipped, below, rfl, -, -, hbelow⟩ := List.filter_eq_cons_iff.mp hrest
  refine ⟨above ++ skipped, below, by rw [hrules, List.append_assoc],
    Trigger.fires_of_mustFire hallows hmust, fun other hother => ?_⟩
  rw [← Bool.not_eq_true]
  intro hfires
  exact List.filter_eq_nil_iff.mp hbelow other hother (Trigger.mayFire_of_fires hallows hfires)

end Registry

end Harmony
