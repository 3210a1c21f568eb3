import Harmony.Proofs.Chain.Degreewise
import Harmony.Proofs.Pattern.Occurrence
import Mathlib.Data.List.Nodup

/-! # What a chain can come to

A modifier decides of every rule whether it fires, and nothing more. So whatever holds of a degree
for every way in which the rules may fire holds for every modifier. `outcomes` runs a chain on all
these ways at once: behind every rule it keeps the distances that the degree may hold, a short list.
Where it is known of some rules whether they fire, only the ways that agree with it are followed.

* `Registry.HasTrigger`, `mem_applied_iff_fires`: a rule told by its name.
* `Registry.Refines`, `applied_of_refines`: a rule whose trigger ends with that of another one fires
  only together with it.
* `outcomes`, `Registry.Agrees`: the distances a degree may hold, and what is known of the rules.
* `distance_mem_outcomes`: the chain comes to one of them, on every modifier. -/

namespace Harmony

variable {registry : Registry Pattern} {modifier name : String}

/-! ### Rules by name -/

theorem mem_applied_iff : name ∈ registry.applied modifier ↔
    ∃ rule ∈ registry.rules, rule.name = name ∧ rule.fires modifier = true := by
  unfold Registry.applied Registry.firing
  rw [List.mem_map]
  constructor
  · rintro ⟨rule, hrule, rfl⟩
    obtain ⟨hmem, hfires⟩ := List.mem_filter.mp hrule
    exact ⟨rule, hmem, rfl, hfires⟩
  · rintro ⟨rule, hmem, rfl, hfires⟩
    exact ⟨rule, List.mem_filter.mpr ⟨hmem, hfires⟩, rfl⟩

/-- Where no two rules share a name, a rule fires if its name is listed. -/
theorem name_mem_applied_iff (hnames : registry.names.Nodup) {rule : Rule Pattern}
    (hrule : rule ∈ registry.rules) :
    rule.name ∈ registry.applied modifier ↔ rule.fires modifier = true := by
  rw [mem_applied_iff]
  constructor
  · rintro ⟨other, hother, hname, hfires⟩
    rwa [← List.inj_on_of_nodup_map hnames hother hrule hname]
  · exact fun hfires => ⟨rule, hrule, rfl, hfires⟩

/-- Where no two rules have names that differ in case only, a rule is found by its name in any case. -/
theorem find?_eq_some
    (hnames : (registry.rules.map fun rule => rule.name.toList.map Char.toLower).Nodup)
    {rule : Rule Pattern} (hrule : rule ∈ registry.rules)
    (hname : name.toList.map Char.toLower = rule.name.toList.map Char.toLower) :
    registry.find? name = some rule := by
  unfold Registry.find?
  have hsome : (registry.rules.find? fun rule => sameName rule.name name).isSome = true :=
    List.find?_isSome.mpr ⟨rule, hrule, beq_iff_eq.mpr hname.symm⟩
  obtain ⟨found, hfound⟩ := Option.isSome_iff_exists.mp hsome
  have hsame := List.find?_some hfound
  have heq := (eq_of_beq hsame).trans hname
  rw [hfound, List.inj_on_of_nodup_map hnames (List.mem_of_find?_eq_some hfound) hrule heq]

/-- The registry has a rule of the name, and every such rule has the trigger. -/
def Registry.HasTrigger (registry : Registry Pattern) (name : String) (trigger : Trigger Pattern) :
    Prop :=
  (∃ rule ∈ registry.rules, rule.name = name) ∧
    ∀ rule ∈ registry.rules, rule.name = name → rule.trigger = trigger

instance (registry : Registry Pattern) (name : String) (trigger : Trigger Pattern) :
    Decidable (registry.HasTrigger name trigger) := by
  unfold Registry.HasTrigger
  infer_instance

theorem mem_applied_iff_fires {trigger : Trigger Pattern} (h : registry.HasTrigger name trigger) :
    name ∈ registry.applied modifier ↔ trigger.fires modifier = true := by
  obtain ⟨⟨rule, hrule, hname⟩, htrigger⟩ := h
  rw [mem_applied_iff]
  constructor
  · rintro ⟨other, hother, hname', hfires⟩
    rwa [← htrigger other hother hname']
  · intro hfires
    refine ⟨rule, hrule, hname, ?_⟩
    unfold Rule.fires
    rwa [htrigger rule hrule hname]

theorem fires_pattern_iff {p : Pattern} : (Trigger.pattern p).fires modifier = true ↔
    modifier ≠ "" ∧ p.occursIn modifier.toList = true := by
  unfold Trigger.fires
  rw [Bool.and_eq_true, bne_iff_ne, Matcher.occursIn_pattern]

/-- A pattern that is not found in the empty text fires where it occurs. -/
theorem fires_pattern_iff_of_nil {p : Pattern} (hp : p.occursIn [] = false) :
    (Trigger.pattern p).fires modifier = true ↔ p.occursIn modifier.toList = true := by
  rw [fires_pattern_iff]
  refine and_iff_right_of_imp ?_
  rintro h rfl
  rw [String.toList_empty, hp] at h
  cases h

/-- The pattern of the first trigger ends with that of the second. -/
def Trigger.EndsWith : Trigger Pattern → Trigger Pattern → Prop
  | .pattern p, .pattern q => q ∈ p.endings
  | _, _ => False

instance : DecidableRel Trigger.EndsWith := fun trigger ending => by
  unfold Trigger.EndsWith
  split <;> infer_instance

/-- The pattern of the second trigger is a part of that of the first. -/
def Trigger.HasPart : Trigger Pattern → Trigger Pattern → Prop
  | .pattern p, .pattern q => q ∈ p.parts
  | _, _ => False

instance : DecidableRel Trigger.HasPart := fun trigger part => by
  unfold Trigger.HasPart
  split <;> infer_instance

/-- **A trigger fires only together with its parts.** -/
theorem fires_of_hasPart {trigger part : Trigger Pattern} (hpart : trigger.HasPart part)
    (h : trigger.fires modifier = true) : part.fires modifier = true := by
  cases trigger with
  | always => exact hpart.elim
  | pattern p =>
    cases part with
    | always => rfl
    | pattern q =>
      rw [fires_pattern_iff] at h ⊢
      exact ⟨h.1, Pattern.occursIn_of_mem_parts hpart h.2⟩

theorem hasPart_of_endsWith {trigger ending : Trigger Pattern} (hend : trigger.EndsWith ending) :
    trigger.HasPart ending := by
  cases trigger with
  | always => exact hend
  | pattern p =>
    cases ending with
    | always => exact hend
    | pattern q => exact Pattern.mem_parts_of_mem_endings hend

/-- **A trigger that ends with another one fires only together with it.** -/
theorem fires_of_endsWith {trigger ending : Trigger Pattern} (hend : trigger.EndsWith ending)
    (h : trigger.fires modifier = true) : ending.fires modifier = true :=
  fires_of_hasPart (hasPart_of_endsWith hend) h

/-- The trigger of a rule of the first name ends with that of a rule of the second. -/
def Registry.Refines (registry : Registry Pattern) (special general : String) : Prop :=
  ∀ rule ∈ registry.rules, rule.name = special →
    ∃ other ∈ registry.rules, other.name = general ∧ rule.trigger.EndsWith other.trigger

instance (registry : Registry Pattern) : DecidableRel registry.Refines := fun special general => by
  unfold Registry.Refines
  infer_instance

/-- **A refining rule fires only together with the general one.** -/
theorem applied_of_refines {special general : String} (hrefines : registry.Refines special general)
    (h : special ∈ registry.applied modifier) : general ∈ registry.applied modifier := by
  rw [mem_applied_iff] at h ⊢
  obtain ⟨rule, hrule, hname, hfires⟩ := h
  obtain ⟨other, hother, hgeneral, hend⟩ := hrefines rule hrule hname
  exact ⟨other, hother, hgeneral, fires_of_endsWith hend hfires⟩

theorem decide_applied_of_refines {special general : String}
    (hrefines : registry.Refines special general)
    (h : decide (special ∈ registry.applied modifier) = true) :
    decide (general ∈ registry.applied modifier) = true :=
  decide_eq_true (applied_of_refines hrefines (of_decide_eq_true h))

/-- A word of caseless characters fires where it is written. -/
theorem fires_word_iff {text : String} (htext : ∀ c ∈ text.toList, Text.Caseless c)
    (hne : text ≠ "") : (Trigger.pattern (Pattern.word text)).fires modifier = true ↔
      text.toList <:+: modifier.toList := by
  rw [fires_pattern_iff, Pattern.occursIn_word_iff_infix htext]
  refine and_iff_right_of_imp fun h hempty => hne ?_
  rw [hempty, String.toList_empty, List.infix_nil] at h
  exact String.toList_eq_nil_iff.mp h

/-! ### Outcomes -/

/-- What is known of the rules of some names, whether they fire, is true on the modifier. -/
def Registry.Agrees (registry : Registry Pattern) (modifier : String)
    (known : List (String × Bool)) : Prop :=
  ∀ entry ∈ known, decide (entry.1 ∈ registry.applied modifier) = entry.2

theorem agrees_nil : registry.Agrees modifier [] := fun _ h => absurd h List.not_mem_nil

theorem agrees_cons {known : List (String × Bool)} {fired : Bool}
    (h : decide (name ∈ registry.applied modifier) = fired)
    (hknown : registry.Agrees modifier known) :
    registry.Agrees modifier ((name, fired) :: known) := by
  intro entry hentry
  rcases List.mem_cons.mp hentry with rfl | hentry
  · exact h
  · exact hknown entry hentry

/-- The distances that a degree may hold behind a rule if it held one of the given before. A name is
looked up only for a rule that does something to the degree. -/
def outcomesBehind (known : List (String × Bool)) (d : Degree) (rule : Rule Pattern)
    (distances : List (Option Int)) : List (Option Int) :=
  let moved := distances.map (Rule.move d · rule)
  if moved = distances then distances
  else
    match known.lookup rule.name with
    | some true => moved
    | some false => distances
    | none => (distances ++ moved).eraseDups

/-- The distances that a degree may hold behind all rules if it held one of the given before. -/
def outcomes (known : List (String × Bool)) (d : Degree) (rules : List (Rule Pattern))
    (distances : List (Option Int)) : List (Option Int) :=
  rules.foldl (fun distances rule => outcomesBehind known d rule distances) distances

section Ways
variable {known : List (String × Bool)} {distance : Option Int} {distances : List (Option Int)}

theorem move_mem_outcomesBehind (d : Degree) {rule : Rule Pattern}
    (hknown : known.lookup rule.name ≠ some false)
    (h : distance ∈ distances) : rule.move d distance ∈ outcomesBehind known d rule distances := by
  have hmoved : rule.move d distance ∈ distances.map (Rule.move d · rule) := List.mem_map_of_mem h
  simp only [outcomesBehind]
  split_ifs with heq
  · rwa [heq] at hmoved
  · split
    · exact hmoved
    · contradiction
    · exact List.mem_eraseDups.mpr (List.mem_append_right _ hmoved)

theorem mem_outcomesBehind (d : Degree) {rule : Rule Pattern}
    (hknown : known.lookup rule.name ≠ some true)
    (h : distance ∈ distances) : distance ∈ outcomesBehind known d rule distances := by
  simp only [outcomesBehind]
  split_ifs
  · exact h
  · split
    · contradiction
    · exact h
    · exact List.mem_eraseDups.mpr (List.mem_append_left _ h)

/-- **One way of firing**: the run ends in an outcome if it does what is known of its rules. -/
theorem foldl_filter_mem_outcomes (d : Degree) {rules : List (Rule Pattern)}
    {fires : Rule Pattern → Bool}
    (hknown : ∀ rule ∈ rules, ∀ fired, known.lookup rule.name = some fired → fires rule = fired)
    (h : distance ∈ distances) :
    (rules.filter fires).foldl (Rule.move d) distance ∈ outcomes known d rules distances := by
  unfold outcomes
  induction rules generalizing distance distances with
  | nil => exact h
  | cons rule rules ih =>
    obtain ⟨hrule, hrules⟩ := List.forall_mem_cons.mp hknown
    rw [List.foldl_cons]
    cases hfires : fires rule with
    | true =>
      rw [List.filter_cons_of_pos hfires, List.foldl_cons]
      have hknown : known.lookup rule.name ≠ some false := fun hno => by simp [hrule false hno] at hfires
      exact ih hrules (move_mem_outcomesBehind d hknown h)
    | false =>
      rw [List.filter_cons_of_neg (by simp [hfires])]
      have hknown : known.lookup rule.name ≠ some true := fun hyes => by simp [hrule true hyes] at hfires
      exact ih hrules (mem_outcomesBehind d hknown h)

end Ways

/-- **The chain comes to one of the outcomes**, on every modifier that agrees with what is known. -/
theorem distance_mem_outcomes (hnames : registry.names.Nodup) {known : List (String × Bool)}
    (h : registry.Agrees modifier known) (d : Degree) :
    registry.distance modifier d ∈ outcomes known d registry.rules [none] := by
  rw [Registry.distance_eq_foldl]
  refine foldl_filter_mem_outcomes d (fun rule hrule fired hlookup => ?_) List.mem_cons_self
  obtain ⟨before, behind, rfl, -⟩ := List.lookup_eq_some_iff.mp hlookup
  have hfired := h (rule.name, fired) (by simp)
  simp only [name_mem_applied_iff hnames hrule, Bool.decide_eq_true] at hfired
  exact hfired

end Harmony
