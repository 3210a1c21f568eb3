import Harmony.Proofs.Chain.Alphabet
import Harmony.Proofs.Registration

/-! # The built-in rules as they are written

The patterns of the built-in rules are among those that can be read. So a registry of the built-in rules
may as well be made by registering them as they are written, one after the other: it lists the same
rules and comes to the same results.

* `Rule.written`: a rule as it is written.
* `Trigger.IsRead`, `isRead_of_mem_rulesOf`: the patterns of the built-in rules are read.
* `Rule.Alike`, `execute_congr`: rules that are listed alike and act alike.
* `builtIn_of_written`: the built-in rules, registered as they are written. -/

namespace Harmony

open Registry

/-! ### Rules that act alike -/

/-- The rules are listed alike, fire on the same modifiers and have the same effects. -/
structure Rule.Alike (rule other : Rule Pattern) : Prop where
  info : other.info = rule.info
  effects : other.effects = rule.effects
  fires : ∀ modifier, other.fires modifier = rule.fires modifier

theorem map_filter_congr {β : Type} {f : Rule Pattern → β} {rules others : List (Rule Pattern)}
    (hf : ∀ rule other, Rule.Alike rule other → f other = f rule)
    (h : List.Forall₂ Rule.Alike rules others) (modifier : String) :
    (others.filter (·.fires modifier)).map f = (rules.filter (·.fires modifier)).map f := by
  induction h with
  | nil => rfl
  | @cons rule other rules others halike _ ih =>
    simp only [List.filter_cons, halike.fires modifier]
    split
    · rw [List.map_cons, List.map_cons, hf rule other halike, ih]
    · exact ih

/-- **Registries of rules that act alike** come to the same results. -/
theorem execute_congr {registry other : Registry Pattern}
    (h : List.Forall₂ Rule.Alike registry.rules other.rules) (root : PitchClass) (modifier : String) :
    other.execute root modifier = registry.execute root modifier := by
  have happlied : other.applied modifier = registry.applied modifier :=
    map_filter_congr (fun _ _ halike => congrArg RuleInfo.name halike.info) h modifier
  have heffects : (other.firing modifier).map (·.effects) = (registry.firing modifier).map (·.effects) :=
    map_filter_congr (fun _ _ halike => halike.effects) h modifier
  rw [execute_eq_foldl, execute_eq_foldl, happlied]
  unfold Registry.effects
  rw [List.flatMap_def, List.flatMap_def, heffects]

/-! ### Rules that are read -/

/-- The pattern of a trigger as it is written, if it has one. -/
def Trigger.written : Trigger Pattern → Option String
  | .always => none
  | .pattern p => some p.source

/-- The rule as it is written. -/
def Rule.written (rule : Rule Pattern) : RuleSource :=
  ⟨rule.name, rule.kind, rule.trigger.written, rule.effects⟩

/-- The pattern is read from its text, up to the grouping of sequences. -/
def Trigger.IsRead : Trigger Pattern → Prop
  | .always => True
  | .pattern p =>
    ((Pattern.tokens? p.sourceChars).bind (Pattern.parseFrom? [] [] [])).map Pattern.factors =
      some p.factors

instance : DecidablePred Trigger.IsRead
  | .always => inferInstanceAs (Decidable True)
  | .pattern p => inferInstanceAs (Decidable (_ = some p.factors))

theorem isRead_of_mem_rulesOf (kind : RuleKind) :
    ∀ rule ∈ (Catalogue.rulesOf kind).rules, rule.trigger.IsRead := by
  cases kind <;> decide +kernel

/-- **A rule whose pattern is read** is compiled to one that acts alike. -/
theorem exists_alike_of_isRead {rule : Rule Pattern} (h : rule.trigger.IsRead) :
    ∃ other, rule.written.rule? Pattern.parse? = some other ∧ rule.Alike other := by
  obtain ⟨name, kind, trigger, effects⟩ := rule
  cases trigger with
  | always => exact ⟨_, rfl, rfl, rfl, fun _ => rfl⟩
  | pattern p =>
    obtain ⟨q, hq, hfactors⟩ := Option.map_eq_some_iff.mp h
    have hparse : Pattern.parse? p.source = some q := by
      unfold Pattern.parse? Pattern.source
      rw [String.toList_ofList]
      exact hq
    refine ⟨⟨name, kind, .pattern q, effects⟩, ?_, ?_, rfl, fun modifier => ?_⟩
    · simp only [RuleSource.rule?, Rule.ofSource?, Rule.written, Trigger.written, Trigger.ofSource?,
        hparse, Option.map_some]
    · show RuleInfo.mk name kind q.source _ = RuleInfo.mk name kind p.source _
      rw [Pattern.source_of_parse? hparse]
    · show (modifier != "" && q.occursIn modifier.toList) =
        (modifier != "" && p.occursIn modifier.toList)
      rw [Pattern.occursIn_eq_of_factors_eq hfactors]

theorem forall₂_alike {rules : List (Rule Pattern)} (h : ∀ rule ∈ rules, rule.trigger.IsRead) :
    List.Forall₂ Rule.Alike rules
      (rules.filterMap fun rule => rule.written.rule? Pattern.parse?) := by
  induction rules with
  | nil => exact .nil
  | cons rule rules ih =>
    obtain ⟨hrule, hrules⟩ := List.forall_mem_cons.mp h
    obtain ⟨other, hother, halike⟩ := exists_alike_of_isRead hrule
    simp only [List.filterMap_cons, hother]
    exact .cons halike (ih hrules)

/-- **The built-in rules**, registered one after the other as they are written: the registry lists the
same rules and comes to the same results. -/
theorem builtIn_of_written (kind : RuleKind) :
    let requests := (Catalogue.rulesOf kind).rules.map fun rule => Request.register rule.written
    let after := ((Registry.empty kind).answerAll Pattern.parse? requests).2
    after.info = (Catalogue.rulesOf kind).info ∧
      ∀ root modifier, after.execute root modifier = (Catalogue.rulesOf kind).execute root modifier := by
  intro requests after
  have halike : List.Forall₂ Rule.Alike (Catalogue.rulesOf kind).rules after.rules := by
    rw [rules_answerAll, List.filterMap_map]
    exact forall₂_alike (isRead_of_mem_rulesOf kind)
  exact ⟨map_eq_map_of_forall₂ halike fun _ _ h => h.info, execute_congr halike⟩

end Harmony
