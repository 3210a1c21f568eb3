import Harmony.Log
import Harmony.Registry

/-! # Rule chains

A chain runs a registry once, from first to last rule: every rule that fires on the modifier changes
the tone set that the ones before it left. Conflicts are settled by order alone.

* `Registry.steps`: the rules that fire, each with the tones after it.
* `Registry.execute`: the final tones and the names of the rules that fired.
* `Registry.run`: the same with a record of every step. -/

namespace Harmony

/-- A rule that fired, and the tones after it. -/
structure Step (P : Type) where
  rule : Rule P
  tones : ToneSet
deriving Repr, DecidableEq

/-- The record of a step on a modifier. -/
def Step.record {P : Type} (modifier : String) (step : Step P) : LogRecord :=
  ⟨.trace, .chain, "rule '" ++ step.rule.name ++ "' matched '" ++ modifier ++ "': " ++
    step.tones.size.repr ++ " tone(s)"⟩

variable {P : Type} [Matcher P]

/-- The rules that fire, each with the tones after it, starting from given tones. -/
def stepsFrom (root : PitchClass) (modifier : String) (tones : ToneSet) :
    List (Rule P) → List (Step P)
  | [] => []
  | rule :: rules =>
    if rule.fires modifier then
      let after := rule.apply root tones
      ⟨rule, after⟩ :: stepsFrom root modifier after rules
    else stepsFrom root modifier tones rules

/-- The result of a chain. -/
structure ChainOutput where
  tones : ToneSet
  /-- The names of the rules that fired, in order. -/
  applied : List String
deriving Repr, DecidableEq

namespace Registry

/-- The rules that fire on a modifier. -/
def firing (registry : Registry P) (modifier : String) : List (Rule P) :=
  registry.rules.filter (·.fires modifier)

/-- The steps of the chain, from the empty tone set. -/
def steps (registry : Registry P) (root : PitchClass) (modifier : String) : List (Step P) :=
  stepsFrom root modifier .empty registry.rules

/-- **The result of the chain.** -/
def execute (registry : Registry P) (root : PitchClass) (modifier : String) : ChainOutput :=
  let rules := registry.firing modifier
  ⟨rules.foldl (fun tones rule => rule.apply root tones) .empty, rules.map (·.name)⟩

end Registry

/-- The result of the chain, with one record a step. -/
def Registry.run (registry : Registry P) (root : PitchClass) (modifier : String) :
    Traced ChainOutput :=
  ⟨registry.execute root modifier, (registry.steps root modifier).map (Step.record modifier)⟩

/-! ### Steps and results -/

theorem map_rule_stepsFrom (root : PitchClass) (modifier : String) (tones : ToneSet)
    (rules : List (Rule P)) :
    (stepsFrom root modifier tones rules).map (·.rule) = rules.filter (·.fires modifier) := by
  induction rules generalizing tones with
  | nil => rfl
  | cons rule rules ih =>
    unfold stepsFrom
    split <;> rename_i h
    · simp [h, ih]
    · simp [h, ih]

/-- **The rules of the steps are the rules of the result.** -/
theorem applied_execute (registry : Registry P) (root : PitchClass) (modifier : String) :
    (registry.execute root modifier).applied =
      (registry.steps root modifier).map (·.rule.name) := by
  simp only [Registry.execute, Registry.firing, Registry.steps,
    ← map_rule_stepsFrom root modifier .empty, List.map_map]
  rfl

end Harmony
