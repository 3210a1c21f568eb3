import Harmony.Chain

/-! # Registering written rules

A registry takes written rules and answers for those that it holds. What a written pattern is compiled
to is a parameter: `compile?` gives a pattern of the type of the registry, or none if the text is
malformed. A rule whose pattern is not compiled is refused, and the registry stays as it is.

* `RuleSource.rule?`: the rule that is written, if its pattern is compiled.
* `Registry.answer`: the reply to a request, and the registry after it.
* `Registry.answerAll`: the replies to requests, one after the other, and the registry after all. -/

namespace Harmony

/-- A rule as it is written. -/
structure RuleSource where
  name : String
  kind : RuleKind
  /-- The text of the pattern. A rule without one fires on every modifier. -/
  pattern : Option String
  effects : List Effect
deriving Repr, DecidableEq

variable {P : Type}

/-- The rule that is written; none if its pattern is not compiled. -/
def RuleSource.rule? (compile? : String → Option P) (source : RuleSource) : Option (Rule P) :=
  Rule.ofSource? compile? source.name source.kind source.pattern source.effects

namespace Registry

/-- What is asked of a registry. -/
inductive Request where
  | register (source : RuleSource)
  | names
  | info
  | find (name : String)
  | execute (root : PitchClass) (modifier : String)
deriving Repr, DecidableEq

/-- The reply to a request. -/
inductive Reply (P : Type) where
  /-- The new rule in words. -/
  | registered (info : RuleInfo)
  /-- The pattern is not compiled. -/
  | refused
  | names (names : List String)
  | info (rules : List RuleInfo)
  | found (rule : Option (Rule P))
  | result (output : ChainOutput)
deriving Repr, DecidableEq

variable [Matcher P] (compile? : String → Option P)

/-- **The reply to a request, and the registry after it.** -/
def answer (registry : Registry P) : Request → Reply P × Registry P
  | .register source =>
    match source.rule? compile? with
    | some rule => (.registered rule.info, registry.register rule)
    | none => (.refused, registry)
  | .names => (.names registry.names, registry)
  | .info => (.info registry.info, registry)
  | .find name => (.found (registry.find? name), registry)
  | .execute root modifier => (.result (registry.execute root modifier), registry)

/-- The replies to requests, one after the other, and the registry after all of them. -/
def answerAll (registry : Registry P) : List Request → List (Reply P) × Registry P
  | [] => ([], registry)
  | request :: requests =>
    let (reply, after) := registry.answer compile? request
    let (replies, last) := answerAll after requests
    (reply :: replies, last)

end Registry

end Harmony
