import Harmony.Rule

/-! # Registries

A registry is a list of rules. Its order is the order in which rules apply and in which they are
listed. Names need not be unique: `find?` gives the first rule of a name. -/

namespace Harmony

/-- Rules in the order of their registration. -/
structure Registry (P : Type) where
  kind : RuleKind
  rules : List (Rule P)
deriving Repr, DecidableEq

/-- Are two names equal up to the case of ASCII letters? -/
def sameName (a b : String) : Bool := a.toList.map Char.toLower == b.toList.map Char.toLower

namespace Registry

variable {P : Type}

/-- The registry without rules. -/
def empty (kind : RuleKind) : Registry P := ⟨kind, []⟩

/-- Adds a rule behind all others. -/
def register (registry : Registry P) (rule : Rule P) : Registry P :=
  { registry with rules := registry.rules ++ [rule] }

/-- The names of the rules. -/
def names (registry : Registry P) : List String := registry.rules.map (·.name)

/-- **The first rule of a name**, in any case. -/
def find? (registry : Registry P) (name : String) : Option (Rule P) :=
  registry.rules.find? fun rule => sameName rule.name name

/-- The rules in words. -/
def info [Matcher P] (registry : Registry P) : List RuleInfo := registry.rules.map Rule.info

/-- The number of rules. -/
def size (registry : Registry P) : Nat := registry.rules.length

/-- Are there no rules? -/
def isEmpty (registry : Registry P) : Bool := registry.rules.isEmpty

end Registry

end Harmony
