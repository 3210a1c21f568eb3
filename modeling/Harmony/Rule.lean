import Harmony.Decimal.Integer
import Harmony.Pattern.Matching
import Harmony.ToneSet

/-! # Rules

A rule is a trigger with effects: where the trigger fires on a modifier, the effects change the tone
set one after the other. The patterns of triggers are of any type `P` that a `Matcher` is given for:
nothing is asked of a pattern but the text that it was written as and where it occurs. The rules of the
library have a `Pattern`; a rule that is registered has whatever its written pattern is compiled to.

* `Matcher`: what is asked of a compiled pattern.
* `Effect.apply`: what an effect does to a tone set, measured from the root.
* `Trigger.fires`: does the trigger fire on a modifier? An empty modifier holds no pattern, not even
  an empty one.
* `Rule.apply`: all effects of a rule, in order.
* `Rule.info`: a rule in words.
* `Rule.ofSource?`: a rule with a written pattern. -/

namespace Harmony

/-- The catalogue that a rule belongs to. -/
inductive RuleKind where
  | chord
  | scale
deriving Repr, DecidableEq

/-- The name of a catalogue. -/
def RuleKind.name : RuleKind → String
  | .chord => "chord"
  | .scale => "scale"

/-- A change of a tone set. Distances are semitones. -/
inductive Effect where
  /-- Sets the degree to the given distance above the root. -/
  | add (degree : Degree) (semitones : Int)
  /-- Removes the degree. -/
  | omit (degree : Degree)
  /-- Moves the pitch class at the degree, if there is one. -/
  | alter (degree : Degree) (semitones : Int)
  /-- Puts the degrees 1, 2, … at the given distances in place of all others. -/
  | replace (intervals : List Int)
deriving Repr, DecidableEq

namespace Effect

/-- **What an effect does to a tone set.** -/
def apply (root : PitchClass) (tones : ToneSet) : Effect → ToneSet
  | .add degree semitones => tones.insert degree (root.transpose semitones)
  | .omit degree => tones.erase degree
  | .alter degree semitones =>
    match tones.get? degree with
    | some p => tones.insert degree (p.transpose semitones)
    | none => tones
  | .replace intervals => .ofIntervals root intervals

/-- The text of an effect. An addition has a plus in front of any number, `add 7:+-3`. -/
def describe : Effect → String
  | .add degree semitones => "add " ++ degree.val.repr ++ ":+" ++ semitones.repr
  | .omit degree => "omit " ++ degree.val.repr
  | .alter degree semitones => "alter " ++ degree.val.repr ++ ":" ++ Decimal.signed semitones
  | .replace intervals => "set [" ++ ", ".intercalate (intervals.map Int.repr) ++ "]"

end Effect

/-- What is asked of the compiled patterns of a type. -/
class Matcher (P : Type) where
  /-- The text that the pattern was written as. -/
  source : P → String
  /-- Does the pattern match somewhere in the text? -/
  occursIn : P → String → Bool

instance : Matcher Pattern := ⟨Pattern.source, fun p text => p.occursIn text.toList⟩

@[simp] theorem Matcher.source_pattern (p : Pattern) : source p = p.source := rfl

@[simp] theorem Matcher.occursIn_pattern (p : Pattern) (text : String) :
    occursIn p text = p.occursIn text.toList := rfl

/-- When a rule applies. -/
inductive Trigger (P : Type) where
  /-- On every modifier. -/
  | always
  /-- On modifiers in which the pattern occurs. -/
  | pattern (p : P)
deriving Repr, DecidableEq

/-- A rule in words. -/
structure RuleInfo where
  name : String
  kind : RuleKind
  trigger : String
  effects : List String
deriving Repr, DecidableEq

/-- A rule. -/
structure Rule (P : Type) where
  name : String
  kind : RuleKind
  trigger : Trigger P
  effects : List Effect
deriving Repr, DecidableEq

/-- **All effects of a rule, in order.** -/
def Rule.apply {P : Type} (rule : Rule P) (root : PitchClass) (tones : ToneSet) : ToneSet :=
  rule.effects.foldl (Effect.apply root) tones

section Compiled
variable {P : Type}

/-- The trigger of a written pattern, or of no pattern; none if the pattern is not compiled. -/
def Trigger.ofSource? (compile? : String → Option P) : Option String → Option (Trigger P)
  | none => some .always
  | some text => (compile? text).map .pattern

/-- The rule with a written pattern; none if the pattern is not compiled. -/
def Rule.ofSource? (compile? : String → Option P) (name : String) (kind : RuleKind)
    (pattern : Option String) (effects : List Effect) : Option (Rule P) :=
  (Trigger.ofSource? compile? pattern).map fun trigger => ⟨name, kind, trigger, effects⟩

variable [Matcher P]

/-- **Does the trigger fire on a modifier?** -/
def Trigger.fires : Trigger P → String → Bool
  | .always, _ => true
  | .pattern p, modifier => modifier != "" && Matcher.occursIn p modifier

/-- The text of a trigger. -/
def Trigger.describe : Trigger P → String
  | .always => "always"
  | .pattern p => Matcher.source p

/-- Does the rule fire on a modifier? -/
def Rule.fires (rule : Rule P) (modifier : String) : Bool := rule.trigger.fires modifier

/-- A rule in words. -/
def Rule.info (rule : Rule P) : RuleInfo :=
  ⟨rule.name, rule.kind, rule.trigger.describe, rule.effects.map Effect.describe⟩

end Compiled

end Harmony
