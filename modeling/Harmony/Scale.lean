import Harmony.Catalogue.Scale
import Harmony.Chain
import Harmony.Name
import Harmony.Options

/-! # Scales

A scale is the result of the scale rules on the modifier of its name; its mode is the last rule that
fired.

* `Scale.resolve`: the scale of a name. A modifier that names no mode gives the default mode, or an
  error where the options are strict.
* `Scale.inMode`: the scale of a mode given by its own name. -/

namespace Harmony

/-- A scale. -/
structure Scale where
  /-- The name as given. -/
  name : String
  root : PitchClass
  spelling : Spelling
  /-- The name of the rule that gave the tones. -/
  mode : String
  tones : ToneSet
  /-- The names of the rules that fired, in order. -/
  rules : List String
deriving Repr, DecidableEq

namespace Scale

/-- The name of the root. -/
def rootName (scale : Scale) : String := scale.root.name scale.spelling

/-- The name of the note at every degree. -/
def noteNames (scale : Scale) : DegreeMap String := scale.tones.noteNames scale.spelling

/-- The mode of a chain: the last rule that fired. -/
def modeOf (output : ChainOutput) : String := output.applied.getLast?.getD Catalogue.defaultMode

/-- The record of a resolved scale. -/
def record (name : String) (parsed : ParsedName) (output : ChainOutput) : LogRecord :=
  ⟨.debug, .scale, "scale '" ++ name ++ "': root " ++ parsed.root.display ++ ", mode '" ++
    modeOf output ++ "', " ++ output.tones.size.repr ++ " tone(s)"⟩

/-- **The scale of a name**, with the records of its resolution. -/
def resolve (name : String) (options : ResolveOptions) : Traced (Except ResolveError Scale) :=
  match tokenize name with
  | .error e => .quiet (.error e)
  | .ok parsed =>
    let root := parsed.root.pitchClass
    (Catalogue.scales.run root parsed.modifier).andThen fun output =>
      let mode := modeOf output
      if options.strict && parsed.modifier != "" && mode == Catalogue.defaultMode then
        .quiet (.error (.unknownMode name parsed.modifier))
      else
        .note (record name parsed output)
          (.ok ⟨name, root, options.spellingFor parsed.root, mode, output.tones, output.applied⟩)

/-- The scale of a name. -/
def ofName (name : String) (options : ResolveOptions) : Except ResolveError Scale :=
  (resolve name options).value

/-- The scale of the rule with the given name; none if there is no such rule. -/
def inMode (root : PitchClass) (spelling : Spelling) (mode : String) : Option Scale :=
  (Catalogue.scales.find? mode).map fun rule =>
    { name := root.name spelling ++ " " ++ rule.name
      root := root
      spelling := spelling
      mode := rule.name
      tones := rule.apply root .empty
      rules := [rule.name] }

end Scale

end Harmony
