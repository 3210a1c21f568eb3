import Harmony.Json.Parser
import Harmony.View.Basic

/-! # Reading views from JSON

Every value that is shown as JSON can be read back.

* `Json.text?`, `Json.integer?`, `Json.float?`, `Json.list?`, `Json.degrees?`: simple values.
* `Json.fields?`: the fields of a record. It is an object, in which unknown members are passed over
  and no known one comes twice, or an array with the fields in order. A field that is not there is for
  the reader of the record to judge.
* `Json.case?`: a value given by name alone.
* `ofJson?`: the reader of each type. A key is read to a limited depth. -/

namespace Harmony

namespace Json

/-- A text. -/
def text? : Json → Option String
  | .string written => (decode? written).map String.ofList
  | _ => none

/-- An integer, written as one. -/
def integer? : Json → Option Int
  | .number lexeme => integerValue? lexeme
  | _ => none

/-- A number. -/
def float? : Json → Option Float
  | .number lexeme => floatValue? lexeme
  | _ => none

/-- A list of values. -/
def list? {α : Type} (item? : Json → Option α) : Json → Option (List α)
  | .array items => items.mapM item?
  | _ => none

/-- A degree. -/
def degreeOf? (n : Option Nat) : Option Degree :=
  match n with
  | some n => if h : n < 256 then some ⟨n, h⟩ else none
  | none => none

/-- A map from degrees. The keys are numbers without escapes; of two equal keys the later counts. -/
def degrees? {α : Type} (value? : Json → Option α) : Json → Option (DegreeMap α)
  | .object members =>
    (members.mapM fun (key, value) => do
      let degree ← degreeOf? (naturalValue? key)
      return (degree, ← value? value)).map .ofList
  | _ => none

/-- A value given by name alone: the name, or an object with nothing under that name. -/
def case? : Json → Option String
  | .string written => text? (.string written)
  | .object [(key, .null)] => text? (.string key)
  | _ => none

/-- The values under a name among members with decoded names. -/
def under (name : String) (members : List (String × Json)) : List Json :=
  members.filterMap fun (key, value) => if key = name then some value else none

/-- One value for every name: none if it is not there. Fails if a name comes twice. -/
def pick? (names : List String) (members : List (String × Json)) : Option (List (Option Json)) :=
  names.mapM fun name =>
    match under name members with
    | [] => some none
    | [value] => some (some value)
    | _ => none

/-- **The fields of a record**, in the order of their names. -/
def fields? (names : List String) : Json → Option (List (Option Json))
  | .object members => do
    let decoded ← members.mapM fun (key, value) => do return (← text? (.string key), value)
    pick? names decoded
  | .array items =>
    if items.length ≤ names.length then
      some (items.map some ++ List.replicate (names.length - items.length) none)
    else none
  | _ => none

/-- A value that may be absent or null. -/
def optional? {α : Type} (value? : Json → Option α) : Option Json → Option (Option α)
  | none => some none
  | some .null => some none
  | some json => (value? json).map some

end Json

open Json

/-- The pitch class of a number. -/
def PitchClass.ofJson? (json : Json) : Option PitchClass :=
  (json.integer?.bind Decimal.word?).map .ofInt

/-- A degree. -/
def Degree.ofJson? (json : Json) : Option Degree :=
  match json.integer? with
  | some (.ofNat n) => degreeOf? (some n)
  | _ => none

/-- A tone set. -/
def ToneSet.ofJson? (json : Json) : Option ToneSet := json.degrees? PitchClass.ofJson?

/-- A spelling. -/
def Spelling.ofJson? (json : Json) : Option Spelling :=
  match json.case? with
  | some "sharp" => some .sharp
  | some "flat" => some .flat
  | _ => none

/-- A mode of keys. -/
def KeyMode.ofJson? (json : Json) : Option KeyMode :=
  match json.case? with
  | some "Major" => some .major
  | some "Minor" => some .minor
  | _ => none

/-- A kind of rules. -/
def RuleKind.ofJson? (json : Json) : Option RuleKind :=
  match json.case? with
  | some "chord" => some .chord
  | some "scale" => some .scale
  | _ => none

/-- A chord. The rules may be absent. -/
def ChordView.ofJson? (json : Json) : Option ChordView :=
  match json.fields? ["root", "tones", "rules"] with
  | some [some root, some tones, rules] => do
    let root ← root.text?
    let tones ← tones.degrees? text?
    let rules ← match rules with
      | some rules => rules.list? text?
      | none => some []
    return ⟨root, tones, rules⟩
  | _ => none

/-- A scale. The mode may be absent or null. -/
def ScaleView.ofJson? (json : Json) : Option ScaleView :=
  match json.fields? ["root", "tones", "mode"] with
  | some [some root, some tones, mode] => do
    return ⟨← root.text?, ← tones.degrees? text?, ← optional? text? mode⟩
  | _ => none

/-- A key that lies at most the given number of levels deep. The relative and the scale may be absent
or null, and each takes one more level. -/
def KeyView.ofJson? : Nat → Json → Option KeyView
  | 0, _ => none
  | levels + 1, json =>
    match json.fields? ["root", "mode", "relative", "scale"] with
    | some [some root, some mode, relative, scale] => do
      let root ← root.text?
      let mode ← mode.text?
      let relative ← optional? (KeyView.ofJson? levels) relative
      let scale ← optional? (fun json => if levels = 0 then none else json.degrees? text?) scale
      return ⟨root, mode, relative, scale⟩
    | _ => none

/-- The greatest depth of a value. -/
def maxDepth : Nat := 127

/-- A frequency. -/
def PitchView.ofJson? (json : Json) : Option PitchView :=
  match json.fields? ["note", "tuning_hz", "frequency_hz"] with
  | some [some note, some tuning, some frequency] => do
    return ⟨← note.text?, ← tuning.float?, ← frequency.float?⟩
  | _ => none

/-- A rule in words. -/
def RuleInfo.ofJson? (json : Json) : Option RuleInfo :=
  match json.fields? ["name", "kind", "trigger", "effects"] with
  | some [some name, some kind, some trigger, some effects] => do
    return ⟨← name.text?, ← RuleKind.ofJson? kind, ← trigger.text?, ← effects.list? text?⟩
  | _ => none

end Harmony
