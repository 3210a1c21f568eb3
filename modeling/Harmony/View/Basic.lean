import Harmony.Chord
import Harmony.Document
import Harmony.Json.Number
import Harmony.Key

/-! # Views

The part of an answer that is shown, as plain texts.

* `ChordView`, `ScaleView`, `KeyView`: made from a chord, a scale, a key, and shown as documents. A
  part that is absent is left out.
* `PitchView`: a note with its frequency.
* `RuleInfo.toDocument`, `ToneSet.toJson`, …: other values. -/

namespace Harmony

/-- A chord, as shown. -/
structure ChordView where
  root : String
  tones : DegreeMap String
  /-- The rules that fired, if they are shown. -/
  rules : List String
deriving Repr, DecidableEq

/-- A scale, as shown. -/
structure ScaleView where
  root : String
  tones : DegreeMap String
  /-- The mode, if it is shown. -/
  mode : Option String
deriving Repr, DecidableEq

/-- A key, as shown. -/
structure KeyView where
  root : String
  mode : String
  relative : Option KeyView
  /-- The notes of the scale, if they are shown. -/
  scale : Option (DegreeMap String)
deriving Repr

/-- The frequency of a note, as shown. -/
structure PitchView where
  /-- The note as given. -/
  note : String
  tuning : Float
  frequency : Float

/-- A field of a record. -/
def field (name : String) (value : Document) : Label × Document := (.name name, value)

/-- A field that is left out where there is no value. -/
def optionalField (name : String) (value : Option Document) : List (Label × Document) :=
  match value with
  | some value => [field name value]
  | none => []

namespace ChordView

/-- The view of a chord, with the rules that fired if asked for. -/
def of (chord : Chord) (explain : Bool) : ChordView :=
  ⟨chord.rootName, chord.noteNames, if explain then chord.rules else []⟩

/-- A chord as a document. -/
def toDocument (view : ChordView) : Document :=
  .record ([field "root" (.text view.root), field "tones" (.ofDegrees view.tones)] ++
    if view.rules.isEmpty then [] else [field "rules" (.texts view.rules)])

end ChordView

namespace ScaleView

/-- The view of a scale, with its mode if asked for. -/
def of (scale : Scale) (explain : Bool) : ScaleView :=
  ⟨scale.rootName, scale.noteNames, if explain then some scale.mode else none⟩

/-- A scale as a document. -/
def toDocument (view : ScaleView) : Document :=
  .record ([field "root" (.text view.root), field "tones" (.ofDegrees view.tones)] ++
    optionalField "mode" (view.mode.map .text))

end ScaleView

namespace KeyView

/-- The view of a key and of the relatives stored in it, without scales. -/
def ofKey : Key → KeyView
  | ⟨t, none⟩ => ⟨t.rootName, t.mode.name, none, none⟩
  | ⟨t, some relative⟩ => ⟨t.rootName, t.mode.name, some (ofKey relative), none⟩

/-- The view of a key, with the notes of its scale if asked for. -/
def of (key : Key) (withScale : Bool) : KeyView :=
  { ofKey key with
    scale := if withScale then key.tonality.scale.map (·.noteNames) else none }

/-- A key as a document. -/
def toDocument : KeyView → Document
  | ⟨root, mode, relative, scale⟩ =>
    .record ([field "root" (.text root), field "mode" (.text mode)] ++
      (match relative with
        | some relative => [field "relative" relative.toDocument]
        | none => []) ++
      optionalField "scale" (scale.map .ofDegrees))

end KeyView

/-- A number as JSON. There are no infinities and no others than numbers in JSON. -/
def Json.ofFloat (x : Float) : Json :=
  match Json.floatLexeme? x with
  | some lexeme => .number lexeme.toList
  | none => .null

/-- A natural number as JSON. -/
def Json.ofNat (n : Nat) : Json := .number (Nat.toDigits 10 n)

/-- A frequency as JSON. -/
def PitchView.toJson (view : PitchView) : Json :=
  .object [("note".toList, .ofText view.note), ("tuning_hz".toList, .ofFloat view.tuning),
    ("frequency_hz".toList, .ofFloat view.frequency)]

/-- A rule in words as a document. -/
def RuleInfo.toDocument (info : RuleInfo) : Document :=
  .record [field "name" (.text info.name), field "kind" (.text info.kind.name),
    field "trigger" (.text info.trigger), field "effects" (.texts info.effects)]

/-- A pitch class as JSON, by its number. -/
def PitchClass.toJson (p : PitchClass) : Json := .ofNat p.value

/-- A tone set as JSON, by the numbers of its pitch classes. -/
def ToneSet.toJson (tones : ToneSet) : Json :=
  .object (tones.entries.map fun (d, p) => (Nat.toDigits 10 d.val, p.toJson))

/-- A degree as JSON, by its number. -/
def Degree.toJson (d : Degree) : Json := .ofNat d.val

/-- The name of a spelling. -/
def Spelling.name : Spelling → String
  | .sharp => "sharp"
  | .flat => "flat"

/-- A spelling as JSON, by its name. -/
def Spelling.toJson (spelling : Spelling) : Json := .ofText spelling.name

/-- A mode of keys as JSON, by its name. -/
def KeyMode.toJson (mode : KeyMode) : Json := .ofText mode.name

/-- A kind of rules as JSON, by its name. -/
def RuleKind.toJson (kind : RuleKind) : Json := .ofText kind.name

end Harmony
