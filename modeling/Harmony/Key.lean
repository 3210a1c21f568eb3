import Harmony.Scale

/-! # Keys

A key is a root in major or minor. A key resolved from a name also holds its relative, a key of the
same tones in the other mode.

* `Tonality.relative`: a minor third below a major root, a minor third above a minor one.
* `Key.relativeKey`: the key of this tonality, without a relative of its own.
* `Key.resolve`: the key of a name. It is minor if the name has the minor marker or its scale a minor
  third. -/

namespace Harmony

/-- Major or minor. -/
inductive KeyMode where
  | major
  | minor
deriving Repr, DecidableEq

namespace KeyMode

/-- The other mode. -/
def opposite : KeyMode → KeyMode
  | major => minor
  | minor => major

/-- The name of the mode, which is also that of its scale rule. -/
def name : KeyMode → String
  | major => "Major"
  | minor => "Minor"

/-- The distance from a key to its relative, in semitones. -/
def relativeOffset : KeyMode → Int
  | major => -3
  | minor => 3

end KeyMode

/-- A root, its spelling and a mode. -/
structure Tonality where
  root : PitchClass
  spelling : Spelling
  mode : KeyMode
deriving Repr, DecidableEq

namespace Tonality

/-- The name of the root. -/
def rootName (t : Tonality) : String := t.root.name t.spelling

/-- The tonality of the same tones in the other mode. -/
def relative (t : Tonality) : Tonality :=
  ⟨t.root.transpose t.mode.relativeOffset, t.spelling, t.mode.opposite⟩

/-- The scale of the tonality. -/
def scale (t : Tonality) : Option Scale := Scale.inMode t.root t.spelling t.mode.name

end Tonality

/-- A key, with the relative that is stored in it, if any. -/
structure Key where
  tonality : Tonality
  relative : Option Key
deriving Repr

namespace Key

/-- Keys are equal if they have the same tonality and equal relatives. -/
def decEq : (key other : Key) → Decidable (key = other)
  | ⟨t, none⟩, ⟨u, none⟩ => decidable_of_iff (t = u) (by simp)
  | ⟨_, none⟩, ⟨_, some _⟩ => .isFalse (by simp)
  | ⟨_, some _⟩, ⟨_, none⟩ => .isFalse (by simp)
  | ⟨t, some relative⟩, ⟨u, some relative'⟩ =>
    have := decEq relative relative'
    decidable_of_iff (t = u ∧ relative = relative') (by simp)

instance : DecidableEq Key := decEq

/-- A key without a relative. -/
def bare (t : Tonality) : Key := ⟨t, none⟩

/-- The relative of a key. It has no relative of its own. -/
def relativeKey (key : Key) : Key := bare key.tonality.relative

/-- Does the scale have a minor third? -/
def hasMinorThird (scale : Scale) : Bool :=
  match scale.tones.get? 3 with
  | some p => p.intervalFrom scale.root == 3
  | none => false

/-- The record of a resolved key. -/
def record (name : String) (t : Tonality) : LogRecord :=
  ⟨.debug, .key, "key '" ++ name ++ "': " ++ t.rootName ++ " " ++ t.mode.name ++ ", relative " ++
    t.relative.rootName ++ " " ++ t.relative.mode.name⟩

/-- **The key of a name**, with the records of its resolution. -/
def resolve (name : String) (options : ResolveOptions) : Traced (Except ResolveError Key) :=
  match tokenize name with
  | .error e => .quiet (.error e)
  | .ok parsed =>
    (Scale.resolve name options).andThen fun
      | .error e => .quiet (.error e)
      | .ok scale =>
        let mode := if parsed.minor || hasMinorThird scale then KeyMode.minor else KeyMode.major
        let t : Tonality := ⟨parsed.root.pitchClass, options.spellingFor parsed.root, mode⟩
        .note (record name t) (.ok ⟨t, some (bare t).relativeKey⟩)

/-- The key of a name. -/
def ofName (name : String) (options : ResolveOptions) : Except ResolveError Key :=
  (resolve name options).value

end Key

end Harmony
