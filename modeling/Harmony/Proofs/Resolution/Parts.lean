import Harmony.Chord
import Harmony.Key

/-! # What a name resolves to, read off its parts

Nothing of a name counts but its root, its minor marker and its modifier. `Scale.ofParts` is the scale
of these parts whether or not the modifier is known; `Key.ofParts` is the key of the parts and of their
scale.

* `tokenize_eq_ok`, `tokenize_eq_error`: the parts of a name.
* `Scale.ofName_eq`, `Key.ofName_eq`: scales and keys of names with parts. -/

namespace Harmony

variable {name : String} {parsed : ParsedName} {e : ResolveError}

theorem tokenize_eq_ok {root : Note} {rest : List Char}
    (h : Note.read? name.toList = some (root, rest)) :
    tokenize name = .ok ⟨root, hasMinorMarker rest, String.ofList (Text.trim rest)⟩ := by
  unfold tokenize
  rw [h]

theorem tokenize_eq_error (h : Note.read? name.toList = none) :
    tokenize name = .error (.invalidRoot name) := by
  unfold tokenize
  rw [h]

/-- The parts of a name are told from the text behind its root. -/
theorem exists_read?_of_tokenize (h : tokenize name = .ok parsed) :
    ∃ rest, Note.read? name.toList = some (parsed.root, rest) ∧
      parsed.minor = hasMinorMarker rest ∧ parsed.modifier.toList = Text.trim rest := by
  cases hread : Note.read? name.toList with
  | none =>
    rw [tokenize_eq_error hread] at h
    cases h
  | some found =>
    obtain ⟨root, rest⟩ := found
    rw [tokenize_eq_ok hread] at h
    obtain rfl := Except.ok.inj h
    exact ⟨rest, rfl, rfl, String.toList_ofList⟩

theorem Chord.ofName_eq_error (h : tokenize name = .error e) (options : ResolveOptions) :
    Chord.ofName name options = .error e := by
  unfold Chord.ofName Chord.resolve
  rw [h]
  rfl

/-! ### Scales -/

/-- The scale of the parts of a name. -/
def Scale.ofParts (name : String) (spelling : Spelling) (parsed : ParsedName) : Scale :=
  let output := Catalogue.scales.execute parsed.root.pitchClass parsed.modifier
  ⟨name, parsed.root.pitchClass, spelling, Scale.modeOf output, output.tones, output.applied⟩

theorem Scale.ofName_eq_error (h : tokenize name = .error e) (options : ResolveOptions) :
    Scale.ofName name options = .error e := by
  unfold Scale.ofName Scale.resolve
  rw [h]
  rfl

/-- **The scale of a name with parts**: an unknown mode where the options are strict and a modifier
falls back to the default mode, otherwise the scale of the parts. -/
theorem Scale.ofName_eq (h : tokenize name = .ok parsed) (options : ResolveOptions) :
    let scale := Scale.ofParts name (options.spellingFor parsed.root) parsed
    Scale.ofName name options =
      if options.strict = true ∧ parsed.modifier ≠ "" ∧ scale.mode = Catalogue.defaultMode then
        .error (.unknownMode name parsed.modifier)
      else .ok scale := by
  unfold Scale.ofName Scale.resolve
  rw [h]
  simp only [Traced.andThen, Registry.run, Scale.ofParts, Bool.and_eq_true, bne_iff_ne, beq_iff_eq,
    and_assoc]
  split
  · exact (if_pos ‹_›).symm
  · exact (if_neg ‹_›).symm

theorem Scale.ofName_eq_ok {options : ResolveOptions} {scale : Scale}
    (h : Scale.ofName name options = .ok scale) :
    ∃ parsed, tokenize name = .ok parsed ∧
      scale = Scale.ofParts name (options.spellingFor parsed.root) parsed := by
  cases hparsed : tokenize name with
  | error e =>
    rw [Scale.ofName_eq_error hparsed] at h
    cases h
  | ok parsed =>
    refine ⟨parsed, rfl, ?_⟩
    rw [Scale.ofName_eq hparsed] at h
    split at h
    · cases h
    · exact (Except.ok.inj h).symm

/-! ### Keys -/

/-- The key of the parts of a name and of their scale. -/
def Key.ofParts (spelling : Spelling) (parsed : ParsedName) (scale : Scale) : Key :=
  let mode := if parsed.minor || Key.hasMinorThird scale then KeyMode.minor else KeyMode.major
  let t : Tonality := ⟨parsed.root.pitchClass, spelling, mode⟩
  ⟨t, some (Key.bare t).relativeKey⟩

theorem Key.ofName_eq_error (h : tokenize name = .error e) (options : ResolveOptions) :
    Key.ofName name options = .error e := by
  unfold Key.ofName Key.resolve
  rw [h]
  rfl

/-- **The key of a name with parts** is that of its scale, and fails as its scale does. -/
theorem Key.ofName_eq (h : tokenize name = .ok parsed) (options : ResolveOptions) :
    Key.ofName name options =
      (Scale.ofName name options).map (Key.ofParts (options.spellingFor parsed.root) parsed) := by
  unfold Key.ofName Key.resolve Scale.ofName
  rw [h]
  simp only [Traced.andThen]
  cases (Scale.resolve name options).value with
  | error e => rfl
  | ok scale => rfl

end Harmony
