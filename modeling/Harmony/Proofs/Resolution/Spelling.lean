import Harmony.Proofs.Note
import Harmony.Proofs.Resolution.Strictness
import Harmony.View.Basic

/-! # Spellings name, and do nothing else

A spelling is forced by the options or follows from the root. Either way it goes into the names of
notes only: what a name resolves to sounds the same under every spelling, and each printed name is
read back as the pitch class that it stands for. So all printed forms of a chord, a scale or a key
denote the same pitch classes.

* `denoted?`: the pitch class of a printed name (`denoted?_name`).
* `SameOutcome`: the same error, or results that are related.
* `Chord.SoundsAs`, `Scale.SoundsAs`, `Key.SoundsAs`: results that differ in their spellings only.
* `SpellingIndependence`, `spellingIndependence_of_name`: what holds of every name. -/

namespace Harmony

/-! ### Printed names -/

/-- The pitch class of a text that is the name of a note and no more. -/
def denoted? (text : String) : Option PitchClass :=
  match parseRoot text with
  | .ok (note, rest) => if rest = "" then some note.pitchClass else none
  | .error _ => none

/-- **A printed name** denotes its pitch class, under either spelling. -/
theorem denoted?_name (p : PitchClass) (spelling : Spelling) : denoted? (p.name spelling) = some p := by
  obtain ⟨note, hread, hsounds⟩ := Note.read?_name p spelling
  have hparse : parseRoot (p.name spelling) = .ok (note, "") := by
    unfold parseRoot
    rw [hread]
  unfold denoted?
  simp only [hparse, if_true, hsounds]

theorem map_denoted?_noteNames (tones : ToneSet) (spelling : Spelling) :
    (tones.noteNames spelling).map denoted? = tones.map some := by
  refine DegreeMap.eq_of_get? fun d => ?_
  unfold ToneSet.noteNames
  rw [DegreeMap.get?_map, DegreeMap.get?_map, DegreeMap.get?_map, Option.map_map]
  refine congrArg (Option.map · (tones.get? d)) (funext fun p => ?_)
  exact denoted?_name p spelling

/-- A printed root and printed notes denote the root and, degree by degree, the tones. -/
structure NotesDenote (name : String) (notes : DegreeMap String) (root : PitchClass)
    (tones : ToneSet) : Prop where
  root : denoted? name = some root
  tones : notes.map denoted? = tones.map some

/-- **Printed notes** denote what they name, under either spelling. -/
theorem notesDenote_names (root : PitchClass) (tones : ToneSet) (spelling : Spelling) :
    NotesDenote (root.name spelling) (tones.noteNames spelling) root tones :=
  ⟨denoted?_name root spelling, map_denoted?_noteNames tones spelling⟩

/-- The view of a chord denotes the root and the tones. -/
def ChordView.Denotes (view : ChordView) (root : PitchClass) (tones : ToneSet) : Prop :=
  NotesDenote view.root view.tones root tones

/-- The view of a scale denotes the root and the tones. -/
def ScaleView.Denotes (view : ScaleView) (root : PitchClass) (tones : ToneSet) : Prop :=
  NotesDenote view.root view.tones root tones

/-- The view of a key denotes the root, that of the relative and, if it shows them, the tones. -/
structure KeyView.Denotes (view : KeyView) (root : PitchClass) (relative : Option PitchClass)
    (tones : Option ToneSet) : Prop where
  root : denoted? view.root = some root
  relative : view.relative.map (fun other => denoted? other.root) = relative.map some
  scale : view.scale.map (fun notes => notes.map denoted?) = tones.map (fun tones => tones.map some)

theorem denotes_chordView (chord : Chord) (explain : Bool) :
    (ChordView.of chord explain).Denotes chord.root chord.tones :=
  notesDenote_names chord.root chord.tones chord.spelling

theorem denotes_scaleView (scale : Scale) (explain : Bool) :
    (ScaleView.of scale explain).Denotes scale.root scale.tones :=
  notesDenote_names scale.root scale.tones scale.spelling

theorem root_ofKey (key : Key) : (KeyView.ofKey key).root = key.tonality.rootName := by
  obtain ⟨t, relative⟩ := key
  cases relative <;> rfl

theorem relative_ofKey (key : Key) :
    (KeyView.ofKey key).relative = key.relative.map KeyView.ofKey := by
  obtain ⟨t, relative⟩ := key
  cases relative <;> rfl

/-- The tones of the scale of a key, if they are shown. -/
def Key.shownTones (key : Key) (withScale : Bool) : Option ToneSet :=
  if withScale then key.tonality.scale.map (·.tones) else none

theorem denotes_keyView (key : Key) (withScale : Bool) :
    (KeyView.of key withScale).Denotes key.tonality.root (key.relative.map (·.tonality.root))
      (key.shownTones withScale) where
  root := by
    unfold KeyView.of
    rw [root_ofKey]
    exact denoted?_name key.tonality.root key.tonality.spelling
  relative := by
    simp only [KeyView.of, relative_ofKey, Option.map_map]
    refine congrArg (Option.map · key.relative) (funext fun relative => ?_)
    rw [Function.comp_apply, root_ofKey]
    exact denoted?_name relative.tonality.root relative.tonality.spelling
  scale := by
    unfold Key.shownTones
    simp only [KeyView.of]
    split_ifs
    · rw [Option.map_map, Option.map_map]
      refine congrArg (Option.map · key.tonality.scale) (funext fun scale => ?_)
      exact map_denoted?_noteNames scale.tones scale.spelling
    · rfl

/-! ### Results that sound the same -/

/-- Both fail with the same error, or both succeed with related results. -/
def SameOutcome {α : Type} (Related : α → α → Prop) :
    Except ResolveError α → Except ResolveError α → Prop
  | .ok a, .ok b => Related a b
  | .error e, .error e' => e = e'
  | _, _ => False

/-- The chords differ in their spellings at most, and denote the same as printed. -/
structure Chord.SoundsAs (a b : Chord) : Prop where
  name : a.name = b.name
  root : a.root = b.root
  tones : a.tones = b.tones
  rules : a.rules = b.rules
  printed : ∀ explain, (ChordView.of a explain).Denotes a.root a.tones ∧
    (ChordView.of b explain).Denotes a.root a.tones

/-- The scales differ in their spellings at most, and denote the same as printed. -/
structure Scale.SoundsAs (a b : Scale) : Prop where
  name : a.name = b.name
  root : a.root = b.root
  mode : a.mode = b.mode
  tones : a.tones = b.tones
  rules : a.rules = b.rules
  printed : ∀ explain, (ScaleView.of a explain).Denotes a.root a.tones ∧
    (ScaleView.of b explain).Denotes a.root a.tones

/-- The tonalities differ in their spellings at most, and have scales of the same tones. -/
structure Tonality.SoundsAs (t u : Tonality) : Prop where
  root : t.root = u.root
  mode : t.mode = u.mode
  scale : t.scale.map (·.tones) = u.scale.map (·.tones)

/-- The keys differ in their spellings at most, and denote the same as printed. -/
structure Key.SoundsAs (a b : Key) : Prop where
  tonality : a.tonality.SoundsAs b.tonality
  relative : Option.Rel (fun r s => r.tonality.SoundsAs s.tonality ∧ r.relative = none ∧
    s.relative = none) a.relative b.relative
  printed : ∀ withScale,
    (KeyView.of a withScale).Denotes a.tonality.root (a.relative.map (·.tonality.root))
      (a.shownTones withScale) ∧
    (KeyView.of b withScale).Denotes a.tonality.root (a.relative.map (·.tonality.root))
      (a.shownTones withScale)

/-- The tones of the scale of a tonality are those of the rule of its mode, above its root. -/
theorem tones_scale (t : Tonality) :
    t.scale.map (·.tones) =
      (Catalogue.scales.find? t.mode.name).map fun rule => rule.apply t.root .empty := by
  unfold Tonality.scale Scale.inMode
  rw [Option.map_map]
  rfl

theorem Tonality.soundsAs_of_eq {t u : Tonality} (hroot : t.root = u.root) (hmode : t.mode = u.mode) :
    t.SoundsAs u where
  root := hroot
  mode := hmode
  scale := by rw [tones_scale, tones_scale, hroot, hmode]

/-! ### Names -/

section Parts
variable (name : String) (s s' : Spelling) (parsed : ParsedName)

theorem Scale.soundsAs_ofParts :
    (Scale.ofParts name s parsed).SoundsAs (Scale.ofParts name s' parsed) where
  name := rfl
  root := rfl
  mode := rfl
  tones := rfl
  rules := rfl
  printed explain := ⟨denotes_scaleView _ explain, denotes_scaleView _ explain⟩

theorem Key.soundsAs_ofParts :
    (Key.ofParts s parsed (Scale.ofParts name s parsed)).SoundsAs
      (Key.ofParts s' parsed (Scale.ofParts name s' parsed)) := by
  have htonality : (Key.ofParts s parsed (Scale.ofParts name s parsed)).tonality.SoundsAs
      (Key.ofParts s' parsed (Scale.ofParts name s' parsed)).tonality :=
    Tonality.soundsAs_of_eq rfl rfl
  exact {
    tonality := htonality
    relative := .some ⟨Tonality.soundsAs_of_eq rfl rfl, rfl, rfl⟩
    printed := fun withScale => by
      refine ⟨denotes_keyView _ withScale, ?_⟩
      have hother := denotes_keyView (Key.ofParts s' parsed (Scale.ofParts name s' parsed)) withScale
      unfold Key.shownTones at hother ⊢
      rw [htonality.scale]
      exact hother }

end Parts

/-- What a name resolves to under two spellings, forced or inferred, of one strictness. -/
structure SpellingIndependence (name : String) (strict : Bool) (s s' : Option Spelling) : Prop where
  chord : SameOutcome Chord.SoundsAs (Chord.ofName name ⟨s, strict⟩) (Chord.ofName name ⟨s', strict⟩)
  scale : SameOutcome Scale.SoundsAs (Scale.ofName name ⟨s, strict⟩) (Scale.ofName name ⟨s', strict⟩)
  key : SameOutcome Key.SoundsAs (Key.ofName name ⟨s, strict⟩) (Key.ofName name ⟨s', strict⟩)

/-- **A spelling influences nothing but names.** -/
theorem spellingIndependence_of_name (name : String) (strict : Bool) (s s' : Option Spelling) :
    SpellingIndependence name strict s s' := by
  cases h : tokenize name with
  | error e =>
    constructor
    · rw [Chord.ofName_eq_error h, Chord.ofName_eq_error h]
      exact rfl
    · rw [Scale.ofName_eq_error h, Scale.ofName_eq_error h]
      exact rfl
    · rw [Key.ofName_eq_error h, Key.ofName_eq_error h]
      exact rfl
  | ok parsed =>
    constructor
    · rw [Chord.ofName_of_tokenize h, Chord.ofName_of_tokenize h]
      exact ⟨rfl, rfl, rfl, rfl, fun explain =>
        ⟨denotes_chordView _ explain, denotes_chordView _ explain⟩⟩
    · rw [Scale.ofName_eq_ite h, Scale.ofName_eq_ite h]
      split_ifs
      · exact rfl
      · exact Scale.soundsAs_ofParts name _ _ parsed
    · rw [Key.ofName_eq_ite h, Key.ofName_eq_ite h]
      split_ifs
      · exact rfl
      · exact Key.soundsAs_ofParts name _ _ parsed

end Harmony
