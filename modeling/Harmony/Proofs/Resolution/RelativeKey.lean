import Harmony.Proofs.Catalogue.ScaleModes
import Harmony.View.Basic
import Mathlib.Data.List.Rotate

/-! # Keys and their relatives

The scale of a name decides its key: its third tells the mode, unless the minor marker already has. The
scales of a key and of its relative are found by the names of the modes, `Major` and `Minor`. They hold
the same seven tones, since the natural minor scale is the major one from its sixth degree on.

* `minorModes`: the modes with a minor third (`hasMinorThird_ofParts_iff`).
* `SharesTones`: a major scale and the minor scale of the same tones, degree by degree.
* `sharesTones_relative`: so are the scales of a tonality and of its relative.
* `KeyShape`, `keyShape_of_name`: what holds of every key that has a name. -/

namespace Harmony

open Catalogue

/-! ### Minor thirds -/

/-- The modes of scales with a minor third. -/
def minorModes : List String :=
  ["Minor", "Natural Minor", "Diminished", "Melodic Minor Ascend", "Melodic Minor Descend",
    "Harmonic Minor", "Dorian", "Phrygian", "Aeolian", "Locrian"]

theorem third_of_mem_scales : ∀ rule ∈ scales.rules, ∃ intervals ∈ rule.intervals?,
    (intervals[2]? = some 3 ↔ rule.name ∈ minorModes) := by decide

theorem hasMinorThird_ofParts_iff (name : String) (spelling : Spelling) (parsed : ParsedName) :
    Key.hasMinorThird (Scale.ofParts name spelling parsed) = true ↔
      (Scale.ofParts name spelling parsed).mode ∈ minorModes := by
  obtain ⟨rule, hlast⟩ := lastFiring_scales parsed.modifier
  obtain ⟨intervals, hrule, hthird⟩ := third_of_mem_scales rule hlast.mem_rules
  obtain ⟨intervals', hrule', hmode⟩ := isMode_of_mem_scales rule hlast.mem_rules
  obtain rfl : intervals = intervals' := Option.some.inj (hrule.symm.trans hrule')
  have hroot : (Scale.ofParts name spelling parsed).root = parsed.root.pitchClass := rfl
  rw [mode_ofParts hlast, ← hthird]
  unfold Key.hasMinorThird
  rw [tones_ofParts hlast hrule, hroot, get?_ofIntervals, intervalAt_of_fits hmode.length_le]
  -- the third has index 2, and an interval below an octave is read back as it is
  have hval : (3 : Degree).val = 3 := rfl
  rw [hval, if_neg (by decide)]
  cases hn : intervals[2]? with
  | none => simp
  | some n =>
    obtain ⟨hpos, hwithin⟩ := hmode.within n (List.mem_of_getElem? hn)
    have hback := PitchClass.intervalFrom_transpose_of_lt hpos hwithin parsed.root.pitchClass
    simp only [Option.map_some, beq_iff_eq, Option.some.injEq]
    omega

/-! ### Relatives -/

theorem relative_relative (t : Tonality) : t.relative.relative = t := by
  obtain ⟨root, spelling, mode⟩ := t
  cases mode <;> simp [Tonality.relative, KeyMode.opposite, KeyMode.relativeOffset]

/-- The intervals of the scale of a mode. -/
def KeyMode.intervals : KeyMode → List Int
  | major => ionian
  | minor => aeolian

/-- **The scale of a tonality** is that of the rule with the name of its mode. -/
theorem scale_tonality (t : Tonality) :
    ∃ scale, t.scale = some scale ∧ scale.tones = .ofIntervals t.root t.mode.intervals := by
  have hrule : ∃ rule ∈ scales.rules, rule.name = t.mode.name ∧
      rule.intervals? = some t.mode.intervals := by cases t.mode <;> decide
  obtain ⟨rule, hmem, hname, hintervals⟩ := hrule
  exact ⟨_, inMode_eq_some hmem hintervals (by rw [hname]) t.root t.spelling, rfl⟩

/-- Above a root three semitones below, the natural minor scale is the major scale from its sixth
degree on. -/
theorem map_aeolian_eq_rotate (root : PitchClass) :
    aeolian.map (root.transpose (-3)).transpose = (ionian.map root.transpose).rotate 5 := by
  have hmod : aeolian.map (fun n => (-3 + n) % 12) = ionian.rotate 5 := by decide
  calc aeolian.map (root.transpose (-3)).transpose
      = (aeolian.map fun n => (-3 + n) % 12).map root.transpose := by
        rw [List.map_map]
        refine List.map_congr_left fun n _ => ?_
        rw [PitchClass.transpose_transpose]
        exact root.transpose_congr (Int.emod_emod_of_dvd _ (Int.dvd_refl 12)).symm
    _ = (ionian.rotate 5).map root.transpose := by rw [hmod]
    _ = (ionian.map root.transpose).rotate 5 := List.map_rotate _ _ _

/-- A major scale and a minor scale of the same seven tones. -/
structure SharesTones (major minor : ToneSet) : Prop where
  major_degrees : major.degrees.map (·.val) = List.range' 1 7
  minor_degrees : minor.degrees.map (·.val) = List.range' 1 7
  values : minor.values.Perm major.values
  rotated : ∀ i, 1 ≤ i → i ≤ 7 →
    minor.get? (Fin.ofNat 256 i) = major.get? (Fin.ofNat 256 ((i + 4) % 7 + 1))

/-- **A major scale and the natural minor scale three semitones below** share their tones. -/
theorem sharesTones_ofIntervals (root : PitchClass) :
    SharesTones (.ofIntervals root ionian) (.ofIntervals (root.transpose (-3)) aeolian) where
  major_degrees := degrees_ofIntervals (by decide) root
  minor_degrees := degrees_ofIntervals (by decide) _
  values := by
    rw [values_ofIntervals (by decide), values_ofIntervals (by decide), map_aeolian_eq_rotate]
    exact List.rotate_perm _ _
  rotated i hpos hle := by
    have hindex : i - 1 + 5 = i + 4 := by omega
    rw [get?_ofIntervals_ofNat (by decide) _ hpos (by omega),
      get?_ofIntervals_ofNat (by decide) _ (by omega) (by omega), map_aeolian_eq_rotate,
      List.getElem?_rotate (by rw [List.length_map]; exact Nat.sub_one_lt_of_le hpos hle), hindex]
    rfl

/-- The scale of the tonality that is major and that of the one that is minor share their tones. -/
theorem sharesTones_relative (t : Tonality) : ∃ own other, t.scale = some own ∧
    t.relative.scale = some other ∧
    match t.mode with
    | .major => SharesTones own.tones other.tones
    | .minor => SharesTones other.tones own.tones := by
  obtain ⟨own, hown, hown_tones⟩ := scale_tonality t
  obtain ⟨other, hother, hother_tones⟩ := scale_tonality t.relative
  refine ⟨own, other, hown, hother, ?_⟩
  obtain ⟨root, spelling, mode⟩ := t
  rw [hown_tones, hother_tones]
  cases mode with
  | major => exact sharesTones_ofIntervals root
  | minor =>
    have hback : (root.transpose 3).transpose (-3) = root := by simp
    have h := sharesTones_ofIntervals (root.transpose 3)
    rwa [hback] at h

/-! ### Keys -/

theorem mode_ofParts_eq_minor_iff (spelling : Spelling) (parsed : ParsedName) (scale : Scale) :
    (Key.ofParts spelling parsed scale).tonality.mode = .minor ↔
      parsed.minor = true ∨ Key.hasMinorThird scale = true := by
  rw [← Bool.or_eq_true]
  unfold Key.ofParts
  cases parsed.minor || Key.hasMinorThird scale <;> simp

/-- What holds of a key whose name has the given parts and the given scale. -/
structure KeyShape (parsed : ParsedName) (scale : Scale) (key : Key) : Prop where
  root : key.tonality.root = scale.root
  spelling : key.tonality.spelling = scale.spelling
  mode : key.tonality.mode = .minor ↔ parsed.minor = true ∨ scale.mode ∈ minorModes
  /-- The stored relative is the one that is computed. -/
  relative : key.relative = some key.relativeKey
  relative_tonality : ∀ relative, key.relative = some relative →
    relative.tonality = key.tonality.relative
  /-- The stored relative has no relative of its own. -/
  relative_bare : ∀ relative, key.relative = some relative → relative.relative = none
  /-- The stored relative is shown without a relative of its own. -/
  relative_shown : ∀ withScale, (KeyView.of key withScale).relative =
    some ⟨key.tonality.relative.rootName, key.tonality.relative.mode.name, none, none⟩
  relative_relative : ∀ relative, key.relative = some relative →
    relative.relativeKey.tonality = key.tonality
  scales : ∃ own other, key.tonality.scale = some own ∧ key.tonality.relative.scale = some other ∧
    match key.tonality.mode with
    | .major => SharesTones own.tones other.tones
    | .minor => SharesTones other.tones own.tones

/-- **The key of a name** fails as its scale does. Otherwise it is the key of that scale, and its
relative has the same tones. -/
theorem keyShape_of_name (name : String) (options : ResolveOptions) :
    match Scale.ofName name options with
    | .error e => Key.ofName name options = .error e
    | .ok scale => ∃ parsed key, tokenize name = .ok parsed ∧ Key.ofName name options = .ok key ∧
        KeyShape parsed scale key := by
  cases hparsed : tokenize name with
  | error e =>
    rw [Scale.ofName_eq_error hparsed]
    exact Key.ofName_eq_error hparsed options
  | ok parsed =>
    have hkey := Key.ofName_eq hparsed options
    cases hscale : Scale.ofName name options with
    | error e =>
      rw [hkey, hscale]
      rfl
    | ok scale =>
      rw [hscale] at hkey
      -- the scale has the parts that the key has
      obtain ⟨parsed', hparsed', hparts⟩ := Scale.ofName_eq_ok hscale
      obtain rfl : parsed = parsed' := Except.ok.inj (hparsed.symm.trans hparsed')
      subst hparts
      have hmode := mode_ofParts_eq_minor_iff (options.spellingFor parsed.root) parsed
        (Scale.ofParts name (options.spellingFor parsed.root) parsed)
      rw [hasMinorThird_ofParts_iff] at hmode
      exact ⟨parsed, _, rfl, hkey, {
        root := rfl
        spelling := rfl
        mode := hmode
        relative := rfl
        relative_tonality := fun relative h => by
          obtain rfl := Option.some.inj h
          rfl
        relative_bare := fun relative h => by
          obtain rfl := Option.some.inj h
          rfl
        relative_shown := fun _ => rfl
        relative_relative := fun relative h => by
          obtain rfl := Option.some.inj h
          exact relative_relative _
        scales := sharesTones_relative _ }⟩

end Harmony
