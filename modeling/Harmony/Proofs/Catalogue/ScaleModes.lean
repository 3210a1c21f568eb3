import Harmony.Proofs.Chain.Outcome
import Harmony.Proofs.Chain.Replacement
import Harmony.Proofs.Resolution.Parts

/-! # The modes of scales

Every scale rule puts the intervals of a mode in place of all tones. So the mode of a scale is that of
the last rule that fires, and the scale is the one that this mode has by itself; its name leads back to
the rule, since no two rules have names that differ in case only.

* `IsMode`: the intervals of a mode. They ascend from the root within an octave.
* `lastFiring_scales`: on every modifier some scale rule is the last to fire.
* `ScaleShape`: what holds of every scale that has a name.
* `scaleShape_ofName`: it does. -/

namespace Harmony

/-! ### Ascending intervals -/

/-- Six, seven or eight intervals that ascend from the root within an octave. -/
structure IsMode (intervals : List Int) : Prop where
  first : intervals.head? = some 0
  ascending : intervals.Pairwise (· < ·)
  within : ∀ n ∈ intervals, 0 ≤ n ∧ n < 12
  length : intervals.length ∈ [6, 7, 8]

instance : DecidablePred IsMode := fun intervals =>
  decidable_of_iff (intervals.head? = some 0 ∧ intervals.Pairwise (· < ·) ∧
    (∀ n ∈ intervals, 0 ≤ n ∧ n < 12) ∧ intervals.length ∈ [6, 7, 8])
    ⟨fun ⟨first, ascending, within, length⟩ => ⟨first, ascending, within, length⟩,
      fun h => ⟨h.first, h.ascending, h.within, h.length⟩⟩

namespace IsMode

variable {intervals : List Int} (h : IsMode intervals) (root : PitchClass)
include h

theorem length_le : intervals.length ≤ 255 := by
  have hlength := h.length
  simp only [List.mem_cons, List.not_mem_nil, or_false] at hlength
  omega

theorem get?_first : (ToneSet.ofIntervals root intervals).get? 1 = some root := by
  have hfirst : intervals[0]? = some 0 := List.head?_eq_getElem? ▸ h.first
  rw [get?_ofIntervals_eq_some_iff h.length_le]
  exact ⟨by decide, 0, hfirst, root.transpose_zero.symm⟩

/-- **The tones of a mode ascend with the degrees.** -/
theorem intervalFrom_lt {d e : Degree} {p q : PitchClass} (hde : d < e)
    (hp : (ToneSet.ofIntervals root intervals).get? d = some p)
    (hq : (ToneSet.ofIntervals root intervals).get? e = some q) :
    p.intervalFrom root < q.intervalFrom root := by
  obtain ⟨hd, m, hm, rfl⟩ := (get?_ofIntervals_eq_some_iff h.length_le root).mp hp
  obtain ⟨-, n, hn, rfl⟩ := (get?_ofIntervals_eq_some_iff h.length_le root).mp hq
  obtain ⟨hdlt, rfl⟩ := List.getElem?_eq_some_iff.mp hm
  obtain ⟨helt, rfl⟩ := List.getElem?_eq_some_iff.mp hn
  have hlt : intervals[d.val - 1] < intervals[e.val - 1] :=
    List.pairwise_iff_getElem.mp h.ascending _ _ hdlt helt (by rw [Fin.lt_def] at hde; omega)
  obtain ⟨hdpos, hdwithin⟩ := h.within _ (List.getElem_mem hdlt)
  obtain ⟨hepos, hewithin⟩ := h.within _ (List.getElem_mem helt)
  have hp := PitchClass.intervalFrom_transpose_of_lt hdpos hdwithin root
  have hq := PitchClass.intervalFrom_transpose_of_lt hepos hewithin root
  omega

theorem nodup_values : (ToneSet.ofIntervals root intervals).values.Nodup := by
  rw [values_ofIntervals h.length_le]
  refine (List.nodup_iff_pairwise_ne.mpr (List.pairwise_map.mpr ?_))
  refine h.ascending.imp_of_mem fun {m n} hm hn hlt heq => ?_
  obtain ⟨hmpos, hmwithin⟩ := h.within m hm
  obtain ⟨hnpos, hnwithin⟩ := h.within n hn
  have hback := PitchClass.intervalFrom_transpose_of_lt hmpos hmwithin root
  rw [heq, PitchClass.intervalFrom_transpose_of_lt hnpos hnwithin root] at hback
  omega

end IsMode

namespace Catalogue

variable {modifier : String}

/-! ### The scale rules -/

theorem isMode_of_mem_scales :
    ∀ rule ∈ scales.rules, ∃ intervals ∈ rule.intervals?, IsMode intervals := by decide

/-- No two scale rules have names that differ in case only. -/
theorem nodup_names_scales :
    (scales.rules.map fun rule => rule.name.toList.map Char.toLower).Nodup := by decide

/-- **Some scale rule is the last to fire**, since the first one always fires. -/
theorem lastFiring_scales (modifier : String) : ∃ rule, scales.LastFiring modifier rule := by
  have hdefault : ∃ rule ∈ scales.rules, rule.trigger = .always := by decide
  obtain ⟨rule, hrule, htrigger⟩ := hdefault
  refine exists_lastFiring hrule (?_ : rule.fires modifier = true)
  unfold Rule.fires
  rw [htrigger]
  rfl

/-! ### Scales -/

theorem mode_ofParts {parsed : ParsedName} {rule : Rule Pattern}
    (h : scales.LastFiring parsed.modifier rule) (name : String) (spelling : Spelling) :
    (Scale.ofParts name spelling parsed).mode = rule.name := by
  unfold Scale.ofParts Scale.modeOf
  simp only [execute_applied, h.getLast?_applied, Option.getD_some]

theorem tones_ofParts {parsed : ParsedName} {rule : Rule Pattern} {intervals : List Int}
    (h : scales.LastFiring parsed.modifier rule) (hrule : rule.intervals? = some intervals)
    (name : String) (spelling : Spelling) :
    (Scale.ofParts name spelling parsed).tones = .ofIntervals parsed.root.pitchClass intervals :=
  tones_execute_of_lastFiring h hrule _

/-- The scale of a mode that is given by its own name, in any case. -/
theorem inMode_eq_some {rule : Rule Pattern} {intervals : List Int} (hmem : rule ∈ scales.rules)
    (hrule : rule.intervals? = some intervals) {mode : String}
    (hname : mode.toList.map Char.toLower = rule.name.toList.map Char.toLower) (root : PitchClass)
    (spelling : Spelling) :
    Scale.inMode root spelling mode = some
      ⟨root.name spelling ++ " " ++ rule.name, root, spelling, rule.name,
        .ofIntervals root intervals, [rule.name]⟩ := by
  unfold Scale.inMode
  rw [find?_eq_some nodup_names_scales hmem hname, Option.map_some,
    apply_of_intervals? hrule root .empty]

/-- What holds of a scale whose name has the given modifier. -/
structure ScaleShape (modifier : String) (scale : Scale) : Prop where
  mode : ∃ rule, scales.LastFiring modifier rule ∧ scale.mode = rule.name
  inMode : ∀ mode : String, mode.toList.map Char.toLower = scale.mode.toList.map Char.toLower →
    ∃ direct, Scale.inMode scale.root scale.spelling mode = some direct ∧
      direct.root = scale.root ∧ direct.spelling = scale.spelling ∧ direct.mode = scale.mode ∧
      direct.tones = scale.tones ∧ direct.noteNames = scale.noteNames
  degrees : ∃ n ∈ [6, 7, 8], scale.tones.degrees.map (·.val) = List.range' 1 n
  first : scale.tones.get? 1 = some scale.root
  ascending : ∀ d e p q, d < e → scale.tones.get? d = some p → scale.tones.get? e = some q →
    p.intervalFrom scale.root < q.intervalFrom scale.root
  distinct : scale.tones.values.Nodup

/-- **Names of scales and names of modes agree.** A scale that has a name is that of its mode, the last
rule that fires on the modifier, and its tones ascend from the root. -/
theorem scaleShape_ofName {name : String} {options : ResolveOptions} {scale : Scale}
    (h : Scale.ofName name options = .ok scale) :
    ∃ parsed, tokenize name = .ok parsed ∧ ScaleShape parsed.modifier scale := by
  obtain ⟨parsed, hparsed, rfl⟩ := Scale.ofName_eq_ok h
  -- the last rule that fires gives the mode and the tones, and is found again by its name
  obtain ⟨rule, hlast⟩ := lastFiring_scales parsed.modifier
  obtain ⟨intervals, hrule, hmode⟩ := isMode_of_mem_scales rule hlast.mem_rules
  have hname := mode_ofParts hlast name (options.spellingFor parsed.root)
  have htones := tones_ofParts hlast hrule name (options.spellingFor parsed.root)
  refine ⟨parsed, hparsed, ⟨rule, hlast, hname⟩, fun mode hcase => ?_, ?_, ?_, ?_, ?_⟩
  · rw [hname] at hcase
    refine ⟨_, inMode_eq_some hlast.mem_rules hrule hcase _ _, rfl, rfl, hname.symm, htones.symm, ?_⟩
    unfold Scale.noteNames
    rw [htones]
    rfl
  · rw [htones]
    exact ⟨_, hmode.length, degrees_ofIntervals hmode.length_le _⟩
  · rw [htones]
    exact hmode.get?_first _
  · rw [htones]
    exact fun d e p q => hmode.intervalFrom_lt _
  · rw [htones]
    exact hmode.nodup_values _

theorem scaleShape_ofName_melodic_minor :
    ∃ scale, Scale.ofName "Eb melodic MIN  desc" ⟨none, true⟩ = .ok scale ∧
      scale.mode = "Melodic Minor Descend" ∧
      ∃ direct, Scale.inMode scale.root scale.spelling "melodic minor DESCEND" = some direct ∧
        direct.tones = scale.tones ∧ direct.noteNames.get? 6 = some "B" := by
  have hscale : ∃ scale, Scale.ofName "Eb melodic MIN  desc" ⟨none, true⟩ = .ok scale ∧
      scale.mode = "Melodic Minor Descend" ∧ scale.noteNames.get? 6 = some "B" :=
    ⟨_, rfl, rfl, rfl⟩
  obtain ⟨scale, h, hmode, hnote⟩ := hscale
  obtain ⟨parsed, hparsed, hshape⟩ := scaleShape_ofName h
  obtain ⟨direct, hdirect, -, -, -, htones, hnames⟩ :=
    hshape.inMode "melodic minor DESCEND" (by rw [hmode]; decide)
  exact ⟨scale, h, hmode, direct, hdirect, htones, hnames ▸ hnote⟩

end Catalogue
end Harmony
