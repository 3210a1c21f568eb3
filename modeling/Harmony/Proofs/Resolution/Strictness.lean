import Harmony.Proofs.Catalogue.ScaleModes
import Harmony.Proofs.Chain.Equivariance
import Harmony.Proofs.Root

/-! # Strict and lenient resolution

A name is refused for its root, strict or not, or for its modifier, which only strict options do and
only in scales and keys. Whether a modifier is known is told from the mode that won: it is the default
mode exactly if no other rule fires, since the default rule is the first and bears its name alone.

* `NamesNoMode`: a modifier that is there and on which no mode but the default one fires.
* `Strictness`, `strictness_of_name`: what resolution makes of a name, strict and lenient. -/

namespace Harmony

variable {name : String}

/-! ### Roots -/

theorem exists_tokenize_eq_ok (h : HasRoot name) : ∃ parsed, tokenize name = .ok parsed := by
  obtain ⟨⟨root, rest⟩, hread⟩ := Option.isSome_iff_exists.mp (isSome_read?_iff.mpr h)
  exact ⟨_, tokenize_eq_ok hread⟩

theorem tokenize_eq_invalidRoot (h : ¬ HasRoot name) : tokenize name = .error (.invalidRoot name) := by
  rw [← isSome_read?_iff, Option.not_isSome_iff_eq_none] at h
  exact tokenize_eq_error h

/-! ### Modes -/

namespace Catalogue

variable {modifier : String}

/-- There is a modifier, and no scale rule fires on it but the default one. -/
def NamesNoMode (modifier : String) : Prop :=
  modifier ≠ "" ∧ ∀ rule ∈ scales.rules, rule.name ≠ defaultMode → rule.fires modifier = false

/-- **The default mode wins exactly if no other rule fires**: it stands first. -/
theorem name_eq_defaultMode_iff {last : Rule Pattern} (h : scales.LastFiring modifier last) :
    last.name = defaultMode ↔
      ∀ rule ∈ scales.rules, rule.name ≠ defaultMode → rule.fires modifier = false := by
  constructor
  · intro hdefault rule hrule hname
    have hfirst : ∀ rule ∈ scales.rules.tail, rule.name ≠ defaultMode := by decide
    obtain ⟨above, below, hrules, -, hbelow⟩ := h
    cases above with
    | nil =>
      rw [hrules, List.nil_append, List.mem_cons] at hrule
      rcases hrule with rfl | hrule
      · exact absurd hdefault hname
      · exact hbelow rule hrule
    -- below another rule stands no rule of the name
    | cons first above =>
      have hmem : last ∈ scales.rules.tail := by simp [hrules]
      exact absurd hdefault (hfirst last hmem)
  · intro hnone
    by_contra hname
    have hquiet := hnone last h.mem_rules hname
    rw [h.fires] at hquiet
    cases hquiet

instance : DecidablePred NamesNoMode := fun modifier => by
  unfold NamesNoMode
  infer_instance

end Catalogue

open Catalogue

theorem mode_ofParts_eq_defaultMode_iff (spelling : Spelling) (parsed : ParsedName) :
    (parsed.modifier ≠ "" ∧ (Scale.ofParts name spelling parsed).mode = defaultMode) ↔
      NamesNoMode parsed.modifier := by
  obtain ⟨last, hlast⟩ := lastFiring_scales parsed.modifier
  unfold NamesNoMode
  rw [mode_ofParts hlast, name_eq_defaultMode_iff hlast]

/-- **The scale of a name with parts** under given options. -/
theorem Scale.ofName_eq_ite {parsed : ParsedName} (h : tokenize name = .ok parsed)
    (spelling : Option Spelling) (strict : Bool) :
    Scale.ofName name ⟨spelling, strict⟩ =
      if strict = true ∧ NamesNoMode parsed.modifier then .error (.unknownMode name parsed.modifier)
      else .ok (Scale.ofParts name (spelling.getD parsed.root.spelling) parsed) := by
  rw [Scale.ofName_eq h]
  simp only [mode_ofParts_eq_defaultMode_iff]
  rfl

theorem Key.ofName_eq_ite {parsed : ParsedName} (h : tokenize name = .ok parsed)
    (spelling : Option Spelling) (strict : Bool) :
    let scale := Scale.ofParts name (spelling.getD parsed.root.spelling) parsed
    Key.ofName name ⟨spelling, strict⟩ =
      if strict = true ∧ NamesNoMode parsed.modifier then .error (.unknownMode name parsed.modifier)
      else .ok (Key.ofParts (spelling.getD parsed.root.spelling) parsed scale) := by
  rw [Key.ofName_eq h, Scale.ofName_eq_ite h]
  split_ifs <;> rfl

/-! ### Names -/

/-- What resolution makes of a name under a spelling, strict and lenient. -/
structure Strictness (name : String) (spelling : Option Spelling) : Prop where
  chord : (∃ chord, Chord.ofName name ⟨spelling, false⟩ = .ok chord) ↔ HasRoot name
  scale : (∃ scale, Scale.ofName name ⟨spelling, false⟩ = .ok scale) ↔ HasRoot name
  key : (∃ key, Key.ofName name ⟨spelling, false⟩ = .ok key) ↔ HasRoot name
  invalid_root : ¬ HasRoot name → ∀ strict,
    Chord.ofName name ⟨spelling, strict⟩ = .error (.invalidRoot name) ∧
    Scale.ofName name ⟨spelling, strict⟩ = .error (.invalidRoot name) ∧
    Key.ofName name ⟨spelling, strict⟩ = .error (.invalidRoot name)
  unknown_mode : HasRoot name → ∃ parsed, tokenize name = .ok parsed ∧
    (Scale.ofName name ⟨spelling, true⟩ = .error (.unknownMode name parsed.modifier) ↔
      NamesNoMode parsed.modifier) ∧
    (Key.ofName name ⟨spelling, true⟩ = .error (.unknownMode name parsed.modifier) ↔
      NamesNoMode parsed.modifier) ∧
    (¬ NamesNoMode parsed.modifier →
      Scale.ofName name ⟨spelling, true⟩ = Scale.ofName name ⟨spelling, false⟩ ∧
      Key.ofName name ⟨spelling, true⟩ = Key.ofName name ⟨spelling, false⟩)
  chord_strict : ∀ strict, Chord.ofName name ⟨spelling, strict⟩ = Chord.ofName name ⟨spelling, false⟩

theorem strictness_of_not_hasRoot (hroot : ¬ HasRoot name) (spelling : Option Spelling) :
    Strictness name spelling := by
  have h := tokenize_eq_invalidRoot hroot
  have hchord := fun strict => Chord.ofName_eq_error h ⟨spelling, strict⟩
  have hscale := fun strict => Scale.ofName_eq_error h ⟨spelling, strict⟩
  have hkey := fun strict => Key.ofName_eq_error h ⟨spelling, strict⟩
  exact {
    chord := by simp [hchord, hroot]
    scale := by simp [hscale, hroot]
    key := by simp [hkey, hroot]
    invalid_root := fun _ strict => ⟨hchord strict, hscale strict, hkey strict⟩
    unknown_mode := fun hno => absurd hno hroot
    chord_strict := fun strict => by rw [hchord, hchord] }

theorem strictness_of_hasRoot (hroot : HasRoot name) (spelling : Option Spelling) :
    Strictness name spelling := by
  obtain ⟨parsed, h⟩ := exists_tokenize_eq_ok hroot
  have hchord := fun strict => Chord.ofName_of_tokenize h ⟨spelling, strict⟩
  have hscale := Scale.ofName_eq_ite h spelling
  have hkey := Key.ofName_eq_ite h spelling
  exact {
    chord := iff_of_true ⟨_, hchord false⟩ hroot
    scale := by simp [hscale, hroot]
    key := by simp [hkey, hroot]
    invalid_root := fun hno => absurd hroot hno
    unknown_mode := fun _ => by
      refine ⟨parsed, h, by simp [hscale], by simp [hkey], fun hmode => ?_⟩
      simp [hscale, hkey, hmode]
    chord_strict := fun strict => by
      rw [hchord, hchord]
      rfl }

/-- **Strict and lenient resolution**: a name without a root is refused in every way, a modifier that
names no mode by strict scales and keys only, and nothing else depends on strictness. -/
theorem strictness_of_name (name : String) (spelling : Option Spelling) :
    Strictness name spelling := by
  by_cases hroot : HasRoot name
  · exact strictness_of_hasRoot hroot spelling
  · exact strictness_of_not_hasRoot hroot spelling

end Harmony
