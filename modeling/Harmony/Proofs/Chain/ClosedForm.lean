import Harmony.Proofs.Chain.Degreewise
import Mathlib.Data.List.Induction

/-! # The closed form of a chain

A degree depends on the last effect that *settles* it, whatever stood there before: an addition at
the degree, its omission, or any replacement. Behind that one only alterations count, and their
shifts add up.

* `Effect.settles`, `Effect.level`, `Effect.shift`: what an effect says about a degree.
* `lastSettling`: the last effect that settles a degree, with the effects behind it
  (`lastSettling_eq_some_iff`, `lastSettling_eq_none_iff`).
* `foldl_move`: a run on distances in terms of `lastSettling`, from any distance.
* `execute_eq_closedForm`: the result of a chain, degree by degree. -/

namespace Harmony

namespace Effect

/-- Does the effect settle the degree, whatever stood there before? -/
def settles (d : Degree) : Effect → Bool
  | .add e _ => d == e
  | .omit e => d == e
  | .alter _ _ => false
  | .replace _ => true

/-- The distance at which a settling effect leaves the degree. -/
def level (d : Degree) : Effect → Option Int
  | .add _ semitones => some semitones
  | .omit _ => none
  | .alter _ _ => none
  | .replace intervals => if d.val = 0 then none else intervals[d.val - 1]?

/-- The semitones by which an effect shifts the degree. -/
def shift (d : Degree) : Effect → Int
  | .alter e semitones => if d = e then semitones else 0
  | _ => 0

/-- A replacement gives no more intervals than there are degrees from 1 on. -/
def FitsDegrees : Effect → Prop
  | .replace intervals => intervals.length ≤ 255
  | _ => True

instance : DecidablePred FitsDegrees := fun effect => by
  unfold FitsDegrees
  split <;> infer_instance

end Effect

section Rules
variable {P : Type}

/-- All replacements of a registry fit the degrees. -/
def Registry.FitsDegrees (registry : Registry P) : Prop :=
  ∀ rule ∈ registry.rules, ∀ effect ∈ rule.effects, effect.FitsDegrees

instance (registry : Registry P) : Decidable registry.FitsDegrees := by
  unfold Registry.FitsDegrees
  infer_instance

end Rules

/-- The last effect that settles the degree, if any, and the effects behind it. -/
def lastSettling (d : Degree) : List Effect → Option (Effect × List Effect)
  | [] => none
  | effect :: effects =>
    (lastSettling d effects).or (if effect.settles d then some (effect, effects) else none)

/-- The sum of all shifts of the degree. -/
def totalShift (d : Degree) : List Effect → Int
  | [] => 0
  | effect :: effects => effect.shift d + totalShift d effects

/-! ### The last settling effect -/

theorem lastSettling_eq_none_iff {d : Degree} {effects : List Effect} :
    lastSettling d effects = none ↔ ∀ effect ∈ effects, effect.settles d = false := by
  induction effects with
  | nil => simp [lastSettling]
  | cons effect effects ih =>
    unfold lastSettling
    rw [Option.or_eq_none_iff, ih, List.forall_mem_cons, and_comm]
    cases effect.settles d <;> simp

/-- **No effect behind the last settling one settles the degree.** -/
theorem lastSettling_eq_some_iff {d : Degree} {effects behind : List Effect} {last : Effect} :
    lastSettling d effects = some (last, behind) ↔ last.settles d = true ∧
      (∀ effect ∈ behind, effect.settles d = false) ∧ ∃ before, effects = before ++ last :: behind := by
  induction effects with
  | nil => simp [lastSettling]
  | cons effect effects ih =>
    unfold lastSettling
    rw [Option.or_eq_some_iff, ih, lastSettling_eq_none_iff]
    constructor
    · rintro (⟨hlast, hbehind, before, rfl⟩ | ⟨hnone, h⟩)
      · exact ⟨hlast, hbehind, effect :: before, rfl⟩
      · split_ifs at h with hs
        obtain ⟨rfl, rfl⟩ := Prod.mk.inj (Option.some.inj h)
        exact ⟨hs, hnone, [], rfl⟩
    · rintro ⟨hlast, hbehind, before, h⟩
      cases before with
      | nil =>
        obtain ⟨rfl, rfl⟩ := List.cons.inj h
        exact Or.inr ⟨hbehind, if_pos hlast⟩
      | cons first before =>
        obtain ⟨rfl, rfl⟩ := List.cons.inj h
        exact Or.inl ⟨hlast, hbehind, before, rfl⟩

/-! ### A run on distances -/

/-- A replacement that fits the degrees puts its interval `d - 1` at the degree `d`. -/
theorem intervalAt_of_fits {intervals : List Int} (h : intervals.length ≤ 255) (d : Degree) :
    Effect.intervalAt intervals d = if d.val = 0 then none else intervals[d.val - 1]? := by
  unfold Effect.intervalAt
  -- from the end, where the interval of the last degree is appended and looked up first
  induction intervals using List.reverseRecOn with
  | nil => simp
  | append_singleton intervals semitones ih =>
    rw [List.length_append, List.length_singleton] at h
    have hval := Degree.val_ofIndex (show intervals.length < 255 by omega)
    rw [List.zipIdx_append, List.map_append, List.reverse_append]
    simp only [List.zipIdx_singleton, List.map_cons, List.map_nil, List.reverse_singleton,
      List.singleton_append, List.lookup_cons, Nat.zero_add]
    generalize Degree.ofIndex intervals.length = last at hval ⊢
    by_cases hd : d = last
    · subst hd
      simp [hval]
    · have hne : d.val ≠ intervals.length + 1 := fun he => hd (Fin.ext (he.trans hval.symm))
      have hb : (d == last) = false := by simpa using hd
      rw [hb, ih (by omega)]
      split_ifs with h0
      · rfl
      · rw [List.getElem?_append]
        split_ifs with hlt
        · rfl
        · have hout : intervals.length + 1 ≤ d.val - 1 := by omega
          rw [List.getElem?_eq_none (by omega), List.getElem?_eq_none (by simp; omega)]

theorem move_of_settles {d : Degree} {effect : Effect} (hfits : effect.FitsDegrees)
    (h : effect.settles d = true) (distance : Option Int) :
    effect.move d distance = effect.level d := by
  rcases effect with ⟨e, semitones⟩ | e | ⟨e, semitones⟩ | intervals
  · exact if_pos (eq_of_beq h)
  · exact if_pos (eq_of_beq h)
  · cases h
  · exact intervalAt_of_fits hfits d

theorem move_of_not_settles {d : Degree} {effect : Effect} (h : effect.settles d = false)
    (distance : Option Int) : effect.move d distance = distance.map (· + effect.shift d) := by
  rcases effect with ⟨e, semitones⟩ | e | ⟨e, semitones⟩ | intervals
  · have hd : d ≠ e := by simpa [Effect.settles] using h
    simp [Effect.move, Effect.shift, hd]
  · have hd : d ≠ e := by simpa [Effect.settles] using h
    simp [Effect.move, Effect.shift, hd]
  · by_cases hd : d = e <;> simp [Effect.move, Effect.shift, hd]
  · cases h

/-- **A run on distances**, from any distance: if no effect settles the degree, all shifts add up;
otherwise the start is forgotten, and the shifts behind the last settling effect add up. -/
theorem foldl_move (d : Degree) {effects : List Effect} (hfits : ∀ effect ∈ effects, effect.FitsDegrees)
    (distance : Option Int) :
    effects.foldl (Effect.move d) distance =
      match lastSettling d effects with
      | some (last, behind) => (last.level d).map (· + totalShift d behind)
      | none => distance.map (· + totalShift d effects) := by
  induction effects generalizing distance with
  | nil => simp [lastSettling, totalShift]
  | cons effect effects ih =>
    obtain ⟨hfirst, hrest⟩ := List.forall_mem_cons.mp hfits
    rw [List.foldl_cons, ih hrest]
    cases hlast : lastSettling d effects with
    | some found => simp [lastSettling, hlast]
    | none =>
      -- nothing behind the first effect settles the degree, so the first one decides
      cases hs : effect.settles d with
      | true => simp [lastSettling, hlast, hs, move_of_settles hfirst hs]
      | false =>
        simp [lastSettling, hlast, hs, move_of_not_settles hs, totalShift, Function.comp_def,
          Int.add_assoc]

/-! ### The chain -/

section Chain
variable {P : Type} [Matcher P] {registry : Registry P}

theorem Registry.FitsDegrees.effects (h : registry.FitsDegrees)
    (modifier : String) : ∀ effect ∈ registry.effects modifier, effect.FitsDegrees := by
  intro effect he
  obtain ⟨rule, hrule, he⟩ := List.mem_flatMap.mp he
  exact h rule (List.mem_filter.mp hrule).1 effect he

theorem distance_eq (h : registry.FitsDegrees) (modifier : String) (d : Degree) :
    registry.distance modifier d = (lastSettling d (registry.effects modifier)).bind
      fun (last, behind) => (last.level d).map (· + totalShift d behind) := by
  unfold Registry.distance
  rw [foldl_move d (h.effects modifier)]
  cases lastSettling d (registry.effects modifier) <;> rfl

/-- **The closed form of a chain.** The rules that fire are those of the registry that fire, in its
order. A degree holds nothing unless some effect of theirs settles it; the last one that does gives
the distance from the root, and the alterations of the degree behind it move what stands there. -/
theorem execute_eq_closedForm (h : registry.FitsDegrees) (root : PitchClass) (modifier : String) :
    (registry.execute root modifier).applied =
      (registry.rules.filter (·.fires modifier)).map (·.name) ∧
    ∀ d, (registry.execute root modifier).tones.get? d =
      (lastSettling d ((registry.rules.filter (·.fires modifier)).flatMap (·.effects))).bind
        fun (last, behind) =>
          (last.level d).map fun semitones =>
            (root.transpose semitones).transpose (totalShift d behind) := by
  refine ⟨rfl, fun d => ?_⟩
  have hd := distance_eq h modifier d
  rw [get?_execute, hd]
  show _ = (lastSettling d (registry.effects modifier)).bind _
  cases lastSettling d (registry.effects modifier) with
  | none => rfl
  | some found => simp [Function.comp_def]

end Chain

theorem execute_eq_closedForm_raised_fourth :
    let registry : Registry Pattern := ⟨.scale, [
      ⟨"Ionian", .scale, .always, [.replace [0, 2, 4, 5, 7, 9, 11]]⟩,
      ⟨"Raised", .scale, .pattern (.word "#"), [.alter 4 1, .omit 2]⟩,
      ⟨"Flat", .scale, .pattern (.word "b"), [.add 4 4]⟩,
      ⟨"Raised Again", .scale, .pattern (.word "4"), [.alter 4 1, .alter 5 1]⟩]⟩
    registry.FitsDegrees ∧ (registry.execute (.ofInt 9) "#4").applied =
      ["Ionian", "Raised", "Raised Again"] ∧
    (registry.execute (.ofInt 9) "#4").tones.get? 4 = some (.ofInt 4) := by
  refine ⟨by decide, ?_, ?_⟩
  · exact (execute_eq_closedForm (by decide) _ _).1.trans (by decide)
  · exact ((execute_eq_closedForm (by decide) _ _).2 4).trans (by decide)

end Harmony
