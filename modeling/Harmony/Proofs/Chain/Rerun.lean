import Harmony.Proofs.Chain.ClosedForm

/-! # Running a chain again

An alteration moves a tone each time it is applied. A whole chain does not add up in this way: a
degree that some effect settles is settled again before it is altered again, and a degree that none
settles is empty after the first run, so there is nothing to alter in the second.

* `Registry.Settles`: some effect of the rules that fire settles the degree.
* `foldl_move_eq_of_settles`, `foldl_move_none_of_not_settles`: runs on distances in the two cases.
* `foldl_apply_eq_execute`: a chain from other tones than none, empty where nothing is settled.
* `foldl_apply_execute`: a chain from its own result. -/

namespace Harmony

variable {d : Degree} {effect : Effect} {effects : List Effect}

/-! ### Runs on distances -/

/-- A settling effect forgets what stood at the degree. -/
theorem move_eq_move_of_settles (h : effect.settles d = true) (distance other : Option Int) :
    effect.move d distance = effect.move d other := by
  rcases effect with ⟨e, semitones⟩ | e | ⟨e, semitones⟩ | intervals
  · have hd : d = e := eq_of_beq h
    simp only [Effect.move, if_pos hd]
  · have hd : d = e := eq_of_beq h
    simp only [Effect.move, if_pos hd]
  · cases h
  · rfl

/-- **A degree that is settled** has the same distance from every start. -/
theorem foldl_move_eq_of_settles (h : ∃ effect ∈ effects, effect.settles d = true)
    (distance other : Option Int) :
    effects.foldl (Effect.move d) distance = effects.foldl (Effect.move d) other := by
  induction effects generalizing distance other with
  | nil =>
    obtain ⟨effect, hmem, -⟩ := h
    cases hmem
  | cons first effects ih =>
    simp only [List.foldl_cons]
    by_cases hfirst : first.settles d = true
    · rw [move_eq_move_of_settles hfirst distance other]
    · obtain ⟨effect, hmem, hsettles⟩ := h
      rcases List.mem_cons.mp hmem with rfl | hmem
      · exact absurd hsettles hfirst
      · exact ih ⟨effect, hmem, hsettles⟩ _ _

/-- **A degree that is not settled** stays empty: an alteration has nothing to move. -/
theorem foldl_move_none_of_not_settles (h : ∀ effect ∈ effects, effect.settles d = false) :
    effects.foldl (Effect.move d) none = none := by
  induction effects with
  | nil => rfl
  | cons first effects ih =>
    obtain ⟨hfirst, hrest⟩ := List.forall_mem_cons.mp h
    have hstep : first.move d none = none := by rw [move_of_not_settles hfirst, Option.map_none]
    rw [List.foldl_cons, hstep]
    exact ih hrest

/-! ### Chains -/

section Chains
variable {P : Type} [Matcher P]

namespace Registry

variable {registry : Registry P} {modifier : String}

/-- Some effect of the rules that fire settles the degree. -/
def Settles (registry : Registry P) (modifier : String) (d : Degree) : Prop :=
  ∃ effect ∈ registry.effects modifier, effect.settles d = true

theorem foldl_move_firing (registry : Registry P) (modifier : String) (d : Degree)
    (distance : Option Int) :
    (registry.firing modifier).foldl (Rule.move d) distance =
      (registry.effects modifier).foldl (Effect.move d) distance := by
  unfold effects
  rw [List.foldl_flatMap]
  rfl

theorem distance_eq_none_of_not_settles (h : ¬ registry.Settles modifier d) :
    registry.distance modifier d = none := by
  refine foldl_move_none_of_not_settles fun effect hmem => ?_
  rw [← Bool.not_eq_true]
  exact fun hsettles => h ⟨effect, hmem, hsettles⟩

end Registry

theorem exists_distance (root : PitchClass) (tone : Option PitchClass) :
    ∃ distance : Option Int, tone = distance.map root.transpose := by
  refine ⟨tone.map fun p => (p.intervalFrom root : Int), ?_⟩
  rw [Option.map_map]
  cases tone with
  | none => rfl
  | some p => exact congrArg some (PitchClass.transpose_intervalFrom root p).symm

section Tones
variable {registry : Registry P} {modifier : String} {tones : ToneSet}

/-- **A chain from given tones** ends as the chain from none, if nothing stands at the degrees that it
does not settle. -/
theorem foldl_apply_eq_execute (h : ∀ d, ¬ registry.Settles modifier d → tones.get? d = none)
    (root : PitchClass) :
    (registry.firing modifier).foldl (fun tones rule => rule.apply root tones) tones =
      (registry.execute root modifier).tones := by
  refine DegreeMap.eq_of_get? fun d => ?_
  obtain ⟨distance, hdistance⟩ := exists_distance root (tones.get? d)
  have hrun : (registry.effects modifier).foldl (Effect.move d) distance =
      registry.distance modifier d := by
    by_cases hsettles : registry.Settles modifier d
    · exact foldl_move_eq_of_settles hsettles distance none
    · have hnone : distance = none := by
        rw [h d hsettles] at hdistance
        exact Option.map_eq_none_iff.mp hdistance.symm
      rw [hnone]
      rfl
  rw [get?_foldl_apply_rule hdistance, Registry.foldl_move_firing, hrun, get?_execute]

end Tones

/-- **Running a chain on its own result changes nothing**, whatever its rules alter. -/
theorem foldl_apply_execute (registry : Registry P) (root : PitchClass) (modifier : String) :
    (registry.rules.filter (·.fires modifier)).foldl (fun tones rule => rule.apply root tones)
        (registry.execute root modifier).tones = (registry.execute root modifier).tones := by
  refine foldl_apply_eq_execute (fun d hsettles => ?_) root
  rw [get?_execute, Registry.distance_eq_none_of_not_settles hsettles, Option.map_none]

end Chains

/-- On tones that the rules have not written themselves an alteration does add up. -/
example :
    let rule : Rule Pattern := ⟨"Raised Fourth", .scale, .always, [.alter 4 1]⟩
    let tones : ToneSet := .ofIntervals (.ofInt 0) [0, 2, 4, 5]
    rule.apply (.ofInt 0) (rule.apply (.ofInt 0) tones) ≠ rule.apply (.ofInt 0) tones := by
  decide

end Harmony
