import Harmony.Proofs.Chain.Degreewise

/-! # The order of rules

An effect leaves every degree alone but the one that it mentions, unless it replaces the whole set. So at
a degree only the rules count that *concern* it, and only their own order: registries in which, at every
degree, the same rules concern it in the same order come to the same tones. In particular two rules that
stand side by side may change places if they concern no common degree.

* `Effect.concerns`, `Rule.concerns`: the degrees that an effect or a rule can change.
* `foldl_move_concerning`: a run at a degree is the run of the rules that concern it.
* `tones_execute_congr`: registries that agree at every degree.
* `Rule.Independent`, `execute_of_reordered`: rules that may change places. -/

namespace Harmony

/-! ### Degrees that a rule concerns -/

namespace Effect

/-- The degree that an effect mentions. A replacement mentions none. -/
def degree? : Effect → Option Degree
  | .add d _ => some d
  | .omit d => some d
  | .alter d _ => some d
  | .replace _ => none

/-- Does the effect mention the degree, or replace the whole set? -/
def concerns (d : Degree) (effect : Effect) : Bool :=
  match effect.degree? with
  | some e => d == e
  | none => true

theorem move_of_not_concerns {d : Degree} {effect : Effect} (h : effect.concerns d = false)
    (distance : Option Int) : effect.move d distance = distance := by
  rcases effect with ⟨e, semitones⟩ | e | ⟨e, semitones⟩ | intervals
  · exact if_neg (by simpa [concerns, degree?] using h)
  · exact if_neg (by simpa [concerns, degree?] using h)
  · exact if_neg (by simpa [concerns, degree?] using h)
  · cases h

end Effect

section Rules
variable {P : Type}

/-- Does the rule mention the degree, or replace the whole set? -/
def Rule.concerns (d : Degree) (rule : Rule P) : Bool := rule.effects.any (Effect.concerns d)

/-- **A rule leaves alone** what it does not concern. -/
theorem Rule.move_of_not_concerns {d : Degree} {rule : Rule P} (h : rule.concerns d = false)
    (distance : Option Int) : rule.move d distance = distance := by
  unfold Rule.concerns at h
  unfold Rule.move
  generalize rule.effects = effects at h
  induction effects with
  | nil => rfl
  | cons effect effects ih =>
    rw [List.any_cons, Bool.or_eq_false_iff] at h
    rw [List.foldl_cons, Effect.move_of_not_concerns h.1]
    exact ih h.2

/-- **A run at a degree** is the run of the rules that concern it. -/
theorem foldl_move_concerning (d : Degree) (rules : List (Rule P)) (distance : Option Int) :
    rules.foldl (Rule.move d) distance =
      (rules.filter (·.concerns d)).foldl (Rule.move d) distance := by
  induction rules generalizing distance with
  | nil => rfl
  | cons rule rules ih =>
    by_cases h : rule.concerns d = true
    · rw [List.filter_cons_of_pos h, List.foldl_cons, List.foldl_cons, ih]
    · rw [List.filter_cons_of_neg h, List.foldl_cons,
        Rule.move_of_not_concerns (Bool.not_eq_true _ ▸ h), ih]

/-! ### Registries -/

namespace Registry

/-- The rules that concern a degree, in order. -/
def concerning (registry : Registry P) (d : Degree) : List (Rule P) :=
  registry.rules.filter (·.concerns d)

theorem distance_eq_foldl_concerning [Matcher P] (registry : Registry P) (modifier : String)
    (d : Degree) :
    registry.distance modifier d =
      ((registry.concerning d).filter (·.fires modifier)).foldl (Rule.move d) none := by
  rw [distance_eq_foldl, foldl_move_concerning]
  unfold firing concerning
  rw [List.filter_filter, List.filter_filter]
  simp only [Bool.and_comm]

end Registry

/-- **Registries that agree at every degree**, in the rules that concern it and in their order, come to
the same tones. -/
theorem tones_execute_congr [Matcher P] {registry other : Registry P}
    (h : ∀ d, registry.concerning d = other.concerning d) (root : PitchClass) (modifier : String) :
    (registry.execute root modifier).tones = (other.execute root modifier).tones := by
  refine DegreeMap.eq_of_get? fun d => ?_
  rw [get?_execute, get?_execute, Registry.distance_eq_foldl_concerning,
    Registry.distance_eq_foldl_concerning, h]

/-! ### Rules that change places -/

/-- Neither rule replaces the set, and no degree is mentioned in both. -/
structure Rule.Independent (rule other : Rule P) : Prop where
  keeps : ∀ effect ∈ rule.effects ++ other.effects, effect.degree? ≠ none
  disjoint : ∀ effect ∈ rule.effects, ∀ effect' ∈ other.effects, effect.degree? ≠ effect'.degree?

section Exchange
variable {rule other : Rule P}

theorem degree?_of_concerns {d : Degree} {effect : Effect} (hkeeps : effect.degree? ≠ none)
    (h : effect.concerns d = true) : effect.degree? = some d := by
  unfold Effect.concerns at h
  split at h
  · rename_i e he
    rw [he, eq_of_beq h]
  · exact absurd ‹_› hkeeps

/-- **Independent rules concern no common degree.** -/
theorem Rule.Independent.concerns_eq_false (h : rule.Independent other) {d : Degree}
    (hrule : rule.concerns d = true) : other.concerns d = false := by
  rw [← Bool.not_eq_true]
  intro hother
  obtain ⟨effect, heffect, hd⟩ := List.any_eq_true.mp hrule
  obtain ⟨effect', heffect', hd'⟩ := List.any_eq_true.mp hother
  refine h.disjoint effect heffect effect' heffect' ?_
  rw [degree?_of_concerns (h.keeps effect (List.mem_append_left _ heffect)) hd,
    degree?_of_concerns (h.keeps effect' (List.mem_append_right _ heffect')) hd']

/-- If a filter does not keep both of two neighbours, their order does not count. -/
theorem filter_exchange {p : Rule P → Bool} (h : p rule = true → p other = false)
    (above below : List (Rule P)) : (above ++ other :: rule :: below).filter p =
      (above ++ rule :: other :: below).filter p := by
  rw [List.filter_append, List.filter_append]
  refine congrArg (above.filter p ++ ·) ?_
  cases hrule : p rule with
  | true => simp only [List.filter_cons, hrule, h hrule, if_true, Bool.false_eq_true, if_false]
  | false => simp only [List.filter_cons, hrule, Bool.false_eq_true, if_false]

theorem applied_exchange_of_not_both [Matcher P] {modifier : String}
    (h : ¬ (rule.fires modifier = true ∧ other.fires modifier = true)) (kind : RuleKind)
    (above below : List (Rule P)) :
    (Registry.mk kind (above ++ other :: rule :: below)).applied modifier =
      (Registry.mk kind (above ++ rule :: other :: below)).applied modifier := by
  have hquiet : rule.fires modifier = true → other.fires modifier = false := fun hrule => by
    rw [← Bool.not_eq_true]
    exact fun hother => h ⟨hrule, hother⟩
  unfold Registry.applied Registry.firing
  rw [filter_exchange hquiet]

theorem applied_neighbours [Matcher P] {modifier : String} (hrule : rule.fires modifier = true)
    (hother : other.fires modifier = true) (kind : RuleKind) (above below : List (Rule P)) :
    (Registry.mk kind (above ++ rule :: other :: below)).applied modifier =
      (Registry.mk kind above).applied modifier ++
        rule.name :: other.name :: (Registry.mk kind below).applied modifier := by
  unfold Registry.applied Registry.firing
  simp only [List.filter_append, List.filter_cons, hrule, hother, if_true, List.map_append,
    List.map_cons]

end Exchange

/-- **Only the order at each degree counts.** Two neighbouring rules that are independent may change
places: the tones stay, and so do the names of the rules that fire, except that the two names change
places if both rules fire. More generally registries come to the same tones if the rules that mention a
degree or replace the set come in the same order, for every degree. -/
theorem execute_of_reordered [Matcher P] :
    (∀ rule other : Rule P, rule.Independent other →
      ∀ (kind : RuleKind) (above below : List (Rule P)) (root : PitchClass) (modifier : String),
        let output := (Registry.mk kind (above ++ rule :: other :: below)).execute root modifier
        let exchanged := (Registry.mk kind (above ++ other :: rule :: below)).execute root modifier
        exchanged.tones = output.tones ∧
        if rule.fires modifier = true ∧ other.fires modifier = true then
          ∃ before behind, output.applied = before ++ rule.name :: other.name :: behind ∧
            exchanged.applied = before ++ other.name :: rule.name :: behind
        else exchanged.applied = output.applied) ∧
    ∀ registry other : Registry P, (∀ d, registry.concerning d = other.concerning d) →
      ∀ (root : PitchClass) (modifier : String),
        (registry.execute root modifier).tones = (other.execute root modifier).tones := by
  refine ⟨fun rule other h kind above below root modifier => ⟨?_, ?_⟩, fun _ _ => tones_execute_congr⟩
  · refine tones_execute_congr (fun d => ?_) root modifier
    exact filter_exchange h.concerns_eq_false above below
  · split
    · rename_i hfire
      exact ⟨_, _, applied_neighbours hfire.1 hfire.2 kind above below,
        applied_neighbours hfire.2 hfire.1 kind above below⟩
    · rename_i hfire
      exact applied_exchange_of_not_both hfire kind above below

end Rules

theorem execute_of_reordered_seventh :
    let triad : Rule Pattern := ⟨"Triad", .chord, .always, [.add 1 0, .add 3 4, .add 5 7]⟩
    let seventh : Rule Pattern := ⟨"Seventh", .chord, .pattern (.word "7"), [.add 7 11, .alter 7 (-1)]⟩
    let flatFifth : Rule Pattern := ⟨"Flat Fifth", .chord, .pattern (.word "b5"), [.alter 5 (-1)]⟩
    let registry : Registry Pattern := ⟨.chord, [triad, seventh, flatFifth]⟩
    let exchanged : Registry Pattern := ⟨.chord, [triad, flatFifth, seventh]⟩
    let moved : Registry Pattern := ⟨.chord, [seventh, triad, flatFifth]⟩
    seventh.Independent flatFifth ∧ (∀ d, registry.concerning d = moved.concerning d) ∧
    (exchanged.execute (.ofInt 9) "7b5").tones = (registry.execute (.ofInt 9) "7b5").tones ∧
    (registry.execute (.ofInt 9) "7b5").tones = (moved.execute (.ofInt 9) "7b5").tones := by
  intro triad seventh flatFifth registry exchanged moved
  have hflat : seventh.Independent flatFifth := ⟨by decide, by decide⟩
  have htriad : seventh.Independent triad := ⟨by decide, by decide⟩
  have hmoved : ∀ d, registry.concerning d = moved.concerning d := fun d =>
    filter_exchange htriad.concerns_eq_false [] [flatFifth]
  exact ⟨hflat, hmoved,
    (execute_of_reordered.1 seventh flatFifth hflat .chord [triad] [] (.ofInt 9) "7b5").1,
    execute_of_reordered.2 registry moved hmoved (.ofInt 9) "7b5"⟩

/-- Rules that mention a common degree may not change places. -/
example :
    let seventh : Rule Pattern := ⟨"Seventh", .chord, .pattern (.word "7"), [.add 7 10]⟩
    let major : Rule Pattern := ⟨"Major Seventh", .chord, .pattern (.word "maj7"), [.add 7 11]⟩
    ((Registry.mk .chord [seventh, major]).execute (.ofInt 0) "maj7").tones ≠
      ((Registry.mk .chord [major, seventh]).execute (.ofInt 0) "maj7").tones := by
  decide

end Harmony
