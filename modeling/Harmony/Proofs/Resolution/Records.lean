import Harmony.Proofs.Resolution.Strictness

/-! # Records of a resolution

The records of a resolution tell its whole course. A chain leaves one for every rule that fires, made
after the rule has changed the tones, so its count is that of the tones reached by then. The resolver
adds one of its own, once nothing can fail any more. A key is resolved through the scale of its name, so
the records of the scale come first.

* `getElem?_stepsFrom`: the steps of a chain, told from the rules that fire.
* `Registry.Traces`, `traces_run`: the records of a chain.
* `Recorded`, `recorded_of_name`: what the resolution of a name records. -/

namespace Harmony

/-! ### Chains -/

section Chains
variable {P : Type} [Matcher P]

/-- **A step of a chain** is a rule that fires, with the tones that the rules up to it leave. -/
theorem getElem?_stepsFrom (root : PitchClass) (modifier : String) (tones : ToneSet)
    (rules : List (Rule P)) (i : Nat) :
    (stepsFrom root modifier tones rules)[i]? =
      (rules.filter (·.fires modifier))[i]?.map fun rule =>
        ⟨rule, ((rules.filter (·.fires modifier)).take (i + 1)).foldl
          (fun tones rule => rule.apply root tones) tones⟩ := by
  induction rules generalizing tones i with
  | nil => rfl
  | cons rule rules ih =>
    unfold stepsFrom
    split <;> rename_i h
    · rw [List.filter_cons_of_pos (by simpa using h)]
      cases i with
      | zero => rfl
      | succ i =>
        -- the rule has acted on the tones from which the others go on
        simp only [List.getElem?_cons_succ, List.take_succ_cons, List.foldl_cons]
        exact ih (rule.apply root tones) i
    · rw [List.filter_cons_of_neg (by simpa using h)]
      exact ih tones i

namespace Registry

/-- The tones that the first rules leave of those that fire. -/
def tonesAfter (registry : Registry P) (root : PitchClass) (modifier : String) (count : Nat) :
    ToneSet :=
  ((registry.firing modifier).take count).foldl (fun tones rule => rule.apply root tones) .empty

/-- The records tell the course of a chain from no tones to the given ones: one for each of the given
rules, in order, with the modifier and the number of tones after the rule. -/
structure Traces (registry : Registry P) (root : PitchClass) (modifier : String) (rules : List String)
    (tones : ToneSet) (records : List LogRecord) : Prop where
  fired : rules = (registry.firing modifier).map (·.name)
  reached : registry.tonesAfter root modifier rules.length = tones
  length : records.length = rules.length
  record : ∀ (i : Nat) (rule : String), rules[i]? = some rule → records[i]? = some ⟨.trace, .chain,
    "rule '" ++ rule ++ "' matched '" ++ modifier ++ "': " ++
      (registry.tonesAfter root modifier (i + 1)).size.repr ++ " tone(s)"⟩

variable (registry : Registry P) (root : PitchClass) (modifier : String)

theorem length_steps :
    (registry.steps root modifier).length = (registry.execute root modifier).applied.length := by
  rw [applied_execute, List.length_map]

theorem tonesAfter_length : registry.tonesAfter root modifier
    (registry.execute root modifier).applied.length = (registry.execute root modifier).tones := by
  unfold tonesAfter execute
  rw [List.length_map, List.take_length]

/-- The record of a step names its rule and counts the tones that the rules up to it leave. -/
theorem getElem?_log_run (i : Nat) :
    (registry.run root modifier).log[i]? = (registry.execute root modifier).applied[i]?.map fun rule =>
      ⟨.trace, .chain, "rule '" ++ rule ++ "' matched '" ++ modifier ++ "': " ++
        (registry.tonesAfter root modifier (i + 1)).size.repr ++ " tone(s)"⟩ := by
  unfold run execute steps
  rw [List.getElem?_map, List.getElem?_map, getElem?_stepsFrom, Option.map_map, Option.map_map]
  rfl

/-- **The records of a chain** tell its course. -/
theorem traces_run : registry.Traces root modifier (registry.execute root modifier).applied
    (registry.execute root modifier).tones (registry.run root modifier).log where
  fired := rfl
  reached := registry.tonesAfter_length root modifier
  length := by
    unfold run
    rw [List.length_map, length_steps]
  record i rule h := by rw [getElem?_log_run, h, Option.map_some]

end Registry

end Chains

/-! ### Names -/

section Names
variable {name : String} {parsed : ParsedName} {e : ResolveError}

theorem Chord.log_eq_nil (h : tokenize name = .error e) (options : ResolveOptions) :
    (Chord.resolve name options).log = [] := by
  unfold Chord.resolve
  rw [h]
  rfl

theorem Scale.log_eq_nil (h : tokenize name = .error e) (options : ResolveOptions) :
    (Scale.resolve name options).log = [] := by
  unfold Scale.resolve
  rw [h]
  rfl

theorem Chord.log_resolve (h : tokenize name = .ok parsed) (options : ResolveOptions) :
    (Chord.resolve name options).log =
      (Catalogue.chords.run parsed.root.pitchClass parsed.modifier).log ++
        [Chord.record name parsed
          (Catalogue.chords.execute parsed.root.pitchClass parsed.modifier)] := by
  unfold Chord.resolve
  rw [h]
  rfl

/-- **The records of a scale** are those of its chain and, unless its mode is refused, one more. -/
theorem Scale.log_resolve (h : tokenize name = .ok parsed) (options : ResolveOptions) :
    (Scale.resolve name options).log =
      (Catalogue.scales.run parsed.root.pitchClass parsed.modifier).log ++
        match Scale.ofName name options with
        | .ok _ => [Scale.record name parsed
            (Catalogue.scales.execute parsed.root.pitchClass parsed.modifier)]
        | .error _ => [] := by
  unfold Scale.ofName Scale.resolve
  rw [h]
  simp only [Traced.andThen]
  split
  · rfl
  · rfl

/-- **The records of a key** are those of its scale and, if there is a key, one more. -/
theorem Key.log_resolve (name : String) (options : ResolveOptions) :
    (Key.resolve name options).log = (Scale.resolve name options).log ++
      match Key.ofName name options with
      | .ok key => [Key.record name key.tonality]
      | .error _ => [] := by
  unfold Key.ofName Key.resolve
  cases h : tokenize name with
  | error e =>
    rw [Scale.log_eq_nil h]
    rfl
  | ok parsed =>
    simp only [Traced.andThen]
    cases (Scale.resolve name options).value with
    | error e => rfl
    | ok scale => rfl

theorem Key.log_eq_nil (h : tokenize name = .error e) (options : ResolveOptions) :
    (Key.resolve name options).log = [] := by
  rw [Key.log_resolve, Key.ofName_eq_error h, Scale.log_eq_nil h, List.append_nil]

end Names

/-- What the resolution of a name records. -/
structure Recorded (name : String) (options : ResolveOptions) : Prop where
  nothing : ¬ HasRoot name → (Chord.resolve name options).log = [] ∧
    (Scale.resolve name options).log = [] ∧ (Key.resolve name options).log = []
  chord : HasRoot name → ∃ parsed chord steps, tokenize name = .ok parsed ∧
    Chord.ofName name options = .ok chord ∧
    Catalogue.chords.Traces parsed.root.pitchClass parsed.modifier chord.rules chord.tones steps ∧
    (Chord.resolve name options).log = steps ++ [⟨.debug, .chord,
      "chord '" ++ name ++ "': root " ++ parsed.root.display ++ ", minor marker " ++
        (if parsed.minor then "true" else "false") ++ ", " ++ chord.rules.length.repr ++
        " rule(s), " ++ chord.tones.size.repr ++ " tone(s)"⟩]
  /-- The last record is missing if the mode is unknown, and only then. -/
  scale : HasRoot name → ∃ parsed rules tones steps, tokenize name = .ok parsed ∧
    Catalogue.scales.Traces parsed.root.pitchClass parsed.modifier rules tones steps ∧
    ((∃ scale, Scale.ofName name options = .ok scale ∧ scale.rules = rules ∧ scale.tones = tones ∧
        (Scale.resolve name options).log = steps ++ [⟨.debug, .scale,
          "scale '" ++ name ++ "': root " ++ parsed.root.display ++ ", mode '" ++ scale.mode ++ "', " ++
            scale.tones.size.repr ++ " tone(s)"⟩]) ∨
      Scale.ofName name options = .error (.unknownMode name parsed.modifier) ∧
        (Scale.resolve name options).log = steps)
  /-- The records of the scale, and one more if there is a key. -/
  key : (∃ key, Key.ofName name options = .ok key ∧
      (Key.resolve name options).log = (Scale.resolve name options).log ++ [⟨.debug, .key,
        "key '" ++ name ++ "': " ++ key.tonality.rootName ++ " " ++ key.tonality.mode.name ++
          ", relative " ++ key.tonality.relative.rootName ++ " " ++
          key.tonality.relative.mode.name⟩]) ∨
    (∃ e, Key.ofName name options = .error e) ∧
      (Key.resolve name options).log = (Scale.resolve name options).log

/-- **The records of a resolution** are a faithful account of it: what a chain did, step by step, and
behind it a record of the result, if there is one. -/
theorem recorded_of_name (name : String) (options : ResolveOptions) : Recorded name options where
  nothing hroot := by
    have h := tokenize_eq_invalidRoot hroot
    exact ⟨Chord.log_eq_nil h options, Scale.log_eq_nil h options, Key.log_eq_nil h options⟩
  chord hroot := by
    obtain ⟨parsed, h⟩ := exists_tokenize_eq_ok hroot
    exact ⟨parsed, _, _, h, Chord.ofName_of_tokenize h options, Registry.traces_run _ _ _,
      Chord.log_resolve h options⟩
  scale hroot := by
    obtain ⟨parsed, h⟩ := exists_tokenize_eq_ok hroot
    refine ⟨parsed, _, _, _, h, Registry.traces_run _ _ _, ?_⟩
    have hlog := Scale.log_resolve h options
    have hname := Scale.ofName_eq h options
    dsimp only at hname
    split at hname
    · rw [hname] at hlog
      exact .inr ⟨hname, hlog.trans (List.append_nil _)⟩
    · rw [hname] at hlog
      exact .inl ⟨_, hname, rfl, rfl, hlog⟩
  key := by
    have hlog := Key.log_resolve name options
    cases h : Key.ofName name options with
    | ok key =>
      rw [h] at hlog
      exact .inl ⟨key, rfl, hlog⟩
    | error e =>
      rw [h] at hlog
      exact .inr ⟨⟨e, rfl⟩, hlog.trans (List.append_nil _)⟩

/-- A mode that is refused leaves the records of the chain only. -/
example : (Key.resolve "C blorp" ⟨none, true⟩).log.map LogRecord.line =
    ["[TRACE chain] rule 'Default (Major)' matched 'blorp': 7 tone(s)"] := by
  decide

end Harmony
