import Harmony.Proofs.Note
import Harmony.Proofs.Resolution.Parts
import Harmony.Proofs.Chain.Equivariance
import Harmony.Proofs.Text.Notation
import Harmony.Proofs.Text.Trim

/-! # Blanks around names, and names in canonical form

Blanks around a name change nothing but the name itself: those in front are dropped before the root is
read, those behind are trimmed off the modifier, and a blank is no letter, so it does not make the
minor marker part of a word. The *canonical form* of a name is the printed root, a space and the
trimmed modifier. The space keeps the first character of the modifier from being read as an
accidental.

* `tokenize_surrounded`: the parts of a name between blanks.
* `Chord.ofName_surrounded`, `Scale.ofName_surrounded`, `Key.ofName_surrounded`: what it resolves to.
* `tokenize_canonical`: the parts of a canonical form.
* `Canonical`, `canonical_of_name`: what holds of every name. -/

namespace Harmony

/-! ### Blanks are no letters -/

namespace Text

theorem exists_range_of_inAscendingRanges {n : Nat} {ranges : List (Nat × Nat)}
    (h : inAscendingRanges n ranges = true) : ∃ range ∈ ranges, range.1 ≤ n ∧ n ≤ range.2 := by
  induction ranges with
  | nil => cases h
  | cons first ranges ih =>
    unfold inAscendingRanges at h
    split_ifs at h with hbelow hwithin
    · exact ⟨first, List.mem_cons_self, Nat.not_lt.mp hbelow, hwithin⟩
    · obtain ⟨range, hmem, hrange⟩ := ih h
      exact ⟨range, List.mem_cons_of_mem _ hmem, hrange⟩

theorem blankRanges_disjoint : ∀ blanks ∈ blankRanges, ∀ letters ∈ alphabeticRanges,
    blanks.2 < letters.1 ∨ letters.2 < blanks.1 := by decide +kernel

theorem isAlphabetic_of_isBlank {c : Char} (h : isBlank c = true) : isAlphabetic c = false := by
  by_contra halpha
  rw [Bool.not_eq_false] at halpha
  obtain ⟨blanks, hblanks, hlow, hhigh⟩ := exists_blankRange h
  obtain ⟨letters, hletters, hfirst, hlast⟩ := exists_range_of_inAscendingRanges halpha
  rcases blankRanges_disjoint blanks hblanks letters hletters with habove | hbelow
  · omega
  · omega

end Text

/-! ### The parts of a name between blanks -/

theorem endsMinorMarker_of_isBlank {c : Char} (hc : Text.isBlank c = true) :
    endsMinorMarker c = true := by
  unfold endsMinorMarker
  rw [Text.isAlphabetic_of_isBlank hc]
  rfl

section Blanks
variable {run text : List Char} (hrun : ∀ c ∈ run, Text.isBlank c = true)
include hrun

theorem Note.read?_append_left (text : List Char) : Note.read? (run ++ text) = Note.read? text := by
  unfold Note.read?
  rw [Text.trimStart_append hrun]

theorem Note.read?_append_eq_none (h : Note.read? text = none) :
    Note.read? (text ++ run) = none := by
  unfold Note.read? Text.trimStart at h ⊢
  rw [List.dropWhile_append]
  cases htrim : text.dropWhile Text.isBlank with
  | nil =>
    have hnil : run.dropWhile Text.isBlank = [] := List.dropWhile_eq_nil_iff.mpr hrun
    rw [List.isEmpty_nil, if_pos rfl, hnil]
  | cons c cs =>
    rw [htrim] at h
    have hletter : Letter.ofChar? c = none := Option.map_eq_none_iff.mp h
    rw [if_neg (by simp)]
    simp only [List.cons_append, hletter, Option.map_none]

/-- Blanks behind a text are no part of its minor marker. -/
theorem hasMinorMarker_append (text : List Char) :
    hasMinorMarker (text ++ run) = hasMinorMarker text := by
  cases run with
  | nil => rw [List.append_nil]
  | cons b run =>
    have hb : Text.isBlank b = true := hrun b List.mem_cons_self
    match text with
    | [] =>
      have hne : b ≠ 'm' := by
        rintro rfl
        cases hb
      simp [hasMinorMarker, hne]
    | [c] =>
      by_cases hc : c = 'm'
      · subst hc
        simp [hasMinorMarker, endsMinorMarker_of_isBlank hb]
      · simp [hasMinorMarker, hc]
    | c :: d :: cs =>
      by_cases hc : c = 'm'
      · subst hc
        rfl
      · simp [hasMinorMarker, hc]

end Blanks

/-- The error with another name in it. -/
def ResolveError.naming (name : String) : ResolveError → ResolveError
  | .invalidRoot _ => .invalidRoot name
  | .unknownMode _ modifier => .unknownMode name modifier
  | .invalidPitch input fault => .invalidPitch input fault

section Surrounded
variable {name u v : String} (hu : ∀ c ∈ u.toList, Text.isBlank c = true)
  (hv : ∀ c ∈ v.toList, Text.isBlank c = true)
include hu hv

/-- **A name between blanks** has the same parts. -/
theorem tokenize_surrounded (name : String) :
    tokenize (u ++ name ++ v) = (tokenize name).mapError (·.naming (u ++ name ++ v)) := by
  have htext : (u ++ name ++ v).toList = u.toList ++ (name.toList ++ v.toList) := by
    simp only [String.toList_append, List.append_assoc]
  have hfront : Note.read? (u ++ name ++ v).toList = Note.read? (name.toList ++ v.toList) := by
    rw [htext, Note.read?_append_left hu]
  cases hread : Note.read? name.toList with
  | none =>
    have hnone := hfront.trans (Note.read?_append_eq_none hv hread)
    rw [tokenize_eq_error hread, tokenize_eq_error hnone]
    rfl
  | some found =>
    obtain ⟨root, rest⟩ := found
    have hsome : Note.read? (u ++ name ++ v).toList = some (root, rest ++ v.toList) :=
      hfront.trans (Note.read?_append hread fun c hc =>
        Accidental.ofChar?_of_isBlank (hv c (List.mem_of_mem_head? hc)))
    rw [tokenize_eq_ok hread, tokenize_eq_ok hsome, hasMinorMarker_append hv,
      Text.trim_append_right rest hv]
    rfl

theorem tokenize_surrounded_eq_ok {parsed : ParsedName} (h : tokenize name = .ok parsed) :
    tokenize (u ++ name ++ v) = .ok parsed := by
  rw [tokenize_surrounded hu hv, h]
  rfl

theorem tokenize_surrounded_eq_error {e : ResolveError} (h : tokenize name = .error e) :
    tokenize (u ++ name ++ v) = .error (e.naming (u ++ name ++ v)) := by
  rw [tokenize_surrounded hu hv, h]
  rfl

/-! ### What a name between blanks resolves to -/

/-- **The chord of a name between blanks.** -/
theorem Chord.ofName_surrounded (name : String) (options : ResolveOptions) :
    Chord.ofName (u ++ name ++ v) options =
      ((Chord.ofName name options).map fun chord => { chord with name := u ++ name ++ v }).mapError
        (·.naming (u ++ name ++ v)) := by
  cases hparsed : tokenize name with
  | error e =>
    rw [Chord.ofName_eq_error hparsed,
      Chord.ofName_eq_error (tokenize_surrounded_eq_error hu hv hparsed)]
    rfl
  | ok parsed =>
    rw [Chord.ofName_of_tokenize hparsed,
      Chord.ofName_of_tokenize (tokenize_surrounded_eq_ok hu hv hparsed)]
    rfl

/-- **The scale of a name between blanks.** -/
theorem Scale.ofName_surrounded (name : String) (options : ResolveOptions) :
    Scale.ofName (u ++ name ++ v) options =
      ((Scale.ofName name options).map fun scale => { scale with name := u ++ name ++ v }).mapError
        (·.naming (u ++ name ++ v)) := by
  cases hparsed : tokenize name with
  | error e =>
    rw [Scale.ofName_eq_error hparsed,
      Scale.ofName_eq_error (tokenize_surrounded_eq_error hu hv hparsed)]
    rfl
  | ok parsed =>
    rw [Scale.ofName_eq hparsed, Scale.ofName_eq (tokenize_surrounded_eq_ok hu hv hparsed)]
    -- the two scales of the parts differ in their names only, so they have one mode
    by_cases hunknown : options.strict = true ∧ parsed.modifier ≠ "" ∧
        (Scale.ofParts name (options.spellingFor parsed.root) parsed).mode = Catalogue.defaultMode
    · rw [if_pos hunknown]
      exact if_pos hunknown
    · rw [if_neg hunknown]
      exact if_neg hunknown

/-- **The key of a name between blanks.** -/
theorem Key.ofName_surrounded (name : String) (options : ResolveOptions) :
    Key.ofName (u ++ name ++ v) options =
      (Key.ofName name options).mapError (·.naming (u ++ name ++ v)) := by
  cases hparsed : tokenize name with
  | error e =>
    rw [Key.ofName_eq_error hparsed,
      Key.ofName_eq_error (tokenize_surrounded_eq_error hu hv hparsed)]
    rfl
  | ok parsed =>
    rw [Key.ofName_eq hparsed, Key.ofName_eq (tokenize_surrounded_eq_ok hu hv hparsed),
      Scale.ofName_surrounded hu hv]
    cases Scale.ofName name options with
    | error e => rfl
    | ok scale => rfl

end Surrounded

/-! ### Canonical forms -/

/-- The printed root of a name, a space and its modifier. -/
def canonicalName (root : PitchClass) (spelling : Spelling) (modifier : String) : String :=
  root.name spelling ++ " " ++ modifier

/-- **The parts of a canonical form** are a note that sounds as the root and the modifier. -/
theorem tokenize_canonical (root : PitchClass) (spelling : Spelling) {modifier : String}
    (htrim : Text.trim modifier.toList = modifier.toList) :
    ∃ note : Note, note.pitchClass = root ∧
      tokenize (canonicalName root spelling modifier) = .ok ⟨note, false, modifier⟩ := by
  obtain ⟨note, hread, hsounds⟩ := Note.read?_name root spelling
  have hblank : ∀ c ∈ [' '], Text.isBlank c = true := by
    intro c hc
    rw [List.mem_singleton.mp hc]
    rfl
  have htext : (canonicalName root spelling modifier).toList =
      (root.name spelling).toList ++ ([' '] ++ modifier.toList) := by
    simp [canonicalName, String.toList_append]
  -- the space behind the root is no accidental
  have hsome : Note.read? (canonicalName root spelling modifier).toList =
      some (note, [] ++ ([' '] ++ modifier.toList)) := by
    rw [htext]
    refine Note.read?_append hread fun c hc => ?_
    obtain rfl : ' ' = c := Option.some.inj hc
    rfl
  refine ⟨note, hsounds, ?_⟩
  rw [tokenize_eq_ok hsome, List.nil_append, Text.trim_append_left hblank, htrim,
    String.ofList_toList]
  rfl

theorem trim_modifier {name : String} {parsed : ParsedName} (h : tokenize name = .ok parsed) :
    Text.trim parsed.modifier.toList = parsed.modifier.toList := by
  obtain ⟨rest, -, -, hmodifier⟩ := exists_read?_of_tokenize h
  rw [hmodifier, Text.trim_trim]

/-- What holds of a name with blanks around it, and of its canonical form. -/
structure Canonical (name : String) : Prop where
  /-- Blanks around the name change the name in a chord, a scale and an error. -/
  blanks : ∀ u v : String, (∀ c ∈ u.toList, Text.isBlank c = true) →
    (∀ c ∈ v.toList, Text.isBlank c = true) → ∀ options,
      Chord.ofName (u ++ name ++ v) options =
        ((Chord.ofName name options).map fun chord =>
          { chord with name := u ++ name ++ v }).mapError (·.naming (u ++ name ++ v)) ∧
      Scale.ofName (u ++ name ++ v) options =
        ((Scale.ofName name options).map fun scale =>
          { scale with name := u ++ name ++ v }).mapError (·.naming (u ++ name ++ v)) ∧
      Key.ofName (u ++ name ++ v) options =
        (Key.ofName name options).mapError (·.naming (u ++ name ++ v))
  chord : ∀ options chord, Chord.ofName name options = .ok chord →
    ∃ parsed, tokenize name = .ok parsed ∧ parsed.root.pitchClass = chord.root ∧
      ∀ spelling, ∃ again,
        Chord.ofName (chord.rootName ++ " " ++ parsed.modifier) ⟨spelling, false⟩ = .ok again ∧
        again.root = chord.root ∧ again.tones = chord.tones ∧ again.rules = chord.rules
  scale : ∀ options scale, Scale.ofName name options = .ok scale →
    ∃ parsed, tokenize name = .ok parsed ∧ parsed.root.pitchClass = scale.root ∧
      ∀ spelling, ∃ again,
        Scale.ofName (scale.rootName ++ " " ++ parsed.modifier) ⟨spelling, false⟩ = .ok again ∧
        again.root = scale.root ∧ again.tones = scale.tones ∧ again.rules = scale.rules ∧
        again.mode = scale.mode

/-- **Names have a canonical form**: blanks around a name are of no account, and the printed root with
the trimmed modifier resolves as the name does, however the root was written or spelled. -/
theorem canonical_of_name (name : String) : Canonical name where
  blanks _ _ hu hv options :=
    ⟨Chord.ofName_surrounded hu hv name options, Scale.ofName_surrounded hu hv name options,
      Key.ofName_surrounded hu hv name options⟩
  chord options chord h := by
    cases hparsed : tokenize name with
    | error e =>
      rw [Chord.ofName_eq_error hparsed] at h
      cases h
    | ok parsed =>
      rw [Chord.ofName_of_tokenize hparsed] at h
      obtain rfl := Except.ok.inj h
      refine ⟨parsed, rfl, rfl, fun spelling => ?_⟩
      obtain ⟨note, hsounds, htokens⟩ := tokenize_canonical parsed.root.pitchClass
        (options.spellingFor parsed.root) (trim_modifier hparsed)
      have hagain := Chord.ofName_of_tokenize htokens ⟨spelling, false⟩
      rw [hsounds] at hagain
      exact ⟨_, hagain, rfl, rfl, rfl⟩
  scale options scale h := by
    obtain ⟨parsed, hparsed, rfl⟩ := Scale.ofName_eq_ok h
    refine ⟨parsed, hparsed, rfl, fun spelling => ?_⟩
    obtain ⟨note, hsounds, htokens⟩ := tokenize_canonical parsed.root.pitchClass
      (options.spellingFor parsed.root) (trim_modifier hparsed)
    have hagain := Scale.ofName_of_tokenize htokens spelling
    rw [hsounds] at hagain
    exact ⟨_, hagain, rfl, rfl, rfl, rfl⟩

end Harmony
