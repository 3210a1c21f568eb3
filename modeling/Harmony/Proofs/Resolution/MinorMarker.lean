import Harmony.Proofs.Pattern.Anchored
import Harmony.Proofs.Resolution.Canonical
import Harmony.Proofs.Resolution.RelativeKey
import Harmony.Proofs.Resolution.Strictness

/-! # The minor marker and the rules of minor

Whether the `m` behind a root stands for minor is told in three places: by `tokenize`, by the chord
rule `Minor Triad` and by the scale rule `Minor`. All of them look at the character behind it, and each
has its own idea of what may stand there. The marker of `tokenize` refuses the letters of all alphabets
but `M` and `Δ`, `Minor Triad` the Latin letters but `M`, and `Minor` all Latin letters.

* `endsMinorMarker_iff`: what may follow the marker, by Latin and foreign letters.
* `followed_minorSigns`: an `m` that begins no longer word of minor is read by itself.
* `marker_agrees_iff`: the marker and `Minor Triad` agree unless a foreign letter follows.
* `readAsMinor_of_marker`: a name with the marker has a minor key, and its scale shows `Minor` unless `M`
  follows. -/

namespace Harmony

/-! ### What may follow the marker -/

/-- An alphabetic character that is no Latin letter. `Δ` is not counted, since it stands for a major
seventh. -/
def IsForeignLetter (c : Char) : Prop :=
  Text.isAlphabetic c = true ∧ Text.isLatin c = false ∧ c ≠ 'Δ'

instance : DecidablePred IsForeignLetter := fun c => by
  unfold IsForeignLetter
  infer_instance

/-- **What may follow the minor marker**: no foreign letter, and no Latin one but `M`. -/
theorem endsMinorMarker_iff {c : Char} : endsMinorMarker c = true ↔
    (Text.isLatin c = false ∨ c = 'M') ∧ ¬ IsForeignLetter c := by
  have hmajor : Text.isLatin 'M' = true := by decide
  have hdelta : Text.isLatin 'Δ' = false := by decide
  unfold endsMinorMarker IsForeignLetter
  rw [Bool.or_eq_true, Bool.or_eq_true, Bool.not_eq_true', beq_iff_eq, beq_iff_eq]
  constructor
  · rintro ((halpha | rfl) | rfl)
    · have hlatin : Text.isLatin c = false := by
        rw [← Bool.not_eq_true]
        intro hlatin
        rw [Text.isAlphabetic_of_isLatin hlatin] at halpha
        cases halpha
      simp [hlatin, halpha]
    · simp [hmajor]
    · simp [hdelta]
  · rintro ⟨hletter, hforeign⟩
    by_cases halpha : Text.isAlphabetic c = true
    · rcases hletter with hlatin | rfl
      · by_cases hc : c = 'Δ'
        · exact Or.inr hc
        · exact absurd ⟨halpha, hlatin, hc⟩ hforeign
      · exact Or.inl (Or.inr rfl)
    · exact Or.inl (Or.inl (Bool.eq_false_iff.mpr halpha))

theorem hasMinorMarker_cons {tail : List Char} : hasMinorMarker ('m' :: tail) = true ↔
    ∀ c ∈ tail.head?, endsMinorMarker c = true := by
  cases tail with
  | nil => simp [hasMinorMarker]
  | cons c tail => simp [hasMinorMarker]

theorem exists_cons_of_hasMinorMarker {text : List Char} (h : hasMinorMarker text = true) :
    ∃ tail, text = 'm' :: tail := by
  unfold hasMinorMarker at h
  split at h
  · exact ⟨[], rfl⟩
  · exact ⟨_, rfl⟩
  · cases h

/-- The marker is not changed by blanks behind it. -/
theorem hasMinorMarker_cons_trimEnd (tail : List Char) :
    hasMinorMarker ('m' :: Text.trimEnd tail) = hasMinorMarker ('m' :: tail) := by
  have hblanks : ∀ c ∈ tail.rtakeWhile Text.isBlank, Text.isBlank c = true :=
    fun c hc => List.mem_rtakeWhile_imp hc
  have hsplit : Text.trimEnd tail ++ tail.rtakeWhile Text.isBlank = tail :=
    List.rdropWhile_append_rtakeWhile
  have happend := hasMinorMarker_append hblanks ('m' :: Text.trimEnd tail)
  rw [List.cons_append, hsplit] at happend
  exact happend.symm

/-- **A name with an `m` behind its root**: marker and modifier are told from one trimmed text. -/
theorem parts_of_m {name : String} {root : Note} {tail : List Char} {parsed : ParsedName}
    (hread : Note.read? name.toList = some (root, 'm' :: tail)) (hparsed : tokenize name = .ok parsed) :
    parsed.modifier.toList = 'm' :: Text.trimEnd tail ∧
      parsed.minor = hasMinorMarker ('m' :: Text.trimEnd tail) := by
  obtain ⟨rest, hrest, hminor, hmodifier⟩ := exists_read?_of_tokenize hparsed
  obtain ⟨-, rfl⟩ := Prod.mk.inj (Option.some.inj (hread.symm.trans hrest))
  rw [Text.trim_cons (by decide)] at hmodifier
  exact ⟨hmodifier, hminor.trans (hasMinorMarker_cons_trimEnd tail).symm⟩

/-- What has the marker begins with `m`, and nothing that continues a word follows. -/
theorem exists_tail_of_marker {name : String} {parsed : ParsedName}
    (hparsed : tokenize name = .ok parsed) (hminor : parsed.minor = true) :
    ∃ tail, parsed.modifier.toList = 'm' :: tail ∧ ∀ c ∈ tail.head?, endsMinorMarker c = true := by
  obtain ⟨rest, hrest, hmarker, -⟩ := exists_read?_of_tokenize hparsed
  obtain ⟨tail, rfl⟩ := exists_cons_of_hasMinorMarker (hmarker.symm.trans hminor)
  obtain ⟨hmodifier, hmarker⟩ := parts_of_m hrest hparsed
  exact ⟨_, hmodifier, hasMinorMarker_cons.mp (hmarker.symm.trans hminor)⟩

/-! ### The rules of minor -/

namespace Catalogue

open Pattern

variable {modifier : String} {tail : List Char} {K : Cursor → Prop} {atStart : Bool}

/-- **An `m` that begins no longer word of minor** is read by itself. -/
theorem followed_minorSigns (hmin : ¬ Text.BeginsWith "min" ('m' :: tail)) :
    minorSigns.Followed .folded K ⟨atStart, 'm' :: tail⟩ ↔ K ⟨false, tail⟩ := by
  have hlonger : "min".toList.map Text.foldCase <+: "minor".toList.map Text.foldCase := by
    decide
  simp only [minorSigns, minorWords, oneOf, altOf, followed_group, followed_alt]
  constructor
  · rintro (h | h | h)
    · exact (followed_exactly_cons.mp h).2
    · exact absurd (beginsWith_of_followed_word h) hmin
    · exact absurd (hlonger.trans (beginsWith_of_followed_word h)) hmin
  · exact fun h => Or.inl (followed_exactly_cons.mpr ⟨rfl, h⟩)

theorem followed_wordEnd : wordEnd.Followed .folded (fun _ => True) ⟨atStart, tail⟩ ↔
    ∀ c ∈ tail.head?, Text.isLatin c = false := by
  simp only [wordEnd, oneOf, altOf, followed_group, followed_alt, followed_stop]
  cases tail with
  | nil => simp
  | cons c tail => simp [GroupKind.casing, followed_nonLetter_cons]

/-- What stands behind the minor word of a triad. -/
def minorTriadEnd : Pattern := oneOf [nonLetter, exactly 'M', word "maj", .stop]

theorem followed_minorTriadEnd (hmaj : ¬ Text.BeginsWith "maj" tail) :
    minorTriadEnd.Followed .folded (fun _ => True) ⟨atStart, tail⟩ ↔
      ∀ c ∈ tail.head?, Text.isLatin c = false ∨ c = 'M' := by
  have hword : ¬ (word "maj").Followed .folded (fun _ => True) ⟨atStart, tail⟩ :=
    fun h => hmaj (beginsWith_of_followed_word h)
  simp only [minorTriadEnd, oneOf, altOf, followed_group, followed_alt, followed_stop,
    GroupKind.casing, hword, false_or]
  cases tail with
  | nil => simp
  | cons c tail => simp [followed_nonLetter_cons, followed_exactly_cons]

/-- **When `Minor Triad` fires** on an `m`: no Latin letter but `M` follows. -/
theorem minor_triad_applied_iff (hmodifier : modifier.toList = 'm' :: tail)
    (hmin : ¬ Text.BeginsWith "min" modifier.toList)
    (hmmaj : ¬ Text.BeginsWith "mmaj" modifier.toList) :
    "Minor Triad" ∈ chords.applied modifier ↔
      ∀ c ∈ tail.head?, Text.isLatin c = false ∨ c = 'M' := by
  have htrigger : chords.HasTrigger "Minor Triad"
      (.pattern (seqOf [.start, minorSigns, minorTriadEnd])) := by decide
  have hmaj : ¬ Text.BeginsWith "maj" tail := by
    intro hmaj
    refine hmmaj ?_
    rw [hmodifier]
    exact List.cons_prefix_cons.mpr ⟨rfl, hmaj⟩
  have hne : modifier ≠ "" := by
    rintro rfl
    cases hmodifier
  rw [hmodifier] at hmin
  rw [mem_applied_iff_fires htrigger, fires_pattern_iff, hmodifier]
  simp only [seqOf, occursIn_start_seq_iff, followed_seq, followed_minorSigns hmin,
    followed_minorTriadEnd hmaj]
  exact and_iff_right hne

/-- **When the scale rule `Minor` fires** on an `m`: no Latin letter follows, or a minor word stands
further behind. -/
theorem minor_applied_iff (hmodifier : modifier.toList = 'm' :: tail)
    (hmin : ¬ Text.BeginsWith "min" modifier.toList) :
    "Minor" ∈ scales.applied modifier ↔ (∀ c ∈ tail.head?, Text.isLatin c = false) ∨
      (seqOf (nonLetter :: minorEnd)).occursIn modifier.toList = true := by
  have htrigger : scales.HasTrigger "Minor" (.pattern (seqOf (wordStart :: minorEnd))) := by decide
  have hne : modifier ≠ "" := by
    rintro rfl
    cases hmodifier
  have hstart : (seqOf (.start :: minorEnd)).occursIn modifier.toList = true ↔
      ∀ c ∈ tail.head?, Text.isLatin c = false := by
    rw [hmodifier] at hmin ⊢
    simp only [minorEnd, seqOf, occursIn_start_seq_iff, followed_seq, followed_minorSigns hmin,
      followed_wordEnd]
  rw [mem_applied_iff_fires htrigger, fires_pattern_iff, ← hstart]
  exact (and_iff_right hne).trans occursIn_oneOf_seq_iff

end Catalogue

open Catalogue Pattern

/-! ### The marker and the chord rule -/

/-- **The marker and `Minor Triad`**: what has the marker fires the rule, and the two agree exactly if
no foreign letter follows the `m`. -/
theorem marker_agrees_iff {name rest : String} {root : Note} {parsed : ParsedName}
    (hroot : parseRoot name = .ok (root, rest)) (hrest : rest.toList.head? = some 'm')
    (hparsed : tokenize name = .ok parsed) (hmin : ¬ Text.BeginsWith "min" parsed.modifier.toList)
    (hmmaj : ¬ Text.BeginsWith "mmaj" parsed.modifier.toList) :
    let output := chords.execute parsed.root.pitchClass parsed.modifier
    (parsed.minor = true → "Minor Triad" ∈ output.applied) ∧
      ((parsed.minor = true ↔ "Minor Triad" ∈ output.applied) ↔
        ∀ c ∈ parsed.modifier.toList[1]?, ¬ IsForeignLetter c) := by
  obtain ⟨tail, htail⟩ := List.head?_eq_some_iff.mp hrest
  have hread : Note.read? name.toList = some (root, 'm' :: tail) := by
    rw [Note.read?_of_parseRoot hroot, htail]
  obtain ⟨hmodifier, hminor⟩ := parts_of_m hread hparsed
  have hbehind : parsed.modifier.toList[1]? = (Text.trimEnd tail).head? := by
    rw [hmodifier, List.getElem?_cons_succ, List.head?_eq_getElem?]
  have hmarker : parsed.minor = true ↔ ∀ c ∈ (Text.trimEnd tail).head?,
      (Text.isLatin c = false ∨ c = 'M') ∧ ¬ IsForeignLetter c := by
    rw [hminor, hasMinorMarker_cons]
    simp only [endsMinorMarker_iff]
  have hfires := minor_triad_applied_iff hmodifier hmin hmmaj
  simp only [execute_applied, hmarker, hfires, hbehind]
  refine ⟨fun h c hc => (h c hc).1, ?_, ?_⟩
  · -- a foreign letter fires the rule, since it is no Latin one
    intro hagree c hc hforeign
    have hfired : ∀ d ∈ (Text.trimEnd tail).head?, Text.isLatin d = false ∨ d = 'M' := by
      intro d hd
      obtain rfl : c = d := Option.some.inj (hc.symm.trans hd)
      exact Or.inl hforeign.2.1
    exact (hagree.mpr hfired c hc).2 hforeign
  · exact fun hnone => ⟨fun h c hc => (h c hc).1, fun h c hc => ⟨h c hc, hnone c hc⟩⟩

theorem marker_agrees_iff_major_seventh :
    ∃ parsed, tokenize "F#mM7 " = .ok parsed ∧ parsed.minor = true ∧
      "Minor Triad" ∈ (chords.execute parsed.root.pitchClass parsed.modifier).applied := by
  have hroot : parseRoot "F#mM7 " = .ok (⟨.F, .sharp⟩, "mM7 ") := by decide
  have hparsed : tokenize "F#mM7 " = .ok ⟨⟨.F, .sharp⟩, true, "mM7"⟩ := by decide
  have hmin : ¬ Text.BeginsWith "min" "mM7".toList := by decide
  have hmmaj : ¬ Text.BeginsWith "mmaj" "mM7".toList := by decide
  exact ⟨_, hparsed, rfl, (marker_agrees_iff hroot (by decide) hparsed hmin hmmaj).1 rfl⟩

/-- An accented letter continues a word for `tokenize` and ends it for `Minor Triad`. -/
theorem marker_disagrees :
    ¬ ∀ (name rest : String) (root : Note) (parsed : ParsedName),
      parseRoot name = .ok (root, rest) → rest.toList.head? = some 'm' →
      tokenize name = .ok parsed → ¬ Text.BeginsWith "min" parsed.modifier.toList →
      ¬ Text.BeginsWith "mmaj" parsed.modifier.toList →
        (parsed.minor = true ↔
          "Minor Triad" ∈ (chords.execute parsed.root.pitchClass parsed.modifier).applied) := by
  intro hagree
  have hroot : parseRoot "Cmé" = .ok (⟨.C, .natural⟩, "mé") := by decide
  have hparsed : tokenize "Cmé" = .ok ⟨⟨.C, .natural⟩, false, "mé"⟩ := by decide
  have hmin : ¬ Text.BeginsWith "min" "mé".toList := by decide
  have hmmaj : ¬ Text.BeginsWith "mmaj" "mé".toList := by decide
  have hfires : "Minor Triad" ∈ (chords.execute (Note.mk .C .natural).pitchClass "mé").applied := by
    decide
  have hmarker := (hagree _ _ _ _ hroot (by decide) hparsed hmin hmmaj).mpr hfires
  cases hmarker

/-! ### The marker and the scale rule -/

/-- What a name with the minor marker resolves to: leniently to a scale and to a minor key. -/
structure ReadAsMinor (name : String) (parsed : ParsedName) (spelling : Option Spelling)
    (scale : Scale) (key : Key) : Prop where
  scale_lenient : Scale.ofName name ⟨spelling, false⟩ = .ok scale
  key_lenient : Key.ofName name ⟨spelling, false⟩ = .ok key
  mode : key.tonality.mode = .minor
  /-- The scale shows `Minor` unless `M` follows the marker. -/
  rules : "Minor" ∈ scale.rules ↔ ¬ "mM".toList <+: parsed.modifier.toList ∨
    (seqOf (nonLetter :: minorEnd)).occursIn parsed.modifier.toList = true
  key_strict : "Minor" ∈ scale.rules → Key.ofName name ⟨spelling, true⟩ = .ok key

section Marker
variable {tail : List Char} (hends : ∀ c ∈ tail.head?, endsMinorMarker c = true)
include hends

theorem not_beginsWith_min : ¬ Text.BeginsWith "min" ('m' :: tail) := by
  rintro ⟨behind, hbehind⟩
  cases tail with
  | nil => cases hbehind
  | cons c tail =>
    have hfold : Text.foldCase 'i' = Text.foldCase c := by
      have hrest := (List.cons.inj hbehind).2
      exact (List.cons.inj hrest).1
    have hlatin : Text.isLatin c = true :=
      List.any_eq_true.mpr ⟨'i', Text.mem_variants_of_foldCase hfold, by decide⟩
    rcases (endsMinorMarker_iff.mp (hends c rfl)).1 with hno | rfl
    · rw [hlatin] at hno
      cases hno
    · exact absurd hfold (by decide)

/-- Of the characters that may follow the marker, `M` is the only Latin letter. -/
theorem not_latin_iff : (∀ c ∈ tail.head?, Text.isLatin c = false) ↔
    ¬ "mM".toList <+: 'm' :: tail := by
  have hmajor : Text.isLatin 'M' = true := by decide
  cases tail with
  | nil => simp
  | cons c tail =>
    have hc := (endsMinorMarker_iff.mp (hends c rfl)).1
    have hstart : "mM".toList <+: 'm' :: c :: tail ↔ 'M' = c := by simp
    rw [hstart]
    constructor
    · rintro h rfl
      rw [h 'M' rfl] at hmajor
      cases hmajor
    · intro hne d hd
      obtain rfl : c = d := Option.some.inj hd
      exact hc.resolve_right fun hM => hne hM.symm

end Marker

theorem rules_ofParts (name : String) (spelling : Spelling) (parsed : ParsedName) :
    (Scale.ofParts name spelling parsed).rules = scales.applied parsed.modifier :=
  execute_applied scales parsed.root.pitchClass parsed.modifier

theorem not_namesNoMode {modifier : String} (h : "Minor" ∈ scales.applied modifier) :
    ¬ NamesNoMode modifier := by
  rintro ⟨-, hquiet⟩
  obtain ⟨rule, hrule, hname, hfires⟩ := mem_applied_iff.mp h
  have hmode : rule.name ≠ defaultMode := by
    rw [hname]
    decide
  rw [hquiet rule hrule hmode] at hfires
  cases hfires

/-- **A name with the minor marker** is in a minor key. Its scale shows `Minor`, and the key is known
strictly as well, unless `M` follows the marker and no minor word stands further behind. -/
theorem readAsMinor_of_marker {name : String} {parsed : ParsedName}
    (hparsed : tokenize name = .ok parsed) (hminor : parsed.minor = true)
    (spelling : Option Spelling) : ∃ scale key, ReadAsMinor name parsed spelling scale key := by
  obtain ⟨tail, hmodifier, hends⟩ := exists_tail_of_marker hparsed hminor
  have hmin : ¬ Text.BeginsWith "min" parsed.modifier.toList := by
    rw [hmodifier]
    exact not_beginsWith_min hends
  have hscale := Scale.ofName_eq_ite hparsed spelling
  have hkey := Key.ofName_eq_ite hparsed spelling
  refine ⟨_, _, (hscale false).trans (if_neg (by simp)), (hkey false).trans (if_neg (by simp)),
    (mode_ofParts_eq_minor_iff _ _ _).mpr (Or.inl hminor), ?_, ?_⟩
  · rw [rules_ofParts, minor_applied_iff hmodifier hmin, not_latin_iff hends, hmodifier]
  · intro hrule
    rw [rules_ofParts] at hrule
    have hknown : ¬ (true = true ∧ NamesNoMode parsed.modifier) := fun h => not_namesNoMode hrule h.2
    exact (hkey true).trans (if_neg hknown)

theorem readAsMinor_of_marker_delta : ∃ parsed, tokenize "BbmΔ7" = .ok parsed ∧
    ∃ scale key, ReadAsMinor "BbmΔ7" parsed (some .sharp) scale key ∧ "Minor" ∈ scale.rules := by
  have hparsed : tokenize "BbmΔ7" = .ok ⟨⟨.B, .flat⟩, true, "mΔ7"⟩ := by decide
  obtain ⟨scale, key, h⟩ := readAsMinor_of_marker hparsed rfl (some .sharp)
  exact ⟨_, hparsed, scale, key, h, h.rules.mpr (Or.inl (by decide))⟩

/-- `M` behind the marker continues a word for the scale rule: the scale falls back to the default mode,
and the key is minor without it and not known strictly. -/
theorem minor_scale_disagrees :
    tokenize "CmM7" = .ok ⟨⟨.C, .natural⟩, true, "mM7"⟩ ∧
      (Scale.ofName "CmM7" ⟨none, false⟩).map (·.rules) = .ok [defaultMode] ∧
      (Key.ofName "CmM7" ⟨none, false⟩).map (·.tonality.mode) = .ok .minor ∧
      Key.ofName "CmM7" ⟨none, true⟩ = .error (.unknownMode "CmM7" "mM7") := by
  decide

end Harmony
