import Harmony.View.Reading
import Harmony.Proofs.Edit
import Harmony.Proofs.Json.Escape
import Harmony.Proofs.Json.Parser

/-! # Views are read back

What is written as JSON is well-formed, so its text is read as the value that was written. The reader
of each type then finds the parts of that value: a text behind its escapes, a degree in the digits of
a key, a field by its name, and a field that was left out by its absence.

* `ReadsBack`: a text from which a value is read.
* `degrees?_entries`: a map from degrees, whatever is written at them.
* `Document.fields?_present`: the fields of a record, of which some may be left out.
* `KeyView.depth`: how deep a key lies. It is read back where it may lie that deep
  (`KeyView.ofJson?_toJson`).
* `writtenIsRead`: values of all types. -/

namespace Harmony

open Json Decimal

/-- Nothing is trimmed off the end of the text, and the value is read from it. -/
structure ReadsBack {α : Type} (read? : Json → Option α) (text : String) (value : α) : Prop where
  trimmed : Text.trimEnd text.toList = text.toList
  read : (Json.parse? text).bind read? = some value

theorem readsBack_write {α : Type} {read? : Json → Option α} {json : Json} {value : α}
    {layout : Layout} (hlayout : layout.IsBlank) (hjson : json.WellFormed)
    (hread : read? json = some value) : ReadsBack read? (json.write layout) value where
  trimmed := trimEnd_write hjson
  read := by
    rw [parse?_write hlayout hjson, Option.bind_some]
    exact hread

/-! ### What is written is well-formed -/

namespace Json

theorem isWritten_encode (cs : List Char) : IsWritten (encode cs) := scan?_encode cs

theorem wellFormed_ofText (text : String) : (ofText text).WellFormed :=
  .string (isWritten_encode text.toList)

theorem wellFormed_ofNat (n : Nat) : (ofNat n).WellFormed := .number (isNumber_toDigits n)

theorem encode_toDigits (n : Nat) : encode (Nat.toDigits 10 n) = Nat.toDigits 10 n :=
  encode_of_isDigit isDigit_of_mem_toDigits

end Json

-- the induction is on the document; the items and the fields of a level are lists of their own
mutual

theorem Document.wellFormed_toJson : ∀ document : Document, document.toJson.WellFormed
  | .text s => wellFormed_ofText s
  | .list items => .array (wellFormed_itemsToJson items)
  | .record fields =>
    .object (fun member h => (wellFormed_fieldsToJson fields member h).1)
      fun member h => (wellFormed_fieldsToJson fields member h).2

theorem Document.wellFormed_itemsToJson : ∀ (items : List Document),
    ∀ item ∈ itemsToJson items, item.WellFormed
  | [], item, h => absurd h List.not_mem_nil
  | first :: items, item, h => by
    rcases List.mem_cons.mp h with rfl | h
    · exact wellFormed_toJson first
    · exact wellFormed_itemsToJson items item h

theorem Document.wellFormed_fieldsToJson : ∀ (fields : List (Label × Document)),
    ∀ member ∈ fieldsToJson fields, IsWritten member.1 ∧ member.2.WellFormed
  | [], member, h => absurd h List.not_mem_nil
  | (label, value) :: fields, member, h => by
    rcases List.mem_cons.mp h with rfl | h
    · exact ⟨isWritten_encode label.chars, wellFormed_toJson value⟩
    · exact wellFormed_fieldsToJson fields member h

end

theorem ToneSet.wellFormed_toJson (tones : ToneSet) : tones.toJson.WellFormed := by
  refine .object (fun member h => ?_) fun member h => ?_
  · obtain ⟨⟨d, p⟩, -, rfl⟩ := List.mem_map.mp h
    show IsWritten (Nat.toDigits 10 d.val)
    rw [← encode_toDigits]
    exact isWritten_encode _
  · obtain ⟨⟨d, p⟩, -, rfl⟩ := List.mem_map.mp h
    exact wellFormed_ofNat p.value

/-! ### Parts of values -/

namespace Json

theorem text?_ofText (text : String) : text? (ofText text) = some text := by
  show (decode? (encode text.toList)).map String.ofList = some text
  rw [decode?_encode, Option.map_some, String.ofList_toList]

theorem integer?_ofNat (n : Nat) : (ofNat n).integer? = some (n : Int) := integerValue?_toDigits n

theorem case?_ofText (text : String) : case? (ofText text) = some text := text?_ofText text

theorem fields?_object (names : List String) (members : List (List Char × Json)) :
    fields? names (.object members) =
      (members.mapM fun (member : List Char × Json) =>
        do return (← text? (.string member.1), member.2)).bind (pick? names) := rfl

theorem degreeOf?_toDigits (d : Degree) :
    degreeOf? (naturalValue? (Nat.toDigits 10 d.val)) = some d :=
  degreeOf?_eq_some_iff.mpr (naturalValue?_toDigits d.val)

/-- **A map from degrees** is read back, if what is written at each degree is. -/
theorem degrees?_entries {α : Type} {value? : Json → Option α} {write : α → Json}
    (h : ∀ a, value? (write a) = some a) (m : DegreeMap α) :
    degrees? value? (.object (m.entries.map fun entry =>
      (Nat.toDigits 10 entry.1.val, write entry.2))) = some m := by
  have hentries : ((m.entries.map fun entry => (Nat.toDigits 10 entry.1.val, write entry.2)).mapM
      fun member => do
        let degree ← degreeOf? (naturalValue? member.1)
        return (degree, ← value? member.2)) = some m.entries := by
    rw [mapM_eq_some_iff, List.forall₂_map_left_iff, List.forall₂_same]
    rintro ⟨d, a⟩ -
    simp [degreeOf?_toDigits, h]
  refine (congrArg (Option.map DegreeMap.ofList) hentries).trans ?_
  rw [Option.map_some, DegreeMap.ofList_entries]

end Json

namespace Document

theorem itemsToJson_eq_map (items : List Document) : itemsToJson items = items.map toJson := by
  induction items with
  | nil => rfl
  | cons item items ih => rw [itemsToJson, ih, List.map_cons]

theorem fieldsToJson_eq_map (fields : List (Label × Document)) :
    fieldsToJson fields = fields.map fun (label, value) => (encode label.chars, value.toJson) := by
  induction fields with
  | nil => rfl
  | cons entry fields ih => rw [fieldsToJson, ih, List.map_cons]

@[simp] theorem text?_toJson (s : String) : text? (text s).toJson = some s := text?_ofText s

@[simp] theorem texts?_toJson (items : List String) :
    list? text? (texts items).toJson = some items := by
  show (itemsToJson (items.map .text)).mapM text? = some items
  rw [itemsToJson_eq_map, List.map_map, mapM_eq_some_iff, List.forall₂_map_left_iff,
    List.forall₂_same]
  exact fun text _ => text?_ofText text

@[simp] theorem degrees?_toJson (m : DegreeMap String) :
    degrees? text? (ofDegrees m).toJson = some m := by
  have htoJson : (ofDegrees m).toJson =
      .object (m.entries.map fun entry => (Nat.toDigits 10 entry.1.val, .ofText entry.2)) := by
    show Json.object (fieldsToJson _) = _
    rw [fieldsToJson_eq_map, List.map_map]
    refine congrArg Json.object (List.map_congr_left fun entry _ => ?_)
    exact Prod.ext (encode_toDigits entry.1.val) rfl
  rw [htoJson, degrees?_entries text?_ofText]

/-- The members of a record, with the names that are read for its labels. -/
def members (fields : List (Label × Document)) : List (String × Json) :=
  fields.map fun (label, value) => (String.ofList label.chars, value.toJson)

theorem fields?_record (names : List String) (fields : List (Label × Document)) :
    fields? names (record fields).toJson = pick? names (members fields) := by
  have hdecoded : (fieldsToJson fields).mapM
      (fun member => do return (← text? (.string member.1), member.2)) = some (members fields) := by
    unfold members
    rw [fieldsToJson_eq_map, mapM_eq_some_iff, List.forall₂_map_left_iff,
      List.forall₂_map_right_iff, List.forall₂_same]
    rintro ⟨label, value⟩ -
    simp [text?, decode?_encode]
  rw [toJson, fields?_object, hdecoded, Option.bind_some]

@[simp] theorem optional?_toJson {α : Type} (value? : Json → Option α) (document : Document) :
    optional? value? (some document.toJson) = (value? document.toJson).map some := by
  cases document <;> rfl

/-! ### Fields of records -/

section Fields
variable {name : String} {value : Option Document} {entries : List (String × Option Document)}

/-- The fields of a record. A name without a value is left out. -/
def present (entries : List (String × Option Document)) : List (Label × Document) :=
  entries.flatMap fun (name, value) => optionalField name value

theorem under_optionalField : under name (members (optionalField name value)) =
    (value.map toJson).toList := by
  cases value with
  | none => rfl
  | some document => simp [under, members, optionalField, field, Label.chars]

theorem under_optionalField_of_ne {other : String} (h : other ≠ name) :
    under name (members (optionalField other value)) = [] := by
  cases value with
  | none => rfl
  | some document => simp [under, members, optionalField, field, Label.chars, h]

theorem under_present_cons {entry : String × Option Document} :
    under name (members (present (entry :: entries))) =
      under name (members (optionalField entry.1 entry.2)) ++
        under name (members (present entries)) := by
  unfold under members present
  rw [List.flatMap_cons, List.map_append, List.filterMap_append]

theorem under_present_of_notMem (h : name ∉ entries.map (·.1)) :
    under name (members (present entries)) = [] := by
  induction entries with
  | nil => rfl
  | cons entry entries ih =>
    rw [List.map_cons, List.mem_cons, not_or] at h
    rw [under_present_cons, under_optionalField_of_ne (Ne.symm h.1), ih h.2, List.nil_append]

/-- Under a name of a record stands its value, if it has one. -/
theorem under_present (hnodup : (entries.map (·.1)).Nodup) (h : (name, value) ∈ entries) :
    under name (members (present entries)) = (value.map toJson).toList := by
  induction entries with
  | nil => exact absurd h List.not_mem_nil
  | cons entry entries ih =>
    obtain ⟨hfirst, hrest⟩ := List.nodup_cons.mp hnodup
    rw [under_present_cons]
    rcases List.mem_cons.mp h with rfl | h
    · rw [under_optionalField, under_present_of_notMem hfirst, List.append_nil]
    · have hne : entry.1 ≠ name := by
        rintro rfl
        exact hfirst (List.mem_map_of_mem (f := (·.1)) h)
      rw [under_optionalField_of_ne hne, ih hrest h, List.nil_append]

/-- **The fields of a record** are read back under their names, those that are left out as absent. -/
theorem fields?_present {document : Document} {names : List String}
    (hdocument : document = .record (present entries)) (hnames : entries.map (·.1) = names)
    (hnodup : names.Nodup) :
    fields? names document.toJson = some (entries.map fun entry => entry.2.map toJson) := by
  subst hdocument hnames
  rw [fields?_record]
  unfold pick?
  rw [mapM_eq_some_iff, List.forall₂_map_left_iff, List.forall₂_map_right_iff, List.forall₂_same]
  intro (name, value) hentry
  rw [under_present hnodup hentry]
  cases value <;> rfl

end Fields

end Document

/-! ### Numbers and names -/

theorem PitchClass.ofInt_value (p : PitchClass) : ofInt p.value = p := by
  refine ext_value ?_
  have hlt := p.value_lt
  have hvalue := value_ofInt p.value
  omega

theorem PitchClass.ofJson?_toJson (p : PitchClass) : ofJson? p.toJson = some p := by
  have hword : InWord p.value := by
    have hlt := p.value_lt
    constructor <;> omega
  refine pitchClass_ofJson?_eq_some_iff.mpr ⟨p.value, integer?_ofNat p.value, hword, ?_⟩
  rw [ofInt_value]

theorem Degree.ofJson?_toJson (d : Degree) : ofJson? d.toJson = some d := by
  have hinteger : d.toJson.integer? = some (Int.ofNat d.val) := integer?_ofNat d.val
  unfold ofJson?
  rw [hinteger]
  exact degreeOf?_eq_some_iff.mpr rfl

theorem ToneSet.ofJson?_toJson (tones : ToneSet) : ofJson? tones.toJson = some tones :=
  degrees?_entries PitchClass.ofJson?_toJson tones

theorem Spelling.ofJson?_toJson (spelling : Spelling) : ofJson? spelling.toJson = some spelling := by
  unfold ofJson? toJson
  rw [case?_ofText]
  cases spelling <;> rfl

theorem KeyMode.ofJson?_toJson (mode : KeyMode) : ofJson? mode.toJson = some mode := by
  unfold ofJson? toJson
  rw [case?_ofText]
  cases mode <;> rfl

theorem RuleKind.ofJson?_toJson (kind : RuleKind) : ofJson? kind.toJson = some kind := by
  unfold ofJson? toJson
  rw [case?_ofText]
  cases kind <;> rfl

/-! ### Records -/

/-- **A chord is read back**, also without rules. -/
theorem ChordView.ofJson?_toJson (view : ChordView) :
    ofJson? view.toDocument.toJson = some view := by
  obtain ⟨root, tones, rules⟩ := view
  have hrecord : toDocument ⟨root, tones, rules⟩ = .record (Document.present
      [("root", some (.text root)), ("tones", some (.ofDegrees tones)),
        ("rules", if rules = [] then none else some (.texts rules))]) := by
    cases rules <;> rfl
  have hfields : fields? ["root", "tones", "rules"] _ = _ :=
    Document.fields?_present hrecord rfl (by decide)
  unfold ofJson?
  rw [hfields]
  cases rules with
  | nil => simp
  | cons rule rules => simp

/-- **A scale is read back**, also without a mode. -/
theorem ScaleView.ofJson?_toJson (view : ScaleView) :
    ofJson? view.toDocument.toJson = some view := by
  obtain ⟨root, tones, mode⟩ := view
  have hrecord : toDocument ⟨root, tones, mode⟩ = .record (Document.present
      [("root", some (.text root)), ("tones", some (.ofDegrees tones)),
        ("mode", mode.map .text)]) := by
    cases mode <;> rfl
  have hfields : fields? ["root", "tones", "mode"] _ = _ :=
    Document.fields?_present hrecord rfl (by decide)
  unfold ofJson?
  rw [hfields]
  cases mode with
  | none => simp [optional?]
  | some mode => simp

/-- **A rule in words is read back.** -/
theorem RuleInfo.ofJson?_toJson (info : RuleInfo) :
    ofJson? info.toDocument.toJson = some info := by
  have hrecord : info.toDocument = .record (Document.present
      [("name", some (.text info.name)), ("kind", some (.text info.kind.name)),
        ("trigger", some (.text info.trigger)), ("effects", some (.texts info.effects))]) := rfl
  have hfields : fields? ["name", "kind", "trigger", "effects"] _ = _ :=
    Document.fields?_present hrecord rfl (by decide)
  have hkind : RuleKind.ofJson? (Document.text info.kind.name).toJson = some info.kind :=
    RuleKind.ofJson?_toJson info.kind
  unfold ofJson?
  rw [hfields]
  simp [hkind]

/-! ### Keys -/

namespace KeyView

/-- How deep a key lies. Its relative and its scale lie one level below it. -/
def depth : KeyView → Nat
  | ⟨_, _, none, none⟩ => 1
  | ⟨_, _, none, some _⟩ => 2
  | ⟨_, _, some relative, _⟩ => relative.depth + 1

theorem depth_pos (view : KeyView) : 0 < view.depth := by
  obtain ⟨root, mode, relative, scale⟩ := view
  cases relative <;> cases scale <;> simp [depth]

theorem depth_le_succ_iff {root mode : String} {relative : Option KeyView}
    {scale : Option (DegreeMap String)} {levels : Nat} :
    depth ⟨root, mode, relative, scale⟩ ≤ levels + 1 ↔
      (∀ key ∈ relative, key.depth ≤ levels) ∧ (scale.isSome → levels ≠ 0) := by
  cases relative with
  | none =>
    cases scale with
    | none => simp [depth]
    | some tones => simp [depth, Nat.one_le_iff_ne_zero]
  | some key =>
    have hpos := key.depth_pos
    cases scale with
    | none => simp [depth]
    | some tones =>
      simp only [depth, Option.mem_def, Option.some.injEq, forall_eq', Option.isSome_some,
        forall_true_left]
      omega

/-- **A key is read back** where it may lie as deep as it does, and nowhere else. -/
theorem ofJson?_toJson (view : KeyView) (levels : Nat) :
    ofJson? levels view.toDocument.toJson = if view.depth ≤ levels then some view else none := by
  induction levels generalizing view with
  | zero =>
    have hpos := view.depth_pos
    rw [if_neg (by omega)]
    rfl
  | succ levels ih =>
    obtain ⟨root, mode, relative, scale⟩ := view
    have hrecord : toDocument ⟨root, mode, relative, scale⟩ = .record (Document.present
        [("root", some (.text root)), ("mode", some (.text mode)),
          ("relative", relative.map toDocument), ("scale", scale.map .ofDegrees)]) := by
      cases relative <;> cases scale <;> rfl
    have hfields : fields? ["root", "mode", "relative", "scale"] _ = _ :=
      Document.fields?_present hrecord rfl (by decide)
    have hrelative : optional? (ofJson? levels) ((relative.map toDocument).map Document.toJson) =
        if ∀ key ∈ relative, key.depth ≤ levels then some relative else none := by
      cases relative with
      | none => simp [optional?]
      | some key =>
        have hkey := ih key
        by_cases hle : key.depth ≤ levels <;> simp [hkey, hle]
    have hscale : optional? (fun json => if levels = 0 then none else json.degrees? text?)
        ((scale.map Document.ofDegrees).map Document.toJson) =
          if scale.isSome → levels ≠ 0 then some scale else none := by
      cases scale with
      | none => simp [optional?]
      | some tones => by_cases hzero : levels = 0 <;> simp [hzero]
    rw [ofJson?, hfields]
    simp only [List.map_cons, List.map_nil, Option.map_some, Document.text?_toJson,
      Option.bind_eq_bind, Option.bind_some, hrelative, hscale, depth_le_succ_iff]
    by_cases hkeys : ∀ key ∈ relative, key.depth ≤ levels
    · by_cases htones : scale.isSome → levels ≠ 0
      · rw [if_pos hkeys, if_pos htones, if_pos ⟨hkeys, htones⟩]
        rfl
      · rw [if_pos hkeys, if_neg htones, if_neg (not_and_of_not_right _ htones)]
        rfl
    · rw [if_neg hkeys, if_neg (not_and_of_not_left _ hkeys)]
      rfl

theorem depth_le_two {view : KeyView} (h : view.relative = none) : view.depth ≤ 2 := by
  obtain ⟨root, mode, relative, scale⟩ := view
  subst h
  cases scale <;> simp [depth]

/-- A key whose relative has no relative of its own does not lie deep. -/
theorem depth_le_three {view : KeyView} (h : ∀ key ∈ view.relative, key.relative = none) :
    view.depth ≤ 3 := by
  obtain ⟨root, mode, relative, scale⟩ := view
  refine depth_le_succ_iff.mpr ⟨fun key hkey => depth_le_two (h key hkey), fun _ => ?_⟩
  decide

end KeyView

/-! ### The texts of values -/

theorem readsBack_document {α : Type} {read? : Json → Option α} {document : Document} {value : α}
    (hread : read? document.toJson = some value) :
    ReadsBack read? (document.render .json) value :=
  readsBack_write isBlank_pretty document.wellFormed_toJson hread

/-- **Values of all types are read back** from the text that is written for them. A key is, if its
relative has no relative of its own. -/
structure WrittenIsRead : Prop where
  chord (view : ChordView) : ReadsBack ChordView.ofJson? (view.toDocument.render .json) view
  scale (view : ScaleView) : ReadsBack ScaleView.ofJson? (view.toDocument.render .json) view
  key (view : KeyView) (h : ∀ relative ∈ view.relative, relative.relative = none) :
    ReadsBack (KeyView.ofJson? maxDepth) (view.toDocument.render .json) view
  rule (info : RuleInfo) : ReadsBack RuleInfo.ofJson? (info.toDocument.render .json) info
  toneSet (tones : ToneSet) : ReadsBack ToneSet.ofJson? tones.toJson.pretty tones
  toneSet_compact (tones : ToneSet) : ReadsBack ToneSet.ofJson? tones.toJson.compact tones
  pitchClass (p : PitchClass) : ReadsBack PitchClass.ofJson? p.toJson.pretty p
  degree (d : Degree) : ReadsBack Degree.ofJson? d.toJson.pretty d
  spelling (spelling : Spelling) : ReadsBack Spelling.ofJson? spelling.toJson.pretty spelling
  keyMode (mode : KeyMode) : ReadsBack KeyMode.ofJson? mode.toJson.pretty mode
  ruleKind (kind : RuleKind) : ReadsBack RuleKind.ofJson? kind.toJson.pretty kind

theorem writtenIsRead : WrittenIsRead where
  chord view := readsBack_document view.ofJson?_toJson
  scale view := readsBack_document view.ofJson?_toJson
  key view h := by
    have hdepth : view.depth ≤ maxDepth := (KeyView.depth_le_three h).trans (by decide)
    refine readsBack_document ?_
    rw [view.ofJson?_toJson, if_pos hdepth]
  rule info := readsBack_document info.ofJson?_toJson
  toneSet tones := readsBack_write isBlank_pretty tones.wellFormed_toJson tones.ofJson?_toJson
  toneSet_compact tones :=
    readsBack_write isBlank_compact tones.wellFormed_toJson tones.ofJson?_toJson
  pitchClass p := readsBack_write isBlank_pretty (wellFormed_ofNat p.value) p.ofJson?_toJson
  degree d := readsBack_write isBlank_pretty (wellFormed_ofNat d.val) (Degree.ofJson?_toJson d)
  spelling s := readsBack_write isBlank_pretty (wellFormed_ofText s.name) s.ofJson?_toJson
  keyMode mode := readsBack_write isBlank_pretty (wellFormed_ofText mode.name) mode.ofJson?_toJson
  ruleKind kind := readsBack_write isBlank_pretty (wellFormed_ofText kind.name) kind.ofJson?_toJson

end Harmony
