import Harmony.CommandLine.Run
import Harmony.Proofs.Catalogue.ScaleModes
import Harmony.Proofs.Chain.Equivariance
import Harmony.Proofs.Document
import Harmony.Proofs.Listing

/-! # What is shown is plain

The texts of an answer are names of notes, of modes and of built-in rules, and words for such rules.
They are printable and of one line, whatever was asked for. So an answer is the text of a plain
document, and two answers with one YAML text show the same.

* `Effect.printable_describe`, `printable_of_mem_rulesOf`: rules in words.
* `ChordView.isPlain_toDocument`, …: the documents of views.
* `exists_document_of_answer`, `isPrintable_of_mem_answer`: the answers on the command line. -/

namespace Harmony

open Yaml

/-! ### Texts -/

theorem Yaml.printable_append {text text' : String} (h : Printable text) (h' : Printable text') :
    Printable (text ++ text') := by
  unfold Printable
  rw [String.toList_append]
  exact List.forall_mem_append.mpr ⟨h, h'⟩

theorem PitchClass.printable_name (p : PitchClass) (spelling : Spelling) :
    Printable (p.name spelling) := by
  have hnames : ∀ text ∈ sharpNames ++ flatNames, Printable text := by decide
  rw [List.forall_mem_append] at hnames
  cases spelling with
  | sharp => exact hnames.1 _ (List.get_mem _ _)
  | flat => exact hnames.2 _ (List.get_mem _ _)

theorem KeyMode.printable_name (mode : KeyMode) : Printable mode.name := by
  cases mode <;> decide

/-! ### Rules in words -/

theorem printable_of_readInt? {text : String} {n : Int} (h : Decimal.readInt? text.toList = some n) :
    Printable text := by
  intro c hc
  have hstarts := Decimal.startsInteger_of_mem h c hc
  simp only [Decimal.startsInteger, Bool.or_eq_true, beq_iff_eq] at hstarts
  rcases hstarts with (rfl | rfl) | hdigit
  · decide
  · decide
  · refine isPrintable_of_isAlphanum ?_
    unfold Char.isAlphanum
    rw [hdigit, Bool.or_true]

theorem printable_repr (n : Int) : Printable n.repr := printable_of_readInt? (Decimal.readInt?_repr n)

theorem printable_intercalate_repr (ns : List Int) : Printable (", ".intercalate (ns.map Int.repr)) := by
  cases ns with
  | nil => decide
  | cons n ns =>
    unfold Printable
    rw [toList_intercalate_repr]
    refine List.forall_mem_append.mpr ⟨printable_repr n, fun c hc => ?_⟩
    obtain ⟨m, -, hc⟩ := List.mem_flatMap.mp hc
    rcases List.mem_cons.mp hc with rfl | hc
    · decide
    · rcases List.mem_cons.mp hc with rfl | hc
      · decide
      · exact printable_repr m c hc

/-- **An effect in words** is printable. -/
theorem Effect.printable_describe (effect : Effect) : Printable effect.describe := by
  have hdegree : ∀ d : Degree, Printable d.val.repr := fun d => printable_repr d.val
  cases effect with
  | add d n =>
    exact printable_append (printable_append (printable_append (by decide) (hdegree d)) (by decide))
      (printable_repr n)
  | «omit» d => exact printable_append (by decide) (hdegree d)
  | alter d n =>
    exact printable_append (printable_append (printable_append (by decide) (hdegree d)) (by decide))
      (printable_of_readInt? (Decimal.readInt?_signed n))
  | replace ns =>
    exact printable_append (printable_append (by decide) (printable_intercalate_repr ns)) (by decide)

/-- The trigger is written with printable characters. -/
def Trigger.IsPrintable : Trigger Pattern → Prop
  | .always => True
  | .pattern p => p.sourceChars.all isPrintable = true

instance : DecidablePred Trigger.IsPrintable
  | .always => inferInstanceAs (Decidable True)
  | .pattern p => inferInstanceAs (Decidable (p.sourceChars.all isPrintable = true))

theorem Trigger.IsPrintable.printable_describe {trigger : Trigger Pattern} (h : trigger.IsPrintable) :
    Printable trigger.describe := by
  cases trigger with
  | always => decide
  | pattern p =>
    have hsource : (Trigger.pattern p).describe.toList = p.sourceChars := String.toList_ofList
    unfold Printable
    rw [hsource]
    exact List.all_eq_true.mp h

/-- **The built-in rules** have printable names and triggers. -/
theorem printable_of_mem_rulesOf (kind : RuleKind) : ∀ rule ∈ (Catalogue.rulesOf kind).rules,
    Printable rule.name ∧ rule.trigger.IsPrintable := by
  cases kind <;> decide +kernel

/-! ### Documents of parts -/

namespace Document

variable {fields fields' : List (Label × Document)}

theorem isPlain_texts {items : List String} (h : ∀ item ∈ items, Printable item) :
    (texts items).IsPlain := by
  refine .list fun item hitem => ?_
  obtain ⟨text, htext, rfl⟩ := List.mem_map.mp hitem
  exact .text (h text htext)

theorem isPlain_record_append (h : (record fields).IsPlain) (h' : (record fields').IsPlain) :
    (record (fields ++ fields')).IsPlain := by
  cases h with
  | record hlabels hvalues =>
    cases h' with
    | record hlabels' hvalues' =>
      exact .record (List.forall_mem_append.mpr ⟨hlabels, hlabels'⟩)
        (List.forall_mem_append.mpr ⟨hvalues, hvalues'⟩)

theorem isPlain_record_nil : (record []).IsPlain := .record nofun nofun

theorem isPlain_record_cons {name : String} {value : Document} (hname : (Label.name name).IsPlain)
    (hvalue : value.IsPlain) (h : (record fields).IsPlain) :
    (record (field name value :: fields)).IsPlain := by
  cases h with
  | record hlabels hvalues =>
    exact .record (List.forall_mem_cons.mpr ⟨hname, hlabels⟩)
      (List.forall_mem_cons.mpr ⟨hvalue, hvalues⟩)

theorem isPlain_record_optionalField {name : String} {value : Option Document}
    (hname : (Label.name name).IsPlain) (hvalue : ∀ document ∈ value, document.IsPlain) :
    (record (optionalField name value)).IsPlain := by
  cases value with
  | none => exact isPlain_record_nil
  | some document => exact isPlain_record_cons hname (hvalue document rfl) isPlain_record_nil

/-- **The names of notes** at the degrees are shown plain. -/
theorem isPlain_noteNames (tones : ToneSet) (spelling : Spelling) :
    (ofDegrees (tones.noteNames spelling)).IsPlain := by
  refine .record (fun entry hentry => ?_) fun entry hentry => ?_
  · obtain ⟨⟨d, text⟩, -, rfl⟩ := List.mem_map.mp hentry
    trivial
  · obtain ⟨⟨d, text⟩, htext, rfl⟩ := List.mem_map.mp hentry
    obtain ⟨⟨e, p⟩, -, hname⟩ := List.mem_map.mp htext
    obtain ⟨rfl, rfl⟩ := Prod.mk.inj hname
    exact .text (p.printable_name spelling)

end Document

open Document

/-! ### Documents of answers -/

theorem ChordView.isPlain_toDocument {chord : Chord} (hrules : ∀ name ∈ chord.rules, Printable name)
    (explain : Bool) : (ChordView.of chord explain).toDocument.IsPlain := by
  refine isPlain_record_append (isPlain_record_cons (by decide) (.text (chord.root.printable_name _))
    (isPlain_record_cons (by decide) (isPlain_noteNames _ _) isPlain_record_nil)) ?_
  cases explain with
  | false => exact isPlain_record_nil
  | true =>
    split
    · exact isPlain_record_nil
    · exact isPlain_record_cons (by decide) (isPlain_texts hrules) isPlain_record_nil

theorem ScaleView.isPlain_toDocument {scale : Scale} (hmode : Printable scale.mode) (explain : Bool) :
    (ScaleView.of scale explain).toDocument.IsPlain := by
  refine isPlain_record_append (isPlain_record_cons (by decide) (.text (scale.root.printable_name _))
    (isPlain_record_cons (by decide) (isPlain_noteNames _ _) isPlain_record_nil)) ?_
  refine isPlain_record_optionalField (by decide) fun document hdocument => ?_
  cases explain with
  | false => cases hdocument
  | true =>
    obtain rfl := Option.some.inj hdocument
    exact .text hmode

theorem KeyView.isPlain_ofKey : ∀ key : Key, (ofKey key).toDocument.IsPlain
  | ⟨t, none⟩ =>
    isPlain_record_cons (by decide) (.text (t.root.printable_name _))
      (isPlain_record_cons (by decide) (.text (t.mode.printable_name)) isPlain_record_nil)
  | ⟨t, some relative⟩ =>
    isPlain_record_cons (by decide) (.text (t.root.printable_name _))
      (isPlain_record_cons (by decide) (.text (t.mode.printable_name))
        (isPlain_record_cons (by decide) (isPlain_ofKey relative) isPlain_record_nil))

theorem KeyView.isPlain_toDocument (key : Key) (withScale : Bool) :
    (KeyView.of key withScale).toDocument.IsPlain := by
  have hscale : (record (optionalField "scale" ((of key withScale).scale.map ofDegrees))).IsPlain := by
    refine isPlain_record_optionalField (by decide) fun document hdocument => ?_
    obtain ⟨names, hnames, rfl⟩ := Option.map_eq_some_iff.mp hdocument
    cases withScale with
    | false => cases hnames
    | true =>
      obtain ⟨scale, -, rfl⟩ := Option.map_eq_some_iff.mp hnames
      exact isPlain_noteNames _ _
  have hkey := isPlain_ofKey key
  obtain ⟨t, _ | relative⟩ := key
  · exact isPlain_record_append hkey hscale
  · exact isPlain_record_append hkey hscale

theorem RuleInfo.isPlain_toDocument {kind : RuleKind} {rule : Rule Pattern}
    (hrule : rule ∈ (Catalogue.rulesOf kind).rules) : rule.info.toDocument.IsPlain := by
  obtain ⟨hname, htrigger⟩ := printable_of_mem_rulesOf kind rule hrule
  have hkind : Printable rule.kind.name := by cases rule.kind <;> decide
  refine isPlain_record_cons (by decide) (.text hname) (isPlain_record_cons (by decide) (.text hkind)
    (isPlain_record_cons (by decide) (.text htrigger.printable_describe)
      (isPlain_record_cons (by decide) (isPlain_texts fun text htext => ?_) isPlain_record_nil)))
  obtain ⟨effect, -, rfl⟩ := List.mem_map.mp htext
  exact effect.printable_describe

/-! ### Answers -/

theorem printable_of_mem_applied (kind : RuleKind) {modifier name : String}
    (h : name ∈ (Catalogue.rulesOf kind).applied modifier) : Printable name := by
  obtain ⟨rule, hrule, rfl, -⟩ := mem_applied_iff.mp h
  exact (printable_of_mem_rulesOf kind rule hrule).1

theorem Report.isPlain_chord {name : String} {options : ResolveOptions} {chord : Chord}
    (h : Chord.ofName name options = .ok chord) (explain : Bool) :
    (ChordView.of chord explain).toDocument.IsPlain := by
  cases hparsed : tokenize name with
  | error e =>
    rw [Chord.ofName_eq_error hparsed] at h
    cases h
  | ok parsed =>
    rw [Chord.ofName_of_tokenize hparsed] at h
    obtain rfl := Except.ok.inj h
    refine ChordView.isPlain_toDocument (fun rule hrule => ?_) explain
    rw [execute_applied] at hrule
    exact printable_of_mem_applied .chord hrule

theorem Report.isPlain_scale {name : String} {options : ResolveOptions} {scale : Scale}
    (h : Scale.ofName name options = .ok scale) (explain : Bool) :
    (ScaleView.of scale explain).toDocument.IsPlain := by
  obtain ⟨parsed, -, rfl⟩ := Scale.ofName_eq_ok h
  obtain ⟨rule, hlast⟩ := Catalogue.lastFiring_scales parsed.modifier
  refine ScaleView.isPlain_toDocument ?_ explain
  rw [Catalogue.mode_ofParts hlast]
  exact (printable_of_mem_rulesOf .scale rule hlast.mem_rules).1

theorem Report.isPlain_rules (kind : RuleKind) (detail : Bool) :
    ∃ document : Document, document.IsPlain ∧
      ∀ format, rules kind detail format = document.render format := by
  refine ⟨_, ?_, fun format => rfl⟩
  cases detail with
  | false =>
    refine isPlain_texts fun name hname => ?_
    obtain ⟨rule, hrule, rfl⟩ := List.mem_map.mp hname
    exact (printable_of_mem_rulesOf kind rule hrule).1
  | true =>
    refine .list fun item hitem => ?_
    obtain ⟨info, hinfo, rfl⟩ := List.mem_map.mp hitem
    obtain ⟨rule, hrule, rfl⟩ := List.mem_map.mp hinfo
    exact RuleInfo.isPlain_toDocument hrule

theorem Report.exists_document_of_ofTraced {α : Type} {toDocument : α → Document}
    {format : OutputFormat} {resolved : Traced (Except ResolveError α)} {text : String}
    (hplain : ∀ value, resolved.value = .ok value → (toDocument value).IsPlain)
    (h : (ofTraced toDocument format resolved).value = .ok text) :
    ∃ document : Document, document.IsPlain ∧ text = document.render format := by
  change resolved.value.map (fun value => (toDocument value).render format) = .ok text at h
  cases hvalue : resolved.value with
  | error e =>
    rw [hvalue] at h
    cases h
  | ok value =>
    rw [hvalue] at h
    exact ⟨_, hplain value hvalue, (Except.ok.inj h).symm⟩

namespace CommandLine

open Report

/-- **An answer is the text of a plain document**, whatever was asked for, if it is no frequency. -/
theorem exists_document_of_answer {invocation : Invocation} {text : String}
    (hpitch : ∀ note octave tuning, invocation.command ≠ .pitch note octave tuning)
    (h : (answer invocation).value = .ok text) :
    ∃ document : Document, document.IsPlain ∧ text = document.render invocation.format := by
  obtain ⟨options, format, verbose, command⟩ := invocation
  cases command with
  | chord explain name =>
    exact exists_document_of_ofTraced (fun _ hchord => isPlain_chord hchord explain) h
  | scale explain name =>
    exact exists_document_of_ofTraced (fun _ hscale => isPlain_scale hscale explain) h
  | key withScale name =>
    exact exists_document_of_ofTraced (fun key _ => KeyView.isPlain_toDocument key withScale) h
  | rules kind detail =>
    obtain ⟨document, hdocument, hrules⟩ := isPlain_rules kind detail
    exact ⟨document, hdocument, (Except.ok.inj h).symm.trans (hrules format)⟩
  | pitch note octave tuning => exact absurd rfl (hpitch note octave tuning)

/-- **An answer in YAML** has lines of printable characters. -/
theorem isPrintable_of_mem_answer {invocation : Invocation} {text : String}
    (hpitch : ∀ note octave tuning, invocation.command ≠ .pitch note octave tuning)
    (hyaml : invocation.format = .yaml) (h : (answer invocation).value = .ok text) :
    ∀ line ∈ text.toList.splitOn '\n', ∀ c ∈ line, isPrintable c = true := by
  obtain ⟨document, hplain, rfl⟩ := exists_document_of_answer hpitch h
  have hrender : document.render invocation.format = document.toYaml := by
    rw [hyaml]
    rfl
  rw [hrender, splitOn_toYaml hplain]
  exact isPrintable_of_mem_lines document hplain

end CommandLine

end Harmony
