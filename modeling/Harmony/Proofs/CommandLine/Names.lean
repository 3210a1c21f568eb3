import Harmony.CommandLine.Run
import Harmony.Proofs.CommandLine.Flags

/-! # Commands with a name

A call of `chord`, `scale` or `key` is flags, the word of the command and flags again; then the name
begins, and nothing from there on is a flag. So it does not matter whether the name is one argument or
many, and the answer is that of the library for the name and the options that the flags stand for.

* `Call`: a command with its flags. `Call.Written` says how it is written.
* `Call.render`: what the library makes of a name.
* `exists_call`: nothing but the flags of a valid call is read as flags.
* `run_call`: what a run of the program makes of it. -/

namespace Harmony.CommandLine

/-! ### Calls -/

/-- The commands with a name. -/
inductive NameCommand where
  | chord
  | scale
  | key
deriving Repr, DecidableEq

namespace NameCommand

/-- The words for the command. -/
def words : NameCommand → List String
  | .chord => ["chord", "c"]
  | .scale => ["scale", "s"]
  | .key => ["key", "k"]

/-- The level of the command's arguments. -/
def level : NameCommand → Level
  | .chord => ⟨some "chord", some "explain"⟩
  | .scale => ⟨some "scale", some "explain"⟩
  | .key => ⟨some "key", some "scale"⟩

/-- The command with its own flag and a name. -/
def toCommand : NameCommand → Bool → String → Command
  | .chord => .chord
  | .scale => .scale
  | .key => .key

end NameCommand

/-- A call of a command with a name: the flags in front of the command and those behind it. -/
structure Call where
  command : NameCommand
  outer : List Setting
  inner : List Setting

/-- No flag is given twice, and not both spellings. -/
structure Consistent (settings : List Setting) : Prop where
  distinct : (settings.map Setting.switch?).Nodup
  spelling : ¬ (.switch .flats ∈ settings ∧ .switch .sharps ∈ settings)

namespace Call

/-- All flags of the call. -/
def settings (call : Call) : List Setting := call.outer ++ call.inner

/-- Is the switch among the flags? -/
def has (call : Call) (s : Switch) : Bool := decide (.switch s ∈ call.settings)

/-- Is the flag of the command among those behind it? -/
def own (call : Call) : Bool := decide (.switch .own ∈ call.inner)

/-- The options of resolution: flats come before sharps, which may only be given at another level. -/
def options (call : Call) : ResolveOptions where
  spelling := if call.has .flats then some .flat else if call.has .sharps then some .sharp else none
  strict := call.has .strict

/-- The format of the answer: JSON if it has a flag of its own, otherwise the last format given. -/
def format (call : Call) : OutputFormat :=
  if call.has .json then .json
  else (call.settings.filterMap Setting.format?).getLast?.getD .yaml

/-- **What the library makes of a name**: the text of what it resolves to, or the error of the
resolver. -/
def render (call : Call) (name : String) : Except ResolveError String :=
  match call.command with
  | .chord => (Chord.ofName name call.options).map fun chord =>
      (ChordView.of chord call.own).toDocument.render call.format
  | .scale => (Scale.ofName name call.options).map fun scale =>
      (ScaleView.of scale call.own).toDocument.render call.format
  | .key => (Key.ofName name call.options).map fun key =>
      (KeyView.of key call.own).toDocument.render call.format

/-- **The call is written by the arguments**, up to the name. -/
def Written (call : Call) (args : List String) : Prop :=
  ∃ before word behind, args = before ++ word :: behind ∧ Writes ⟨none, none⟩ call.outer before ∧
    word ∈ call.command.words ∧ Writes call.command.level call.inner behind

/-- The flags at each level are consistent. -/
structure Valid (call : Call) : Prop where
  outer : Consistent call.outer
  inner : Consistent call.inner

end Call

/-! ### Reading a call -/

theorem readCommand_eq (command : NameCommand) {word : String} (hword : word ∈ command.words)
    (args : List String) : readCommand word args =
      (readNames command.level args).map fun (flags, name) =>
        (flags, command.toCommand flags.own name) := by
  cases command <;> rcases List.mem_pair.mp hword with rfl | rfl <;> rfl

theorem not_hyphen_of_mem_words {command : NameCommand} {word : String} (hword : word ∈ command.words) :
    word.toList.head? ≠ some '-' := by
  cases command <;> rcases List.mem_pair.mp hword with rfl | rfl <;> decide

theorem own_level (command : NameCommand) : ∀ name ∈ command.level.own, name ∈ ownNames := by
  cases command <;> decide

/-- What is joined from words begins like the first of them, or with a blank. -/
theorem head?_intercalate_ne {first : String} (hfirst : first.toList.head? ≠ some '-')
    (rest : List String) : (" ".intercalate (first :: rest)).toList.head? ≠ some '-' := by
  cases rest with
  | nil => simpa using hfirst
  | cons second rest =>
    rw [String.intercalate_cons_cons, String.toList_append, String.toList_append]
    cases hchars : first.toList with
    | nil => simp
    | cons c cs =>
      rw [hchars] at hfirst
      simpa using hfirst

section Names
variable {level : Level} (hlevel : ∀ name ∈ level.own, name ∈ ownNames) {settings : List Setting}
  {args : List String} (hwrites : Writes level settings args) (hvalid : Consistent settings)
include hlevel hwrites hvalid

theorem readFlags_written (lenient : Bool) {word : String} (hword : word.toList.head? ≠ some '-')
    (rest : List String) : readFlags level lenient {} (args ++ word :: rest) =
      .ok (settings.foldl Flags.give {}, word :: rest) := by
  have hlacks : ∀ setting ∈ settings, ({} : Flags).Lacks setting := by
    intro setting _
    cases setting with
    | switch s => cases s <;> rfl
    | format f => rfl
  rw [readFlags_of_writes hlevel hwrites hvalid.distinct hlacks]
  exact readFlags_word (Argument.of_eq_word hword) rest

/-- **Words are joined**: behind flags they are read as one name. -/
theorem readNames_written {first : String} (hfirst : first.toList.head? ≠ some '-')
    (rest : List String) : readNames level (args ++ first :: rest) =
      .ok (settings.foldl Flags.give {}, " ".intercalate (first :: rest)) := by
  have hwords : nameWords (first :: rest) = first :: rest := by
    refine if_neg ?_
    rintro rfl
    exact hfirst (by decide)
  unfold readNames
  rw [readFlags_written hlevel hwrites hvalid true hfirst]
  simp only [Except.bind, hwords]

end Names

/-! ### The meaning of the flags -/

theorem on_given (settings : List Setting) (s : Switch) :
    (settings.foldl Flags.give {}).on s = decide (.switch s ∈ settings) := by
  rw [Flags.on_foldl_give]
  cases s <;> rfl

/-- Flags are free of conflict if not both spellings are among them. -/
theorem consistent_given_iff (settings : List Setting) :
    (settings.foldl Flags.give {}).consistent = true ↔
      ¬ (.switch .flats ∈ settings ∧ .switch .sharps ∈ settings) := by
  have hflats : (settings.foldl Flags.give {}).flats = decide (.switch .flats ∈ settings) :=
    on_given settings .flats
  have hsharps : (settings.foldl Flags.give {}).sharps = decide (.switch .sharps ∈ settings) :=
    on_given settings .sharps
  unfold Flags.consistent
  rw [hflats, hsharps, ← Bool.decide_and, ← decide_not, decide_eq_true_eq]

section Joined
variable (call : Call)

/-- The flags that are read of both levels of a call. -/
def Call.flags : Flags := (call.outer.foldl Flags.give {}).join (call.inner.foldl Flags.give {})

theorem on_flags (s : Switch) (hs : s ≠ .own) : call.flags.on s = call.has s := by
  have hjoin : call.flags.on s =
      ((call.outer.foldl Flags.give {}).on s || (call.inner.foldl Flags.give {}).on s) := by
    cases s with
    | own => exact absurd rfl hs
    | _ => rfl
  unfold Call.has Call.settings
  rw [hjoin, on_given, on_given]
  simp only [List.mem_append, Bool.decide_or]

theorem options_flags : call.flags.options = call.options := by
  have hflats : call.flags.flats = call.has .flats := on_flags call .flats (by decide)
  have hsharps : call.flags.sharps = call.has .sharps := on_flags call .sharps (by decide)
  have hstrict : call.flags.strict = call.has .strict := on_flags call .strict (by decide)
  unfold Flags.options Call.options
  rw [hflats, hsharps, hstrict]

theorem outputFormat_flags : call.flags.outputFormat = call.format := by
  have hjson : call.flags.json = call.has .json := on_flags call .json (by decide)
  have hformat : call.flags.format = (call.settings.filterMap Setting.format?).getLast? := by
    unfold Call.flags Flags.join Call.settings
    rw [Flags.format_foldl_give, Flags.format_foldl_give, List.filterMap_append, List.getLast?_append]
    simp
  unfold Flags.outputFormat Call.format
  rw [hjson, hformat]

end Joined

/-- **Nothing else is taken for flags**: what is read in front of a command and behind it, and is free
of conflict, has been written by a valid call. -/
theorem exists_call {command : NameCommand} {word : String} (hword : word ∈ command.words)
    {before behind : List String} {outer inner : Flags}
    (houter : readFlags ⟨none, none⟩ false {} before = .ok (outer, []))
    (hinner : readFlags command.level true {} behind = .ok (inner, []))
    (hconsistent : outer.consistent = true ∧ inner.consistent = true) :
    ∃ call : Call, call.command = command ∧ call.Written (before ++ word :: behind) ∧ call.Valid ∧
      call.flags = outer.join inner := by
  have hlevel : ∀ name ∈ (⟨none, none⟩ : Level).own, name ∈ ownNames := by simp
  obtain ⟨first, before, rfl, hbefore, hfirst, -, rfl⟩ := exists_writes_of_readFlags hlevel houter
  obtain ⟨second, behind, rfl, hbehind, hsecond, -, rfl⟩ :=
    exists_writes_of_readFlags (own_level command) hinner
  simp only [List.append_nil]
  refine ⟨⟨command, first, second⟩, rfl, ⟨before, word, behind, rfl, hbefore, hword, hbehind⟩,
    ⟨⟨hfirst, ?_⟩, ⟨hsecond, ?_⟩⟩, rfl⟩
  · exact (consistent_given_iff first).mp hconsistent.1
  · exact (consistent_given_iff second).mp hconsistent.2

/-! ### Runs -/

/-- The program answers with what the library makes of the name. -/
theorem value_answer (call : Call) (verbose : Bool) (name : String) :
    (answer ⟨call.options, call.format, verbose, call.command.toCommand call.own name⟩).value =
      call.render name := by
  unfold answer Call.render
  cases call.command <;> rfl

section Run
variable {call : Call} {args : List String} (hargs : call.Written args) (hvalid : call.Valid)
  {first : String} (hfirst : first.toList.head? ≠ some '-')
include hargs hvalid hfirst

/-- **What a call asks for**: the command with the joined words, and what the flags stand for. -/
theorem parse_call (rest : List String) : Invocation.parse (args ++ first :: rest) =
    .ok ⟨call.options, call.format, call.flags.verbose,
      call.command.toCommand call.own (" ".intercalate (first :: rest))⟩ := by
  obtain ⟨before, word, behind, rfl, hbefore, hword, hbehind⟩ := hargs
  have hlevel : ∀ name ∈ (⟨none, none⟩ : Level).own, name ∈ ownNames := by simp
  have hplain : word.toList.head? ≠ some '-' := not_hyphen_of_mem_words hword
  have houter := readFlags_written hlevel hbefore hvalid.outer false hplain (behind ++ first :: rest)
  have hinner := readNames_written (own_level call.command) hbehind hvalid.inner hfirst rest
  have hown : (call.inner.foldl Flags.give {}).own = call.own := on_given call.inner .own
  have houter_consistent := (consistent_given_iff call.outer).mpr hvalid.outer.spelling
  have hinner_consistent := (consistent_given_iff call.inner).mpr hvalid.inner.spelling
  unfold Invocation.parse
  rw [List.append_assoc, List.cons_append, houter]
  simp only [Except.bind, readCommand_eq call.command hword, hinner, Except.map, hown,
    houter_consistent, hinner_consistent, Bool.and_self, if_true]
  rw [← options_flags, ← outputFormat_flags]
  rfl

/-- **A run of a call** is the same for a name in words and for the joined name. It prints what the
library makes of that name, with a line end, or the error of the resolver. -/
theorem run_call (rest : List String) :
    let name := " ".intercalate (first :: rest)
    let outcome := run (args ++ first :: rest)
    run (args ++ [name]) = outcome ∧
      match call.render name with
      | .ok text => outcome.code = 0 ∧ outcome.stdout = text ++ "\n"
      | .error e => outcome.code = 1 ∧ outcome.stdout = "" ∧
          outcome.stderr = "error [" ++ e.code ++ "]: " ++ e.message ++ "\n" := by
  intro name outcome
  have hwords := parse_call hargs hvalid hfirst rest
  have hjoined := parse_call hargs hvalid (head?_intercalate_ne hfirst rest) []
  rw [String.intercalate_singleton] at hjoined
  have houtcome : ∃ log, outcome = .ofAnswer log (call.render name) := by
    unfold outcome run
    rw [hwords, ← value_answer call call.flags.verbose]
    exact ⟨_, rfl⟩
  refine ⟨?_, ?_⟩
  · unfold outcome run
    rw [hwords, hjoined]
  · obtain ⟨log, houtcome⟩ := houtcome
    rw [houtcome]
    cases call.render name with
    | ok text => exact ⟨rfl, rfl⟩
    | error e => exact ⟨rfl, rfl, rfl⟩

end Run

/-- Where the name has begun, `-5` and `--json` are words of it. -/
theorem run_call_minor_chord :
    let args := ["--flats", "c", "--explain"]
    run (args ++ ["C#m -5 --json"]) = run (args ++ ["C#m", "-5", "--json"]) ∧
      (run (args ++ ["C#m", "-5", "--json"])).code = 0 := by
  have hflats : ["--flats"] ∈ (Setting.switch .flats).forms ⟨none, none⟩ := by decide
  have hexplain : ["--explain"] ∈ (Setting.switch .own).forms NameCommand.chord.level := by decide
  have hargs : (Call.mk .chord [.switch .flats] [.switch .own]).Written ["--flats", "c", "--explain"] :=
    ⟨["--flats"], "c", ["--explain"], rfl, .cons hflats .nil, by decide, .cons hexplain .nil⟩
  have hvalid : (Call.mk .chord [.switch .flats] [.switch .own]).Valid :=
    ⟨⟨by decide, by decide⟩, ⟨by decide, by decide⟩⟩
  have hok : ((Call.mk .chord [.switch .flats] [.switch .own]).render "C#m -5 --json").isOk = true := by
    decide
  have hfirst : "C#m".toList.head? ≠ some '-' := by decide
  obtain ⟨hjoined, hanswer⟩ := run_call hargs hvalid hfirst ["-5", "--json"]
  refine ⟨hjoined, ?_⟩
  have hname : " ".intercalate ["C#m", "-5", "--json"] = "C#m -5 --json" := by decide
  rw [hname] at hanswer
  split at hanswer
  · exact hanswer.1
  · rename_i e herror
    rw [herror] at hok
    cases hok

end Harmony.CommandLine
