import Harmony.CommandLine.Arguments
import Mathlib.Data.List.Nodup

/-! # Flags as they are written

A level of the arguments is a list of *settings*, each written in one of its forms. Reading gives back
what was written, as long as no flag is written twice, and stops at the first word.

* `Setting.forms`, `Writes`: how settings are written.
* `readFlags_of_writes`: what was written is read.
* `exists_writes_of_readFlags`: what is read was written, and no flag of it twice.
* `on_foldl_give`, `format_foldl_give`: what the flags are, by the settings. -/

namespace Harmony.CommandLine

/-! ### Settings -/

/-- The flags without a value. -/
inductive Switch where
  | json
  | flats
  | sharps
  | strict
  | verbose
  /-- The flag that the command alone has. -/
  | own
deriving Repr, DecidableEq

/-- One flag of the arguments. -/
inductive Setting where
  | switch (s : Switch)
  | format (f : OutputFormat)
deriving Repr, DecidableEq

/-- The name of the switch at a level. -/
def Switch.name? (level : Level) : Switch → Option String
  | .json => some "json"
  | .flats => some "flats"
  | .sharps => some "sharps"
  | .strict => some "strict"
  | .verbose => some "verbose"
  | .own => level.own

/-- The letter of the switch. -/
def Switch.letter? : Switch → Option Char
  | .verbose => some 'v'
  | _ => none

namespace Setting

/-- The switch that is set, none for a format. -/
def switch? : Setting → Option Switch
  | .switch s => some s
  | .format _ => none

/-- The format that is set, if any. -/
def format? : Setting → Option OutputFormat
  | .switch _ => none
  | .format f => some f

/-- **The forms of a setting** at a level, each one argument or two. -/
def forms (level : Level) : Setting → List (List String)
  | .switch s => (s.name? level).toList.map (fun name => ["--" ++ name]) ++
      s.letter?.toList.map fun c => [String.ofList ['-', c]]
  | .format f => [["--format", f.name], ["--format=" ++ f.name]]

end Setting

/-- **The settings are written by the arguments**, one behind the other. -/
inductive Writes (level : Level) : List Setting → List String → Prop
  | nil : Writes level [] []
  | cons {setting : Setting} {form : List String} {settings : List Setting} {args : List String}
      (hform : form ∈ setting.forms level) (h : Writes level settings args) :
      Writes level (setting :: settings) (form ++ args)

/-! ### Flags that are set -/

namespace Flags

/-- Is the switch on? -/
def on (flags : Flags) : Switch → Bool
  | .json => flags.json
  | .flats => flags.flats
  | .sharps => flags.sharps
  | .strict => flags.strict
  | .verbose => flags.verbose
  | .own => flags.own

/-- The flags with one more set. -/
def give (flags : Flags) : Setting → Flags
  | .switch .json => { flags with json := true }
  | .switch .flats => { flags with flats := true }
  | .switch .sharps => { flags with sharps := true }
  | .switch .strict => { flags with strict := true }
  | .switch .verbose => { flags with verbose := true }
  | .switch .own => { flags with own := true }
  | .format f => { flags with format := some f }

/-- The flag is not set yet. -/
def Lacks (flags : Flags) : Setting → Prop
  | .switch s => flags.on s = false
  | .format _ => flags.format = none

theorem on_give (flags : Flags) (setting : Setting) (s : Switch) :
    (flags.give setting).on s = (flags.on s || decide (setting = .switch s)) := by
  cases setting with
  | switch t => cases t <;> cases s <;> simp [give, on]
  | format f => cases s <;> simp [give, on]

theorem format_give (flags : Flags) (setting : Setting) :
    (flags.give setting).format = setting.format?.or flags.format := by
  cases setting with
  | switch s => cases s <;> rfl
  | format f => rfl

/-- A flag that is set leaves the others as they were. -/
theorem lacks_give_iff {flags : Flags} {setting other : Setting} :
    (flags.give setting).Lacks other ↔ flags.Lacks other ∧ other.switch? ≠ setting.switch? := by
  cases other with
  | switch s =>
    show (flags.give setting).on s = false ↔ flags.on s = false ∧ some s ≠ setting.switch?
    rw [on_give, Bool.or_eq_false_iff, decide_eq_false_iff_not]
    cases setting <;> simp [Setting.switch?, eq_comm (a := s)]
  | format f =>
    show (flags.give setting).format = none ↔ flags.format = none ∧ none ≠ setting.switch?
    rw [format_give]
    cases setting <;> simp [Setting.switch?, Setting.format?]

variable (flags : Flags) (settings : List Setting)

/-- **A switch is on** if it is among the settings. -/
theorem on_foldl_give (s : Switch) :
    (settings.foldl give flags).on s = (flags.on s || decide (.switch s ∈ settings)) := by
  induction settings generalizing flags with
  | nil => simp
  | cons setting settings ih =>
    rw [List.foldl_cons, ih, on_give]
    simp [List.mem_cons, eq_comm, Bool.or_assoc, Bool.decide_or]

/-- **The format** is the last one among the settings. -/
theorem format_foldl_give : (settings.foldl give flags).format =
    (settings.filterMap Setting.format?).getLast?.or flags.format := by
  induction settings generalizing flags with
  | nil => rfl
  | cons setting settings ih =>
    rw [List.foldl_cons, ih, format_give]
    cases setting with
    | switch s => rfl
    | format f =>
      have hformats : (Setting.format f :: settings).filterMap Setting.format? =
          f :: settings.filterMap Setting.format? := rfl
      rw [hformats, List.getLast?_cons]
      cases (settings.filterMap Setting.format?).getLast? <;> rfl

end Flags

/-! ### One argument -/

theorem Argument.of_eq_word {text : String} (h : text.toList.head? ≠ some '-') :
    Argument.of text = .word := by
  unfold Argument.of
  cases htext : text.toList with
  | nil => rfl
  | cons c cs =>
    rw [htext] at h
    have hc : c ≠ '-' := fun hc => h (congrArg some hc)
    split <;> simp_all

/-- The names that a command may give to its own flag. -/
def ownNames : List String := ["explain", "scale", "detail"]

/-- The names of switches. -/
def switchNames : List String := ["json", "flats", "sharps", "strict", "verbose"] ++ ownNames

theorem of_long : ∀ name ∈ switchNames,
    Argument.of ("--" ++ name) = .long name none ∧ name ≠ "format" := by decide

section Reading
variable {level : Level} (hlevel : ∀ name ∈ level.own, name ∈ ownNames) {lenient : Bool}
include hlevel

theorem mem_switchNames {s : Switch} {name : String} (hname : name ∈ s.name? level) :
    name ∈ switchNames := by
  cases s with
  | own => exact List.mem_append_right _ (hlevel name hname)
  | _ =>
    obtain rfl := Option.some.inj hname
    decide

theorem set?_of_lacks {flags : Flags} {s : Switch} {name : String} (hname : name ∈ s.name? level)
    (hlacks : flags.on s = false) :
    flags.set? level name = some (.ok (flags.give (.switch s))) := by
  cases s with
  | own =>
    have hown : some name = level.own := hname.symm
    have hoff : flags.own = false := hlacks
    unfold Flags.set? once
    rw [if_pos hown, hoff]
    rfl
  | _ =>
    obtain rfl := Option.some.inj hname
    -- a command does not name its own flag like a flag of all commands
    have hown : ∀ name ∉ ownNames, ¬ some name = level.own := fun name hname h =>
      hname (hlevel name h.symm)
    unfold Flags.on at hlacks
    simp [Flags.set?, hown, ownNames, once, hlacks, Flags.give]

theorem setLetter_of_lacks {flags : Flags} (hlacks : flags.verbose = false) :
    flags.setLetter level 'v' = .ok (flags.give (.switch .verbose)) := by
  have hset : flags.set? level "verbose" = some (.ok (flags.give (.switch .verbose))) :=
    set?_of_lacks hlevel rfl hlacks
  unfold Flags.setLetter letterFlag?
  rw [if_pos rfl, Option.bind_some, hset]
  rfl

omit hlevel in
theorem setFormat_of_lacks {flags : Flags} (hlacks : flags.format = none) (f : OutputFormat) :
    flags.setFormat f.name = .ok (flags.give (.format f)) := by
  unfold Flags.setFormat
  rw [hlacks]
  cases f <;> rfl

omit hlevel in
theorem eq_of_letter? {s : Switch} {c : Char} (h : s.letter? = some c) : s = .verbose ∧ c = 'v' := by
  cases s with
  | verbose => exact ⟨rfl, (Option.some.inj h).symm⟩
  | _ => cases h

/-- **A form is read** if its flag is not set yet. -/
theorem readFlags_form {flags : Flags} {setting : Setting} {form : List String}
    (hform : form ∈ setting.forms level) (hlacks : flags.Lacks setting) (args : List String) :
    readFlags level lenient flags (form ++ args) =
      readFlags level lenient (flags.give setting) args := by
  cases setting with
  | switch s =>
    rcases List.mem_append.mp hform with hform | hform
    · obtain ⟨name, hname, rfl⟩ := List.mem_map.mp hform
      rw [Option.mem_toList] at hname
      obtain ⟨hlong, hformat⟩ := of_long name (mem_switchNames hlevel hname)
      rw [List.singleton_append, readFlags.eq_def]
      simp only [hlong, if_neg hformat, set?_of_lacks hlevel hname hlacks]
      rfl
    · obtain ⟨c, hc, rfl⟩ := List.mem_map.mp hform
      rw [Option.mem_toList] at hc
      obtain ⟨rfl, rfl⟩ := eq_of_letter? hc
      have hshort : Argument.of (String.ofList ['-', 'v']) = .short ['v'] := by decide
      have hknown : (lenient && ['v'].any fun c => (letterFlag? c).isNone) = false :=
        Bool.and_false lenient
      rw [List.singleton_append, readFlags.eq_def]
      simp only [hshort, hknown, List.foldlM_cons, setLetter_of_lacks hlevel hlacks]
      rfl
  | format f =>
    have hset := setFormat_of_lacks hlacks f
    have hlong : Argument.of "--format" = .long "format" none ∧
        Argument.of ("--format=" ++ f.name) = .long "format" (some f.name) := by
      cases f <;> decide
    rcases List.mem_pair.mp hform with rfl | rfl
    · rw [List.cons_append, readFlags.eq_def]
      simp only [hlong.1, List.singleton_append, hset]
      rfl
    · rw [List.singleton_append, readFlags.eq_def]
      simp only [hlong.2, hset]
      rfl

/-- **What was written is read**, if no flag is written twice. -/
theorem readFlags_of_writes {flags : Flags} {settings : List Setting} {args : List String}
    (hwrites : Writes level settings args) (hdistinct : (settings.map Setting.switch?).Nodup)
    (hlacks : ∀ setting ∈ settings, flags.Lacks setting) (rest : List String) :
    readFlags level lenient flags (args ++ rest) =
      readFlags level lenient (settings.foldl Flags.give flags) rest := by
  induction hwrites generalizing flags with
  | nil => rfl
  | cons hform hwrites ih =>
    rename_i setting form settings args
    obtain ⟨hfirst, hdistinct⟩ := List.nodup_cons.mp hdistinct
    obtain ⟨hsetting, hlacks⟩ := List.forall_mem_cons.mp hlacks
    -- the flags behind are not those that are set first
    have hbehind : ∀ other ∈ settings, (flags.give setting).Lacks other := by
      intro other hother
      refine Flags.lacks_give_iff.mpr ⟨hlacks other hother, fun hsame => hfirst ?_⟩
      rw [← hsame]
      exact List.mem_map_of_mem hother
    rw [List.append_assoc, readFlags_form hlevel hform hsetting, ih hdistinct hbehind,
      List.foldl_cons]

end Reading

theorem readFlags_word {level : Level} {lenient : Bool} {flags : Flags} {word : String}
    (hword : Argument.of word = .word) (rest : List String) :
    readFlags level lenient flags (word :: rest) = .ok (flags, word :: rest) := by
  rw [readFlags.eq_def]
  simp only [hword]

/-! ### What is read was written -/

theorem eq_of_longArgument {cs : List Char} {name : String} {value : Option String}
    (h : longArgument cs = .long name value) :
    cs = name.toList ++ value.elim [] fun value => '=' :: value.toList := by
  unfold longArgument at h
  have hsplit := List.takeWhile_append_dropWhile (p := (· != '=')) (l := cs)
  split at h
  · rename_i hnil
    obtain ⟨rfl, rfl⟩ := Argument.long.inj h
    rw [hnil] at hsplit
    rw [String.toList_ofList]
    exact hsplit.symm
  · rename_i c behind hcons
    obtain ⟨rfl, rfl⟩ := Argument.long.inj h
    have hc : c = '=' := by
      have hhead := List.head?_dropWhile_not (· != '=') cs
      rw [hcons] at hhead
      simpa using hhead
    subst hc
    rw [hcons] at hsplit
    rw [String.toList_ofList]
    simpa using hsplit.symm

theorem eq_of_long {text name : String} {value : Option String}
    (h : Argument.of text = .long name value) :
    text = "--" ++ name ++ value.elim "" ("=" ++ ·) := by
  unfold Argument.of at h
  split at h
  · cases h
  · rename_i cs _ htext
    rw [← String.toList_inj, htext, eq_of_longArgument h]
    cases value <;> simp
  · cases h
  · cases h

theorem eq_of_short {text : String} {letters : List Char} (h : Argument.of text = .short letters) :
    text = String.ofList ('-' :: letters) ∧ letters ≠ [] := by
  unfold Argument.of at h
  split at h
  · cases h
  · unfold longArgument at h
    split at h <;> cases h
  · rename_i c cs _ _ htext
    obtain rfl := Argument.short.inj h
    rw [← String.toList_inj, htext, String.toList_ofList]
    exact ⟨rfl, List.cons_ne_nil _ _⟩
  · cases h

/-- Both steps of a reading that succeeds do. -/
theorem exists_of_bind_eq_ok {α β : Type} {step : Except Stop α} {next : α → Except Stop β} {b : β}
    (h : step.bind next = .ok b) : ∃ a, step = .ok a ∧ next a = .ok b := by
  cases step with
  | error stop => cases h
  | ok a => exact ⟨a, rfl, h⟩

section Written
variable {level : Level} {lenient : Bool} {flags result : Flags}

/-- A switch that is set once was off. -/
theorem exists_switch_of_once (s : Switch) {name : String} (hname : name ∈ s.name? level)
    (h : some (once (flags.on s) (flags.give (.switch s))) = some (.ok result)) :
    ∃ s : Switch, name ∈ s.name? level ∧ flags.on s = false ∧ result = flags.give (.switch s) := by
  have honce := Option.some.inj h
  unfold once at honce
  split_ifs at honce with hon
  exact ⟨s, hname, Bool.eq_false_iff.mpr hon, (Except.ok.inj honce).symm⟩

theorem eq_of_set? {name : String} (h : flags.set? level name = some (.ok result)) :
    ∃ s : Switch, name ∈ s.name? level ∧ flags.on s = false ∧ result = flags.give (.switch s) := by
  unfold Flags.set? at h
  split_ifs at h with hown hjson hflats hsharps hstrict hverbose hversion hhelp
  · exact exists_switch_of_once .own hown.symm h
  · exact exists_switch_of_once .json (congrArg some hjson.symm) h
  · exact exists_switch_of_once .flats (congrArg some hflats.symm) h
  · exact exists_switch_of_once .sharps (congrArg some hsharps.symm) h
  · exact exists_switch_of_once .strict (congrArg some hstrict.symm) h
  · exact exists_switch_of_once .verbose (congrArg some hverbose.symm) h
  · cases h
  · cases h

theorem eq_of_setFormat {value : String} (h : flags.setFormat value = .ok result) :
    ∃ f : OutputFormat, value = f.name ∧ flags.format = none ∧ result = flags.give (.format f) := by
  unfold Flags.setFormat at h
  split_ifs at h with hsome hyaml hjson
  · exact ⟨.yaml, hyaml, Option.not_isSome_iff_eq_none.mp hsome, (Except.ok.inj h).symm⟩
  · exact ⟨.json, hjson, Option.not_isSome_iff_eq_none.mp hsome, (Except.ok.inj h).symm⟩

variable (hlevel : ∀ name ∈ level.own, name ∈ ownNames)
include hlevel

theorem eq_of_setLetter {c : Char} (h : flags.setLetter level c = .ok result) :
    c = 'v' ∧ flags.verbose = false ∧ result = flags.give (.switch .verbose) := by
  have hset : (letterFlag? c).bind (flags.set? level) = some (.ok result) := by
    unfold Flags.setLetter at h
    cases hset : (letterFlag? c).bind (flags.set? level) with
    | none =>
      rw [hset] at h
      cases h
    | some set =>
      rw [hset] at h
      exact congrArg some h
  obtain ⟨name, hletter, hset⟩ := Option.bind_eq_some_iff.mp hset
  obtain ⟨s, hname, hoff, rfl⟩ := eq_of_set? hset
  have hmem := mem_switchNames hlevel hname
  unfold letterFlag? at hletter
  split_ifs at hletter with hv hV hh
  · obtain rfl := Option.some.inj hletter
    cases s with
    | verbose => exact ⟨hv, hoff, rfl⟩
    | own => exact absurd (hlevel _ hname) (by decide)
    | _ => exact absurd (Option.some.inj hname) (by decide)
  -- the other letters have no switch
  · obtain rfl := Option.some.inj hletter
    exact absurd hmem (by decide)
  · obtain rfl := Option.some.inj hletter
    exact absurd hmem (by decide)

theorem eq_of_foldlM_setLetter {letters : List Char} (hne : letters ≠ [])
    (h : letters.foldlM (Flags.setLetter level) flags = .ok result) :
    letters = ['v'] ∧ flags.verbose = false ∧ result = flags.give (.switch .verbose) := by
  obtain ⟨c, cs, rfl⟩ := List.exists_cons_of_ne_nil hne
  rw [List.foldlM_cons] at h
  obtain ⟨between, hc, h⟩ := exists_of_bind_eq_ok h
  obtain ⟨rfl, hoff, rfl⟩ := eq_of_setLetter hlevel hc
  cases cs with
  | nil => exact ⟨rfl, hoff, (Except.ok.inj h).symm⟩
  | cons d cs =>
    -- a second letter would set the flag once more
    rw [List.foldlM_cons] at h
    obtain ⟨more, hd, -⟩ := exists_of_bind_eq_ok h
    cases (eq_of_setLetter hlevel hd).2.1

/-- A form in front of the arguments is read, and flags behind it. -/
def ReadsForm (level : Level) (lenient : Bool) (flags : Flags) (args : List String) (result : Flags)
    (rest : List String) : Prop :=
  ∃ setting, ∃ form ∈ setting.forms level, ∃ behind, args = form ++ behind ∧ flags.Lacks setting ∧
    readFlags level lenient (flags.give setting) behind = .ok (result, rest)

omit hlevel in
theorem readsForm_of_format {arg : String} {value : Option String} {args rest : List String}
    (harg : Argument.of arg = .long "format" value)
    (h : readFlags level lenient flags (arg :: args) = .ok (result, rest)) :
    ReadsForm level lenient flags (arg :: args) result rest := by
  have htext := eq_of_long harg
  rw [readFlags.eq_def] at h
  simp only [harg, if_true] at h
  cases value with
  | some value =>
    obtain ⟨set, hset, h⟩ := exists_of_bind_eq_ok h
    obtain ⟨f, rfl, hnone, rfl⟩ := eq_of_setFormat hset
    have hform : arg = "--format=" ++ f.name := by
      rw [htext]
      cases f <;> decide
    refine ⟨.format f, [arg], ?_, args, rfl, hnone, h⟩
    rw [hform]
    exact List.mem_cons_of_mem _ List.mem_cons_self
  | none =>
    obtain rfl : arg = "--format" := htext
    cases args with
    | nil => cases h
    | cons value args =>
      obtain ⟨set, hset, h⟩ := exists_of_bind_eq_ok h
      obtain ⟨f, rfl, hnone, rfl⟩ := eq_of_setFormat hset
      exact ⟨.format f, ["--format", f.name], List.mem_cons_self, args, rfl, hnone, h⟩

omit hlevel in
theorem readsForm_of_switch {arg name : String} {value : Option String} {args rest : List String}
    {set : Except Stop Flags} (harg : Argument.of arg = .long name value) (hformat : name ≠ "format")
    (hset : flags.set? level name = some set)
    (h : readFlags level lenient flags (arg :: args) = .ok (result, rest)) :
    ReadsForm level lenient flags (arg :: args) result rest := by
  have htext := eq_of_long harg
  rw [readFlags.eq_def] at h
  simp only [harg, if_neg hformat, hset] at h
  cases value with
  | some value => cases h
  | none =>
    obtain rfl : arg = "--" ++ name := htext.trans String.append_empty
    obtain ⟨given, rfl, h⟩ := exists_of_bind_eq_ok h
    obtain ⟨s, hname, hoff, rfl⟩ := eq_of_set? hset
    have hform := List.mem_map_of_mem (f := fun name => ["--" ++ name]) (Option.mem_toList.mpr hname)
    exact ⟨.switch s, ["--" ++ name], List.mem_append_left _ hform, args, rfl, hoff, h⟩

/-- **One step of a reading**: it stops, or reads a form. -/
theorem stops_or_readsForm {args rest : List String}
    (h : readFlags level lenient flags args = .ok (result, rest)) :
    args = rest ∧ result = flags ∨ ReadsForm level lenient flags args result rest := by
  have hstops : ∀ {args}, (Except.ok (flags, args) : Except Stop _) = .ok (result, rest) →
      args = rest ∧ result = flags := by
    intro args h
    obtain ⟨rfl, rfl⟩ := Prod.mk.inj (Except.ok.inj h)
    exact ⟨rfl, rfl⟩
  cases args with
  | nil => exact Or.inl (hstops h)
  | cons arg args =>
    have hstep := h
    rw [readFlags.eq_def] at hstep
    cases harg : Argument.of arg with
    | escape | word =>
      simp only [harg] at hstep
      exact Or.inl (hstops hstep)
    | long name value =>
      by_cases hformat : name = "format"
      · subst hformat
        exact Or.inr (readsForm_of_format harg h)
      · cases hset : flags.set? level name with
        | some set => exact Or.inr (readsForm_of_switch harg hformat hset h)
        | none =>
          simp only [harg, if_neg hformat, hset] at hstep
          cases lenient with
          | true => exact Or.inl (hstops hstep)
          | false => cases hstep
    | short letters =>
      obtain ⟨htext, hne⟩ := eq_of_short harg
      simp only [harg] at hstep
      split_ifs at hstep
      · exact Or.inl (hstops hstep)
      · obtain ⟨set, hset, hstep⟩ := exists_of_bind_eq_ok hstep
        obtain ⟨rfl, hoff, rfl⟩ := eq_of_foldlM_setLetter hlevel hne hset
        have hform : [arg] ∈ (Setting.switch .verbose).forms level := by
          rw [htext]
          exact List.mem_cons_of_mem _ List.mem_cons_self
        exact Or.inr ⟨.switch .verbose, [arg], hform, args, rfl, hoff, hstep⟩

omit hlevel in
theorem length_pos_of_mem_forms {setting : Setting} {form : List String}
    (hform : form ∈ setting.forms level) : 0 < form.length := by
  cases setting with
  | switch s =>
    rcases List.mem_append.mp hform with hform | hform
    · obtain ⟨name, -, rfl⟩ := List.mem_map.mp hform
      exact Nat.one_pos
    · obtain ⟨c, -, rfl⟩ := List.mem_map.mp hform
      exact Nat.one_pos
  | format f =>
    rcases List.mem_pair.mp hform with rfl | rfl
    · exact Nat.two_pos
    · exact Nat.one_pos

/-- **What is read was written**, and no flag of it twice. -/
theorem exists_writes_of_readFlags {args rest : List String}
    (h : readFlags level lenient flags args = .ok (result, rest)) :
    ∃ settings written, args = written ++ rest ∧ Writes level settings written ∧
      (settings.map Setting.switch?).Nodup ∧ (∀ setting ∈ settings, flags.Lacks setting) ∧
      result = settings.foldl Flags.give flags := by
  -- a form may be two arguments, so the induction is on their number
  induction hlength : args.length using Nat.strongRecOn generalizing args flags with
  | ind n ih =>
    rcases stops_or_readsForm hlevel h with ⟨rfl, rfl⟩ | ⟨setting, form, hform, behind, rfl, hsetting, h⟩
    · exact ⟨[], [], rfl, .nil, List.nodup_nil, List.forall_mem_nil _, rfl⟩
    · have hpos := length_pos_of_mem_forms hform
      rw [List.length_append] at hlength
      obtain ⟨settings, written, rfl, hwrites, hdistinct, hlacks, hresult⟩ :=
        ih behind.length (by omega) h rfl
      refine ⟨setting :: settings, form ++ written, (List.append_assoc _ _ _).symm,
        .cons hform hwrites, List.nodup_cons.mpr ⟨?_, hdistinct⟩,
        List.forall_mem_cons.mpr ⟨hsetting, ?_⟩, hresult⟩
      · intro htwice
        obtain ⟨other, hother, hsame⟩ := List.mem_map.mp htwice
        exact (Flags.lacks_give_iff.mp (hlacks other hother)).2 hsame
      · exact fun other hother => (Flags.lacks_give_iff.mp (hlacks other hother)).1

end Written

end Harmony.CommandLine
