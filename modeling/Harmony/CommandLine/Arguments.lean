import Harmony.Decimal.Reading
import Harmony.Document
import Harmony.Options
import Harmony.Rule

/-! # Command line arguments

The arguments are the global flags, a command, and the arguments of the command, among which the
global flags may stand again.

* `Argument`: what one argument looks like.
* `Flags`: the flags read at one level. A flag stands at most once at each level, and `--flats` and
  `--sharps` exclude each other there.
* `readNames`: the commands with a name. Flags end where the name begins, and everything from there on
  belongs to the name. What is no flag begins the name, even behind a hyphen.
* `readListing`, `readPitch`: the other commands.
* `Invocation.parse`: what is asked for, or why there is nothing to do. -/

namespace Harmony.CommandLine

/-- A command with its arguments. -/
inductive Command where
  | chord (explain : Bool) (name : String)
  | scale (explain : Bool) (name : String)
  | key (withScale : Bool) (name : String)
  | rules (kind : RuleKind) (detail : Bool)
  | pitch (note : String) (octave : Option String) (tuning : Float)

/-- What is asked for. -/
structure Invocation where
  options : ResolveOptions
  format : OutputFormat
  /-- Are the records of the resolution shown? -/
  verbose : Bool
  command : Command

/-- Why there is nothing to resolve. -/
inductive Stop where
  /-- The arguments have no meaning. -/
  | usage
  /-- The version is asked for, of the program or of a command. -/
  | version (command : Option String)
  /-- An explanation of the arguments is asked for. -/
  | help
deriving Repr, DecidableEq

/-! ### One argument -/

/-- What an argument looks like. -/
inductive Argument where
  /-- `--` -/
  | escape
  /-- `--name` or `--name=value` -/
  | long (name : String) (value : Option String)
  /-- `-abc` -/
  | short (letters : List Char)
  /-- Anything else. -/
  | word
deriving Repr, DecidableEq

/-- The parts of a long flag. -/
def longArgument (cs : List Char) : Argument :=
  let name := String.ofList (cs.takeWhile (· != '='))
  match cs.dropWhile (· != '=') with
  | [] => .long name none
  | _ :: value => .long name (some (String.ofList value))

/-- What an argument looks like. A single hyphen is a word. -/
def Argument.of (text : String) : Argument :=
  match text.toList with
  | ['-', '-'] => .escape
  | '-' :: '-' :: cs => longArgument cs
  | '-' :: c :: cs => .short (c :: cs)
  | _ => .word

/-! ### Flags -/

/-- The flags read at one level. -/
structure Flags where
  format : Option OutputFormat := none
  json : Bool := false
  flats : Bool := false
  sharps : Bool := false
  strict : Bool := false
  verbose : Bool := false
  /-- The flag that the command alone has. -/
  own : Bool := false
deriving Repr, DecidableEq

/-- A level of the arguments: the program or a command. -/
structure Level where
  /-- The name of the command. -/
  command : Option String
  /-- The name of its own flag. -/
  own : Option String
deriving Repr, DecidableEq

/-- Flags after one that may be set once. -/
def once (already : Bool) (flags : Flags) : Except Stop Flags :=
  if already then .error .usage else .ok flags

/-- Sets the flag of a name; none if there is no such flag. -/
def Flags.set? (level : Level) (flags : Flags) (name : String) : Option (Except Stop Flags) :=
  if some name = level.own then some (once flags.own { flags with own := true })
  else if name = "json" then some (once flags.json { flags with json := true })
  else if name = "flats" then some (once flags.flats { flags with flats := true })
  else if name = "sharps" then some (once flags.sharps { flags with sharps := true })
  else if name = "strict" then some (once flags.strict { flags with strict := true })
  else if name = "verbose" then some (once flags.verbose { flags with verbose := true })
  else if name = "version" then some (.error (.version level.command))
  else if name = "help" then some (.error .help)
  else none

/-- The flag that a letter stands for. -/
def letterFlag? (c : Char) : Option String :=
  if c = 'v' then some "verbose"
  else if c = 'V' then some "version"
  else if c = 'h' then some "help"
  else none

/-- Sets the flag of a letter. -/
def Flags.setLetter (level : Level) (flags : Flags) (c : Char) : Except Stop Flags :=
  ((letterFlag? c).bind (flags.set? level)).getD (.error .usage)

/-- Sets the format, by its exact name. -/
def Flags.setFormat (flags : Flags) (value : String) : Except Stop Flags :=
  if flags.format.isSome then .error .usage
  else if value = "yaml" then .ok { flags with format := some .yaml }
  else if value = "json" then .ok { flags with format := some .json }
  else .error .usage

/-- Are the flags of one level free of conflict? -/
def Flags.consistent (flags : Flags) : Bool := !(flags.flats && flags.sharps)

/-- The flags of the program and of the command together. The format of the command counts first. -/
def Flags.join (outer inner : Flags) : Flags :=
  { format := inner.format.or outer.format
    json := outer.json || inner.json
    flats := outer.flats || inner.flats
    sharps := outer.sharps || inner.sharps
    strict := outer.strict || inner.strict
    verbose := outer.verbose || inner.verbose
    own := inner.own }

/-- The options of resolution. -/
def Flags.options (flags : Flags) : ResolveOptions :=
  { spelling := if flags.flats then some .flat else if flags.sharps then some .sharp else none
    strict := flags.strict }

/-- The format of the answer. -/
def Flags.outputFormat (flags : Flags) : OutputFormat :=
  if flags.json then .json else flags.format.getD .yaml

/-- Reads flags up to the first argument that is none, and gives back the rest. An unknown flag ends
them where `lenient` is set and is an error elsewhere. -/
def readFlags (level : Level) (lenient : Bool) (flags : Flags) :
    List String → Except Stop (Flags × List String)
  | [] => .ok (flags, [])
  | arg :: args =>
    match Argument.of arg with
    | .escape | .word => .ok (flags, arg :: args)
    | .long name value =>
      if name = "format" then
        match value with
        | some value => (flags.setFormat value).bind (readFlags level lenient · args)
        | none =>
          match args with
          | [] => .error .usage
          | value :: args => (flags.setFormat value).bind (readFlags level lenient · args)
      else
        match flags.set? level name with
        | some result =>
          if value.isSome then .error .usage else result.bind (readFlags level lenient · args)
        | none => if lenient then .ok (flags, arg :: args) else .error .usage
    | .short letters =>
      if lenient && letters.any fun c => (letterFlag? c).isNone then .ok (flags, arg :: args)
      else (letters.foldlM (Flags.setLetter level) flags).bind (readFlags level lenient · args)

/-! ### Commands -/

/-- The words of a name. A `--` in front of all of them is dropped. -/
def nameWords : List String → List String
  | [] => []
  | word :: words => if word = "--" then words else word :: words

/-- **The flags and the name of a command with a name.** The words are joined by single blanks. -/
def readNames (level : Level) (args : List String) : Except Stop (Flags × String) :=
  (readFlags level true {} args).bind fun (flags, rest) =>
    match nameWords rest with
    | [] => .error .usage
    | words => .ok (flags, " ".intercalate words)

/-- The flags of a listing. There are no words. -/
def readListing (level : Level) (args : List String) : Except Stop Flags :=
  (readFlags level false {} args).bind fun (flags, rest) =>
    if rest = [] ∨ rest = ["--"] then .ok flags else .error .usage

/-- What has been read of the arguments of a pitch. -/
structure PitchArguments where
  flags : Flags := {}
  note : Option String := none
  octave : Option String := none
  tuning : Option Float := none

namespace PitchArguments

/-- Takes a word as the note, or else as the octave. -/
def addWord (read : PitchArguments) (word : String) : Except Stop PitchArguments :=
  match read.note, read.octave with
  | none, _ => .ok { read with note := some word }
  | some _, none => .ok { read with octave := some word }
  | some _, some _ => .error .usage

/-- Sets the tuning. -/
def setTuning (read : PitchArguments) (value : String) : Except Stop PitchArguments :=
  match read.tuning, Decimal.readFloat? value.toList with
  | none, some tuning => .ok { read with tuning := some tuning }
  | _, _ => .error .usage

/-- Is the octave due next? -/
def octaveDue (read : PitchArguments) : Bool := read.note.isSome && read.octave.isNone

/-- Is there something behind the sign of an exponent, and nothing but digits? -/
def isExponentDigits (cs : List Char) : Bool := cs != [] && cs.all Char.isDigit

/-- The form of a number behind a hyphen: digits, at most one point behind the first of them, and at
most one `e`, behind which more follows. -/
def isUnsigned (cs : List Char) : Bool :=
  let whole := cs.takeWhile Char.isDigit
  let rest := cs.dropWhile Char.isDigit
  let rest :=
    match rest with
    | '.' :: more => if whole = [] then rest else more.dropWhile Char.isDigit
    | _ => rest
  match rest with
  | [] => true
  | 'e' :: digits => whole != [] && isExponentDigits digits
  | _ => false

/-- Is an argument behind a hyphen taken as a word? A negative octave is. -/
def takesNegative (read : PitchArguments) (letters : List Char) : Bool :=
  read.octaveDue && isUnsigned letters

/-- Is an argument taken as the value of the flag before it? -/
def takesValue (read : PitchArguments) (arg : String) : Bool :=
  match Argument.of arg with
  | .word => true
  | .short letters => read.takesNegative letters
  | _ => false

end PitchArguments

/-- The level of the pitch command. -/
def pitchLevel : Level := ⟨some "pitch", none⟩

/-- Reads the letters of a short argument: the flags, and the text behind a `t`, if there is one, as
the value of the tuning. An equals sign in front of the value is dropped. -/
def readLetters (flags : Flags) : List Char → Except Stop (Flags × Option (List Char))
  | [] => .ok (flags, none)
  | c :: cs =>
    if c = 't' then .ok (flags, some (match cs with
      | '=' :: value => if value = [] then ['='] else value
      | value => value))
    else (flags.setLetter pitchLevel c).bind (readLetters · cs)

open PitchArguments in
/-- **The arguments of a pitch**, read behind those before. -/
def readPitch (read : PitchArguments) : List String → Except Stop PitchArguments
  | [] => .ok read
  | arg :: args =>
    match Argument.of arg with
    | .escape => args.foldlM addWord read
    | .word => (read.addWord arg).bind (readPitch · args)
    | .long name value =>
      if name = "format" then
        match value with
        | some value =>
          (read.flags.setFormat value).bind fun flags => readPitch { read with flags } args
        | none =>
          match args with
          | [] => .error .usage
          | value :: args =>
            (read.flags.setFormat value).bind fun flags => readPitch { read with flags } args
      else if name = "tuning" then
        match value with
        | some value => (read.setTuning value).bind (readPitch · args)
        | none =>
          match args with
          | [] => .error .usage
          | value :: args =>
            if read.takesValue value then (read.setTuning value).bind (readPitch · args)
            else .error .usage
      else
        match read.flags.set? pitchLevel name with
        | some result =>
          if value.isSome then .error .usage
          else result.bind fun flags => readPitch { read with flags } args
        | none => .error .usage
    | .short letters =>
      if read.takesNegative letters then (read.addWord arg).bind (readPitch · args)
      else
        match readLetters read.flags letters with
        | .error stop => .error stop
        | .ok (flags, none) => readPitch { read with flags } args
        | .ok (flags, some (c :: cs)) =>
          ({ read with flags }.setTuning (String.ofList (c :: cs))).bind (readPitch · args)
        | .ok (flags, some []) =>
          match args with
          | [] => .error .usage
          | value :: args =>
            if read.takesValue value then
              ({ read with flags }.setTuning value).bind (readPitch · args)
            else .error .usage

/-- A command with the flags at its level. -/
def readCommand (name : String) (args : List String) : Except Stop (Flags × Command) :=
  if name = "chord" ∨ name = "c" then
    (readNames ⟨some "chord", some "explain"⟩ args).map fun (flags, name) =>
      (flags, .chord flags.own name)
  else if name = "scale" ∨ name = "s" then
    (readNames ⟨some "scale", some "explain"⟩ args).map fun (flags, name) =>
      (flags, .scale flags.own name)
  else if name = "key" ∨ name = "k" then
    (readNames ⟨some "key", some "scale"⟩ args).map fun (flags, name) =>
      (flags, .key flags.own name)
  else if name = "chords" then
    (readListing ⟨some "chords", some "detail"⟩ args).map fun flags =>
      (flags, .rules .chord flags.own)
  else if name = "scales" then
    (readListing ⟨some "scales", some "detail"⟩ args).map fun flags =>
      (flags, .rules .scale flags.own)
  else if name = "pitch" ∨ name = "p" then
    (readPitch {} args).bind fun read =>
      match read.note with
      | some note => .ok (read.flags, .pitch note read.octave (read.tuning.getD 440.0))
      | none => .error .usage
  else if name = "help" then .error .help
  else .error .usage

/-- **What the arguments ask for.** -/
def Invocation.parse (args : List String) : Except Stop Invocation :=
  (readFlags ⟨none, none⟩ false {} args).bind fun (outer, rest) =>
    match rest with
    | [] => .error .usage
    | name :: args =>
      (readCommand name args).bind fun (inner, command) =>
        if inner.consistent && outer.consistent then
          let flags := outer.join inner
          .ok ⟨flags.options, flags.outputFormat, flags.verbose, command⟩
        else .error .usage

end Harmony.CommandLine
