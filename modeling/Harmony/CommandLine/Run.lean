import Harmony.CommandLine.Arguments
import Harmony.Report

/-! # Running the command line

`run` gives for any arguments the exit code and what is printed. Names that cannot be resolved give
code 1 and a line on the error stream; arguments without a meaning give code 2. The records of the
resolution are shown where the arguments ask for them. -/

namespace Harmony.CommandLine

/-- What a run leaves behind. -/
structure Outcome where
  code : Nat
  stdout : String
  /-- The records that are shown. -/
  log : List LogRecord
  stderr : String
deriving Repr, DecidableEq

/-- The name under which the program speaks of itself. -/
def programName : String := "music-theory"

/-- The line that tells the version of the program or of a command. -/
def versionLine (command : Option String) : String :=
  match command with
  | some command => programName ++ "-" ++ command ++ " 0.1.0\n"
  | none => programName ++ " 0.1.0\n"

/-- The forms of the arguments. -/
def usageText : String :=
  "Usage: " ++ programName ++ " [FLAGS] chord|scale|key [FLAGS] NAME...\n" ++
  "       " ++ programName ++ " [FLAGS] chords|scales [--detail]\n" ++
  "       " ++ programName ++ " [FLAGS] pitch NOTE [OCTAVE] [--tuning HZ]\n" ++
  "Flags: --format yaml|json, --json, --flats, --sharps, --strict, --verbose\n"

/-- The answer to a command, with the records of its resolution. -/
def answer (invocation : Invocation) : Traced (Except ResolveError String) :=
  match invocation.command with
  | .chord explain name => Report.chord name invocation.options explain invocation.format
  | .scale explain name => Report.scale name invocation.options explain invocation.format
  | .key withScale name => Report.key name invocation.options withScale invocation.format
  | .rules kind detail => .quiet (.ok (Report.rules kind detail invocation.format))
  | .pitch note octave tuning =>
    Report.pitch note octave { tuning := tuning } invocation.format

/-- The line that reports an error. -/
def errorLine (e : ResolveError) : String := "error [" ++ e.code ++ "]: " ++ e.message ++ "\n"

/-- The records that are shown: those of the debug level, if they are asked for. -/
def shown (verbose : Bool) (log : List LogRecord) : List LogRecord :=
  if verbose then log.filter fun record => record.level = .debug else []

/-- The outcome of an answer, with the records that are shown. -/
def Outcome.ofAnswer (log : List LogRecord) : Except ResolveError String → Outcome
  | .ok text => ⟨0, text ++ "\n", log, ""⟩
  | .error e => ⟨1, "", log, errorLine e⟩

/-- **The outcome of a run with the given arguments.** -/
def run (args : List String) : Outcome :=
  match Invocation.parse args with
  | .ok invocation =>
    let traced := answer invocation
    .ofAnswer (shown invocation.verbose traced.log) traced.value
  | .error (.version command) => ⟨0, versionLine command, [], ""⟩
  | .error .help => ⟨0, usageText, [], ""⟩
  | .error .usage => ⟨2, "", [], usageText⟩

end Harmony.CommandLine
