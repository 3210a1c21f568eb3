import Harmony.Pitch
import Harmony.View.Basic

/-! # Reports

The text with which a question is answered, in a format: a chord, a scale or a key by its name, the
frequency of a note, and the list of the rules. -/

namespace Harmony.Report

/-- The text of a resolved value, with the records of its resolution. -/
def ofTraced {α : Type} (toDocument : α → Document) (format : OutputFormat)
    (resolved : Traced (Except ResolveError α)) : Traced (Except ResolveError String) :=
  resolved.map fun result => result.map fun value => (toDocument value).render format

/-- A chord, with the rules that fired if asked for. -/
def chord (name : String) (options : ResolveOptions) (explain : Bool) (format : OutputFormat) :
    Traced (Except ResolveError String) :=
  ofTraced (fun chord => (ChordView.of chord explain).toDocument) format
    (Chord.resolve name options)

/-- A scale, with its mode if asked for. -/
def scale (name : String) (options : ResolveOptions) (explain : Bool) (format : OutputFormat) :
    Traced (Except ResolveError String) :=
  ofTraced (fun scale => (ScaleView.of scale explain).toDocument) format
    (Scale.resolve name options)

/-- A key with its relative, and with the notes of its scale if asked for. -/
def key (name : String) (options : ResolveOptions) (withScale : Bool) (format : OutputFormat) :
    Traced (Except ResolveError String) :=
  ofTraced (fun key => (KeyView.of key withScale).toDocument) format (Key.resolve name options)

/-- The names of the rules of a kind, or the rules in words. -/
def rules (kind : RuleKind) (detail : Bool) (format : OutputFormat) : String :=
  let registry := Catalogue.rulesOf kind
  let document : Document :=
    if detail then .list (registry.info.map RuleInfo.toDocument) else .texts registry.names
  document.render format

/-- The record of a frequency. -/
def pitchRecord (note : String) (tuning frequency : Float) : LogRecord :=
  ⟨.debug, .pitch, "pitch '" ++ note ++ "' at A4=" ++ Decimal.positionalText tuning ++ " Hz: " ++
    Decimal.positionalText frequency ++ " Hz"⟩

/-- The frequency of a note: three places as YAML, all digits with the note and the tuning as JSON. -/
def pitchText (note : String) (octave : Option String) (tuning frequency : Float) :
    OutputFormat → String
  | .yaml => Decimal.fixedText 3 frequency
  | .json => (PitchView.mk (note ++ octave.getD "") tuning frequency).toJson.pretty

/-- The frequency of a note, with its octave behind it or given apart. -/
def pitch (note : String) (octave : Option String) (options : PitchOptions)
    (format : OutputFormat) : Traced (Except ResolveError String) :=
  let frequency :=
    match octave with
    | some octave => Pitch.ofClassAndOctave note octave options
    | none => Pitch.ofNote note options
  match frequency with
  | .error e => .quiet (.error e)
  | .ok frequency =>
    .note (pitchRecord note options.tuning frequency)
      (.ok (pitchText note octave options.tuning frequency format))

end Harmony.Report
