/-! # Why a name has no meaning

* `PitchFault`: what is wrong with the input of a frequency.
* `ResolveError`: the reasons for which a name, a note or an octave is refused.
* `ResolveError.code`, `ResolveError.message`: how a refusal is reported. -/

namespace Harmony

/-- What is wrong with the note, the octave or the tuning of a frequency. -/
inductive PitchFault where
  | noNoteLetter
  | trailingText (rest : String)
  | notAnOctave (text : String)
  | octaveOutOfRange (octave : Int)
  | tuningNotPositive
  /-- A fault told in words. -/
  | described (reason : String)
deriving Repr, DecidableEq

/-- The fault in words. -/
def PitchFault.reason : PitchFault → String
  | .noNoteLetter => "expected a note letter A-G"
  | .trailingText rest => "unexpected '" ++ rest ++ "' after note name"
  | .notAnOctave text => "'" ++ text ++ "' is not an octave"
  | .octaveOutOfRange octave => "octave " ++ octave.repr ++ " is out of range"
  | .tuningNotPositive => "tuning must be a positive frequency"
  | .described reason => reason

/-- The reasons to refuse a name. -/
inductive ResolveError where
  /-- The name does not begin with a note letter. -/
  | invalidRoot (name : String)
  /-- The modifier of the name is that of no mode, where it has to be one. -/
  | unknownMode (name modifier : String)
  /-- The input is no note, no octave or no tuning. -/
  | invalidPitch (input : String) (fault : PitchFault)
deriving Repr, DecidableEq

/-- The short name under which an error is reported. -/
def ResolveError.code : ResolveError → String
  | .invalidRoot _ => "T001"
  | .unknownMode _ _ => "T002"
  | .invalidPitch _ _ => "T003"

/-- **The text of an error.** It quotes the input as it was given. -/
def ResolveError.message : ResolveError → String
  | .invalidRoot name => "invalid root in '" ++ name ++ "': " ++ PitchFault.noNoteLetter.reason
  | .unknownMode name modifier => "unknown mode '" ++ modifier ++ "' in '" ++ name ++ "'"
  | .invalidPitch input fault => "invalid pitch input '" ++ input ++ "': " ++ fault.reason

end Harmony
