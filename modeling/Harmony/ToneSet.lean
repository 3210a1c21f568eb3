import Harmony.DegreeMap
import Harmony.PitchClass

/-! # Tone sets

A tone set gives a pitch class to each of its degrees. Rules build it up step by step.

* `ToneSet.noteNames`: the names of its pitch classes under a spelling.
* `ToneSet.ofIntervals`: the degrees 1, 2, … at given distances from a root. -/

namespace Harmony

/-- A map from degrees to pitch classes. -/
abbrev ToneSet := DegreeMap PitchClass

namespace ToneSet

/-- The name of the pitch class at every degree. -/
def noteNames (tones : ToneSet) (spelling : Spelling) : DegreeMap String :=
  tones.map (·.name spelling)

/-- The degrees 1, 2, … with the pitch classes at the given distances above the root. -/
def ofIntervals (root : PitchClass) (intervals : List Int) : ToneSet :=
  .ofList (intervals.zipIdx.map fun (semitones, i) => (Degree.ofIndex i, root.transpose semitones))

end ToneSet

end Harmony
