import Harmony.View.Reading

/-! # Edits of a tone set

A tone set is changed by edits, each of which answers something. An edit that cannot be done changes
nothing.

* `ToneSet.ofText?`: the tone set that a text holds as JSON.
* `Edit.apply`: the answer to an edit, and the tones after it.
* `Edit.run`: the tones after all edits, and all answers. -/

namespace Harmony

/-- The tone set that a text holds as JSON. -/
def ToneSet.ofText? (text : String) : Option ToneSet := (Json.parse? text).bind ToneSet.ofJson?

/-- A change of a tone set. -/
inductive Edit where
  /-- Sets the pitch class at a degree. -/
  | insert (d : Degree) (p : PitchClass)
  /-- Removes the pitch class at a degree. -/
  | remove (d : Degree)
  /-- Removes everything. -/
  | clear
  /-- Puts the pairs in place of everything. -/
  | collect (pairs : List (Degree × PitchClass))
  /-- Puts what a text holds in place of everything. -/
  | load (text : String)

/-- The answer to an edit. -/
inductive Reply where
  /-- The pitch class that was at the degree. -/
  | previous (p : Option PitchClass)
  | done
  /-- The text holds no tone set. -/
  | unreadable
deriving Repr, DecidableEq

namespace Edit

/-- **The answer to an edit, and the tones after it.** -/
def apply (tones : ToneSet) : Edit → Reply × ToneSet
  | .insert d p =>
    let (previous, after) := tones.exchange d p
    (.previous previous, after)
  | .remove d =>
    let (previous, after) := tones.remove d
    (.previous previous, after)
  | .clear => (.done, .empty)
  | .collect pairs => (.done, .ofList pairs)
  | .load text =>
    match ToneSet.ofText? text with
    | some loaded => (.done, loaded)
    | none => (.unreadable, tones)

/-- The answers to edits, one after the other, and the tones after all of them. -/
def run (tones : ToneSet) : List Edit → List Reply × ToneSet
  | [] => ([], tones)
  | edit :: edits =>
    let (reply, after) := edit.apply tones
    let (replies, last) := run after edits
    (reply :: replies, last)

end Edit

end Harmony
