import Harmony.Proofs.Json.Float
import Harmony.Proofs.View.Reading

/-! # Frequencies in JSON

A note with its tuning and its frequency is written as an object with three members. A number that is
finite is read back; what is not finite is written as null, and then no view is read from the object.

* `float?_ofFloat`: numbers.
* `fields?_toJson`: the three members.
* `Shows`, `shows_toJson`: what is read from the text of a view. -/

namespace Harmony

open Json

namespace Json

theorem ofFloat_eq_null {x : Float} (h : x.isFinite = false) : ofFloat x = .null := by
  unfold ofFloat
  rw [floatLexeme?_eq_none h]

theorem wellFormed_ofFloat (x : Float) : (ofFloat x).WellFormed := by
  unfold ofFloat
  split
  · exact .number (isNumber_of_floatLexeme? ‹_›)
  · exact .null

/-- **A number is read back** if it is finite, and there is none otherwise. -/
theorem float?_ofFloat (x : Float) :
    (ofFloat x).float? = if x.isFinite = true then some x else none := by
  by_cases hx : x.isFinite = true
  · obtain ⟨lexeme, hlexeme⟩ := exists_floatLexeme? hx
    unfold ofFloat
    rw [hlexeme, if_pos hx]
    exact floatValue?_of_floatLexeme? hlexeme
  · rw [ofFloat_eq_null (Bool.eq_false_iff.mpr hx), if_neg hx]
    rfl

end Json

namespace PitchView

variable {note : String} {tuning frequency : Float}

/-- The names of the members. -/
def memberNames : List String := ["note", "tuning_hz", "frequency_hz"]

/-- The name of a member is written as it is. -/
theorem encode_of_mem_memberNames : ∀ key ∈ memberNames, encode key.toList = key.toList := by decide

theorem wellFormed_toJson (view : PitchView) : view.toJson.WellFormed := by
  have hwritten : ∀ key ∈ memberNames, IsWritten key.toList := by
    intro key hkey
    rw [← encode_of_mem_memberNames key hkey]
    exact isWritten_encode _
  simp only [memberNames, List.forall_mem_cons] at hwritten
  obtain ⟨hnote, htuning, hfrequency, -⟩ := hwritten
  refine .object ?_ ?_
  · simp only [List.forall_mem_cons]
    exact ⟨hnote, htuning, hfrequency, nofun⟩
  · simp only [List.forall_mem_cons]
    exact ⟨wellFormed_ofText _, wellFormed_ofFloat _, wellFormed_ofFloat _, nofun⟩

/-- **The members** are found under their names. -/
theorem fields?_toJson (view : PitchView) :
    fields? memberNames view.toJson =
      some [some (.ofText view.note), some (.ofFloat view.tuning), some (.ofFloat view.frequency)] := by
  have hname : ∀ key ∈ memberNames, text? (.string key.toList) = some key := by
    intro key hkey
    rw [← encode_of_mem_memberNames key hkey]
    exact text?_ofText key
  simp only [memberNames, List.forall_mem_cons] at hname
  obtain ⟨hnote, htuning, hfrequency, -⟩ := hname
  have hdecoded : [("note".toList, ofText view.note), ("tuning_hz".toList, ofFloat view.tuning),
      ("frequency_hz".toList, ofFloat view.frequency)].mapM
        (fun member => do return (← text? (.string member.1), member.2)) =
      some [("note", ofText view.note), ("tuning_hz", ofFloat view.tuning),
        ("frequency_hz", ofFloat view.frequency)] := by
    simp only [List.mapM_cons, List.mapM_nil, hnote, htuning, hfrequency]
    rfl
  rw [toJson, fields?_object, hdecoded, Option.bind_some]
  simp [memberNames, pick?, under]

/-- **A view is read back** if its numbers are finite. -/
theorem ofJson?_toJson (note : String) (frequency : Float) (htuning : tuning.isFinite = true) :
    ofJson? (toJson ⟨note, tuning, frequency⟩) =
      if frequency.isFinite = true then some ⟨note, tuning, frequency⟩ else none := by
  have hfields := fields?_toJson ⟨note, tuning, frequency⟩
  unfold memberNames at hfields
  unfold ofJson?
  rw [hfields]
  simp only [text?_ofText, float?_ofFloat, if_pos htuning, Option.bind_eq_bind, Option.bind_some]
  split <;> rfl

/-- What is read from a text: an object with a note, a tuning and a frequency. A frequency that is not
finite is null, and no view is read. -/
structure Shows (text note : String) (tuning frequency : Float) : Prop where
  members : ∃ json shownNote shownTuning shownFrequency, Json.parse? text = some json ∧
    json.fields? memberNames =
      some [some shownNote, some shownTuning, some shownFrequency] ∧
    shownNote.text? = some note ∧ shownTuning.float? = some tuning ∧
    (frequency.isFinite = true → shownFrequency.float? = some frequency) ∧
    (frequency.isFinite = false → shownFrequency = .null)
  view : (Json.parse? text).bind ofJson? =
    if frequency.isFinite = true then some ⟨note, tuning, frequency⟩ else none

/-- **The text of a view** shows it. -/
theorem shows_toJson (note : String) (frequency : Float) (htuning : tuning.isFinite = true) :
    Shows (toJson ⟨note, tuning, frequency⟩).pretty note tuning frequency where
  members := by
    refine ⟨_, _, _, _, parse?_write isBlank_pretty (wellFormed_toJson _), fields?_toJson _,
      text?_ofText note, ?_, fun h => ?_, ofFloat_eq_null⟩
    · rw [float?_ofFloat, if_pos htuning]
    · rw [float?_ofFloat, if_pos h]
  view := by
    unfold Json.pretty
    rw [parse?_write isBlank_pretty (wellFormed_toJson _), Option.bind_some,
      ofJson?_toJson note frequency htuning]

end PitchView

end Harmony
