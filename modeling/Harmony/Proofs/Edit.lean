import Harmony.Edit
import Harmony.Proofs.Decimal
import Mathlib.Data.List.Forall2
import Mathlib.Data.List.Sort

/-! # Tone sets after edits

A tone set is a finite map. At every degree it holds what the last edit wrote that had a say in the
degree, however the set came about: pitch class by pitch class, from a list of pairs, or from a text.

* `Holds`: the pairs in a text, and `LastPair`: the pair of a degree that counts.
* `Edit.Writes`, `Edit.Settles`: what an edit does to a degree.
* `get?_apply_iff`, `get?_run_iff`: one edit and many.
* `ToneSet.IsMap`: all that is asked of a tone set agrees with the pitch class at each degree.
* `AfterEdits`, `afterEdits_of_run`: what holds of a tone set after any edits. -/

namespace Harmony

open Json Decimal

variable {d : Degree} {p : PitchClass} {tones : ToneSet} {pairs : List (Degree × PitchClass)}
  {text : String}

/-! ### Pairs -/

/-- The last pair with the degree has the pitch class. -/
def LastPair (pairs : List (Degree × PitchClass)) (d : Degree) (p : PitchClass) : Prop :=
  ∃ before after, pairs = before ++ (d, p) :: after ∧ ∀ pair ∈ after, pair.1 ≠ d

theorem get?_ofList_eq_some_iff :
    (DegreeMap.ofList pairs).get? d = some p ↔ LastPair pairs d p := by
  rw [DegreeMap.get?_ofList, List.lookup_eq_some_iff]
  constructor
  · rintro ⟨before, after, hpairs, hbefore⟩
    refine ⟨after.reverse, before.reverse, ?_, fun pair hpair heq => ?_⟩
    · rw [← List.reverse_reverse pairs, hpairs]
      simp
    · simpa [heq] using hbefore pair (List.mem_reverse.mp hpair)
  · rintro ⟨before, after, rfl, hafter⟩
    refine ⟨after.reverse, before.reverse, by simp, fun pair hpair => ?_⟩
    exact bne_iff_ne.mpr (hafter pair (List.mem_reverse.mp hpair)).symm

/-- The member of an object has a degree as its key and an integer of 32 bits as its value, which
stands for a pitch class. -/
structure Gives (member : List Char × Json) (pair : Degree × PitchClass) : Prop where
  degree : naturalValue? member.1 = some pair.1.val
  tone : ∃ n, member.2.integer? = some n ∧ InWord n ∧ pair.2 = .ofInt n

/-- The text is an object with the pairs as its members. -/
def Holds (text : String) (pairs : List (Degree × PitchClass)) : Prop :=
  ∃ members, Json.parse? text = some (.object members) ∧ List.Forall₂ Gives members pairs

theorem degreeOf?_eq_some_iff {n : Option Nat} : degreeOf? n = some d ↔ n = some d.val := by
  cases n with
  | none => exact iff_of_false nofun nofun
  | some n =>
    unfold degreeOf?
    simp only [Option.some.injEq]
    split
    · rw [Option.some.injEq, Fin.ext_iff]
    · refine iff_of_false nofun fun h => ?_
      have hlt := d.isLt
      omega

theorem pitchClass_ofJson?_eq_some_iff {json : Json} : PitchClass.ofJson? json = some p ↔
    ∃ n, json.integer? = some n ∧ InWord n ∧ p = .ofInt n := by
  unfold PitchClass.ofJson?
  simp only [Option.map_eq_some_iff, Option.bind_eq_some_iff, word?_eq_some_iff]
  constructor
  · rintro ⟨n, ⟨m, hm, hword, rfl⟩, rfl⟩
    exact ⟨m, hm, hword, rfl⟩
  · rintro ⟨n, hn, hword, rfl⟩
    exact ⟨n, ⟨n, hn, hword, rfl⟩, rfl⟩

theorem mapM_eq_some_iff {α β : Type} {f : α → Option β} {l : List α} {l' : List β} :
    l.mapM f = some l' ↔ List.Forall₂ (fun a b => f a = some b) l l' := by
  induction l generalizing l' with
  | nil => simp [eq_comm]
  | cons a l ih =>
    simp only [List.mapM_cons, Option.bind_eq_bind, Option.bind_eq_some_iff, Option.pure_def,
      Option.some.injEq, List.forall₂_cons_left_iff]
    constructor
    · rintro ⟨b, hb, bs, hbs, rfl⟩
      exact ⟨b, bs, hb, ih.mp hbs, rfl⟩
    · rintro ⟨b, bs, hb, hbs, rfl⟩
      exact ⟨b, hb, bs, ih.mpr hbs, rfl⟩

theorem ofJson?_object_eq_some_iff {members : List (List Char × Json)} :
    ToneSet.ofJson? (.object members) = some tones ↔
      ∃ pairs, List.Forall₂ Gives members pairs ∧ .ofList pairs = tones := by
  have hmember : ∀ (member : List Char × Json) (pair : Degree × PitchClass),
      (do return (← degreeOf? (naturalValue? member.1), ← PitchClass.ofJson? member.2)) = some pair ↔
        Gives member pair := fun member pair => by
    simp only [Option.bind_eq_bind, Option.bind_eq_some_iff, Option.pure_def, Option.some.injEq,
      degreeOf?_eq_some_iff, pitchClass_ofJson?_eq_some_iff]
    constructor
    · rintro ⟨d, hd, p, hp, rfl⟩
      exact ⟨hd, hp⟩
    · rintro ⟨hd, hp⟩
      exact ⟨pair.1, hd, pair.2, hp, rfl⟩
  unfold ToneSet.ofJson? degrees?
  simp only [Option.map_eq_some_iff, mapM_eq_some_iff]
  refine exists_congr fun pairs => and_congr_left' ⟨?_, ?_⟩
  · exact List.Forall₂.imp fun member pair => (hmember member pair).mp
  · exact List.Forall₂.imp fun member pair => (hmember member pair).mpr

/-- **The tone set of a text** is that of the pairs in it. -/
theorem ofText?_eq_some_iff :
    ToneSet.ofText? text = some tones ↔ ∃ pairs, Holds text pairs ∧ .ofList pairs = tones := by
  unfold ToneSet.ofText? Holds
  rw [Option.bind_eq_some_iff]
  constructor
  · rintro ⟨json, hparse, hread⟩
    cases json with
    | object members =>
      obtain ⟨pairs, hpairs, htones⟩ := ofJson?_object_eq_some_iff.mp hread
      exact ⟨pairs, ⟨members, hparse, hpairs⟩, htones⟩
    | null | bool | number | string | array => cases hread
  · rintro ⟨pairs, ⟨members, hparse, hpairs⟩, htones⟩
    exact ⟨_, hparse, ofJson?_object_eq_some_iff.mpr ⟨pairs, hpairs, htones⟩⟩

theorem ofText?_eq_none_iff : ToneSet.ofText? text = none ↔ ∀ pairs, ¬ Holds text pairs := by
  rw [Option.eq_none_iff_forall_ne_some]
  constructor
  · exact fun h pairs hholds => h _ (ofText?_eq_some_iff.mpr ⟨pairs, hholds, rfl⟩)
  · intro h tones htones
    obtain ⟨pairs, hholds, -⟩ := ofText?_eq_some_iff.mp htones
    exact h pairs hholds

/-! ### One edit -/

namespace Edit

/-- The edit writes the pitch class to the degree. -/
def Writes (d : Degree) (p : PitchClass) : Edit → Prop
  | .insert e q => e = d ∧ q = p
  | .remove _ => False
  | .clear => False
  | .collect pairs => LastPair pairs d p
  | .load text => ∃ pairs, Holds text pairs ∧ LastPair pairs d p

/-- The edit has a say in the degree: it writes to it, removes it, or puts something in place of all
tones. -/
def Settles (d : Degree) : Edit → Prop
  | .insert e _ => e = d
  | .remove e => e = d
  | .clear => True
  | .collect _ => True
  | .load text => ∃ pairs, Holds text pairs

/-- **A degree after one edit**: what the edit writes to it, or what was there if the edit has no say
in it. -/
theorem get?_apply_iff (edit : Edit) (tones : ToneSet) : (edit.apply tones).2.get? d = some p ↔
    edit.Writes d p ∨ ¬ edit.Settles d ∧ tones.get? d = some p := by
  cases edit with
  | insert e q =>
    simp only [apply, DegreeMap.exchange_eq, DegreeMap.get?_insert, Writes, Settles]
    by_cases h : d = e
    · simp [h]
    · simp [h, Ne.symm h]
  | remove e =>
    simp only [apply, DegreeMap.remove_eq, DegreeMap.get?_erase, Writes, Settles]
    by_cases h : d = e
    · simp [h]
    · simp [h, Ne.symm h]
  | clear => simp [apply, Writes, Settles]
  | collect pairs => simp [apply, Writes, Settles, get?_ofList_eq_some_iff, - DegreeMap.get?_ofList]
  | load text =>
    simp only [apply, Writes, Settles]
    cases hloaded : ToneSet.ofText? text with
    | none =>
      have hno := ofText?_eq_none_iff.mp hloaded
      simp [hno]
    | some loaded =>
      obtain ⟨pairs, hholds, rfl⟩ := ofText?_eq_some_iff.mp hloaded
      have hsame : ∀ others, Holds text others → DegreeMap.ofList others = .ofList pairs :=
        fun others hothers => by
          have hagain := ofText?_eq_some_iff.mpr ⟨others, hothers, rfl⟩
          exact Option.some.inj (hagain.symm.trans hloaded)
      show (DegreeMap.ofList pairs).get? d = some p ↔ _
      constructor
      · exact fun h => Or.inl ⟨pairs, hholds, get?_ofList_eq_some_iff.mp h⟩
      · rintro (⟨others, hothers, hlast⟩ | ⟨hno, -⟩)
        · rw [← hsame others hothers]
          exact get?_ofList_eq_some_iff.mpr hlast
        · exact absurd ⟨pairs, hholds⟩ hno

/-- A load that fails changes nothing. -/
theorem apply_load_of_unreadable (h : ∀ pairs, ¬ Holds text pairs) (tones : ToneSet) :
    (Edit.load text).apply tones = (.unreadable, tones) := by
  simp only [apply, ofText?_eq_none_iff.mpr h]

/-! ### Many edits -/

/-- The last edit with a say in the degree writes the pitch class to it. -/
def LastWrite (edits : List Edit) (d : Degree) (p : PitchClass) : Prop :=
  ∃ before edit after, edits = before ++ edit :: after ∧ edit.Writes d p ∧
    ∀ later ∈ after, ¬ later.Settles d

theorem lastWrite_cons {edit : Edit} {edits : List Edit} : LastWrite (edit :: edits) d p ↔
    LastWrite edits d p ∨ edit.Writes d p ∧ ∀ later ∈ edits, ¬ later.Settles d := by
  constructor
  · rintro ⟨before, last, after, hsplit, hwrites, hafter⟩
    cases before with
    | nil =>
      obtain ⟨rfl, rfl⟩ := List.cons.inj hsplit
      exact Or.inr ⟨hwrites, hafter⟩
    | cons first before =>
      obtain ⟨-, rfl⟩ := List.cons.inj hsplit
      exact Or.inl ⟨before, last, after, rfl, hwrites, hafter⟩
  · rintro (⟨before, last, after, rfl, hwrites, hafter⟩ | ⟨hwrites, hafter⟩)
    · exact ⟨edit :: before, last, after, rfl, hwrites, hafter⟩
    · exact ⟨[], edit, edits, rfl, hwrites, hafter⟩

/-- **A degree after many edits**, from any tones on. -/
theorem get?_run_iff (edits : List Edit) (tones : ToneSet) : (run tones edits).2.get? d = some p ↔
    LastWrite edits d p ∨ (∀ edit ∈ edits, ¬ edit.Settles d) ∧ tones.get? d = some p := by
  induction edits generalizing tones with
  | nil =>
    have hnone : ¬ LastWrite [] d p := by
      rintro ⟨before, edit, after, hsplit, -⟩
      simp at hsplit
    simp [run, hnone]
  | cons edit edits ih =>
    rw [lastWrite_cons, List.forall_mem_cons]
    simp only [run, ih, get?_apply_iff]
    tauto

theorem run_append (tones : ToneSet) (edits more : List Edit) :
    run tones (edits ++ more) =
      ((run tones edits).1 ++ (run (run tones edits).2 more).1, (run (run tones edits).2 more).2) := by
  induction edits generalizing tones with
  | nil => rfl
  | cons edit edits ih => simp only [List.cons_append, run, ih]

end Edit

/-! ### Views -/

/-- All that is asked of the tone set agrees with the pitch class at each degree. -/
structure ToneSet.IsMap (tones : ToneSet) : Prop where
  ascending : tones.entries.Pairwise fun a b => a.1 < b.1
  mem_entries_iff : ∀ d p, (d, p) ∈ tones.entries ↔ tones.get? d = some p
  contains_iff : ∀ d, tones.contains d = true ↔ ∃ p, tones.get? d = some p
  /-- Each degree that is there comes once, in ascending order. -/
  degrees : tones.degrees = (List.finRange 256).filter tones.contains
  values : tones.values.map some = tones.degrees.map tones.get?
  size : tones.size = tones.degrees.length
  isEmpty_iff : tones.isEmpty = true ↔ ∀ d, tones.get? d = none
  noteNames : ∀ spelling, (tones.noteNames spelling).degrees = tones.degrees ∧
    ∀ d, (tones.noteNames spelling).get? d = (tones.get? d).map (·.name spelling)
  /-- Every pitch class has a place among the names. -/
  named : ∀ d p, tones.get? d = some p → p.value < 12 ∧
    PitchClass.sharpNames[p.value]? = some (p.name .sharp) ∧
    PitchClass.flatNames[p.value]? = some (p.name .flat)

namespace DegreeMap

variable {α : Type} {m : DegreeMap α}

theorem mem_entries_iff {a : α} : (d, a) ∈ m.entries ↔ m.get? d = some a := by
  unfold get?
  rw [List.lookup_eq_some_iff]
  constructor
  · intro hmem
    obtain ⟨before, after, hsplit⟩ := List.append_of_mem hmem
    refine ⟨before, after, hsplit, fun entry hentry => bne_iff_ne.mpr fun heq => ?_⟩
    -- an entry in front has a lower degree
    have hlt := (List.pairwise_append.mp (hsplit ▸ m.ascending)).2.2 entry hentry _ List.mem_cons_self
    exact Fin.lt_irrefl d (heq ▸ hlt)
  · rintro ⟨before, after, hsplit, -⟩
    simp [hsplit]

theorem degrees_eq_filter (m : DegreeMap α) : m.degrees = (List.finRange 256).filter m.contains := by
  refine List.Pairwise.eq_of_mem_iff (List.pairwise_map.mpr m.ascending)
    ((List.sortedLT_finRange 256).pairwise.filter _) fun d => ?_
  rw [mem_degrees_iff, List.mem_filter]
  exact (and_iff_right (List.mem_finRange d)).symm

theorem values_eq_map_get? (m : DegreeMap α) : m.values.map some = m.degrees.map m.get? := by
  unfold values degrees
  rw [List.map_map, List.map_map]
  exact List.map_congr_left fun entry hentry => (mem_entries_iff.mp hentry).symm

theorem isEmpty_iff : m.isEmpty = true ↔ ∀ d, m.get? d = none := by
  unfold isEmpty
  rw [List.isEmpty_iff]
  constructor
  · intro h d
    unfold get?
    rw [h]
    rfl
  · intro h
    refine List.eq_nil_iff_forall_not_mem.mpr fun entry hentry => ?_
    have hsome := mem_entries_iff.mp (show (entry.1, entry.2) ∈ m.entries from hentry)
    rw [h] at hsome
    cases hsome

end DegreeMap

theorem getElem?_names (p : PitchClass) : PitchClass.sharpNames[p.value]? = some (p.name .sharp) ∧
    PitchClass.flatNames[p.value]? = some (p.name .flat) :=
  ⟨List.getElem?_eq_getElem p.value_lt, List.getElem?_eq_getElem p.value_lt⟩

theorem isMap_of_toneSet (tones : ToneSet) : tones.IsMap where
  ascending := tones.ascending
  mem_entries_iff _ _ := DegreeMap.mem_entries_iff
  contains_iff _ := Option.isSome_iff_exists
  degrees := tones.degrees_eq_filter
  values := tones.values_eq_map_get?
  size := by simp [DegreeMap.size, DegreeMap.degrees]
  isEmpty_iff := DegreeMap.isEmpty_iff
  noteNames spelling := ⟨DegreeMap.degrees_map _ _, DegreeMap.get?_map _ _⟩
  named _ p _ := ⟨p.value_lt, getElem?_names p⟩

/-! ### All edits -/

open Edit

/-- What holds after edits of the empty tone set. -/
structure AfterEdits (edits : List Edit) : Prop where
  get?_iff : ∀ d p, (run .empty edits).2.get? d = some p ↔ LastWrite edits d p
  insert : ∀ d p, (run .empty (edits ++ [.insert d p])).1 =
    (run .empty edits).1 ++ [.previous ((run .empty edits).2.get? d)]
  remove : ∀ d, (run .empty (edits ++ [.remove d])).1 =
    (run .empty edits).1 ++ [.previous ((run .empty edits).2.get? d)]
  unreadable : ∀ text, (∀ pairs, ¬ Holds text pairs) → run .empty (edits ++ [.load text]) =
    ((run .empty edits).1 ++ [.unreadable], (run .empty edits).2)
  isMap : (run .empty edits).2.IsMap
  eq_iff : ∀ others, (run .empty edits).2 = (run .empty others).2 ↔
    ∀ d, (run .empty edits).2.get? d = (run .empty others).2.get? d

/-- **A tone set is a finite map**, after any edits. -/
theorem afterEdits_of_run (edits : List Edit) : AfterEdits edits where
  get?_iff d p := by rw [get?_run_iff]; simp
  insert d p := by
    rw [run_append]
    simp only [run, apply, DegreeMap.exchange_eq]
  remove d := by
    rw [run_append]
    simp only [run, apply, DegreeMap.remove_eq]
  unreadable text h := by
    rw [run_append]
    simp only [run, apply_load_of_unreadable h]
  isMap := isMap_of_toneSet _
  eq_iff others := ⟨fun h d => by rw [h], DegreeMap.eq_of_get?⟩

end Harmony
