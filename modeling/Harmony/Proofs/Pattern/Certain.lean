import Harmony.Proofs.Pattern.Wording

/-! # Matches in every text of a wording

`Pattern.mayEnds` finds every place at which a match may end, and some at which none does. Here it is
the other way round: what is found is there in every text. A choice that is left open would have to be
followed both ways, so the wording is first laid out in paths, one a way.

* `Wording.paths`: the ways of a wording. In place of a run of blanks stands nothing, or a last blank
  with others in front of it.
* `Pattern.mustEnds`: places at which a match ends in every text of a path (`exists_mem_ends`).
* `Pattern.mustOccurIn`: a pattern that occurs in every text of a wording
  (`occursIn_of_mustOccurIn`). -/

namespace Harmony

open Text

namespace Wording

variable {w rest : Wording} {text cs : List Char}

/-! ### Ways of a wording -/

/-- **The ways of a wording**, none of which has a choice left but the number of blanks. -/
def paths : Wording → List Wording
  | .stop => [.stop]
  | .glyph g rest => rest.paths.map (.glyph g)
  | .gap rest => rest.paths ++ rest.paths.map fun path => .gap (.glyph .blank path)
  | .either v w => v.paths ++ w.paths

/-- **Every text is one of a path.** -/
theorem exists_mem_paths (h : w.Allows text) : ∃ path ∈ w.paths, path.Allows text := by
  induction w generalizing text with
  | stop => exact ⟨.stop, List.mem_singleton_self _, h⟩
  | glyph g rest ih =>
    obtain ⟨c, cs, htext, hc, hcs⟩ := h
    obtain ⟨path, hpath, hallows⟩ := ih hcs
    exact ⟨_, List.mem_map_of_mem hpath, c, cs, htext, hc, hallows⟩
  | gap rest ih =>
    obtain ⟨run, tail, rfl, hrun, htail⟩ := h
    obtain ⟨path, hpath, hallows⟩ := ih htail
    rcases List.eq_nil_or_concat run with rfl | ⟨others, last, rfl⟩
    · exact ⟨path, List.mem_append_left _ hpath, hallows⟩
    · rw [List.concat_eq_append] at hrun ⊢
      obtain ⟨hothers, hlast⟩ := List.forall_mem_append.mp hrun
      have hblank : isBlank last = true := hlast last (List.mem_singleton_self _)
      have hbehind : (glyph .blank path).Allows (last :: tail) := ⟨last, tail, rfl, hblank, hallows⟩
      refine ⟨_, List.mem_append_right _ (List.mem_map_of_mem hpath), others, _, ?_, hothers, hbehind⟩
      rw [List.append_assoc, List.singleton_append]
  | either v w ihv ihw =>
    rcases h with h | h
    · obtain ⟨path, hpath, hallows⟩ := ihv h
      exact ⟨path, List.mem_append_left _ hpath, hallows⟩
    · obtain ⟨path, hpath, hallows⟩ := ihw h
      exact ⟨path, List.mem_append_right _ hpath, hallows⟩

/-! ### Places on a path -/

/-- Every place of a text that the place on the path stands for. Only what is the start of the text is
known as one. -/
structure Place.Holds (place : Place) (cursor : Cursor) : Prop where
  atStart : place.atStart = true → cursor.atStart = true
  rest : place.rest.Allows cursor.rest

def mustStop : Wording → Bool
  | .stop => true
  | _ => false

/-- What stands behind one character that is surely read. Blanks with a last one behind them begin with
a blank. -/
def mustReadOne (mustRead : Glyph → Bool) : Wording → List Wording
  | .glyph g rest => if mustRead g then [rest] else []
  | .gap (.glyph .blank rest) => if mustRead .blank then [.gap rest] else []
  | _ => []

/-- The places behind characters that are surely read. Blanks are read up to the last one or not at
all. -/
def mustReadMany (mustRead : Glyph → Bool) : Bool → Wording → List Place
  | atStart, .glyph g rest =>
    ⟨atStart, .glyph g rest⟩ :: if mustRead g then rest.mustReadMany mustRead false else []
  | atStart, .gap rest =>
    ⟨atStart, .gap rest⟩ :: if mustRead .blank then rest.mustReadMany mustRead false else []
  | atStart, w => [⟨atStart, w⟩]

theorem eq_nil_of_mustStop (hstop : w.mustStop = true) (h : w.Allows text) : text = [] := by
  cases w with
  | stop => exact h
  | glyph | gap | either => cases hstop

/-- Blanks with a last one behind them are a blank and others behind it. -/
theorem allows_gap_blank (h : (gap (glyph .blank rest)).Allows text) :
    ∃ b cs, text = b :: cs ∧ isBlank b = true ∧ (gap rest).Allows cs := by
  obtain ⟨run, tail, rfl, hrun, last, cs, rfl, hlast, hcs⟩ := h
  cases run with
  | nil => exact ⟨last, cs, rfl, hlast, [], cs, rfl, by simp, hcs⟩
  | cons b run =>
    obtain ⟨hb, hrun⟩ := List.forall_mem_cons.mp hrun
    refine ⟨b, _, rfl, hb, run ++ [last], cs, by simp, ?_, hcs⟩
    exact List.forall_mem_append.mpr ⟨hrun, List.forall_mem_singleton.mpr hlast⟩

theorem exists_eq_cons_of_mem_mustReadOne {mustRead : Glyph → Bool}
    (hrest : rest ∈ w.mustReadOne mustRead) (h : w.Allows text) :
    ∃ g c cs, text = c :: cs ∧ mustRead g = true ∧ g.Holds c ∧ rest.Allows cs := by
  unfold mustReadOne at hrest
  split at hrest
  · rename_i g after
    split at hrest
    · obtain rfl := List.mem_singleton.mp hrest
      obtain ⟨c, cs, htext, hc, hcs⟩ := h
      exact ⟨g, c, cs, htext, ‹_›, hc, hcs⟩
    · cases hrest
  · split at hrest
    · obtain rfl := List.mem_singleton.mp hrest
      obtain ⟨b, cs, htext, hb, hcs⟩ := allows_gap_blank h
      exact ⟨.blank, b, cs, htext, ‹_›, hb, hcs⟩
    · cases hrest
  · cases hrest

theorem self_mem_runEnds (accepts : Char → Bool) (atStart : Bool) (cs : List Char) :
    ⟨atStart, cs⟩ ∈ Pattern.runEnds accepts atStart cs := by
  cases cs <;> exact List.mem_cons_self

/-- A run of accepted characters may be read as a whole, and more behind it. -/
theorem mem_runEnds_append {accepts : Char → Bool} {run : List Char}
    (hrun : ∀ c ∈ run, accepts c = true) {atStart : Bool} {next : Cursor}
    (h : next ∈ Pattern.runEnds accepts (atStart && run.isEmpty) cs) :
    next ∈ Pattern.runEnds accepts atStart (run ++ cs) := by
  induction run generalizing atStart with
  | nil => simpa using h
  | cons c run ih =>
    obtain ⟨hc, hrun⟩ := List.forall_mem_cons.mp hrun
    rw [List.cons_append, Pattern.runEnds, if_pos hc]
    exact List.mem_cons_of_mem _ (ih hrun (by simpa using h))

theorem exists_mem_runEnds {accepts : Char → Bool} {mustRead : Glyph → Bool}
    (hread : ∀ (g : Glyph) (c : Char), g.Holds c → mustRead g = true → accepts c = true)
    {atStart : Bool} {cursor : Cursor} (h : (⟨atStart, w⟩ : Place).Holds cursor) {place : Place}
    (hplace : place ∈ w.mustReadMany mustRead atStart) :
    ∃ next ∈ Pattern.runEnds accepts cursor.atStart cursor.rest, place.Holds next := by
  have hself := self_mem_runEnds accepts cursor.atStart cursor.rest
  induction w generalizing atStart cursor with
  | stop | either v w =>
    obtain rfl := List.mem_singleton.mp hplace
    exact ⟨cursor, hself, h⟩
  | glyph g rest ih =>
    rcases List.mem_cons.mp hplace with rfl | hplace
    · exact ⟨cursor, hself, h⟩
    · split at hplace
      · obtain ⟨c, cs, htext, hc, hcs⟩ := h.rest
        have hbehind : (⟨false, rest⟩ : Place).Holds ⟨false, cs⟩ := ⟨nofun, hcs⟩
        obtain ⟨next, hnext, hholds⟩ := ih hbehind hplace (self_mem_runEnds _ _ _)
        refine ⟨next, ?_, hholds⟩
        rw [htext, Pattern.runEnds, if_pos (hread g c hc ‹_›)]
        exact List.mem_cons_of_mem _ hnext
      · cases hplace
  | gap rest ih =>
    rcases List.mem_cons.mp hplace with rfl | hplace
    · exact ⟨cursor, hself, h⟩
    · split at hplace
      · obtain ⟨run, cs, htext, hrun, hcs⟩ := h.rest
        have hbehind : (⟨false, rest⟩ : Place).Holds ⟨cursor.atStart && run.isEmpty, cs⟩ :=
          ⟨nofun, hcs⟩
        obtain ⟨next, hnext, hholds⟩ := ih hbehind hplace (self_mem_runEnds _ _ _)
        refine ⟨next, ?_, hholds⟩
        rw [htext]
        exact mem_runEnds_append (fun c hc => hread .blank c (hrun c hc) ‹_›) hnext
      · cases hplace

end Wording

/-! ### Character classes -/

namespace CharClass

variable {cls : CharClass} {casing : Casing} {c : Char}

/-- Does the class accept every character that may stand here? -/
def mustAccept : CharClass → Casing → Glyph → Bool
  | _, .exact, .letter _ => false
  | cls, .folded, .letter c => cls.accepts .folded c
  | cls, casing, .sign c => cls.accepts casing c
  | .blank, _, .blank => true
  | .excluding ranges, .folded, .blank => ranges.all (·.isPlain)
  | _, _, .blank => false

theorem accepts_of_mustAccept {g : Glyph} (hc : g.Holds c) (h : cls.mustAccept casing g = true) :
    cls.accepts casing c = true := by
  cases g with
  | letter d =>
    cases casing with
    | exact => cases cls <;> cases h
    | folded =>
      rw [accepts_folded_congr cls hc (isBlank_eq_of_foldCase_eq hc)]
      cases cls <;> exact h
  | sign d =>
    obtain rfl : c = d := hc
    cases cls <;> cases casing <;> exact h
  | blank =>
    cases cls with
    | char e | escaped e => cases casing <;> cases h
    | blank => exact hc
    | excluding ranges =>
      cases casing with
      | exact => cases h
      | folded => exact accepts_excluding h (Or.inl hc)

end CharClass

/-! ### Matching -/

namespace Pattern

open Wording

/-- **Places where a match surely ends**, for one that begins at the place. -/
def mustEnds : Pattern → Casing → Place → List Place
  | .empty, _, place => [place]
  | .one cls, casing, place => (place.rest.mustReadOne (cls.mustAccept casing)).map (⟨false, ·⟩)
  | .many cls, casing, place => place.rest.mustReadMany (cls.mustAccept casing) place.atStart
  | .opt p, casing, place => place :: p.mustEnds casing place
  | .seq p q, casing, place => (p.mustEnds casing place).flatMap (q.mustEnds casing)
  | .alt p q, casing, place => p.mustEnds casing place ++ q.mustEnds casing place
  | .group kind p, casing, place => p.mustEnds (kind.casing casing) place
  | .start, _, place => if place.atStart then [place] else []
  | .stop, _, place => if place.rest.mustStop then [place] else []

/-- Does the pattern surely match at the place? -/
def mustMatchAt (p : Pattern) (place : Place) : Bool := !(p.mustEnds .folded place).isEmpty

/-- Does the pattern surely match at some place of the path from here on? -/
def mustOccurFrom (p : Pattern) : Bool → Wording → Bool
  | atStart, .glyph g rest => p.mustMatchAt ⟨atStart, .glyph g rest⟩ || p.mustOccurFrom false rest
  | atStart, .gap rest => p.mustMatchAt ⟨atStart, .gap rest⟩ || p.mustOccurFrom false rest
  | atStart, w => p.mustMatchAt ⟨atStart, w⟩

/-- **Does the pattern match somewhere** in every text of the wording? -/
def mustOccurIn (p : Pattern) (w : Wording) : Bool := w.paths.all (p.mustOccurFrom true)

variable {p : Pattern} {casing : Casing} {place place' : Place} {cursor : Cursor} {w : Wording}

/-- **What is found is there.** -/
theorem exists_mem_ends (hplace : place' ∈ p.mustEnds casing place) (h : place.Holds cursor) :
    ∃ next ∈ p.ends casing cursor, place'.Holds next := by
  induction p generalizing casing place place' cursor with
  | empty =>
    obtain rfl := List.mem_singleton.mp hplace
    exact ⟨cursor, List.mem_singleton_self _, h⟩
  | one cls =>
    obtain ⟨rest, hrest, rfl⟩ := List.mem_map.mp hplace
    obtain ⟨g, c, cs, htext, hg, hc, hcs⟩ := exists_eq_cons_of_mem_mustReadOne hrest h.rest
    have hspans : cursor.Spans [c] ⟨false, cs⟩ := ⟨htext, by simp⟩
    have haccepts := CharClass.accepts_of_mustAccept hc hg
    exact ⟨_, mem_ends_one.mpr ⟨c, haccepts, hspans⟩, nofun, hcs⟩
  | many cls => exact exists_mem_runEnds (fun g c => CharClass.accepts_of_mustAccept) h hplace
  | opt p ih =>
    rcases List.mem_cons.mp hplace with rfl | hplace
    · exact ⟨cursor, List.mem_cons_self, h⟩
    · obtain ⟨next, hnext, hholds⟩ := ih hplace h
      exact ⟨next, List.mem_cons_of_mem _ hnext, hholds⟩
  | seq p q ihp ihq =>
    obtain ⟨between, hbetween, hplace⟩ := List.mem_flatMap.mp hplace
    obtain ⟨middle, hmiddle, hholds⟩ := ihp hbetween h
    obtain ⟨next, hnext, hholds⟩ := ihq hplace hholds
    exact ⟨next, mem_ends_seq.mpr ⟨middle, hmiddle, hnext⟩, hholds⟩
  | alt p q ihp ihq =>
    rcases List.mem_append.mp hplace with hplace | hplace
    · obtain ⟨next, hnext, hholds⟩ := ihp hplace h
      exact ⟨next, List.mem_append_left _ hnext, hholds⟩
    · obtain ⟨next, hnext, hholds⟩ := ihq hplace h
      exact ⟨next, List.mem_append_right _ hnext, hholds⟩
  | group kind p ih => cases kind <;> exact ih hplace h
  | start =>
    unfold mustEnds at hplace
    split at hplace
    · obtain rfl := List.mem_singleton.mp hplace
      exact ⟨cursor, by simp [ends, h.atStart ‹_›], h⟩
    · cases hplace
  | stop =>
    unfold mustEnds at hplace
    split at hplace
    · obtain rfl := List.mem_singleton.mp hplace
      exact ⟨cursor, by simp [ends, eq_nil_of_mustStop ‹_› h.rest], h⟩
    · cases hplace

theorem matchesAt_of_mustMatchAt (hmatch : p.mustMatchAt place = true) (h : place.Holds cursor) :
    p.matchesAt cursor = true := by
  unfold mustMatchAt at hmatch
  rw [Bool.not_eq_true', List.isEmpty_eq_false_iff_exists_mem] at hmatch
  obtain ⟨place', hplace⟩ := hmatch
  obtain ⟨next, hnext, -⟩ := exists_mem_ends hplace h
  exact matchesAt_iff.mpr ⟨next, hnext⟩

theorem exists_match_of_mustOccurFrom {atStart : Bool} (hoccurs : p.mustOccurFrom atStart w = true)
    (h : (⟨atStart, w⟩ : Place).Holds cursor) :
    ∃ read next, cursor.Spans read next ∧ p.matchesAt next = true := by
  induction w generalizing atStart cursor with
  | stop | either v w => exact ⟨[], cursor, .refl _, matchesAt_of_mustMatchAt hoccurs h⟩
  | glyph g rest ih =>
    rcases Bool.or_eq_true_iff.mp hoccurs with hmatch | hoccurs
    · exact ⟨[], cursor, .refl _, matchesAt_of_mustMatchAt hmatch h⟩
    · obtain ⟨c, cs, htext, -, hcs⟩ := h.rest
      have hfirst : cursor.Spans [c] ⟨false, cs⟩ := ⟨htext, by simp⟩
      have hbehind : (⟨false, rest⟩ : Place).Holds ⟨false, cs⟩ := ⟨nofun, hcs⟩
      obtain ⟨read, next, hspans, hmatch⟩ := ih hoccurs hbehind
      exact ⟨_, next, hfirst.trans hspans, hmatch⟩
  | gap rest ih =>
    rcases Bool.or_eq_true_iff.mp hoccurs with hmatch | hoccurs
    · exact ⟨[], cursor, .refl _, matchesAt_of_mustMatchAt hmatch h⟩
    · obtain ⟨run, cs, htext, -, hcs⟩ := h.rest
      have hblanks : cursor.Spans run ⟨cursor.atStart && run.isEmpty, cs⟩ := ⟨htext, rfl⟩
      have hbehind : (⟨false, rest⟩ : Place).Holds ⟨cursor.atStart && run.isEmpty, cs⟩ := ⟨nofun, hcs⟩
      obtain ⟨read, next, hspans, hmatch⟩ := ih hoccurs hbehind
      exact ⟨_, next, hblanks.trans hspans, hmatch⟩

/-- **A pattern that surely occurs in a wording** occurs in each of its texts. -/
theorem occursIn_of_mustOccurIn {text : List Char} (h : p.mustOccurIn w = true)
    (hallows : w.Allows text) : p.occursIn text = true := by
  obtain ⟨path, hpath, hallows⟩ := exists_mem_paths hallows
  have hholds : (⟨true, path⟩ : Place).Holds ⟨true, text⟩ := ⟨id, hallows⟩
  have hoccurs := List.all_eq_true.mp h path hpath
  exact occursFrom_iff.mpr (exists_match_of_mustOccurFrom hoccurs hholds)

end Pattern

end Harmony
