import Harmony.Proofs.Pattern.Steady

/-! # Texts with choices left open

A *wording* stands for all texts that are written in one way: letters in any case, any number of
blanks, one word or another. The matcher runs on a wording as it runs on a text, only that it follows
all choices at once. So it finds every place at which a match in one of the texts may end, and a
pattern that it finds nowhere occurs in none of them.

* `Wording.Allows`: the texts of a wording.
* `Pattern.mayEnds`: `Pattern.ends` on a wording. No match is missed (`exists_mem_mayEnds`).
* `Pattern.mayOccurIn`: a pattern that may occur, and otherwise does not (`mayOccurIn_of_occursIn`). -/

namespace Harmony

open Text

/-! ### Wordings -/

/-- What may stand for one character. -/
inductive Glyph where
  /-- A letter, in any case. -/
  | letter (c : Char)
  /-- The character itself. -/
  | sign (c : Char)
  /-- Any blank. -/
  | blank

/-- May the character stand here? -/
def Glyph.Holds : Glyph → Char → Prop
  | .letter c, x => foldCase x = foldCase c
  | .sign c, x => x = c
  | .blank, x => isBlank x = true

/-- A text with choices left open. -/
inductive Wording where
  /-- The end of the text. -/
  | stop
  | glyph (g : Glyph) (rest : Wording)
  /-- Any number of blanks. -/
  | gap (rest : Wording)
  | either (v w : Wording)

namespace Wording

/-- **The texts of a wording.** -/
def Allows : Wording → List Char → Prop
  | .stop, text => text = []
  | .glyph g rest, text => ∃ c cs, text = c :: cs ∧ g.Holds c ∧ rest.Allows cs
  | .gap rest, text => ∃ run cs, text = run ++ cs ∧ (∀ c ∈ run, isBlank c = true) ∧ rest.Allows cs
  | .either v w, text => v.Allows text ∨ w.Allows text

/-- The letters of a text in any case, and more behind them. -/
def word (text : String) (rest : Wording) : Wording := text.toList.foldr (.glyph ∘ .letter) rest

/-- A text as it is, and more behind it. -/
def exact (text : String) (rest : Wording) : Wording := text.toList.foldr (.glyph ∘ .sign) rest

def oneOf (first : Wording → Wording) : List (Wording → Wording) → Wording → Wording
  | [], rest => first rest
  | second :: more, rest => .either (first rest) (oneOf second more rest)

/-- One blank or more, and more behind them. -/
def spaced (rest : Wording) : Wording := .glyph .blank (.gap rest)

def ofParts (parts : List (Wording → Wording)) : Wording :=
  parts.foldr (fun part rest => part rest) .stop

variable {w rest : Wording} {text cs : List Char}

/-- A run of blanks is read blank by blank. -/
theorem allows_gap_cons {c : Char} (h : (gap rest).Allows (c :: cs)) :
    isBlank c = true ∧ (gap rest).Allows cs ∨ rest.Allows (c :: cs) := by
  obtain ⟨run, tail, htext, hrun, htail⟩ := h
  cases run with
  | nil =>
    rw [htext]
    exact Or.inr htail
  | cons b run =>
    obtain ⟨rfl, rfl⟩ := List.cons.inj htext
    obtain ⟨hb, hrun⟩ := List.forall_mem_cons.mp hrun
    exact Or.inl ⟨hb, run, tail, rfl, hrun, htail⟩

theorem allows_of_allows_gap_nil (h : (gap rest).Allows []) : rest.Allows [] := by
  obtain ⟨run, tail, htext, -, htail⟩ := h
  obtain ⟨-, rfl⟩ := List.append_eq_nil_iff.mp htext.symm
  exact htail

theorem allows_gap_of_allows (h : rest.Allows text) : (gap rest).Allows text :=
  ⟨[], text, rfl, List.forall_mem_nil _, h⟩

theorem allows_gap_blank_cons {b : Char} (hb : isBlank b = true) (h : (gap rest).Allows cs) :
    (gap rest).Allows (b :: cs) := by
  obtain ⟨run, tail, rfl, hrun, htail⟩ := h
  exact ⟨b :: run, tail, rfl, List.forall_mem_cons.mpr ⟨hb, hrun⟩, htail⟩

instance : (g : Glyph) → DecidablePred g.Holds
  | .letter c => fun x => inferInstanceAs (Decidable (foldCase x = foldCase c))
  | .sign c => fun x => inferInstanceAs (Decidable (x = c))
  | .blank => fun x => inferInstanceAs (Decidable (isBlank x = true))

/-- Blanks are tried from the front of the text. -/
instance decidableGap (rest : Wording) [DecidablePred rest.Allows] : DecidablePred (gap rest).Allows
  | [] => decidable_of_iff (rest.Allows []) ⟨allows_gap_of_allows, allows_of_allows_gap_nil⟩
  | c :: cs =>
    have : Decidable ((gap rest).Allows cs) := decidableGap rest cs
    decidable_of_iff (isBlank c = true ∧ (gap rest).Allows cs ∨ rest.Allows (c :: cs))
      ⟨fun h => h.elim (fun h => allows_gap_blank_cons h.1 h.2) allows_gap_of_allows,
        allows_gap_cons⟩

instance decidableAllows : (w : Wording) → DecidablePred w.Allows
  | .stop => fun text => inferInstanceAs (Decidable (text = []))
  | .glyph g rest => fun text =>
    match text with
    | [] => isFalse nofun
    | c :: cs =>
      have : Decidable (rest.Allows cs) := decidableAllows rest cs
      decidable_of_iff (g.Holds c ∧ rest.Allows cs)
        ⟨fun h => ⟨c, cs, rfl, h⟩, fun ⟨_, _, htext, h⟩ => by
          obtain ⟨rfl, rfl⟩ := List.cons.inj htext
          exact h⟩
  | .gap rest =>
    have : DecidablePred rest.Allows := decidableAllows rest
    decidableGap rest
  | .either v w => fun text =>
    have : Decidable (v.Allows text) := decidableAllows v text
    have : Decidable (w.Allows text) := decidableAllows w text
    inferInstanceAs (Decidable (v.Allows text ∨ w.Allows text))

example : (ofParts [oneOf (word "no") [word "omit"], gap, exact "5"]).Allows "OMit \t5".toList := by
  decide +kernel

/-! ### Places in a wording -/

structure Place where
  /-- May it be the start of the text? -/
  atStart : Bool
  /-- What stands behind the place. -/
  rest : Wording

/-- The place in the wording stands for the one in the text. -/
structure Place.Covers (place : Place) (cursor : Cursor) : Prop where
  atStart : cursor.atStart = true → place.atStart = true
  rest : place.rest.Allows cursor.rest

def mayStop : Wording → Bool
  | .stop => true
  | .glyph _ _ => false
  | .gap rest => rest.mayStop
  | .either v w => v.mayStop || w.mayStop

theorem mayStop_of_allows (h : w.Allows []) : w.mayStop = true := by
  induction w with
  | stop => rfl
  | glyph g rest =>
    obtain ⟨c, cs, htext, -⟩ := h
    cases htext
  | gap rest ih => exact ih (allows_of_allows_gap_nil h)
  | either v w ihv ihw => exact Bool.or_eq_true_iff.mpr (h.imp ihv ihw)

/-- What may stand behind one character that may be read. -/
def readOne (mayRead : Glyph → Bool) : Wording → List Wording
  | .stop => []
  | .glyph g rest => if mayRead g then [rest] else []
  | .gap rest => (if mayRead .blank then [.gap rest] else []) ++ rest.readOne mayRead
  | .either v w => v.readOne mayRead ++ w.readOne mayRead

/-- The places behind any number of characters that may be read. -/
def readMany (mayRead : Glyph → Bool) : Bool → Wording → List Place
  | atStart, .stop => [⟨atStart, .stop⟩]
  | atStart, .glyph g rest =>
    ⟨atStart, .glyph g rest⟩ :: if mayRead g then rest.readMany mayRead false else []
  | atStart, .gap rest => ⟨atStart, .gap rest⟩ :: rest.readMany mayRead atStart
  | atStart, .either v w => v.readMany mayRead atStart ++ w.readMany mayRead atStart

theorem exists_mem_readOne {mayRead : Glyph → Bool} {c : Char}
    (hread : ∀ g : Glyph, g.Holds c → mayRead g = true) (h : w.Allows (c :: cs)) :
    ∃ rest ∈ w.readOne mayRead, rest.Allows cs := by
  induction w with
  | stop => cases h
  | glyph g rest =>
    obtain ⟨d, ds, htext, hd, hds⟩ := h
    obtain ⟨rfl, rfl⟩ := List.cons.inj htext
    exact ⟨rest, by simp [readOne, hread g hd], hds⟩
  | gap rest ih =>
    rcases allows_gap_cons h with ⟨hc, h⟩ | h
    · exact ⟨.gap rest, by simp [readOne, hread .blank hc], h⟩
    · obtain ⟨next, hnext, hcs⟩ := ih h
      exact ⟨next, List.mem_append_right _ hnext, hcs⟩
  | either v w ihv ihw =>
    rcases h with h | h
    · obtain ⟨next, hnext, hcs⟩ := ihv h
      exact ⟨next, List.mem_append_left _ hnext, hcs⟩
    · obtain ⟨next, hnext, hcs⟩ := ihw h
      exact ⟨next, List.mem_append_right _ hnext, hcs⟩

theorem exists_mem_readMany {accepts : Char → Bool} {mayRead : Glyph → Bool}
    (hread : ∀ (g : Glyph) (c : Char), g.Holds c → accepts c = true → mayRead g = true)
    {atStart atStart' : Bool} (hstart : atStart' = true → atStart = true) (h : w.Allows cs)
    {next : Cursor} (hnext : next ∈ Pattern.runEnds accepts atStart' cs) :
    ∃ place ∈ w.readMany mayRead atStart, place.Covers next := by
  induction w generalizing atStart atStart' cs with
  | stop =>
    obtain rfl : cs = [] := h
    obtain rfl := List.mem_singleton.mp hnext
    exact ⟨_, List.mem_singleton_self _, hstart, rfl⟩
  | glyph g rest ih =>
    obtain ⟨c, cs, rfl, hc, hcs⟩ := h
    unfold Pattern.runEnds at hnext
    rcases List.mem_cons.mp hnext with rfl | hnext
    · exact ⟨_, List.mem_cons_self, hstart, c, cs, rfl, hc, hcs⟩
    · split at hnext
      · obtain ⟨place, hplace, hcovers⟩ := ih id hcs hnext
        refine ⟨place, List.mem_cons_of_mem _ ?_, hcovers⟩
        rwa [if_pos (hread g c hc ‹_›)]
      · cases hnext
  | gap rest ih =>
    -- a run of blanks is left at one of them, or behind all of them
    obtain ⟨run, tail, rfl, hrun, htail⟩ := h
    induction run generalizing atStart' with
    | nil =>
      obtain ⟨place, hplace, hcovers⟩ := ih hstart htail hnext
      exact ⟨place, List.mem_cons_of_mem _ hplace, hcovers⟩
    | cons b run ihrun =>
      rw [List.cons_append] at hnext
      unfold Pattern.runEnds at hnext
      rcases List.mem_cons.mp hnext with rfl | hnext
      · exact ⟨_, List.mem_cons_self, hstart, b :: run, tail, rfl, hrun, htail⟩
      · split at hnext
        · have haway : false = true → atStart = true := (absurd · Bool.false_ne_true)
          exact ihrun haway hnext (List.forall_mem_cons.mp hrun).2
        · cases hnext
  | either v w ihv ihw =>
    rcases h with h | h
    · obtain ⟨place, hplace, hcovers⟩ := ihv hstart h hnext
      exact ⟨place, List.mem_append_left _ hplace, hcovers⟩
    · obtain ⟨place, hplace, hcovers⟩ := ihw hstart h hnext
      exact ⟨place, List.mem_append_right _ hplace, hcovers⟩

end Wording

/-! ### Character classes -/

namespace CharClass

variable {cls : CharClass} {casing : Casing} {c d : Char}

/-- May the class accept a character that stands here? -/
def mayAccept : CharClass → Casing → Glyph → Bool
  | .excluding _, .exact, .letter _ => true
  | cls, _, .letter c => cls.accepts .folded c
  | cls, casing, .sign c => cls.accepts casing c
  | cls, _, .blank => cls.takesBlanks

theorem isBlank_eq_of_foldCase_eq (h : foldCase c = foldCase d) : isBlank c = isBlank d := by
  by_cases hc : isBlank c = true
  · rw [(caseless_of_isBlank hc).eq_of_foldCase h.symm]
  · by_cases hd : isBlank d = true
    · rw [(caseless_of_isBlank hd).eq_of_foldCase h]
    · rw [Bool.not_eq_true] at hc hd
      rw [hc, hd]

theorem accepts_folded_of_exact {e : Char} (h : (char e).accepts .exact c = true) :
    (char e).accepts .folded c = true := by
  obtain rfl : e = c := eq_of_beq h
  exact accepts_self _ _

/-- **No character that is accepted is missed.** -/
theorem mayAccept_of_accepts {g : Glyph} (hc : g.Holds c) (h : cls.accepts casing c = true) :
    cls.mayAccept casing g = true := by
  cases g with
  | letter d =>
    have hfolded : cls.accepts .folded c = true → cls.accepts .folded d = true := by
      rw [accepts_folded_congr cls hc (isBlank_eq_of_foldCase_eq hc)]
      exact id
    cases casing with
    | folded => cases cls <;> exact hfolded h
    | exact =>
      cases cls with
      | char e => exact hfolded (accepts_folded_of_exact h)
      | escaped e => exact hfolded (accepts_folded_of_exact h)
      | blank => exact hfolded h
      | excluding ranges => rfl
  | sign d =>
    obtain rfl : c = d := hc
    cases cls <;> cases casing <;> exact h
  | blank =>
    have htakes := takesBlanks_of_accepts hc h
    cases cls <;> cases casing <;> exact htakes

end CharClass

/-! ### Matching -/

namespace Pattern

open Wording

/-- **The places where a match may end**, for one that begins at the place. -/
def mayEnds : Pattern → Casing → Place → List Place
  | .empty, _, place => [place]
  | .one cls, casing, place => (place.rest.readOne (cls.mayAccept casing)).map (⟨false, ·⟩)
  | .many cls, casing, place => place.rest.readMany (cls.mayAccept casing) place.atStart
  | .opt p, casing, place => place :: p.mayEnds casing place
  | .seq p q, casing, place => (p.mayEnds casing place).flatMap (q.mayEnds casing)
  | .alt p q, casing, place => p.mayEnds casing place ++ q.mayEnds casing place
  | .group kind p, casing, place => p.mayEnds (kind.casing casing) place
  | .start, _, place => if place.atStart then [place] else []
  | .stop, _, place => if place.rest.mayStop then [place] else []

/-- May the pattern match at the place? -/
def mayMatchAt (p : Pattern) (place : Place) : Bool := !(p.mayEnds .folded place).isEmpty

/-- May the pattern match at some place from here on? -/
def mayOccurFrom (p : Pattern) : Bool → Wording → Bool
  | atStart, .stop => p.mayMatchAt ⟨atStart, .stop⟩
  | atStart, .glyph g rest => p.mayMatchAt ⟨atStart, .glyph g rest⟩ || p.mayOccurFrom false rest
  | atStart, .gap rest => p.mayMatchAt ⟨atStart, .gap rest⟩ || p.mayOccurFrom atStart rest
  | atStart, .either v w => p.mayOccurFrom atStart v || p.mayOccurFrom atStart w

/-- **May the pattern match somewhere** in a text of the wording? -/
def mayOccurIn (p : Pattern) (w : Wording) : Bool := p.mayOccurFrom true w

variable {p : Pattern} {casing : Casing} {place : Place} {cursor next : Cursor} {w : Wording}

/-- **No match is missed.** -/
theorem exists_mem_mayEnds (hcovers : place.Covers cursor) (h : next ∈ p.ends casing cursor) :
    ∃ place' ∈ p.mayEnds casing place, place'.Covers next := by
  induction p generalizing casing place cursor next with
  | empty =>
    obtain rfl := List.mem_singleton.mp h
    exact ⟨place, List.mem_singleton_self _, hcovers⟩
  | one cls =>
    obtain ⟨c, hc, hspans⟩ := mem_ends_one.mp h
    have hrest : cursor.rest = c :: next.rest := hspans.rest
    have hallows : place.rest.Allows (c :: next.rest) := hrest ▸ hcovers.rest
    have hread : ∀ g : Glyph, g.Holds c → cls.mayAccept casing g = true :=
      fun g hg => CharClass.mayAccept_of_accepts hg hc
    obtain ⟨rest, hrest, hnext⟩ := exists_mem_readOne hread hallows
    have hstart : next.atStart = false := by simpa using hspans.atStart
    exact ⟨_, List.mem_map_of_mem hrest, by simp [hstart], hnext⟩
  | many cls =>
    exact exists_mem_readMany (fun g c hg hc => CharClass.mayAccept_of_accepts hg hc) hcovers.atStart
      hcovers.rest h
  | opt p ih =>
    rcases List.mem_cons.mp h with rfl | h
    · exact ⟨place, List.mem_cons_self, hcovers⟩
    · obtain ⟨place', hplace, hnext⟩ := ih hcovers h
      exact ⟨place', List.mem_cons_of_mem _ hplace, hnext⟩
  | seq p q ihp ihq =>
    obtain ⟨middle, hp, hq⟩ := mem_ends_seq.mp h
    obtain ⟨between, hbetween, hmiddle⟩ := ihp hcovers hp
    obtain ⟨place', hplace, hnext⟩ := ihq hmiddle hq
    exact ⟨place', List.mem_flatMap.mpr ⟨between, hbetween, hplace⟩, hnext⟩
  | alt p q ihp ihq =>
    rcases List.mem_append.mp h with h | h
    · obtain ⟨place', hplace, hnext⟩ := ihp hcovers h
      exact ⟨place', List.mem_append_left _ hplace, hnext⟩
    · obtain ⟨place', hplace, hnext⟩ := ihq hcovers h
      exact ⟨place', List.mem_append_right _ hplace, hnext⟩
  | group kind p ih => cases kind <;> exact ih hcovers h
  | start =>
    unfold ends at h
    split at h
    · obtain rfl := List.mem_singleton.mp h
      exact ⟨place, by simp [mayEnds, hcovers.atStart ‹_›], hcovers⟩
    · cases h
  | stop =>
    unfold ends at h
    split at h
    · obtain rfl := List.mem_singleton.mp h
      have hnil : next.rest = [] := List.isEmpty_iff.mp ‹_›
      have hstop := mayStop_of_allows (hnil ▸ hcovers.rest)
      exact ⟨place, by simp [mayEnds, hstop], hcovers⟩
    · cases h

theorem mayMatchAt_of_matchesAt (hcovers : place.Covers cursor) (h : p.matchesAt cursor = true) :
    p.mayMatchAt place = true := by
  obtain ⟨next, hnext⟩ := matchesAt_iff.mp h
  obtain ⟨place', hplace, -⟩ := exists_mem_mayEnds hcovers hnext
  unfold mayMatchAt
  rw [Bool.not_eq_true', List.isEmpty_eq_false_iff_exists_mem]
  exact ⟨place', hplace⟩

theorem mayOccurFrom_of_occursFrom {atStart atStart' : Bool}
    (hstart : atStart' = true → atStart = true) {cs : List Char} (hallows : w.Allows cs)
    (h : p.occursFrom atStart' cs = true) : p.mayOccurFrom atStart w = true := by
  induction w generalizing atStart atStart' cs with
  | stop =>
    obtain rfl : cs = [] := hallows
    have hcovers : (⟨atStart, .stop⟩ : Place).Covers ⟨atStart', []⟩ := ⟨hstart, rfl⟩
    exact mayMatchAt_of_matchesAt hcovers h
  | glyph g rest ih =>
    obtain ⟨c, cs, rfl, hc, hcs⟩ := hallows
    unfold occursFrom at h
    unfold mayOccurFrom
    rw [Bool.or_eq_true] at h ⊢
    exact h.imp (mayMatchAt_of_matchesAt ⟨hstart, c, cs, rfl, hc, hcs⟩) (ih id hcs)
  | gap rest ih =>
    obtain ⟨run, tail, rfl, hrun, htail⟩ := hallows
    unfold mayOccurFrom
    rw [Bool.or_eq_true]
    -- the match begins at one of the blanks, or behind all of them
    induction run generalizing atStart' with
    | nil => exact Or.inr (ih hstart htail h)
    | cons b run ihrun =>
      rw [List.cons_append, occursFrom, Bool.or_eq_true] at h
      rcases h with h | h
      · exact Or.inl (mayMatchAt_of_matchesAt ⟨hstart, b :: run, tail, rfl, hrun, htail⟩ h)
      · have haway : false = true → atStart = true := (absurd · Bool.false_ne_true)
        exact ihrun haway h (List.forall_mem_cons.mp hrun).2
  | either v w ihv ihw =>
    exact Bool.or_eq_true_iff.mpr (hallows.imp (ihv hstart · h) (ihw hstart · h))

/-- **A pattern that occurs in a text of a wording** may occur in the wording. -/
theorem mayOccurIn_of_occursIn {text : List Char} (hallows : w.Allows text)
    (h : p.occursIn text = true) : p.mayOccurIn w = true := mayOccurFrom_of_occursFrom id hallows h

end Pattern

end Harmony
