import Harmony.Pattern.Matching
import Harmony.Proofs.Text.CaseFold

/-! # Occurrences of patterns

A match reads a piece of the text. `Cursor.Spans` says which piece stands between two places, and a
pattern occurs in a text if it matches behind some first part of it.

* `spans_of_mem_ends`: between the two places of a match stands a piece of text.
* `occursIn_iff`: an occurrence, by the text in front of it.
* `occursIn_front`, `occursIn_back`: a character at an edge of the text.
* `mem_ends_word`, `occursIn_word_iff`: a word reads its letters in any case.
* `occursIn_of_mem_endings`: where a pattern occurs, so does everything that it ends with.
* `occursIn_of_mem_parts`: so does every stretch of a sequence. -/

namespace Harmony

/-- The text `read` stands between the two places. -/
structure Cursor.Spans (cursor : Cursor) (read : List Char) (next : Cursor) : Prop where
  rest : cursor.rest = read ++ next.rest
  atStart : next.atStart = (cursor.atStart && read.isEmpty)

namespace Cursor.Spans

variable {cursor next last : Cursor} {read more : List Char}

theorem refl (cursor : Cursor) : cursor.Spans [] cursor := ⟨rfl, by simp⟩

theorem trans (h : cursor.Spans read next) (h' : next.Spans more last) :
    cursor.Spans (read ++ more) last := by
  refine ⟨by rw [h.rest, h'.rest, List.append_assoc], ?_⟩
  rw [h'.atStart, h.atStart, Bool.and_assoc]
  cases read <;> rfl

/-- The place behind a text is determined by it. -/
theorem next_eq (h : cursor.Spans read next) (h' : cursor.Spans read last) : next = last := by
  have hrest : next.rest = last.rest := List.append_cancel_left (h.rest.symm.trans h'.rest)
  have hstart : next.atStart = last.atStart := h.atStart.trans h'.atStart.symm
  cases next; cases last
  rw [Cursor.mk.injEq]
  exact ⟨hstart, hrest⟩

/-- The text between two places is determined by them. -/
theorem read_eq (h : cursor.Spans read next) (h' : cursor.Spans more next) : read = more :=
  List.append_cancel_right (h.rest.symm.trans h'.rest)

end Cursor.Spans

namespace Pattern

variable {p q : Pattern} {casing : Casing} {cursor next : Cursor}

/-! ### The places of a match -/

theorem mem_ends_seq : next ∈ (seq p q).ends casing cursor ↔
    ∃ middle ∈ p.ends casing cursor, next ∈ q.ends casing middle := List.mem_flatMap

theorem mem_ends_one {cls : CharClass} : next ∈ (one cls).ends casing cursor ↔
    ∃ c, cls.accepts casing c = true ∧ cursor.Spans [c] next := by
  unfold ends
  constructor
  · intro h
    split at h
    · cases h
    · rename_i c cs hrest
      split at h
      · obtain rfl := List.mem_singleton.mp h
        exact ⟨c, ‹_›, hrest, by simp⟩
      · cases h
  · rintro ⟨c, hc, hspans⟩
    have hrest : cursor.rest = c :: next.rest := hspans.rest
    have hstart : next.atStart = false := by simpa using hspans.atStart
    rw [hrest]
    simp only [hc, if_true, List.mem_singleton]
    cases next
    rw [Cursor.mk.injEq]
    exact ⟨hstart, rfl⟩

/-- A run reads accepted characters only. -/
theorem exists_spans_of_mem_runEnds {accepts : Char → Bool} {atStart : Bool} {cs : List Char}
    (h : next ∈ runEnds accepts atStart cs) :
    ∃ read, (∀ c ∈ read, accepts c = true) ∧ Cursor.Spans ⟨atStart, cs⟩ read next := by
  induction cs generalizing atStart with
  | nil =>
    obtain rfl := List.mem_singleton.mp h
    exact ⟨[], List.forall_mem_nil _, .refl _⟩
  | cons c cs ih =>
    unfold runEnds at h
    rcases List.mem_cons.mp h with rfl | h
    · exact ⟨[], List.forall_mem_nil _, .refl _⟩
    · split at h
      · obtain ⟨read, hread, hspans⟩ := ih h
        have hfirst : Cursor.Spans ⟨atStart, c :: cs⟩ [c] ⟨false, cs⟩ := ⟨rfl, by simp⟩
        exact ⟨c :: read, List.forall_mem_cons.mpr ⟨‹_›, hread⟩, hfirst.trans hspans⟩
      · cases h

/-- **A match reads a piece of the text.** -/
theorem spans_of_mem_ends {p : Pattern} {casing : Casing} {cursor next : Cursor}
    (h : next ∈ p.ends casing cursor) : ∃ read, cursor.Spans read next := by
  induction p generalizing casing cursor next with
  | empty =>
    obtain rfl := List.mem_singleton.mp h
    exact ⟨[], .refl _⟩
  | one cls =>
    obtain ⟨c, -, hspans⟩ := mem_ends_one.mp h
    exact ⟨[c], hspans⟩
  | many cls =>
    obtain ⟨read, -, hspans⟩ := exists_spans_of_mem_runEnds h
    exact ⟨read, hspans⟩
  | opt p ih =>
    rcases List.mem_cons.mp h with rfl | h
    · exact ⟨[], .refl _⟩
    · exact ih h
  | seq p q ihp ihq =>
    obtain ⟨middle, hp, hq⟩ := mem_ends_seq.mp h
    obtain ⟨read, hread⟩ := ihp hp
    obtain ⟨more, hmore⟩ := ihq hq
    exact ⟨read ++ more, hread.trans hmore⟩
  | alt p q ihp ihq =>
    rcases List.mem_append.mp h with h | h
    · exact ihp h
    · exact ihq h
  | group kind p ih => cases kind <;> exact ih h
  | start =>
    unfold ends at h
    split at h
    · obtain rfl := List.mem_singleton.mp h
      exact ⟨[], .refl _⟩
    · cases h
  | stop =>
    unfold ends at h
    split at h
    · obtain rfl := List.mem_singleton.mp h
      exact ⟨[], .refl _⟩
    · cases h

/-! ### Occurrences -/

theorem matchesAt_iff : p.matchesAt cursor = true ↔ ∃ next, next ∈ p.ends .folded cursor := by
  unfold matchesAt
  rw [Bool.not_eq_true', List.isEmpty_eq_false_iff_exists_mem]

theorem occursFrom_iff {atStart : Bool} {cs : List Char} : p.occursFrom atStart cs = true ↔
    ∃ read next, Cursor.Spans ⟨atStart, cs⟩ read next ∧ p.matchesAt next = true := by
  induction cs generalizing atStart with
  | nil =>
    unfold occursFrom
    constructor
    · exact fun h => ⟨[], _, .refl _, h⟩
    · rintro ⟨read, next, hspans, h⟩
      have hnil : read = [] := (List.append_eq_nil_iff.mp hspans.rest.symm).1
      subst hnil
      rwa [(Cursor.Spans.refl _).next_eq hspans]
  | cons c cs ih =>
    unfold occursFrom
    rw [Bool.or_eq_true, ih]
    have hfirst : Cursor.Spans ⟨atStart, c :: cs⟩ [c] ⟨false, cs⟩ := ⟨rfl, by simp⟩
    constructor
    · rintro (h | ⟨read, next, hspans, h⟩)
      · exact ⟨[], _, .refl _, h⟩
      · exact ⟨_, next, hfirst.trans hspans, h⟩
    · rintro ⟨read, next, hspans, h⟩
      cases read with
      | nil => exact Or.inl (by rwa [(Cursor.Spans.refl _).next_eq hspans])
      | cons d read =>
        obtain ⟨rfl, hcs⟩ := List.cons.inj hspans.rest
        exact Or.inr ⟨read, next, ⟨hcs, by simpa using hspans.atStart⟩, h⟩

/-- **An occurrence**: the pattern matches behind some first part of the text. -/
theorem occursIn_iff {text : List Char} : p.occursIn text = true ↔
    ∃ before rest, text = before ++ rest ∧ p.matchesAt ⟨before.isEmpty, rest⟩ = true := by
  unfold occursIn
  rw [occursFrom_iff]
  constructor
  · rintro ⟨before, ⟨atStart, rest⟩, hspans, h⟩
    have hstart : atStart = before.isEmpty := by simpa using hspans.atStart
    exact ⟨before, rest, hspans.rest, hstart ▸ h⟩
  · rintro ⟨before, rest, htext, h⟩
    exact ⟨before, _, ⟨htext, by simp⟩, h⟩

/-! ### Edges of a text -/

section Edges
variable {cls : CharClass} {c : Char} {cs : List Char}

theorem occursIn_front (h : cls.accepts .folded c = true) :
    (seqOf [.start, .one cls]).occursIn (c :: cs) = true := by
  have hspans : (⟨true, c :: cs⟩ : Cursor).Spans [c] ⟨false, cs⟩ := ⟨rfl, rfl⟩
  have hstart : ⟨true, c :: cs⟩ ∈ start.ends .folded ⟨true, c :: cs⟩ := List.mem_singleton_self _
  have hends := mem_ends_seq.mpr ⟨_, hstart, mem_ends_one.mpr ⟨c, h, hspans⟩⟩
  exact occursIn_iff.mpr ⟨[], c :: cs, rfl, matchesAt_iff.mpr ⟨_, hends⟩⟩

theorem occursIn_back (h : cls.accepts .folded c = true) :
    (seqOf [.one cls, .stop]).occursIn (cs ++ [c]) = true := by
  have hspans : (⟨cs.isEmpty, [c]⟩ : Cursor).Spans [c] ⟨false, []⟩ := ⟨rfl, by simp⟩
  have hstop : ⟨false, []⟩ ∈ stop.ends .folded ⟨false, []⟩ := List.mem_singleton_self _
  have hends := mem_ends_seq.mpr ⟨_, mem_ends_one.mpr ⟨c, h, hspans⟩, hstop⟩
  exact occursIn_iff.mpr ⟨cs, [c], rfl, matchesAt_iff.mpr ⟨_, hends⟩⟩

end Edges

/-! ### What a pattern ends with -/

/-- The pattern and, for a sequence, what its second part ends with. -/
def endings : Pattern → List Pattern
  | .seq p q => .seq p q :: q.endings
  | p => [p]

theorem occursIn_seq_right {text : List Char} (h : (seq p q).occursIn text = true) :
    q.occursIn text = true := by
  unfold occursIn at h ⊢
  rw [occursFrom_iff] at h ⊢
  obtain ⟨read, next, hspans, h⟩ := h
  obtain ⟨last, h⟩ := matchesAt_iff.mp h
  obtain ⟨middle, hp, hq⟩ := mem_ends_seq.mp h
  obtain ⟨more, hmore⟩ := spans_of_mem_ends hp
  exact ⟨_, middle, hspans.trans hmore, matchesAt_iff.mpr ⟨last, hq⟩⟩

/-- **Where a pattern occurs, so does everything that it ends with.** -/
theorem occursIn_of_mem_endings {text : List Char} (hq : q ∈ p.endings)
    (h : p.occursIn text = true) : q.occursIn text = true := by
  induction p with
  | seq p p' _ ih =>
    rcases List.mem_cons.mp hq with rfl | hq
    · exact h
    · exact ih hq (occursIn_seq_right h)
  | _ =>
    obtain rfl := List.mem_singleton.mp hq
    exact h

/-! ### Parts of a pattern -/

/-- The pattern and, for a sequence, what it begins with. -/
def beginnings : Pattern → List Pattern
  | .seq p q => p :: q.beginnings.map (.seq p)
  | p => [p]

/-- **The parts of a pattern**: what its endings begin with. -/
def parts (p : Pattern) : List Pattern := p.endings.flatMap (·.beginnings)

theorem self_mem_beginnings (p : Pattern) : p ∈ p.beginnings := by
  induction p with
  | seq p q _ ih => exact List.mem_cons_of_mem p (List.mem_map_of_mem ih)
  | _ => exact List.mem_cons_self

theorem mem_parts_of_mem_endings (hq : q ∈ p.endings) : q ∈ p.parts :=
  List.mem_flatMap.mpr ⟨q, hq, q.self_mem_beginnings⟩

/-- Where a pattern matches, so does what it begins with. -/
theorem exists_mem_ends_of_mem_beginnings (hq : q ∈ p.beginnings) (h : next ∈ p.ends casing cursor) :
    ∃ middle, middle ∈ q.ends casing cursor := by
  induction p generalizing q cursor with
  | seq p p' _ ih =>
    obtain ⟨middle, hmiddle, hnext⟩ := mem_ends_seq.mp h
    rcases List.mem_cons.mp hq with rfl | hq
    · exact ⟨middle, hmiddle⟩
    · obtain ⟨q', hq', rfl⟩ := List.mem_map.mp hq
      obtain ⟨last, hlast⟩ := ih hq' hnext
      exact ⟨last, mem_ends_seq.mpr ⟨middle, hmiddle, hlast⟩⟩
  | _ =>
    obtain rfl := List.mem_singleton.mp hq
    exact ⟨next, h⟩

theorem occursIn_of_mem_beginnings {text : List Char} (hq : q ∈ p.beginnings)
    (h : p.occursIn text = true) : q.occursIn text = true := by
  rw [occursIn_iff] at h ⊢
  obtain ⟨before, rest, htext, h⟩ := h
  obtain ⟨next, hnext⟩ := matchesAt_iff.mp h
  exact ⟨before, rest, htext, matchesAt_iff.mpr (exists_mem_ends_of_mem_beginnings hq hnext)⟩

/-- **Where a pattern occurs, so do its parts.** -/
theorem occursIn_of_mem_parts {text : List Char} (hq : q ∈ p.parts) (h : p.occursIn text = true) :
    q.occursIn text = true := by
  obtain ⟨ending, hending, hq⟩ := List.mem_flatMap.mp hq
  exact occursIn_of_mem_beginnings hq (occursIn_of_mem_endings hending h)

/-! ### Words -/

theorem ends_seqOf_cons (p : Pattern) (ps : List Pattern) (casing : Casing) (cursor : Cursor) :
    (seqOf (p :: ps)).ends casing cursor =
      (p.ends casing cursor).flatMap ((seqOf ps).ends casing) := by
  cases ps with
  | nil => exact (List.flatMap_singleton' _).symm
  | cons q ps => rfl

/-- **A word reads its letters in any case.** -/
theorem mem_ends_word {text : String} : next ∈ (word text).ends .folded cursor ↔
    ∃ read, read.map Text.foldCase = text.toList.map Text.foldCase ∧ cursor.Spans read next := by
  unfold word
  induction text.toList generalizing cursor with
  | nil =>
    constructor
    · intro h
      obtain rfl := List.mem_singleton.mp h
      exact ⟨[], rfl, .refl _⟩
    · rintro ⟨read, hread, hspans⟩
      obtain rfl := List.map_eq_nil_iff.mp hread
      exact List.mem_singleton.mpr (hspans.next_eq (.refl _))
  | cons c cs ih =>
    rw [List.map_cons, ends_seqOf_cons, List.mem_flatMap]
    constructor
    · rintro ⟨middle, hc, h⟩
      obtain ⟨d, hd, hspans⟩ := mem_ends_one.mp hc
      obtain ⟨read, hread, hrest⟩ := ih.mp h
      have hfold : Text.foldCase c = Text.foldCase d := eq_of_beq hd
      exact ⟨d :: read, by rw [List.map_cons, List.map_cons, hread, hfold], hspans.trans hrest⟩
    · rintro ⟨read, hread, hspans⟩
      obtain ⟨d, read, rfl, hd, hrest⟩ := List.map_eq_cons_iff.mp hread
      have hfirst : cursor.Spans [d] ⟨false, read ++ next.rest⟩ := ⟨hspans.rest, by simp⟩
      have hnext : Cursor.Spans ⟨false, read ++ next.rest⟩ read next :=
        ⟨rfl, by simpa using hspans.atStart⟩
      exact ⟨_, mem_ends_one.mpr ⟨d, beq_iff_eq.mpr hd.symm, hfirst⟩, ih.mpr ⟨read, hrest, hnext⟩⟩

theorem occursIn_word_iff {text : String} {cs : List Char} : (word text).occursIn cs = true ↔
    ∃ read, read.map Text.foldCase = text.toList.map Text.foldCase ∧ read <:+: cs := by
  rw [occursIn_iff]
  constructor
  · rintro ⟨before, rest, rfl, h⟩
    obtain ⟨last, h⟩ := matchesAt_iff.mp h
    obtain ⟨read, hread, hlast⟩ := mem_ends_word.mp h
    have hrest : rest = read ++ last.rest := hlast.rest
    exact ⟨read, hread, before, last.rest, by rw [hrest, List.append_assoc]⟩
  · rintro ⟨read, hread, before, rest, rfl⟩
    have hlast : Cursor.Spans ⟨before.isEmpty, read ++ rest⟩ read
        ⟨before.isEmpty && read.isEmpty, rest⟩ := ⟨rfl, rfl⟩
    have hmatch := matchesAt_iff.mpr ⟨_, mem_ends_word.mpr ⟨read, hread, hlast⟩⟩
    exact ⟨before, read ++ rest, List.append_assoc _ _ _, hmatch⟩

/-- **A word of caseless characters occurs as it is written.** -/
theorem occursIn_word_iff_infix {text : String} (htext : ∀ c ∈ text.toList, Text.Caseless c)
    {cs : List Char} : (word text).occursIn cs = true ↔ text.toList <:+: cs := by
  rw [occursIn_word_iff]
  constructor
  · rintro ⟨read, hread, hcs⟩
    rwa [← Text.eq_of_map_foldCase htext hread]
  · exact fun h => ⟨_, rfl, h⟩

end Pattern

end Harmony
