import Harmony.Proofs.Pattern.Steady

/-! # Looking back from a place

Where two patterns stand one behind the other, the first is read up to a place in the text and the
second from there on. To the second the first is a look back, at the start of the text, at a single
character or at a longer piece. Of a longer piece the character in front of the place tells the end.

* `Pattern.EndsAt`: a match that ends at a place.
* `occursIn_seq_iff`: two patterns, from the place between them.
* `Pattern.mayEndWith`: the last characters that a pattern reads.
* `exists_getLast?_of_endsAt`: one of them stands in front of the place. -/

namespace Harmony

/-! ### Splits of a text -/

section Splits
variable {α : Type} {text : List α} {P : List α → List α → Prop}

theorem exists_split_iff : (∃ before behind, text = before ++ behind ∧ P before behind) ↔
    ∃ n ≤ text.length, P (text.take n) (text.drop n) := by
  constructor
  · rintro ⟨before, behind, rfl, h⟩
    exact ⟨before.length, by simp, by simpa using h⟩
  · rintro ⟨n, -, h⟩
    exact ⟨_, _, (List.take_append_drop n text).symm, h⟩

theorem forall_split_iff : (∀ before behind, text = before ++ behind → P before behind) ↔
    ∀ n ≤ text.length, P (text.take n) (text.drop n) := by
  constructor
  · exact fun h n _ => h _ _ (List.take_append_drop n text).symm
  · rintro h before behind rfl
    simpa using h before.length (by simp)

theorem isEmpty_append (before behind : List α) :
    (before ++ behind).isEmpty = (before.isEmpty && behind.isEmpty) := by cases before <;> rfl

end Splits

namespace Pattern

variable {p q : Pattern} {casing : Casing} {cursor next : Cursor} {before behind text : List Char}

/-! ### Matches that end at a place -/

/-- A match of the pattern ends at the place between the two texts. -/
def EndsAt (p : Pattern) (before behind : List Char) : Prop :=
  ∃ front sign, before = front ++ sign ∧
    ⟨before.isEmpty, behind⟩ ∈ p.ends .folded ⟨front.isEmpty, sign ++ behind⟩

instance (p : Pattern) (before behind : List Char) : Decidable (p.EndsAt before behind) :=
  decidable_of_iff' _ exists_split_iff

/-- **One pattern behind the other** occurs where the first ends and the second matches. -/
theorem occursIn_seq_iff : (seq p q).occursIn text = true ↔
    ∃ before behind, text = before ++ behind ∧ p.EndsAt before behind ∧
      q.matchesAt ⟨before.isEmpty, behind⟩ = true := by
  rw [occursIn_iff]
  constructor
  · rintro ⟨front, rest, rfl, h⟩
    obtain ⟨last, hlast⟩ := matchesAt_iff.mp h
    obtain ⟨⟨atStart, behind⟩, hp, hq⟩ := mem_ends_seq.mp hlast
    obtain ⟨sign, hspans⟩ := spans_of_mem_ends hp
    obtain rfl : rest = sign ++ behind := hspans.rest
    obtain rfl : atStart = (front ++ sign).isEmpty := hspans.atStart.trans (isEmpty_append _ _).symm
    exact ⟨front ++ sign, behind, (List.append_assoc _ _ _).symm, ⟨front, sign, rfl, hp⟩,
      matchesAt_iff.mpr ⟨last, hq⟩⟩
  · rintro ⟨-, behind, rfl, ⟨front, sign, rfl, hp⟩, h⟩
    obtain ⟨last, hq⟩ := matchesAt_iff.mp h
    exact ⟨front, sign ++ behind, List.append_assoc _ _ _,
      matchesAt_iff.mpr ⟨last, mem_ends_seq.mpr ⟨_, hp, hq⟩⟩⟩

theorem endsAt_start : start.EndsAt before behind ↔ before = [] := by
  constructor
  · rintro ⟨front, sign, rfl, h⟩
    unfold ends at h
    split at h
    · have hstart := (Cursor.mk.inj (List.mem_singleton.mp h)).1
      exact List.isEmpty_iff.mp (hstart.trans ‹_›)
    · cases h
  · rintro rfl
    exact ⟨[], [], rfl, List.mem_singleton_self _⟩

theorem endsAt_one {cls : CharClass} : (one cls).EndsAt before behind ↔
    ∃ c ∈ before.getLast?, cls.accepts .folded c = true := by
  constructor
  · rintro ⟨front, sign, rfl, h⟩
    obtain ⟨c, hc, hspans⟩ := mem_ends_one.mp h
    obtain rfl : sign = [c] := List.append_cancel_right hspans.rest
    exact ⟨c, by simp, hc⟩
  · rintro ⟨c, hlast, hc⟩
    obtain ⟨front, rfl⟩ := List.getLast?_eq_some_iff.mp hlast
    exact ⟨front, [c], rfl, mem_ends_one.mpr ⟨c, hc, rfl, by simp⟩⟩

theorem endsAt_oneOf : (oneOf [p, q]).EndsAt before behind ↔
    p.EndsAt before behind ∨ q.EndsAt before behind := by
  simp only [EndsAt, oneOf, altOf, ends, List.mem_append, and_or_left, exists_or]

/-! ### The character in front -/

/-- May the character be the last one that a match reads? None stands for a match that reads nothing. -/
def mayEndWith : Pattern → Casing → Option Char → Bool
  | .empty, _, last => last.isNone
  | .one cls, casing, last => last.any (cls.accepts casing)
  | .many cls, casing, last => last.all (cls.accepts casing)
  | .opt p, casing, last => last.isNone || p.mayEndWith casing last
  | .seq p q, casing, last =>
    last.isSome && q.mayEndWith casing last || q.mayEndWith casing none && p.mayEndWith casing last
  | .alt p q, casing, last => p.mayEndWith casing last || q.mayEndWith casing last
  | .group kind p, casing, last => p.mayEndWith (kind.casing casing) last
  | .start, _, last => last.isNone
  | .stop, _, last => last.isNone

/-- **Every match ends with one of the characters** that it may end with. -/
theorem mayEndWith_of_mem_ends {read : List Char} (h : next ∈ p.ends casing cursor)
    (hspans : cursor.Spans read next) : p.mayEndWith casing read.getLast? = true := by
  induction p generalizing casing cursor next read with
  | empty =>
    obtain rfl := List.mem_singleton.mp h
    rw [hspans.read_eq (.refl _)]
    rfl
  | one cls =>
    obtain ⟨c, hc, hone⟩ := mem_ends_one.mp h
    rw [hspans.read_eq hone]
    exact hc
  | many cls =>
    obtain ⟨run, hrun, hmany⟩ := exists_spans_of_mem_runEnds h
    rw [hspans.read_eq hmany]
    exact (Option.all_eq_true _ _).mpr fun c hc => hrun c (List.mem_of_getLast? hc)
  | opt p ih =>
    rcases List.mem_cons.mp h with rfl | h
    · rw [hspans.read_eq (.refl _)]
      rfl
    · exact Bool.or_eq_true_iff.mpr (Or.inr (ih h hspans))
  | seq p q ihp ihq =>
    obtain ⟨middle, hp, hq⟩ := mem_ends_seq.mp h
    obtain ⟨first, hfirst⟩ := spans_of_mem_ends hp
    obtain ⟨second, hsecond⟩ := spans_of_mem_ends hq
    obtain rfl := hspans.read_eq (hfirst.trans hsecond)
    have hlastp := ihp hp hfirst
    have hlastq := ihq hq hsecond
    -- the second part reads the last character unless it reads nothing
    cases hlast : second.getLast? with
    | none =>
      obtain rfl := List.getLast?_eq_none_iff.mp hlast
      rw [hlast] at hlastq
      simp [mayEndWith, hlastp, hlastq]
    | some c =>
      rw [hlast] at hlastq
      simp [mayEndWith, List.getLast?_append, hlast, hlastq]
  | alt p q ihp ihq =>
    refine Bool.or_eq_true_iff.mpr ?_
    exact (List.mem_append.mp h).imp (ihp · hspans) (ihq · hspans)
  | group kind p ih => cases kind <;> exact ih h hspans
  | start | stop =>
    unfold ends at h
    split at h
    · obtain rfl := List.mem_singleton.mp h
      rw [hspans.read_eq (.refl _)]
      rfl
    · cases h

/-- **In front of a place where a match ends** stands one of its last characters, if it reads any. -/
theorem exists_getLast?_of_endsAt (hp : p.mayEndWith .folded none = false)
    (h : p.EndsAt before behind) : ∃ c ∈ before.getLast?, p.mayEndWith .folded (some c) = true := by
  obtain ⟨front, sign, rfl, h⟩ := h
  have hspans : Cursor.Spans ⟨front.isEmpty, sign ++ behind⟩ sign
      ⟨(front ++ sign).isEmpty, behind⟩ := ⟨rfl, isEmpty_append _ _⟩
  have hlast := mayEndWith_of_mem_ends h hspans
  cases hsign : sign.getLast? with
  | none =>
    rw [hsign, hp] at hlast
    cases hlast
  | some c =>
    rw [hsign] at hlast
    exact ⟨c, by simp [List.getLast?_append, hsign], hlast⟩

end Pattern

end Harmony
