import Harmony.Proofs.Pattern.Wording
import Mathlib.Data.List.Basic

/-! # Patterns over an alphabet

A text over a small alphabet leaves a pattern few choices: a part that asks for another character is
never read. What is left of the pattern is often a single word, or nothing at all, and it matches in the
same places.

* `Text.Over`: the texts over an alphabet.
* `Pattern.within?`: what is left of a pattern on these texts.
* `ends_eq_within?`, `occursIn_eq_within?`: it matches as the pattern does. -/

namespace Harmony

open Text

/-- Every character of the text may stand for a glyph of the alphabet. -/
def Text.Over (alphabet : List Glyph) (text : List Char) : Prop :=
  ∀ c ∈ text, ∃ g ∈ alphabet, g.Holds c

/-- May the class accept a character of the alphabet? -/
def CharClass.meets (cls : CharClass) (casing : Casing) (alphabet : List Glyph) : Bool :=
  alphabet.any (cls.mayAccept casing)

theorem CharClass.meets_of_accepts {cls : CharClass} {casing : Casing} {alphabet : List Glyph}
    {c : Char} (hc : ∃ g ∈ alphabet, g.Holds c) (h : cls.accepts casing c = true) :
    cls.meets casing alphabet = true := by
  obtain ⟨g, hg, hholds⟩ := hc
  exact List.any_eq_true.mpr ⟨g, hg, mayAccept_of_accepts hholds h⟩

namespace Pattern

/-- **What is left of a pattern** on the texts over an alphabet, none if it matches in none of them.
Brackets that only hold a choice together are taken away with the choice. -/
def within? (alphabet : List Glyph) : Pattern → Casing → Option Pattern
  | .empty, _ => some .empty
  | .one cls, casing => if cls.meets casing alphabet then some (.one cls) else none
  | .many cls, _ => some (.many cls)
  | .opt p, casing => some ((p.within? alphabet casing).elim .empty .opt)
  | .seq p q, casing =>
    (p.within? alphabet casing).bind fun left => (q.within? alphabet casing).map (.seq left)
  | .alt p q, casing => (p.within? alphabet casing).merge .alt (q.within? alphabet casing)
  | .group .exact p, _ => (p.within? alphabet .exact).map (.group .exact)
  | .group .numbered p, casing => p.within? alphabet casing
  | .group .plain p, casing => p.within? alphabet casing
  | .start, _ => some .start
  | .stop, _ => some .stop

/-- The places where a match of the pattern may end, nowhere if there is no pattern. -/
def endsOf (left : Option Pattern) (casing : Casing) (cursor : Cursor) : List Cursor :=
  left.elim [] (·.ends casing cursor)

variable {alphabet : List Glyph} {p : Pattern} {casing : Casing} {cursor next : Cursor}
  {text : List Char}

theorem over_rest_of_mem_ends (hover : Over alphabet cursor.rest) (h : next ∈ p.ends casing cursor) :
    Over alphabet next.rest := by
  obtain ⟨read, hspans⟩ := spans_of_mem_ends h
  intro c hc
  refine hover c ?_
  rw [hspans.rest]
  exact List.mem_append_right read hc

/-- **On a text over the alphabet** a match ends where one of what is left of the pattern does. -/
theorem ends_eq_within? (hover : Over alphabet cursor.rest) :
    p.ends casing cursor = endsOf (p.within? alphabet casing) casing cursor := by
  induction p generalizing casing cursor with
  | empty | many cls | start | stop => rfl
  | one cls =>
    unfold within?
    split
    · rfl
    · rename_i hmeets
      unfold ends
      split
      · rfl
      · rename_i c cs hrest
        refine if_neg fun haccepts => hmeets ?_
        exact CharClass.meets_of_accepts (hover c (hrest ▸ List.mem_cons_self)) haccepts
  | opt p ih =>
    simp only [within?, ends, ih hover]
    cases p.within? alphabet casing <;> rfl
  | seq p q ihp ihq =>
    have hrest : (p.ends casing cursor).flatMap (q.ends casing) =
        (p.ends casing cursor).flatMap (endsOf (q.within? alphabet casing) casing) :=
      List.flatMap_congr fun middle hmiddle => ihq (over_rest_of_mem_ends hover hmiddle)
    rw [ends, hrest, ihp hover, within?]
    cases p.within? alphabet casing with
    | none => rfl
    | some left =>
      cases q.within? alphabet casing with
      | none => simp [endsOf]
      | some right => rfl
  | alt p q ihp ihq =>
    simp only [within?, ends, ihp hover, ihq hover]
    cases p.within? alphabet casing <;> cases q.within? alphabet casing <;> simp [endsOf, ends]
  | group kind p ih =>
    cases kind with
    | numbered | plain => exact ih hover
    | exact =>
      simp only [within?, ends, ih hover]
      cases p.within? alphabet .exact <;> rfl

theorem matchesAt_eq_within? (hover : Over alphabet cursor.rest) :
    p.matchesAt cursor = (p.within? alphabet .folded).any (·.matchesAt cursor) := by
  unfold matchesAt
  rw [ends_eq_within? hover]
  cases p.within? alphabet .folded <;> rfl

/-- **A pattern occurs in a text over the alphabet** if something is left of it and occurs there. -/
theorem occursIn_eq_within? (hover : Over alphabet text) :
    p.occursIn text = (p.within? alphabet .folded).any (·.occursIn text) := by
  unfold occursIn
  generalize true = atStart
  induction text generalizing atStart with
  | nil =>
    unfold occursFrom
    rw [matchesAt_eq_within? hover]
  | cons c cs ih =>
    unfold occursFrom
    rw [matchesAt_eq_within? hover, ih fun d hd => hover d (List.mem_cons_of_mem c hd)]
    cases p.within? alphabet .folded <;> rfl

end Pattern

end Harmony
