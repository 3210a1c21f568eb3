import Harmony.Yaml
import Mathlib.Tactic.SplitIfs

/-! # Scalars are read back

What a reader takes from a scalar is told in two ways: between single quotes a doubled quote stands
for one, and what stands plain is the text itself, unless it is read as something else than a text or
as markup. A text is written so that it is read back.

* `isPrintable`, `Printable`: the characters that may stand in a line as they are, and texts of them.
* `text?`, `text?_scalar`: the text that is read from a scalar.
* `isMarkup`, `isMarkup_scalar`: the lines that no text is written as. -/

namespace Harmony.Yaml

variable {cs : List Char}

/-! ### Characters -/

/-- The characters that may stand in a line as they are: neither controls nor ends of lines nor the mark
of the byte order, and none outside the characters of texts. -/
def isPrintable (c : Char) : Bool :=
  let n := c.toNat
  (0x20 ≤ n && n ≤ 0x7E) || (0xA0 ≤ n && n ≤ 0xD7FF && n != 0x2028 && n != 0x2029) ||
    (0xE000 ≤ n && n ≤ 0xFFFD && n != 0xFEFF) || 0x10000 ≤ n

/-- A text of printable characters. It is one line. -/
def Printable (text : String) : Prop := ∀ c ∈ text.toList, isPrintable c = true

instance : DecidablePred Printable := fun text =>
  decidable_of_iff (text.toList.all isPrintable = true) List.all_eq_true

/-- **A text of printable characters** is written with printable characters. -/
theorem isPrintable_of_mem_scalar (h : ∀ c ∈ cs, isPrintable c = true) :
    ∀ c ∈ scalar cs, isPrintable c = true := by
  unfold scalar
  split
  · refine List.forall_mem_cons.mpr ⟨by decide, List.forall_mem_append.mpr
      ⟨fun c hc => ?_, List.forall_mem_singleton.mpr (by decide)⟩⟩
    obtain ⟨d, hd, hc⟩ := List.mem_flatMap.mp hc
    split at hc
    · obtain ⟨-, rfl⟩ := List.mem_replicate.mp (show c ∈ List.replicate 2 '\'' from hc)
      decide
    · rw [List.mem_singleton.mp hc]
      exact h d hd
  · exact h

/-! ### Reading scalars -/

/-- The text up to the closing quote, in which a doubled quote stands for one; none if the quote does
not come or is not the end. -/
def unquote? : List Char → Option (List Char)
  | [] => none
  | [c] => if c = '\'' then some [] else none
  | c :: d :: cs =>
    if c = '\'' then
      if d = '\'' then (unquote? cs).map ('\'' :: ·) else none
    else (unquote? (d :: cs)).map (c :: ·)

/-- **The text that is read from a scalar**; none if it is read as something else than a text. -/
def text? (cs : List Char) : Option (List Char) :=
  if cs.head? = some '\'' then unquote? cs.tail
  else if readsAsOther cs || hasIndicator cs || hasOuterBlank cs then none
  else some cs

theorem unquote?_quoted (cs : List Char) : unquote? (quoted cs).tail = some cs := by
  unfold quoted
  rw [List.cons_append, List.tail_cons]
  induction cs with
  | nil => rfl
  | cons c cs ih =>
    rw [List.flatMap_cons]
    split
    · rename_i hquote
      subst hquote
      exact congrArg (Option.map ('\'' :: ·)) ih
    · rename_i hquote
      obtain ⟨d, rest, hrest⟩ : ∃ d rest,
          cs.flatMap (fun c => if c = '\'' then ['\'', '\''] else [c]) ++ ['\''] = d :: rest :=
        List.exists_cons_of_ne_nil (List.append_ne_nil_of_right_ne_nil _ (List.cons_ne_nil _ _))
      rw [hrest] at ih
      rw [List.append_assoc, List.singleton_append, hrest, unquote?, if_neg hquote, ih, Option.map_some]

/-- What begins with a quote is markup. -/
theorem head?_ne_quote (h : hasIndicator cs = false) : cs.head? ≠ some '\'' := by
  intro hquote
  obtain ⟨rest, rfl⟩ := List.head?_eq_some_iff.mp hquote
  have hstart : startsWithIndicator ('\'' :: rest) = true := rfl
  simp [hasIndicator, hstart] at h

/-- **A text is read back** from the scalar that is written for it. -/
theorem text?_scalar (cs : List Char) : text? (scalar cs) = some cs := by
  unfold scalar text?
  split
  · exact (if_pos rfl).trans (unquote?_quoted cs)
  · rename_i hplain
    have hmarkup : hasIndicator cs = false := by simp_all
    rw [if_neg (head?_ne_quote hmarkup)]

/-- **Two texts** are written as two scalars. -/
theorem scalar_injective : Function.Injective scalar :=
  fun cs ds h => Option.some.inj (by rw [← text?_scalar cs, h, text?_scalar])

/-! ### Lines that no text is written as -/

/-- Is the line read as markup, and not as a text between quotes? -/
def isMarkup (line : List Char) : Bool := line.head? != some '\'' && hasIndicator line

/-- **No text is written as markup.** -/
theorem isMarkup_scalar (cs : List Char) : isMarkup (scalar cs) = false := by
  unfold isMarkup scalar
  split
  · rfl
  · simp_all

/-- A colon at the end of a line, or before a blank, is markup. -/
theorem hasInnerIndicator_append {rest : List Char} (h : ∀ c ∈ rest.head?, c = ' ') :
    ∀ cs : List Char, hasInnerIndicator (cs ++ ':' :: rest) = true
  | [] => by
    cases rest with
    | nil => rfl
    | cons c rest => simp [hasInnerIndicator, h c rfl]
  | [c] => by
    have ih := hasInnerIndicator_append h []
    rw [List.nil_append] at ih
    simp [hasInnerIndicator, ih]
  | c :: d :: cs => by
    have ih := hasInnerIndicator_append h (d :: cs)
    simp only [List.cons_append] at ih ⊢
    simp [hasInnerIndicator, ih]

end Harmony.Yaml
