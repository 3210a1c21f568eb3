import Harmony.Pattern.Reading
import Harmony.Proofs.Pattern.Occurrence

/-! # Patterns that are read are written as they were

Reading a pattern loses nothing of its text: the tokens stand for pieces of the text, and while they are
put together, the open groups, the finished branches and the parts of the last one are written as what
has been read so far.

* `eq_flatMap_source_of_tokensFrom?`: a text from its tokens.
* `writtenParts`, `writtenGroups`, `sourceChars_of_parseFrom?`: what has been read, at any point of the
  reading.
* `source_of_parse?`: a pattern is written as the text that it was read from.
* `factors`, `occursIn_eq_of_factors_eq`: patterns that differ in the grouping of sequences only. A text
  does not tell them apart. -/

namespace Harmony.Pattern

/-! ### Tokens -/

/-- A token as it is written. -/
def Token.source : Token → List Char
  | .cls c => c.source
  | .opening kind => kind.opening
  | .closing => [')']
  | .bar => ['|']
  | .question => ['?']
  | .star => ['*']
  | .start => ['^']
  | .stop => ['$']

/-- What has been read of a class, if one is open. -/
def openClass : Option (List CharRange) → List Char
  | none => []
  | some ranges => '[' :: '^' :: ranges.reverse.flatMap (·.source)

theorem openClass_cons (range : CharRange) (ranges : List CharRange) (text : List Char) :
    openClass (some (range :: ranges)) ++ text =
      openClass (some ranges) ++ (range.source ++ text) := by
  simp [openClass, List.flatMap_append]

theorem source_single (c : Char) : CharRange.source ⟨c, c⟩ = [c] := if_pos rfl

theorem source_of_lt {c last : Char} (h : c < last) : CharRange.source ⟨c, last⟩ = [c, '-', last] := by
  have hne : c ≠ last := by
    rintro rfl
    exact Char.lt_irrefl c h
  exact if_neg hne

section Tokens
variable {state : Option (List CharRange)} {text rest : List Char} {token : Token}
  {tokens : List Token}

/-- One more token stands for one more piece of the text. -/
theorem source_append_of_map
    (ih : ∀ {tokens}, tokensFrom? none rest = some tokens →
      openClass none ++ rest = tokens.flatMap (·.source))
    (h : (tokensFrom? none rest).map (token :: ·) = some tokens) :
    token.source ++ rest = tokens.flatMap (·.source) := by
  obtain ⟨behind, hbehind, rfl⟩ := Option.map_eq_some_iff.mp h
  rw [List.flatMap_cons, ← ih hbehind]
  rfl

/-- **A text from its tokens**, with the class that is open in front of it. -/
theorem eq_flatMap_source_of_tokensFrom? (h : tokensFrom? state text = some tokens) :
    openClass state ++ text = tokens.flatMap (·.source) := by
  fun_induction tokensFrom? state text generalizing tokens
  -- the texts that are refused
  all_goals try contradiction
  case case1 =>
    cases h
    rfl
  case case4 ranges cs hranges ih =>
    rw [← source_append_of_map ih h]
    simp [openClass, Token.source, CharClass.source]
  case case6 | case9 =>
    rename_i ih
    rw [← ih h, openClass_cons, source_single]
    rfl
  case case7 hrange _ ih =>
    rw [← ih h, openClass_cons, source_of_lt hrange.1]
    rfl
  case case18 ih => exact ih h
  -- outside of a class every piece is a token of its own
  all_goals exact source_append_of_map ‹_› h

end Tokens

/-! ### Patterns from parts -/

theorem sourceChars_seqOf (ps : List Pattern) : (seqOf ps).sourceChars = ps.flatMap sourceChars := by
  fun_induction seqOf ps with
  | case1 => rfl
  | case2 p => simp
  | case3 p ps hne ih => rw [sourceChars, ih, List.flatMap_cons]

/-- A choice with one more branch behind the others. -/
theorem sourceChars_altOf_append (ps : List Pattern) (p : Pattern) :
    (altOf (ps ++ [p])).sourceChars = (ps.flatMap fun q => q.sourceChars ++ ['|']) ++ p.sourceChars := by
  induction ps with
  | nil => rfl
  | cons q ps ih =>
    have hstep : altOf (q :: ps ++ [p]) = .alt q (altOf (ps ++ [p])) := by
      cases ps <;> rfl
    rw [hstep, sourceChars, ih]
    simp

/-! ### What has been read -/

/-- The finished branches and the parts of the last one, as they are written. -/
def writtenParts (branches parts : List Pattern) : List Char :=
  (branches.reverse.flatMap fun p => p.sourceChars ++ ['|']) ++ parts.reverse.flatMap sourceChars

/-- The open groups, as they are written. -/
def writtenGroups : List OpenGroup → List Char
  | [] => []
  | outer :: stack =>
    writtenGroups stack ++ writtenParts outer.branches outer.parts ++ outer.kind.opening

theorem sourceChars_choice (branches parts : List Pattern) :
    (choice branches parts).sourceChars = writtenParts branches parts := by
  unfold choice writtenParts
  rw [List.reverse_cons, sourceChars_altOf_append, sourceChars_seqOf]

theorem writtenParts_cons (branches : List Pattern) (p : Pattern) (parts : List Pattern) :
    writtenParts branches (p :: parts) = writtenParts branches parts ++ p.sourceChars := by
  simp [writtenParts]

theorem writtenParts_bar (branches parts : List Pattern) :
    writtenParts (seqOf parts.reverse :: branches) [] = writtenParts branches parts ++ ['|'] := by
  simp [writtenParts, sourceChars_seqOf]

/-- **At any point of the reading**, the pattern is written as what has been read and the tokens that are
left. -/
theorem sourceChars_of_parseFrom? {branches parts : List Pattern} {stack : List OpenGroup}
    {tokens : List Token} {p : Pattern} (h : parseFrom? branches parts stack tokens = some p) :
    p.sourceChars =
      writtenGroups stack ++ writtenParts branches parts ++ tokens.flatMap (·.source) := by
  fun_induction parseFrom? branches parts stack tokens
  -- the tokens that are refused
  all_goals try contradiction
  case case1 branches parts stack hstack =>
    cases h
    rw [sourceChars_choice, List.isEmpty_iff.mp hstack]
    simp [writtenGroups]
  -- a part, a bar, the two ends of a group and the two signs of repetition
  all_goals
    rename_i ih
    rw [ih h, List.flatMap_cons]
  case case6 => simp [writtenParts_bar, Token.source]
  case case7 => simp [writtenGroups, writtenParts, Token.source]
  case case9 =>
    simp [writtenGroups, writtenParts_cons, sourceChars_choice, sourceChars, Token.source]
  all_goals simp [writtenParts_cons, sourceChars, Token.source]

/-- **A pattern is written as the text that it was read from.** -/
theorem source_of_parse? {text : String} {p : Pattern} (h : parse? text = some p) :
    p.source = text := by
  obtain ⟨tokens, htokens, hp⟩ := Option.bind_eq_some_iff.mp h
  have htext := eq_flatMap_source_of_tokensFrom? htokens
  rw [source, sourceChars_of_parseFrom? hp, ← htext]
  exact String.ofList_toList

/-! ### Sequences -/

/-- What stands one behind the other in a pattern, however it is grouped into sequences. -/
def factors : Pattern → List Pattern
  | .empty => []
  | .seq p q => p.factors ++ q.factors
  | .alt p q => [.alt (seqOf p.factors) (seqOf q.factors)]
  | .opt p => [.opt (seqOf p.factors)]
  | .group kind p => [.group kind (seqOf p.factors)]
  | .one cls => [.one cls]
  | .many cls => [.many cls]
  | .start => [.start]
  | .stop => [.stop]

theorem ends_seqOf_append (ps qs : List Pattern) (casing : Casing) (cursor : Cursor) :
    (seqOf (ps ++ qs)).ends casing cursor =
      ((seqOf ps).ends casing cursor).flatMap ((seqOf qs).ends casing) := by
  induction ps generalizing cursor with
  | nil => exact (List.flatMap_singleton _ _).symm
  | cons p ps ih =>
    rw [List.cons_append, ends_seqOf_cons, ends_seqOf_cons, List.flatMap_assoc]
    exact congrArg (List.flatMap · _) (funext ih)

/-- **A pattern matches as the sequence of its factors.** -/
theorem ends_seqOf_factors (p : Pattern) (casing : Casing) (cursor : Cursor) :
    (seqOf p.factors).ends casing cursor = p.ends casing cursor := by
  induction p generalizing casing cursor with
  | seq p q ihp ihq =>
    rw [factors, ends_seqOf_append, ihp, ends]
    exact congrArg (List.flatMap · _) (funext (ihq casing))
  | alt p q ihp ihq => rw [factors, seqOf, ends, ihp, ihq, ends]
  | opt p ih => rw [factors, seqOf, ends, ih, ends]
  | group kind p ih => cases kind <;> rw [factors, seqOf, ends, ih, ends]
  | _ => rfl

/-- **Patterns of the same factors** occur in the same texts. -/
theorem occursIn_eq_of_factors_eq {p q : Pattern} (h : p.factors = q.factors) (text : List Char) :
    p.occursIn text = q.occursIn text := by
  have hends : p.ends .folded = q.ends .folded := by
    funext cursor
    rw [← ends_seqOf_factors p, h, ends_seqOf_factors]
  have hmatches : p.matchesAt = q.matchesAt := by
    funext cursor
    unfold matchesAt
    rw [hends]
  unfold occursIn
  rw [Bool.eq_iff_iff, occursFrom_iff, occursFrom_iff, hmatches]

end Harmony.Pattern
