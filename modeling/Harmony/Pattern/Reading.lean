import Harmony.Pattern.Basic

/-! # Reading patterns

A written pattern is cut into tokens, and the tokens are read with the open groups on a stack. What is
read are the patterns of this library, no more: other regular expressions are refused, among them those
with a dot, a plus, a counted repetition, a class that is not negated or set operations in a class.

* `Pattern.tokens?`: the tokens of a text; none for an open class or an unknown escape. A class holds
  characters and ranges of at least two characters.
* `Pattern.parse?`: the pattern that a text writes; none for a group that is not closed or not
  opened, and for a `?` or `*` without something to repeat. `*` takes one character class, `?` a class
  or a group. -/

namespace Harmony.Pattern

/-- A token of a written pattern. -/
inductive Token where
  | cls (cls : CharClass)
  | opening (kind : GroupKind)
  | closing
  | bar
  | question
  | star
  | start
  | stop
deriving Repr, DecidableEq

/-- The characters that a backslash deprives of their meaning. -/
def isEscapable (c : Char) : Bool := "\\.+*?()|[]\x7b\x7d^$#&-~".toList.contains c

/-- The characters with a meaning that is not provided. -/
def isReserved (c : Char) : Bool := ".+\x7b".toList.contains c

/-- Does the character mean more than itself inside a class? A doubled sign joins two classes, and a
minus stands for itself at the end only. -/
def isClassSyntax (c : Char) (behind : List Char) : Bool :=
  match c with
  | '[' | '\\' => true
  | '&' | '~' => behind.head? == some c
  | '-' => behind.head? != some ']'
  | _ => false

/-- May a range in a class end with the character? -/
def isRangeEnd (c : Char) : Bool := !"[]\\-".toList.contains c

/-- The tokens of a text. Inside a class, the state holds the ranges read so far, the last first. -/
def tokensFrom? : Option (List CharRange) → List Char → Option (List Token)
  | none, [] => some []
  | some _, [] => none
  | some ranges, c :: cs =>
    if c = ']' then
      if ranges.isEmpty then none
      else (tokensFrom? none cs).map (.cls (.excluding ranges.reverse) :: ·)
    else if isClassSyntax c cs then none
    else
      match cs with
      | '-' :: last :: rest =>
        if last = ']' then tokensFrom? (some (⟨c, c⟩ :: ranges)) ('-' :: last :: rest)
        else if c < last ∧ isRangeEnd last then
          tokensFrom? (some (⟨c, last⟩ :: ranges)) rest
        else none
      | rest => tokensFrom? (some (⟨c, c⟩ :: ranges)) rest
  | none, c :: cs =>
    if c = '\\' then
      match cs with
      | [] => none
      | d :: rest =>
        if d = 's' then (tokensFrom? none rest).map (.cls .blank :: ·)
        else if isEscapable d then (tokensFrom? none rest).map (.cls (.escaped d) :: ·)
        else none
    else if c = '(' then
      match cs with
      | '?' :: ':' :: rest => (tokensFrom? none rest).map (.opening .plain :: ·)
      | '?' :: '-' :: 'i' :: ':' :: rest => (tokensFrom? none rest).map (.opening .exact :: ·)
      | '?' :: _ => none
      | rest => (tokensFrom? none rest).map (.opening .numbered :: ·)
    else if c = '[' then
      match cs with
      | '^' :: rest => tokensFrom? (some []) rest
      | _ => none
    else if c = ')' then (tokensFrom? none cs).map (.closing :: ·)
    else if c = '|' then (tokensFrom? none cs).map (.bar :: ·)
    else if c = '?' then (tokensFrom? none cs).map (.question :: ·)
    else if c = '*' then (tokensFrom? none cs).map (.star :: ·)
    else if c = '^' then (tokensFrom? none cs).map (.start :: ·)
    else if c = '$' then (tokensFrom? none cs).map (.stop :: ·)
    else if isReserved c then none
    else (tokensFrom? none cs).map (.cls (.char c) :: ·)

/-- The tokens of a text. -/
def tokens? (text : List Char) : Option (List Token) := tokensFrom? none text

/-- A group that is not closed yet, with what stands before it in the group around it: the finished
branches and the parts of the last branch, the last first. -/
structure OpenGroup where
  kind : GroupKind
  branches : List Pattern
  parts : List Pattern

/-- The choice between finished branches and a last one. -/
def choice (branches parts : List Pattern) : Pattern :=
  altOf (seqOf parts.reverse :: branches).reverse

/-- Reads tokens behind the given branches and parts, with the open groups on a stack. -/
def parseFrom? (branches parts : List Pattern) (stack : List OpenGroup) :
    List Token → Option Pattern
  | [] => if stack.isEmpty then some (choice branches parts) else none
  | .cls cls :: tokens => parseFrom? branches (.one cls :: parts) stack tokens
  | .start :: tokens => parseFrom? branches (.start :: parts) stack tokens
  | .stop :: tokens => parseFrom? branches (.stop :: parts) stack tokens
  | .bar :: tokens => parseFrom? (seqOf parts.reverse :: branches) [] stack tokens
  | .opening kind :: tokens => parseFrom? [] [] (⟨kind, branches, parts⟩ :: stack) tokens
  | .closing :: tokens =>
    match stack with
    | [] => none
    | outer :: stack =>
      parseFrom? outer.branches (.group outer.kind (choice branches parts) :: outer.parts) stack
        tokens
  | .question :: tokens =>
    match parts with
    | .one cls :: parts => parseFrom? branches (.opt (.one cls) :: parts) stack tokens
    | .group kind p :: parts => parseFrom? branches (.opt (.group kind p) :: parts) stack tokens
    | _ => none
  | .star :: tokens =>
    match parts with
    | .one cls :: parts => parseFrom? branches (.many cls :: parts) stack tokens
    | _ => none

/-- **The pattern that a text writes.** -/
def parse? (text : String) : Option Pattern := (tokens? text.toList).bind (parseFrom? [] [] [])

example : (parse? "(?:no\\s*|-)3").map source = some "(?:no\\s*|-)3" := by decide +kernel

example : (parse? "[^a-z!-]").map source = some "[^a-z!-]" := by decide +kernel

example : ["(unclosed", "*", "[^a-a]", "[^a-z&&b]"].map parse? = [none, none, none, none] := by
  decide +kernel

end Harmony.Pattern
