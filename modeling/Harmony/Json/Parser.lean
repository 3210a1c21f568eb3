import Harmony.Json.Basic
import Harmony.Json.Escape
import Harmony.Json.Number

/-! # Reading JSON

A text is cut into tokens, and the tokens are read into a value.

* `tokens?`: the tokens of a text. Blanks between them are dropped.
* `valueFrom?`, `behind?`: one pass over the tokens, with the brackets that are still open on a stack,
  so nesting may be of any depth.
* `parse?`: the value of a text that holds one and nothing behind it. -/

namespace Harmony.Json

/-- A token. Numbers and strings stay as written. -/
inductive Token where
  | beginArray
  | endArray
  | beginObject
  | endObject
  | comma
  | colon
  | null
  | bool (value : Bool)
  | number (lexeme : List Char)
  | string (written : List Char)
deriving Repr, DecidableEq

/-- The characters that may stand between tokens. -/
def isJsonBlank (c : Char) : Bool := c == ' ' || c == '\t' || c == '\n' || c == '\r'

/-- The tokens of one character. -/
def punctuation? (c : Char) : Option Token :=
  if c = '[' then some .beginArray
  else if c = ']' then some .endArray
  else if c = '{' then some .beginObject
  else if c = '}' then some .endObject
  else if c = ',' then some .comma
  else if c = ':' then some .colon
  else none

/-- The words with a meaning of their own. -/
def words : List (List Char × Token) :=
  [("null".toList, .null), ("true".toList, .bool true), ("false".toList, .bool false)]

/-- The token at the front of the text `c :: cs`, and how many characters of `cs` it takes. -/
def token? (c : Char) (cs : List Char) : Option (Token × Nat) :=
  match punctuation? c with
  | some token => some (token, 0)
  | none =>
    if c = '"' then (scan? cs).map fun (written, _) => (.string written, written.length + 1)
    else
      match words.find? fun (word, _) => word.isPrefixOf (c :: cs) with
      | some (word, token) => some (token, word.length - 1)
      | none =>
        let lexeme := (c :: cs).takeWhile isNumberChar
        if isNumber lexeme then some (.number lexeme, lexeme.length - 1) else none

/-- The tokens of a text, of which the last token found still covers `skip` characters. -/
def tokensFrom? (skip : Nat) : List Char → Option (List Token)
  | [] => some []
  | c :: cs =>
    match skip with
    | skip + 1 => tokensFrom? skip cs
    | 0 =>
      if isJsonBlank c then tokensFrom? 0 cs
      else
        match token? c cs with
        | none => none
        | some (token, more) => (tokensFrom? more cs).map (token :: ·)

/-- **The tokens of a text.** -/
def tokens? (cs : List Char) : Option (List Token) := tokensFrom? 0 cs

/-- An open bracket with what has been read behind it, the last first. -/
inductive Frame where
  | array (items : List Json)
  | object (members : List (List Char × Json)) (key : List Char)

mutual

/-- Reads on where a value is due. -/
def valueFrom? (stack : List Frame) : List Token → Option Json
  | .null :: tokens => behind? .null stack tokens
  | .bool b :: tokens => behind? (.bool b) stack tokens
  | .number lexeme :: tokens => behind? (.number lexeme) stack tokens
  | .string written :: tokens => behind? (.string written) stack tokens
  | .beginArray :: .endArray :: tokens => behind? (.array []) stack tokens
  | .beginArray :: tokens => valueFrom? (.array [] :: stack) tokens
  | .beginObject :: .endObject :: tokens => behind? (.object []) stack tokens
  | .beginObject :: .string key :: .colon :: tokens => valueFrom? (.object [] key :: stack) tokens
  | _ => none

/-- Reads on behind a value, which belongs to the innermost open bracket. -/
def behind? (value : Json) : List Frame → List Token → Option Json
  | [], [] => some value
  | .array items :: stack, .comma :: tokens => valueFrom? (.array (value :: items) :: stack) tokens
  | .array items :: stack, .endArray :: tokens =>
    behind? (.array (value :: items).reverse) stack tokens
  | .object members key :: stack, .comma :: .string next :: .colon :: tokens =>
    valueFrom? (.object ((key, value) :: members) next :: stack) tokens
  | .object members key :: stack, .endObject :: tokens =>
    behind? (.object ((key, value) :: members).reverse) stack tokens
  | _, _ => none

end

/-- **The value that a text holds.** -/
def parseChars? (cs : List Char) : Option Json := (tokens? cs).bind (valueFrom? [])

/-- The value that a text holds. -/
def parse? (text : String) : Option Json := parseChars? text.toList

end Harmony.Json
