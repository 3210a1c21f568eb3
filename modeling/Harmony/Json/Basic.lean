/-! # JSON values and their text

A `Json` value keeps numbers and strings as they are written: a number is its lexeme, a string the
text between its quotes with the escapes unresolved. Nothing is lost by reading a value, and whether
a number fits a type is asked only where one is wanted.

* `Layout`: what stands between the tokens. `Layout.compact` has nothing there, `Layout.pretty` one
  member a line, indented by two blanks.
* `Json.write`: the text of a value in a layout. -/

namespace Harmony

/-- A JSON value. The members of an object keep their order, and a key may come twice. -/
inductive Json where
  | null
  | bool (value : Bool)
  | number (lexeme : List Char)
  | string (written : List Char)
  | array (items : List Json)
  | object (members : List (List Char × Json))
deriving Repr

namespace Json

/-- What stands between the tokens of a text. -/
structure Layout where
  /-- Before an item, a member or a closing bracket at the given depth. -/
  lineBreak : Nat → List Char
  /-- After the colon of a member. -/
  afterColon : List Char

/-- Nothing between the tokens. -/
def Layout.compact : Layout := ⟨fun _ => [], []⟩

/-- One item or member a line. -/
def Layout.pretty : Layout := ⟨fun depth => '\n' :: List.replicate (2 * depth) ' ', [' ']⟩

/-- A string with its quotes. -/
def quoted (written : List Char) : List Char := '"' :: written ++ ['"']

mutual

/-- The text of a value at the given depth. Brackets around nothing stand together. -/
def chars (layout : Layout) (depth : Nat) : Json → List Char
  | .null => "null".toList
  | .bool true => "true".toList
  | .bool false => "false".toList
  | .number lexeme => lexeme
  | .string written => quoted written
  | .array [] => "[]".toList
  | .array (item :: items) =>
    '[' :: layout.lineBreak (depth + 1) ++ chars layout (depth + 1) item ++
      itemChars layout (depth + 1) items ++ layout.lineBreak depth ++ [']']
  | .object [] => "{}".toList
  | .object ((key, value) :: members) =>
    '{' :: layout.lineBreak (depth + 1) ++ quoted key ++ ':' :: layout.afterColon ++
      chars layout (depth + 1) value ++ memberChars layout (depth + 1) members ++
      layout.lineBreak depth ++ ['}']

/-- The items of an array after the first. -/
def itemChars (layout : Layout) (depth : Nat) : List Json → List Char
  | [] => []
  | item :: items =>
    ',' :: layout.lineBreak depth ++ chars layout depth item ++ itemChars layout depth items

/-- The members of an object after the first. -/
def memberChars (layout : Layout) (depth : Nat) : List (List Char × Json) → List Char
  | [] => []
  | (key, value) :: members =>
    ',' :: layout.lineBreak depth ++ quoted key ++ ':' :: layout.afterColon ++
      chars layout depth value ++ memberChars layout depth members

end

/-- **The text of a value.** -/
def write (layout : Layout) (json : Json) : String := String.ofList (json.chars layout 0)

/-- The text of a value on one line, without blanks. -/
def compact (json : Json) : String := json.write .compact

/-- The text of a value, one item or member a line. -/
def pretty (json : Json) : String := json.write .pretty

end Json

end Harmony
