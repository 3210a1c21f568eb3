import Harmony.DegreeMap
import Harmony.Json.Basic
import Harmony.Json.Escape
import Harmony.Yaml

/-! # Documents

What is shown to the user is a document of texts, lists and records. The labels of a record are names
or degrees. Every text stands in one line.

* `Document.toJson`: the document as JSON.
* `Document.lines`: the document as lines of YAML.
* `OutputFormat`, `Document.render`: the text of a document in a format, without a line end behind
  it. -/

namespace Harmony

/-- The label of a field. -/
inductive Label where
  | name (text : String)
  | degree (d : Degree)
deriving Repr, DecidableEq

/-- The characters of a label. -/
def Label.chars : Label → List Char
  | .name text => text.toList
  | .degree d => Nat.toDigits 10 d.val

/-- What is shown to the user. -/
inductive Document where
  | text (content : String)
  | list (items : List Document)
  | record (fields : List (Label × Document))

/-- A JSON string with the given text. -/
def Json.ofText (text : String) : Json := .string (Json.encode text.toList)

namespace Document

/-- A list of texts. -/
def texts (items : List String) : Document := .list (items.map .text)

/-- A record with a text at every degree. -/
def ofDegrees (m : DegreeMap String) : Document :=
  .record (m.entries.map fun (d, s) => (.degree d, .text s))

mutual

/-- **A document as JSON.** -/
def toJson : Document → Json
  | .text s => .ofText s
  | .list items => .array (itemsToJson items)
  | .record fields => .object (fieldsToJson fields)

/-- The items of a list as JSON. -/
def itemsToJson : List Document → List Json
  | [] => []
  | item :: items => item.toJson :: itemsToJson items

/-- The fields of a record as JSON. -/
def fieldsToJson : List (Label × Document) → List (List Char × Json)
  | [] => []
  | (label, value) :: fields => (Json.encode label.chars, value.toJson) :: fieldsToJson fields

end

/-- Puts a text in front of the first line and blanks of the same length in front of the others. -/
def hang (front : List Char) : List (List Char) → List (List Char)
  | [] => []
  | line :: lines => (front ++ line) :: lines.map (List.replicate front.length ' ' ++ ·)

/-- Moves lines to the right by two blanks. -/
def indent (lines : List (List Char)) : List (List Char) := lines.map (' ' :: ' ' :: ·)

/-- A field whose value has the given lines. A text and an empty value stand behind the label, a list
below it, a record below it and to the right. -/
def fieldLines (label : List Char) (value : Document) (lines : List (List Char)) :
    List (List Char) :=
  match value with
  | .text _ | .list [] | .record [] => hang (label ++ [':', ' ']) lines
  | .list _ => (label ++ [':']) :: lines
  | .record _ => (label ++ [':']) :: indent lines

mutual

/-- **A document as lines of YAML.** -/
def lines : Document → List (List Char)
  | .text s => [Yaml.scalar s.toList]
  | .list [] => ["[]".toList]
  | .list (item :: items) => hang ['-', ' '] item.lines ++ itemLines items
  | .record [] => ["\x7b\x7d".toList]
  | .record ((label, value) :: fields) =>
    fieldLines label.chars value value.lines ++ recordLines fields

/-- The lines of the items of a list. -/
def itemLines : List Document → List (List Char)
  | [] => []
  | item :: items => hang ['-', ' '] item.lines ++ itemLines items

/-- The lines of the fields of a record. -/
def recordLines : List (Label × Document) → List (List Char)
  | [] => []
  | (label, value) :: fields =>
    fieldLines label.chars value value.lines ++ recordLines fields

end

/-- A document as YAML. -/
def toYaml (document : Document) : String :=
  String.ofList (List.intercalate ['\n'] document.lines)

end Document

/-- The formats of answers. -/
inductive OutputFormat where
  | yaml
  | json
deriving Repr, DecidableEq

namespace OutputFormat

/-- The format of a name in any case. -/
def ofName? (name : String) : Option OutputFormat :=
  let lower := name.toList.map Char.toLower
  if lower = "yaml".toList ∨ lower = "yml".toList then some .yaml
  else if lower = "json".toList then some .json
  else none

/-- The name of a format. -/
def name : OutputFormat → String
  | .yaml => "yaml"
  | .json => "json"

/-- The text of the error for a name that no format has. -/
def unknown (name : String) : String :=
  "unknown format '" ++ name ++ "', expected 'yaml' or 'json'"

end OutputFormat

/-- **The text of a document in a format.** -/
def Document.render (document : Document) : OutputFormat → String
  | .yaml => document.toYaml
  | .json => document.toJson.pretty

end Harmony
