/-! # Log records

Resolving a name leaves records of what was done. They are part of the answer: a `Traced` value is a
value with the records made on the way to it.

* `LogSource`: the part of the library that speaks.
* `LogRecord.line`: a record as a line of text.
* `Traced.value`, `Traced.log`: the answer and its records. -/

namespace Harmony

/-- How important a record is. -/
inductive LogLevel where
  | trace
  | debug
deriving Repr, DecidableEq

/-- The part of the library that made a record. -/
inductive LogSource where
  | chain
  | chord
  | scale
  | key
  | pitch
deriving Repr, DecidableEq

/-- A record. -/
structure LogRecord where
  level : LogLevel
  source : LogSource
  message : String
deriving Repr, DecidableEq

/-- The name of a level. -/
def LogLevel.name : LogLevel → String
  | .trace => "TRACE"
  | .debug => "DEBUG"

/-- The name of a part of the library. -/
def LogSource.name : LogSource → String
  | .chain => "chain"
  | .chord => "chord"
  | .scale => "scale"
  | .key => "key"
  | .pitch => "pitch"

/-- A record as a line of text. -/
def LogRecord.line (record : LogRecord) : String :=
  "[" ++ record.level.name ++ " " ++ record.source.name ++ "] " ++ record.message

/-- A value with the records made on the way to it, the first in front. -/
structure Traced (α : Type) where
  value : α
  log : List LogRecord

namespace Traced

variable {α β : Type}

/-- A value without records. -/
def quiet (value : α) : Traced α := ⟨value, []⟩

/-- A value with one record. -/
def note (record : LogRecord) (value : α) : Traced α := ⟨value, [record]⟩

/-- Goes on from a value; the records of the second part follow those of the first. -/
def andThen (first : Traced α) (next : α → Traced β) : Traced β :=
  let second := next first.value
  ⟨second.value, first.log ++ second.log⟩

/-- Goes on from a value without further records. -/
def map (f : α → β) (first : Traced α) : Traced β := ⟨f first.value, first.log⟩

end Traced

end Harmony
