import Harmony.Note

/-! # Resolution options -/

namespace Harmony

/-- How names are resolved. -/
structure ResolveOptions where
  /-- The spelling of all note names; without one, that of the root. -/
  spelling : Option Spelling := none
  /-- Is a modifier that names no mode an error in scales and keys? -/
  strict : Bool := false
deriving Repr, DecidableEq

/-- The spelling of a name with the given root. -/
def ResolveOptions.spellingFor (options : ResolveOptions) (root : Note) : Spelling :=
  options.spelling.getD root.spelling

end Harmony
