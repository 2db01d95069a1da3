import Idl.Symbol

/-!
# Errors

The causes for which a compilation stops, each with what is needed to explain it.
-/

namespace Idl

/-- Why a compilation stopped. -/
inductive Error where
  | unclosedComment (range : FileRange)
  | unexpectedCharacter (range : FileRange)
  | unexpectedToken (range : FileRange) (found expected : String)
  | unexpectedEnd (range : FileRange) (expected : String)
  | invalidDirection (range : FileRange) (found : String)
  | malformedInclude (range : FileRange)
  | duplicateDefine (name : String) (range previous : FileRange)
  | duplicateSymbol (name : String) (range previous : FileRange)
  | reservedName (name : String) (range : FileRange)
  | unknownType (type : String) (range : FileRange) (suggestion : Option String)
  | notException (name : String) (range : FileRange) (kind : Option Symbol.Kind)
  | includeCycle (path : Path) (range : FileRange)
  | unreadable (path : Path) (range : Option FileRange) (reason : String)
  | overwritesSource (path : Path) (range : Option FileRange)
deriving DecidableEq, Repr

namespace Error

/-- The place that an error is about, if it is about one. -/
def range? : Error → Option FileRange
  | unclosedComment range | unexpectedCharacter range | unexpectedToken range _ _ | unexpectedEnd range _
  | invalidDirection range _ | malformedInclude range | duplicateDefine _ range _ | duplicateSymbol _ range _
  | reservedName _ range | unknownType _ range _ | notException _ range _ | includeCycle _ range => some range
  | unreadable _ range _ | overwritesSource _ range => range

/-- An error in one sentence. -/
def message : Error → String
  | unclosedComment _ => "unclosed block comment"
  | unexpectedCharacter _ => "unexpected character"
  | unexpectedToken _ found expected => s!"unexpected {found}, expected {expected}"
  | unexpectedEnd _ expected => s!"unexpected end of file, expected {expected}"
  | invalidDirection _ found => s!"invalid direction `{found}`"
  | malformedInclude _ => "malformed include directive"
  | duplicateDefine name _ _ => s!"`{name}` is defined already"
  | duplicateSymbol name _ _ => s!"`{name}` is declared already"
  | reservedName name _ => s!"`{name}` is a built-in type"
  | unknownType type _ _ => s!"unknown type `{type}`"
  | notException name _ _ => s!"`{name}` is not a declared exception"
  | includeCycle path _ => s!"`{path.text}` includes itself"
  | unreadable path _ reason => s!"couldn't read `{path.text}`: {reason}"
  | overwritesSource path _ => s!"the output for `{path.text}` would overwrite it"

end Error

end Idl
