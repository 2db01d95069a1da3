import Idl.Error

/-!
# Diagnostics

What is told about an error: a message, labels on places in the sources, and notes.
-/

namespace Idl

/-- A primary label is where the error is; a secondary one is a place that it refers to. -/
inductive LabelStyle where
  | primary
  | secondary
deriving DecidableEq, Repr

/-- A place, and what there is to say about it. -/
structure Label where
  style : LabelStyle
  range : FileRange
  message : String
deriving DecidableEq, Repr

/-- What is told about an error. -/
structure Diagnostic where
  message : String
  labels : List Label
  notes : List String
deriving DecidableEq, Repr

namespace Error

/-- The labels of an error. -/
def labels : Error → List Label
  | unclosedComment range => [⟨.primary, range, "comment starts here"⟩]
  | unexpectedCharacter range | malformedInclude range => [⟨.primary, range, ""⟩]
  | unexpectedToken range _ _ => [⟨.primary, range, "unexpected token"⟩]
  | unexpectedEnd range _ => [⟨.primary, range, "file ends here"⟩]
  | invalidDirection range _ => [⟨.primary, range, "invalid direction"⟩]
  | duplicateDefine _ range previous =>
    [⟨.primary, range, "defined again here"⟩, ⟨.secondary, previous, "first defined here"⟩]
  | duplicateSymbol _ range previous =>
    [⟨.primary, range, "declared again here"⟩, ⟨.secondary, previous, "first declared here"⟩]
  | reservedName _ range => [⟨.primary, range, "declared here"⟩]
  | unknownType _ range _ => [⟨.primary, range, "unknown type"⟩]
  | notException _ range none => [⟨.primary, range, "unknown name"⟩]
  | notException _ range (some kind) => [⟨.primary, range, s!"declared as {kind.text}"⟩]
  | includeCycle _ range => [⟨.primary, range, "included here"⟩]
  | unreadable _ range _ | overwritesSource _ range => range.toList.map fun range => ⟨.primary, range, "included here"⟩

/-- What helps to mend an error. -/
def advice : Error → List String
  | unclosedComment _ => ["help: add a closing `*/`"]
  | unexpectedToken _ _ expected | unexpectedEnd _ expected => [s!"expected {expected}"]
  | invalidDirection _ _ => ["parameters must start with one of `in`, `out` or `inout`"]
  | malformedInclude _ => ["expected `#include \"file.idl\"`", "`#include <file.idl>` is not supported"]
  | reservedName _ _ => ["built-in type names cannot be redeclared"]
  | unknownType _ _ suggestion => suggestion.toList.map fun name => s!"help: did you mean `{name}`?"
  | notException _ _ _ => ["exceptions must be declared before they are raised"]
  | overwritesSource _ _ => ["help: rename the file to end in `.idl`"]
  | unexpectedCharacter _ | duplicateDefine _ _ _ | duplicateSymbol _ _ _ | includeCycle _ _ | unreadable _ _ _ => []

/-- What is told about an error. The last note says where it is. -/
def diagnostic (e : Error) : Diagnostic :=
  ⟨e.message, e.labels, e.advice ++ e.range?.toList.map fun range => s!"at byte offset {range.start}"⟩

end Error

end Idl
