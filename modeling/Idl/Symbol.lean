import Idl.Path.Basic
import Idl.Source.Range

/-!
# Symbols

What is known of a declared name: what kind of thing it is, the file that declares it, the output
that it is written to, and where its name stands.
-/

namespace Idl

namespace Symbol

/-- What a declared name stands for. -/
inductive Kind where
  | typedef
  | struct
  | exception
  | enum
  | interface
deriving DecidableEq, Repr

/-- A kind with its article. -/
def Kind.text : Kind → String
  | typedef => "a typedef"
  | struct => "a struct"
  | exception => "an exception"
  | enum => "an enum"
  | interface => "an interface"

end Symbol

/-- A declared name. -/
structure Symbol where
  kind : Symbol.Kind
  file : Path
  target : Path
  range : FileRange
deriving DecidableEq, Repr

end Idl
