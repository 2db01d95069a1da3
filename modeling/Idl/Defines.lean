import Idl.Error

/-!
# Defined names

The names that `#define` introduced. They have no value, and each is defined once.
-/

namespace Idl

/-- The defined names, latest first, and where each stands. -/
structure Defines where
  entries : List (String × FileRange)
deriving DecidableEq, Repr

namespace Defines

/-- No name is defined. -/
def empty : Defines := ⟨[]⟩

/-- Where a name is defined. -/
def find? (d : Defines) (name : String) : Option FileRange := d.entries.lookup name

/-- Whether a name is defined. -/
def isDefined (d : Defines) (name : String) : Bool := (d.find? name).isSome

/-- Defines a name that is not defined yet. -/
def define (d : Defines) (name : String) (range : FileRange) : Except Error Defines :=
  match d.find? name with
  | some previous => .error (.duplicateDefine name range previous)
  | none => .ok ⟨(name, range) :: d.entries⟩

end Defines

end Idl
