import Idl.ScriptType
import Idl.Token.Basic

/-!
# Declarations

What a file declares, with every type resolved, in the order in which it is written out. Comments
stand among the declarations and among the members of a declaration; imports stand among the
declarations that need them.

Fields, parameters and methods are also used before types are resolved, so the type is a parameter
of theirs.
-/

namespace Idl

/-- A comment, and the blanks in front of it. -/
structure Comment where
  leading : String
  text : String
deriving DecidableEq, Repr

namespace Comment

/-- The comment of a token. -/
def ofToken (token : Token) : Comment := ⟨token.leading, token.text⟩

/-- A comment that stands on a line of its own: it is written in front of what it was found in. -/
def detach (c : Comment) : Comment := if c.leading.toList.contains '\n' then c else { c with leading := "\n" }

end Comment

/-- An item of a declaration, or a comment among its items. -/
inductive Member (α : Type) where
  | item (a : α)
  | comment (c : Comment)
deriving DecidableEq, Repr

/-- The items without the comments. -/
def Member.items {α : Type} (members : List (Member α)) : List α :=
  members.filterMap fun
    | .item a => some a
    | .comment _ => none

/-- A field of a struct or an exception. -/
structure Field (τ : Type) where
  name : String
  type : τ
deriving DecidableEq, Repr

/-- A parameter of a method. -/
structure Parameter (τ : Type) where
  direction : Direction
  name : String
  type : τ
deriving DecidableEq, Repr

/-- A method of an interface, with the exceptions that it raises. -/
structure Method (τ ρ : Type) where
  name : String
  returns : τ
  parameters : List (Parameter τ)
  raises : List ρ
deriving DecidableEq, Repr

/-- A name that is declared in another output, and how that output is referred to. -/
structure Import where
  name : String
  specifier : String
deriving DecidableEq, Repr

/-- Structs and exceptions are written alike. -/
inductive RecordKind where
  | struct
  | exception
deriving DecidableEq, Repr

/-- A declaration. -/
inductive Declaration where
  | module (name : String) (body : List Declaration)
  | typedef (name : String) (type : ScriptType)
  | record (kind : RecordKind) (name : String) (members : List (Member (Field ScriptType)))
  | enum (name : String) (members : List (Member String))
  | interface (name : String) (members : List (Member (Method ScriptType String)))
  | comment (c : Comment)
  | imported (i : Import)
deriving Repr

namespace Declaration

/-- The declared name. -/
def name? : Declaration → Option String
  | module name _ | typedef name _ | record _ name _ | enum name _ | interface name _ => some name
  | comment _ | imported _ => none

/-- The names of the items of a declaration. -/
def itemNames : Declaration → List String
  | record _ _ members => (Member.items members).map (·.name)
  | enum _ members => Member.items members
  | interface _ members => (Member.items members).map (·.name)
  | module _ _ | typedef _ _ | comment _ | imported _ => []

end Declaration

end Idl
