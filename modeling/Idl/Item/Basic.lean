import Idl.Declaration.Basic
import Idl.Error

/-!
# Items

What a file says, before any name or type in it is looked up: a list of items, where modules and
guarded blocks hold items of their own. Comments are already where they will be written.

Reading stops at the first fault. The item in which it lies keeps what was read of it, so that a
declaration that is wrong in itself is reported before a fault further on.
-/

namespace Idl

/-- A name where it is declared or used. -/
structure Name where
  text : String
  range : FileRange
deriving DecidableEq, Repr

/-- A type as it is written, without comments and needless blanks. -/
structure TypeExpr where
  text : String
  range : FileRange
deriving DecidableEq, Repr

/-- A type followed by a name. -/
structure TypedName where
  type : TypeExpr
  name : Name
deriving DecidableEq, Repr

/-- What was read of a method, and the fault that ended it. -/
structure MethodItem where
  method : Method TypeExpr Name
  fault : Option Error
deriving DecidableEq, Repr

/-- The members in the braces of a declaration, the comments after the closing brace, and the fault
that ended it. -/
structure Block (α : Type) where
  members : List (Member α)
  trailing : List Comment
  fault : Option Error
deriving DecidableEq, Repr

/-- An item of a file. The head is its first token. -/
inductive Item where
  | comment (c : Comment)
  | define (head : Token) (name : Name)
  | include (head : Token) (written : String) (range : FileRange)
  | guarded (head : Token) (name : Name) (body : List Item)
  | module (head : Token) (name : Name) (body : List Item) (trailing : List Comment) (fault : Option Error)
  | typedef (head : Token) (typed : TypedName) (comments : List Comment)
  | record (head : Token) (kind : RecordKind) (name : Name) (block : Block (Field TypeExpr))
  | enum (head : Token) (name : Name) (block : Block String)
  | interface (head : Token) (name : Name) (block : Block MethodItem)
  | fault (head : Option Token) (error : Error)
deriving Repr

end Idl
