import Idl.Declaration.Basic
import Idl.Text.Rope

/-!
# Declarations as TypeScript

Every declaration starts a new line. A comment that was on a line of its own stays on one, with the
blank lines in front of it; a comment behind other code stays there, unless that code is written
elsewhere.
-/

namespace Idl

open Rope

/-- A line end and the indentation of the next line. -/
def newline (level : Nat) : Rope := leaf (String.ofList ('\n' :: List.replicate (4 * level) ' '))

/-- A comment. `fresh` says that nothing was written on the line so far. -/
def Comment.render (level : Nat) (fresh : Bool) (c : Comment) : Rope :=
  match c.leading.toList.count '\n' with
  | 0 => if fresh then seq [newline level, leaf c.text] else seq [leaf c.leading, leaf c.text]
  | blank + 1 => seq [leaf (String.ofList (List.replicate blank '\n')), newline level, leaf c.text]

/-- Members in braces. -/
def Member.renderBlock {α : Type} (level : Nat) (item : α → Rope) : List (Member α) → Rope
  | [] => leaf " \x7b\x7d"
  | members =>
    let inner := members.map fun
      | .item a => item a
      | .comment c => c.render (level + 1) false
    seq (leaf " \x7b" :: inner ++ [newline level, leaf "\x7d"])

/-- A field on a line of its own. -/
def Field.render (level : Nat) (f : Field ScriptType) : Rope :=
  seq [newline level, leaf f.name, leaf ": ", leaf f.type.text, leaf ";"]

/-- A parameter, in a box if the callee sets it. -/
def Parameter.render (p : Parameter ScriptType) : String :=
  if p.direction.isBoxed then p.name ++ ": \x7b value: " ++ p.type.text ++ " \x7d" else p.name ++ ": " ++ p.type.text

/-- The note that a method raises an exception. -/
def throwsNote (exception : String) : String := "/** @throws \x7b" ++ exception ++ "\x7d */"

/-- A method on a line of its own, under a line for each exception that it raises. -/
def Method.render (level : Nat) (m : Method ScriptType String) : Rope :=
  let notes := m.raises.flatMap fun exception => [newline level, leaf (throwsNote exception)]
  let parameters := ", ".intercalate (m.parameters.map Parameter.render)
  seq (notes ++
    [newline level, leaf "abstract ", leaf m.name, leaf "(", leaf parameters, leaf "): ",
      leaf m.returns.text, leaf ";"])

namespace Declaration

/-- What a struct or an exception becomes. -/
def recordHeader (name : String) : RecordKind → List Rope
  | .struct => [leaf "export interface ", leaf name]
  | .exception => [leaf "export class ", leaf name, leaf " extends Error"]

/-- A declaration, if it is written in the output of the body that holds it. -/
def render? (level : Nat) (fresh : Bool) : Declaration → Option Rope
  | module _ _ | imported _ => none
  | comment c => some (c.render level fresh)
  | typedef name type =>
    some (seq [newline level, leaf "export type ", leaf name, leaf " = ", leaf type.text, leaf ";"])
  | record kind name members =>
    some (seq (newline level :: recordHeader name kind ++
      [Member.renderBlock level (Field.render (level + 1)) members]))
  | enum name members =>
    let value (text : String) := seq [newline (level + 1), leaf text, leaf ","]
    some (seq [newline level, leaf "export enum ", leaf name, Member.renderBlock level value members])
  | interface name members =>
    some (seq [newline level, leaf "export abstract class ", leaf name,
      Member.renderBlock level (Method.render (level + 1)) members])

/-- Whether the line is fresh after a declaration: a module is written elsewhere. -/
def freshAfter (fresh : Bool) : Declaration → Bool
  | module _ _ => true
  | imported _ => fresh
  | _ => false

/-- The pieces of a body. -/
def renderFrom (level : Nat) (fresh : Bool) : List Declaration → List Rope
  | [] => []
  | d :: body => (d.render? level fresh).toList ++ renderFrom level (d.freshAfter fresh) body

/-- A body, without its modules. -/
def renderBody (level : Nat) (body : List Declaration) : Rope := seq (renderFrom level true body)

/-- The text of a body that is an output of its own. -/
def bodyText (body : List Declaration) : String := (renderBody 0 body).flatten

end Declaration

end Idl
