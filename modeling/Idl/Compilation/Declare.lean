import Idl.Compilation.Basic
import Idl.Text.Letter

/-!
# Declaring items

The items of a file are declared one after the other: names are registered, types are resolved
against the names that are known at that point, and bodies of modules are emitted. What is left of a
body are its declarations, with the imports and the comments that belong in front of each.

Includes are handed to the compilation of the included file.
-/

namespace Idl.Compilation

/-- The file whose items are declared, and what to do about an include in it. -/
structure Context where
  path : Path
  includeFile : Path → FileRange → CompileM Unit

/-- Notes that an item was reached. -/
def reach (path : Path) (head : Token) : CompileM Unit :=
  note .trace s!"{path.text}:{head.position}: {head.kind.description}"

/-! ## Members -/

/-- Declares members one after the other, and collects the imports that they need. -/
def declareMembers {α β : Type} (declare : α → CompileM (β × List Import)) :
    List (Member α) → CompileM (List (Member β) × List Import)
  | [] => pure ([], [])
  | .comment c :: rest => do
    let (members, imports) ← declareMembers declare rest
    return (.comment c :: members, imports)
  | .item a :: rest => do
    let (b, needed) ← declare a
    let (members, imports) ← declareMembers declare rest
    return (.item b :: members, needed ++ imports)

/-- Declares a field. -/
def declareField (target : Path) (f : Field TypeExpr) : CompileM (Field ScriptType × List Import) := do
  let (type, imports) ← resolve target f.type
  return (⟨f.name, type⟩, imports)

/-- Declares parameters one after the other, and collects the imports that they need. -/
def declareParameters (target : Path) : List (Parameter TypeExpr) → CompileM (List (Parameter ScriptType) × List Import)
  | [] => pure ([], [])
  | p :: rest => do
    let (type, needed) ← resolve target p.type
    let (parameters, imports) ← declareParameters target rest
    return (⟨p.direction, p.name, type⟩ :: parameters, needed ++ imports)

/-- Declares a method. -/
def declareMethod (target : Path) (m : MethodItem) : CompileM (Method ScriptType String × List Import) := do
  let (returns, needed) ← resolveReturn target m.method.returns
  let (parameters, imports) ← declareParameters target m.method.parameters
  let raises ← m.method.raises.mapM resolveException
  stopAt m.fault
  return (⟨m.method.name, returns, parameters, raises⟩, needed ++ imports)

/-! ## Items -/

/-- The path that an include leads to. A path that starts like a name is taken from the directory of
the file. -/
def includedPath (path : Path) (written : String) : Path :=
  match written.toList with
  | c :: _ => if Text.continuesName c then path.directory.join ⟨written⟩ else ⟨written⟩
  | [] => ⟨written⟩

/-- What a struct or an exception is declared as. -/
def recordSymbol : RecordKind → Symbol.Kind
  | .struct => .struct
  | .exception => .exception

mutual

/-- Declares an item of a body that is written to `target`. -/
def declare (ctx : Context) (target : Path) : Item → CompileM (List Declaration)
  | .comment c => pure [.comment c]
  | .define head name => do
    reach ctx.path head
    define name
    return []
  | .include head written range => do
    reach ctx.path head
    let path := includedPath ctx.path written
    note .debug s!"including `{path.text}` from `{ctx.path.text}`"
    ctx.includeFile path range
    return []
  | .guarded head name items => do
    reach ctx.path head
    let defined := (← get).defines.isDefined name.text
    let body ← declareAll ctx target items
    return if defined then [] else body
  | .module head name items trailing fault => do
    reach ctx.path head
    let inner := Placement.ofModule target name.text
    let body ← declareAll ctx inner items
    stopAt fault
    emit inner body
    return trailing.map .comment ++ [.module name.text body]
  | .typedef head typed comments => do
    reach ctx.path head
    let (type, imports) ← resolve target typed.type
    register .typedef ctx.path target typed.name
    return comments.map .comment ++ imports.map .imported ++ [.typedef typed.name.text type]
  | .record head kind name block => do
    reach ctx.path head
    register (recordSymbol kind) ctx.path target name
    let (members, imports) ← declareMembers (declareField target) block.members
    stopAt block.fault
    return imports.map .imported ++ block.trailing.map .comment ++ [.record kind name.text members]
  | .enum head name block => do
    reach ctx.path head
    register .enum ctx.path target name
    stopAt block.fault
    return block.trailing.map .comment ++ [.enum name.text block.members]
  | .interface head name block => do
    reach ctx.path head
    register .interface ctx.path target name
    let (members, imports) ← declareMembers (declareMethod target) block.members
    stopAt block.fault
    return imports.map .imported ++ block.trailing.map .comment ++ [.interface name.text members]
  | .fault head error => do
    head.forM (reach ctx.path)
    throw error

/-- Declares the items of a body that is written to `target`. -/
def declareAll (ctx : Context) (target : Path) : List Item → CompileM (List Declaration)
  | [] => pure []
  | item :: items => do
    let first ← declare ctx target item
    let rest ← declareAll ctx target items
    return first ++ rest

end

end Idl.Compilation
