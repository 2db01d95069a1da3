import Idl.Path.Normal

/-!
# Where the generated code goes

The declarations of `dir/file.idl` outside of modules are written to `dir/file.ts`, and the body of
a module `M` to `dir/M/file.ts`. Modules inside of modules add a directory each.
-/

namespace Idl.Placement

/-- The extension of the files that are read. -/
def sourceExtension : String := "idl"

/-- The extension of the files that are written. -/
def outputExtension : String := "ts"

/-- The output for what a file declares outside of modules. -/
def ofSource (source : Path) : Path := source.withExtension outputExtension

/-- The output for a module that is declared where the output is `parent`. -/
def ofModule (parent : Path) (name : String) : Path :=
  let inner := parent.directory.join ⟨name⟩
  match parent.fileName? with
  | some file => inner.join ⟨file⟩
  | none => inner.withExtension outputExtension

/-- How far two lists agree from the start. -/
def commonLength : List Component → List Component → Nat
  | c :: cs, d :: ds => if c = d then commonLength cs ds + 1 else 0
  | _, _ => 0

/-- How the code in `target` refers to the code in `declaredIn`: the way from the one's directory to
the other without its extension, with at least one dot in front. -/
def importSpecifier (target declaredIn : Path) : String :=
  let origin := target.directory.normalize.components
  let goal := (declaredIn.withExtension "").normalize.components
  let common := commonLength origin goal
  let steps := List.replicate (origin.length - common) ".." ++ (goal.drop common).map Component.text
  let way := "/".intercalate steps
  if "..".toList.isPrefixOf way.toList then way else "./" ++ way

end Idl.Placement
