import Idl.Defines
import Idl.Item.Basic
import Idl.Log
import Idl.Output.Batch
import Idl.Source.Library
import Idl.SymbolTable

/-!
# The state of a compilation

All the files of a compilation share their defined names, their declared names and what they emit.
An error stops the compilation and leaves the state as it is at that point.
-/

namespace Idl

/-- The state that the files of a compilation share. -/
structure Compilation where
  /-- The files that were read. -/
  library : Library
  defines : Defines
  symbols : SymbolTable
  /-- The bodies that were emitted, in order. -/
  emissions : List Emission
  /-- The files that were compiled to their end. -/
  compiled : List Path
  /-- The files that are being compiled, the innermost first. -/
  compiling : List Path
  log : List LogEntry
deriving Repr

/-- A step of a compilation. -/
abbrev CompileM := ExceptT Error (StateM Compilation)

namespace Compilation

/-- The state before the first file. -/
def empty : Compilation := ⟨.empty, .empty, .empty, [], [], [], []⟩

/-- Adds a log entry. -/
def note (level : LogLevel) (message : String) : CompileM Unit :=
  modify fun s => { s with log := s.log ++ [⟨level, message⟩] }

/-- Stops if there is a fault. -/
def stopAt : Option Error → CompileM Unit
  | some e => throw e
  | none => pure ()

/-- Emits a body to an output. -/
def emit (target : Path) (body : List Declaration) : CompileM Unit := do
  note .debug s!"emitting {body.length} declarations to `{target.text}`"
  modify fun s => { s with emissions := s.emissions ++ [⟨target, body⟩] }

/-- The state in which the file at `path` is being compiled. -/
def enter (path : Path) (s : Compilation) : Compilation := { s with compiling := path :: s.compiling }

/-- The state in which the innermost file is no longer being compiled. -/
def leave (s : Compilation) : Compilation := { s with compiling := s.compiling.tail }

/-- Runs a step while the file at `path` is being compiled. The file is left however the step ends. -/
def during {α : Type} (path : Path) (m : CompileM α) : CompileM α := do
  modify (enter path)
  let result ← ExceptT.lift m.run
  modify leave
  MonadExcept.ofExcept result

/-- Defines a name. -/
def define (name : Name) : CompileM Unit := do
  note .debug s!"defined `{name.text}`"
  let defines ← MonadExcept.ofExcept ((← get).defines.define name.text name.range)
  modify fun s => { s with defines }

/-- Declares a name of the file `path` that is written to `target`. -/
def register (kind : Symbol.Kind) (path target : Path) (name : Name) : CompileM Unit := do
  let symbols ← MonadExcept.ofExcept ((← get).symbols.register name.text ⟨kind, path, target, name.range⟩)
  note .debug s!"registered {kind.text} `{name.text}` from `{path.text}`"
  modify fun s => { s with symbols }

/-- What a type stands for in an output, and the imports that it needs there. -/
def resolve (target : Path) (type : TypeExpr) : CompileM (ScriptType × List Import) := do
  MonadExcept.ofExcept ((← get).symbols.resolve type.range target type.text)

/-- What the type of a method's result stands for in an output, and the imports that it needs
there. -/
def resolveReturn (target : Path) (type : TypeExpr) : CompileM (ScriptType × List Import) := do
  MonadExcept.ofExcept ((← get).symbols.resolveReturn type.range target type.text)

/-- The name of a declared exception. -/
def resolveException (name : Name) : CompileM String := do
  MonadExcept.ofExcept ((← get).symbols.checkException name.text name.range)
  return name.text

/-- Takes the outputs for what was emitted so far. -/
def finish (s : Compilation) : List Output × Compilation := (Output.ofEmissions s.emissions, { s with emissions := [] })

end Compilation

end Idl
