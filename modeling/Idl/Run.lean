import Idl.Diagnostic.Snippet
import Idl.Storage.Basic

/-!
# Runs

A run compiles a file along with all that it includes, and saves the outputs. If the compilation
fails, nothing is saved. If it succeeds, every output is tried, whatever happens to the others.

What a run tells comes in order: log entries, lines on the standard output, and diagnostics on the
error stream.
-/

namespace Idl

/-- How a run ended. -/
inductive Status where
  | ok
  | error
deriving DecidableEq, Repr

namespace Status

/-- The exit code of a program that ends this way. -/
def exitCode : Status → Nat
  | ok => 0
  | error => 1

/-- Two things together are fine if both are. -/
def both : Status → Status → Status
  | ok, s => s
  | error, _ => error

end Status

/-- What a run tells. -/
inductive Report where
  | log (entry : LogEntry)
  /-- A line on the standard output. -/
  | line (text : String)
  /-- A text on the error stream. -/
  | diagnostic (text : String)
deriving DecidableEq, Repr

/-- Where a run tells it to. -/
structure Console where
  /-- Whether diagnostics are coloured. -/
  colour : Bool
  /-- Why a line cannot be written to the standard output. -/
  lineFault : String → Option String
  /-- Why nothing can be written to the error stream. -/
  diagnosticFault : Option String

namespace Console

/-- Tells a diagnostic, or at least that it cannot be told. -/
def tell (console : Console) (library : Library) (d : Diagnostic) : List Report :=
  let failed (reason : String) := [Report.log ⟨.error, s!"couldn't render diagnostic: {reason}"⟩]
  match Snippet.render library d, console.diagnosticFault with
  | .error e, _ => failed e.message
  | .ok _, some reason => failed reason
  | .ok inks, none => [.diagnostic (Ink.writeAll console.colour inks)]

end Console

namespace Output

/-- What is done to a storage for an output. `present` says that there is something at its path. -/
def operations (present : Bool) (o : Output) : List Operation :=
  match o.contents with
  | some contents => (o.path.parent?.map Operation.makeDirectory).toList ++ [.write o.path contents]
  | none => if present then [.remove o.path] else []

/-- What is told about an output that was saved or removed: a log message and a line. -/
def notice? (present : Bool) (o : Output) : Option (String × String) :=
  match o.contents with
  | some contents =>
    some (s!"wrote {Text.byteLength contents} bytes to `{o.path.text}`", s!"saved to {o.path.text}")
  | none => if present then some (s!"removed stale output `{o.path.text}`", s!"removed {o.path.text}") else none

/-- The diagnostic for an output that could not be saved or told about. -/
def failure (o : Output) (reason : String) : Diagnostic := ⟨s!"couldn't write `{o.path.text}`: {reason}", [], []⟩

/-- What is told about an output after its operations. -/
def conclude (console : Console) (library : Library) (present : Bool) (o : Output) :
    Except String Unit → Status × List Report
  | .error reason => (.error, console.tell library (o.failure reason))
  | .ok () =>
    match o.notice? present with
    | none => (.ok, [])
    | some (message, line) =>
      match console.lineFault line with
      | none => (.ok, [.log ⟨.info, message⟩, .line line])
      | some reason => (.error, .log ⟨.info, message⟩ :: console.tell library (o.failure reason))

end Output

/-- The end of a run: how it ended, the storage after it, and what it told. -/
structure RunResult (σ : Type) where
  status : Status
  storage : σ
  reports : List Report

namespace Run

variable {σ : Type} [Storage σ]

/-- Saves outputs one after the other. -/
def saveAll (console : Console) (library : Library) (s : σ) : List Output → RunResult σ
  | [] => ⟨.ok, s, []⟩
  | o :: rest =>
    let present := Storage.isPresent s o.path
    let (result, s) := Storage.performAll s (o.operations present)
    let (status, reports) := o.conclude console library present result
    let others := saveAll console library s rest
    ⟨status.both others.status, others.storage, reports ++ others.reports⟩

/-- Compiles the file at a path and saves its outputs. -/
def compileAndSave (console : Console) (s : σ) (path : Path) : RunResult σ :=
  let (result, state) := (Compilation.compileFile (Storage.sources s) path).run Compilation.empty
  let logged := state.log.map Report.log
  match result with
  | .error e => ⟨.error, s, logged ++ console.tell state.library e.diagnostic⟩
  | .ok _ =>
    let saved := saveAll console state.library s state.finish.1
    ⟨saved.status, saved.storage, logged ++ saved.reports⟩

end Run

end Idl
