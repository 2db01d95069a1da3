import Idl.Command.Program
import Idl.Storage.Disk

/-!
# The program on the file system

Sources are read when a compilation asks for them: it is run on the texts read so far, and if it
stops at a path that was not tried yet, that path is read and the compilation starts again.
-/

namespace Idl.Main

open Command

/-- The paths that were tried, each with its text or the reason why it has none. -/
abbrev Tried := List (Path × Except String String)

/-- What is known of the file system. -/
def sources (tried : Tried) : Sources where
  texts := tried.filterMap fun (path, result) => result.toOption.map fun text => (path, text)
  failure path :=
    match tried.lookup path with
    | some (.error reason) => reason
    | _ => DiskError.notFound.message

/-- The reason for a failure of the file system. -/
def reason (e : IO.Error) : String :=
  match e with
  | .noFileOrDirectory .. => DiskError.notFound.message
  | .alreadyExists .. => DiskError.alreadyExists.message
  | .inappropriateType _ 20 _ => DiskError.notDirectory.message
  | .inappropriateType .. => DiskError.isDirectory.message
  | .invalidArgument _ 36 _ => DiskError.nameTooLong.message
  | e => toString e

/-- Reads a text. -/
def readText (path : Path) : IO (Except String String) := do
  try
    match String.fromUTF8? (← IO.FS.readBinFile path.text) with
    | some text => return .ok text
    | none => return .error DiskError.notText.message
  catch e => return .error (reason e)

/-- Whether there is something at a path. -/
def isPresent (path : Path) : IO Bool := do
  try
    discard (IO.FS.realPath path.text)
    return true
  catch _ => return false

/-- Performs operations up to the first one that fails. -/
def perform (ops : List Operation) : IO (Except String Unit) := do
  try
    for op in ops do
      match op with
      | .makeDirectory path => if path ≠ Path.empty then IO.FS.createDirAll path.text
      | .write path contents => IO.FS.writeFile path.text contents
      | .remove path => IO.FS.removeFile path.text
    return .ok ()
  catch e => return .error (reason e)

/-- Compiles a file on the texts that it asks for. -/
partial def compile (tried : Tried) (path : Path) : IO (Except Error (List Declaration) × Compilation) := do
  let (result, state) := (Compilation.compileFile (sources tried) path).run Compilation.empty
  match result with
  | .error (.unreadable wanted _ _) =>
    if (tried.lookup wanted).isSome then return (result, state)
    else compile ((wanted, ← readText wanted) :: tried) path
  | _ => return (result, state)

/-- Tells reports. -/
def tell (filter : LogFilter) (reports : List Report) : IO Unit := do
  for report in reports do
    IO.print (stdoutText report)
    IO.eprint (stderrText filter report)

/-- Compiles a file and saves its outputs. -/
def compileAndSave (options : Options) : IO Status := do
  let filter : LogFilter := some options.logLevel
  let console := console options
  let (result, state) ← compile [] ⟨options.file⟩
  tell filter (state.log.map .log)
  match result with
  | .error e =>
    tell filter (console.tell state.library e.diagnostic)
    return .error
  | .ok _ =>
    let mut status := Status.ok
    for o in state.finish.1 do
      let present ← isPresent o.path
      let (ended, reports) := o.conclude console state.library present (← perform (o.operations present))
      tell filter reports
      status := status.both ended
    return status

end Idl.Main

open Idl Idl.Command Idl.Main in
/-- Does what the arguments ask for. -/
def main (arguments : List String) : IO UInt32 := do
  match Command.read arguments with
  | .error e =>
    IO.eprint (usageText e)
    return usageExitCode.toUInt32
  | .ok .shortHelp =>
    IO.print shortHelp
    return 0
  | .ok .longHelp =>
    IO.print longHelp
    return 0
  | .ok .version =>
    IO.print versionText
    return 0
  | .ok (.compile options) => return (← compileAndSave options).exitCode.toUInt32
