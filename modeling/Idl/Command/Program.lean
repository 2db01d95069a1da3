import Idl.Command.Basic
import Idl.Command.Help
import Idl.Run

/-!
# The program

The program does what its arguments ask for. Log entries go to the error stream among the
diagnostics. The streams are not taken for terminals, so diagnostics are coloured only on demand.
-/

namespace Idl.Command

/-- The end of the program: its exit code, the storage after it, and what it wrote. -/
structure ProgramResult (σ : Type) where
  exitCode : Nat
  storage : σ
  stdout : String
  stderr : String

/-- The exit code for wrong arguments. -/
def usageExitCode : Nat := 2

/-- A usage error as it is written. -/
def usageText (e : UsageError) : String := s!"error: {e.message}\n"

/-- A log entry as it is written. The finer levels name the thread, which is always the first
one. -/
def logLine (e : LogEntry) : String :=
  let thread := if LogLevel.debug.rank ≤ e.level.rank then " (1)" else ""
  s!"[{e.level.text}]{thread} {e.message}\n"

/-- The console that the options ask for. -/
def console (options : Options) : Console := ⟨options.colour = .always, fun _ => none, none⟩

/-- What a report writes to the standard output. -/
def stdoutText : Report → String
  | .line text => text ++ "\n"
  | .log _ | .diagnostic _ => ""

/-- What a report writes to the error stream. -/
def stderrText (filter : LogFilter) : Report → String
  | .log entry => if filter.keeps entry.level then logLine entry else ""
  | .diagnostic text => text
  | .line _ => ""

/-- Runs the program. -/
def run {σ : Type} [Storage σ] (arguments : List String) (s : σ) : ProgramResult σ :=
  match read arguments with
  | .error e => ⟨usageExitCode, s, "", usageText e⟩
  | .ok .shortHelp => ⟨0, s, shortHelp, ""⟩
  | .ok .longHelp => ⟨0, s, longHelp, ""⟩
  | .ok .version => ⟨0, s, versionText, ""⟩
  | .ok (.compile options) =>
    let result := Run.compileAndSave (console options) s ⟨options.file⟩
    let stdout := String.join (result.reports.map stdoutText)
    let stderr := String.join (result.reports.map (stderrText (some options.logLevel)))
    ⟨result.status.exitCode, result.storage, stdout, stderr⟩

end Idl.Command
