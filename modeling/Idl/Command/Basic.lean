import Idl.Log
import Idl.Text.Control

/-!
# The command line

The arguments are read from left to right. The value of an option and the name of the file are
checked when the next argument is taken, or at the end; an argument that is not known is reported at
once. The first request for help or for the version, or the first error, decides.
-/

namespace Idl

/-- When diagnostics are coloured. -/
inductive ColourChoice where
  | auto
  | always
  | never
deriving DecidableEq, Repr

/-- The choice that a word stands for. -/
def ColourChoice.ofText? : String → Option ColourChoice
  | "auto" => some auto
  | "always" => some always
  | "never" => some never
  | _ => none

/-- What to compile, and how to tell about it. -/
structure Options where
  file : String
  verbosity : Nat
  colour : ColourChoice
deriving DecidableEq, Repr

/-- The level of the log entries that are shown: more with each repetition of the option. -/
def Options.logLevel (o : Options) : LogLevel :=
  match o.verbosity with
  | 0 => .warn
  | 1 => .info
  | 2 => .debug
  | _ => .trace

/-- What is wrong with the arguments. -/
inductive UsageError where
  | missingFile
  | emptyFile
  | missingColour
  | invalidColour (value : String)
  | repeatedColour
  | unexpectedArgument (argument : String)
  | unexpectedValue (value option : String)
deriving DecidableEq, Repr

namespace UsageError

/-- An argument as a message shows it. -/
def quoted (argument : String) : String := s!"'{Text.visible argument}'"

/-- A usage error in a sentence. -/
def message : UsageError → String
  | missingFile => "the following required arguments were not provided:"
  | emptyFile => "a value is required for '<FILE>' but none was supplied"
  | missingColour => "a value is required for '--color <COLOR>' but none was supplied"
  | invalidColour value => s!"invalid value {quoted value} for '--color <COLOR>'"
  | repeatedColour => "the argument '--color <COLOR>' cannot be used multiple times"
  | unexpectedArgument argument => s!"unexpected argument {quoted argument} found"
  | unexpectedValue value option =>
    s!"unexpected value {quoted value} for '{option}' found; no more were expected"

end UsageError

/-- What the arguments ask for. -/
inductive Request where
  | compile (options : Options)
  | shortHelp
  | longHelp
  | version
deriving DecidableEq, Repr

namespace Command

/-- An argument that is still to be checked. -/
inductive Pending where
  | file (text : String)
  | colour (value : Option String)
deriving DecidableEq, Repr

/-- What was read of the arguments. -/
structure State where
  pending : Option Pending
  file : Option String
  verbosity : Nat
  colour : Option ColourChoice
  /-- Whether options have ended. -/
  onlyFiles : Bool
deriving DecidableEq, Repr

/-- No argument was read. -/
def State.start : State := ⟨none, none, 0, none, false⟩

/-- Checks the value of the colour option. -/
def State.setColour (s : State) (value : String) : Except UsageError State :=
  if s.colour.isSome then .error .repeatedColour
  else if value = "" then .error .missingColour
  else match ColourChoice.ofText? value with
    | some colour => .ok { s with colour := some colour }
    | none => .error (.invalidColour value)

/-- Checks the argument that is still to be checked. -/
def State.settle (s : State) : Except UsageError State :=
  match s.pending with
  | none => .ok s
  | some (.file text) => if text = "" then .error .emptyFile else .ok { s with pending := none, file := some text }
  | some (.colour none) => .error .missingColour
  | some (.colour (some value)) => { s with pending := none }.setColour value

/-- Counts a repetition of the verbose option. -/
def State.moreVerbose (s : State) : Except UsageError State := do
  let s ← s.settle
  return { s with verbosity := s.verbosity + 1 }

/-- Whether a file was given. -/
def State.hasFile (s : State) : Bool :=
  s.file.isSome || match s.pending with
    | some (.file _) => true
    | _ => false

/-- Takes an argument that is no option: a value, or the file. -/
def State.takeFile (s : State) (text : String) : Except UsageError State :=
  if s.hasFile then .error (.unexpectedArgument text)
  else do
    let s ← s.settle
    return { s with pending := some (.file text) }

/-- An argument ends the reading with a request, or reading goes on. -/
abbrev Answer := Except UsageError (Request ⊕ State)

/-- Ends the reading with a request, unless there is something wrong with the arguments before
it. -/
def State.request (s : State) (r : Request) : Answer := do
  let _ ← s.settle
  return .inl r

/-- Goes on after an argument. -/
def goOn (s : Except UsageError State) : Answer := s.map .inr

/-- Takes an option with a long name, possibly with a value behind an equals sign. -/
def State.takeLong (s : State) (name : String) (value : Option String) : Answer :=
  match name, value with
  | "verbose", none => goOn s.moreVerbose
  | "verbose", some v => .error (.unexpectedValue v "--verbose...")
  | "help", none => s.request .longHelp
  | "help", some v => .error (.unexpectedValue v "--help")
  | "version", none => s.request .version
  | "version", some v => .error (.unexpectedValue v "--version")
  | "color", none => do
    let s ← s.settle
    return .inr { s with pending := some (.colour none) }
  | "color", some v => do
    let s ← s.settle
    goOn (s.setColour v)
  | _, _ => .error (.unexpectedArgument ("--" ++ name))

/-- Takes options with names of one letter that are written together. -/
def State.takeShort (s : State) : List Char → Answer
  | [] => .ok (.inr s)
  | 'v' :: rest => do
    let s ← s.moreVerbose
    s.takeShort rest
  | 'h' :: _ => s.request .shortHelp
  | 'V' :: _ => s.request .version
  | c :: _ => .error (.unexpectedArgument ("-" ++ c.toString))

/-- Takes an argument. -/
def State.take (s : State) (argument : String) : Answer :=
  if s.onlyFiles then goOn (s.takeFile argument)
  else match argument.toList with
    | ['-', '-'] => .ok (.inr { s with onlyFiles := true })
    | '-' :: '-' :: rest =>
      let name := rest.takeWhile (· ≠ '=')
      let value := if '=' ∈ rest then some (String.ofList ((rest.dropWhile (· ≠ '=')).drop 1)) else none
      s.takeLong (String.ofList name) value
    | '-' :: c :: rest => s.takeShort (c :: rest)
    | _ =>
      if s.pending = some (.colour none) then .ok (.inr { s with pending := some (.colour (some argument)) })
      else goOn (s.takeFile argument)

/-- Reads the arguments that are left. -/
def readFrom (s : State) : List String → Except UsageError Request
  | [] => do
    let s ← s.settle
    match s.file with
    | some file => .ok (.compile ⟨file, s.verbosity, s.colour.getD .auto⟩)
    | none => .error .missingFile
  | argument :: rest =>
    match s.take argument with
    | .error e => .error e
    | .ok (.inl r) => .ok r
    | .ok (.inr s) => readFrom s rest

/-- What the arguments ask for. -/
def read (arguments : List String) : Except UsageError Request := readFrom .start arguments

end Command

end Idl
