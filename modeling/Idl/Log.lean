/-!
# Log entries

What the program notes along the way, each entry with a level. A filter keeps the entries that are
severe enough.
-/

namespace Idl

/-- How severe a log entry is, most severe first. -/
inductive LogLevel where
  | error
  | warn
  | info
  | debug
  | trace
deriving DecidableEq, Repr

namespace LogLevel

/-- A level as it is written. -/
def text : LogLevel → String
  | error => "ERROR"
  | warn => "WARN"
  | info => "INFO"
  | debug => "DEBUG"
  | trace => "TRACE"

/-- The place of a level among the levels, most severe first. -/
def rank : LogLevel → Nat
  | error => 1
  | warn => 2
  | info => 3
  | debug => 4
  | trace => 5

end LogLevel

/-- A note with its level. -/
structure LogEntry where
  level : LogLevel
  message : String
deriving DecidableEq, Repr

/-- The level from which entries are kept; `none` keeps nothing. -/
abbrev LogFilter := Option LogLevel

/-- Whether an entry of a level is kept. -/
def LogFilter.keeps (filter : LogFilter) (level : LogLevel) : Bool :=
  match filter with
  | none => false
  | some least => level.rank ≤ least.rank

end Idl
