import Idl.Source.Range
import Idl.Text.Bytes

/-!
# Loaded sources

The files that were read, numbered from one. Lines are numbered from zero: the first one starts the
text, and each line end starts another one. An offset behind the end of a text belongs to its last
line.
-/

namespace Idl

/-- A file that was read. -/
structure SourceFile where
  name : String
  text : String
deriving DecidableEq, Repr

/-- The files that were read, in order. -/
structure Library where
  files : List SourceFile
deriving DecidableEq, Repr

/-- Why a place in a loaded source cannot be found. -/
inductive LookupError where
  /-- No file has this number. -/
  | fileMissing
  /-- The file has no such line. -/
  | lineTooLarge (given max : Nat)
deriving DecidableEq, Repr

/-- A failed look-up in one sentence. -/
def LookupError.message : LookupError → String
  | fileMissing => "file missing"
  | lineTooLarge given max => s!"invalid line {given}, maximum line is {max}"

namespace SourceFile

/-- The offsets after the line ends of a text that starts at `offset`. -/
def lineStartsFrom (offset : Nat) : List Char → List Nat
  | [] => []
  | c :: cs =>
    let next := offset + c.utf8Size
    if c = '\n' then next :: lineStartsFrom next cs else lineStartsFrom next cs

/-- The offsets at which the lines start. -/
def lineStarts (f : SourceFile) : List Nat := 0 :: lineStartsFrom 0 f.text.toList

/-- The number of lines. -/
def lineCount (f : SourceFile) : Nat := f.lineStarts.length

/-- The line that an offset belongs to. -/
def lineIndex (f : SourceFile) (byte : Nat) : Nat := (f.lineStarts.filter (· ≤ byte)).length - 1

/-- Where a line starts; the line after the last one starts at the end of the text. -/
def lineStart (f : SourceFile) (line : Nat) : Except LookupError Nat :=
  match f.lineStarts[line]? with
  | some start => .ok start
  | none =>
    if line = f.lineCount then .ok (Text.byteLength f.text) else .error (.lineTooLarge line (f.lineCount - 1))

/-- The bytes of a line, with its line end. -/
def lineRange (f : SourceFile) (line : Nat) : Except LookupError ByteRange := do
  let start ← f.lineStart line
  let stop ← f.lineStart (line + 1)
  return ⟨start, stop⟩

/-- How many characters of a text that starts at `offset` end at `limit` or before. -/
def charsEndingBy (limit offset : Nat) : List Char → Nat
  | [] => 0
  | c :: cs =>
    let next := offset + c.utf8Size
    if next ≤ limit then charsEndingBy limit next cs + 1 else 0

/-- The line and the column of an offset, counted from one. A column is a character. -/
def location (f : SourceFile) (byte : Nat) : Except LookupError Position := do
  let line := f.lineIndex byte
  let range ← f.lineRange line
  let limit := min byte (min range.stop (Text.byteLength f.text))
  return ⟨line + 1, charsEndingBy limit range.start (Text.dropBytes range.start f.text.toList) + 1⟩

end SourceFile

namespace Library

/-- No file was read. -/
def empty : Library := ⟨[]⟩

/-- The number that the next file gets. -/
def nextId (l : Library) : Nat := l.files.length + 1

/-- Adds a file, under the number `nextId`. -/
def add (l : Library) (file : SourceFile) : Library := ⟨l.files ++ [file]⟩

/-- The file with a number. -/
def get (l : Library) (id : Nat) : Except LookupError SourceFile :=
  if id = 0 then .error .fileMissing
  else match l.files[id - 1]? with
    | some file => .ok file
    | none => .error .fileMissing

end Library

end Idl
