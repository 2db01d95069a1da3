/-!
# Places in source files

Files are numbered from one in the order in which they were loaded. A range names a file and two
byte offsets, a position is a line and a column, both counted from one.
-/

namespace Idl

/-- Two byte offsets into one text. -/
structure ByteRange where
  start : Nat
  stop : Nat
deriving DecidableEq, Repr

/-- A range of bytes of a loaded file. -/
structure FileRange where
  file : Nat
  start : Nat
  stop : Nat
deriving DecidableEq, Repr

namespace ByteRange

/-- A range for a reader who looks for faults. -/
def describe (r : ByteRange) : String := s!"ByteRange({r.start}..{r.stop})"

end ByteRange

namespace FileRange

/-- The bytes, without the file. -/
def bytes (r : FileRange) : ByteRange := ⟨r.start, r.stop⟩

/-- The empty range at an offset. -/
def point (file offset : Nat) : FileRange := ⟨file, offset, offset⟩

/-- The least range that holds two ranges of one file. -/
def merge? (r s : FileRange) : Option FileRange :=
  if r.file = s.file then some ⟨r.file, min r.start s.start, max r.stop s.stop⟩ else none

/-- The range extended by another one, if that is in the same file. -/
def extend (r s : FileRange) : FileRange := (r.merge? s).getD r

/-- A range for a reader who looks for faults. -/
def describe (r : FileRange) : String := s!"FileRange({r.file}, {r.start}..{r.stop})"

end FileRange

/-- A line and a column, counted from one. -/
structure Position where
  line : Nat
  column : Nat
deriving DecidableEq, Repr

namespace Position

/-- The start of a text. -/
def first : Position := ⟨1, 1⟩

/-- The position after a character. A carriage return takes no column. -/
def next (p : Position) (c : Char) : Position :=
  if c = '\n' then ⟨p.line + 1, 1⟩
  else if c = '\r' then p
  else ⟨p.line, p.column + 1⟩

/-- The position after a text. -/
def advance (p : Position) (cs : List Char) : Position := cs.foldl next p

instance : ToString Position := ⟨fun p => s!"{p.line}:{p.column}"⟩

end Position

end Idl
