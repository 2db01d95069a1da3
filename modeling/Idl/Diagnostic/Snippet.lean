import Idl.Diagnostic.Basic
import Idl.Diagnostic.Ink
import Idl.Source.Library
import Idl.Text.Blank
import Idl.Text.Width

/-!
# Diagnostics as text

A diagnostic is written as a header, a snippet of each file that it has labels in, and its notes. A
snippet shows the lines with labels, each with carets below it and with the messages of the labels.
Columns are counted by the width of the characters, and a tab goes to the next multiple of four
columns.

A label that goes over several lines is drawn with a bracket at the left. It stands alone in its
diagnostic.
-/

namespace Idl.Snippet

open Ink

/-! ## Characters in columns -/

/-- A character of a line: the offset in bytes from the start of the line, and the number of
columns. -/
structure Cell where
  char : Char
  offset : Nat
  width : Nat
deriving DecidableEq, Repr

/-- The offset after a character. -/
def Cell.stop (cell : Cell) : Nat := cell.offset + cell.char.utf8Size

/-- The number of columns from one tab stop to the next. -/
def tabWidth : Nat := 4

/-- The characters of a text that starts at the given offset and column. -/
def cellsFrom (offset column : Nat) : List Char → List Cell
  | [] => []
  | c :: cs =>
    let width := if c = '\t' then tabWidth - column % tabWidth else Text.width c
    ⟨c, offset, width⟩ :: cellsFrom (offset + c.utf8Size) (column + width) cs

/-- The characters of a line. -/
def cells (line : List Char) : List Cell := cellsFrom 0 0 line

/-- Whether two ranges of offsets have a byte in common. -/
def overlap (start stop start' stop' : Nat) : Bool := max start start' < min stop stop'

/-! ## Labels on a line -/

/-- A label within a line, with offsets from the start of the line. -/
structure LineLabel where
  style : LabelStyle
  start : Nat
  stop : Nat
  message : String
deriving DecidableEq, Repr

/-- The part of a label over several lines that is on one line. -/
inductive Part where
  /-- The label starts here, at an offset. -/
  | top (start : Nat)
  /-- The label goes on. -/
  | inside
  /-- The label ends here, at an offset. -/
  | bottom (stop : Nat) (message : String)
deriving DecidableEq, Repr

/-- A line of a snippet. -/
structure Line where
  number : Nat
  text : List Char
  /-- The labels within the line, from left to right. -/
  labels : List LineLabel
  /-- The part of a label over several lines. -/
  part : Option Part
deriving DecidableEq, Repr

/-- How a label looks. -/
def ink : LabelStyle → InkStyle
  | .primary => .primary
  | .secondary => .secondary

/-- Whether a label lies on a character. -/
def LineLabel.covers (cell : Cell) (l : LineLabel) : Bool := overlap l.start l.stop cell.offset cell.stop

/-- How a character with some labels on it looks: a primary label wins. -/
def styleOf (labels : List LineLabel) : Option LabelStyle :=
  if labels.any (·.style = .primary) then some .primary
  else if labels.any (·.style = .secondary) then some .secondary
  else none

/-- Inserts a label into labels that are sorted by start and end. -/
def insertLabel (l : LineLabel) : List LineLabel → List LineLabel
  | [] => [l]
  | other :: rest =>
    if l.start < other.start ∨ (l.start = other.start ∧ l.stop ≤ other.stop) then l :: other :: rest
    else other :: insertLabel l rest

/-- The number of bytes of white space that a line starts with. -/
def indent (line : List Char) : Nat := Text.size (line.takeWhile Text.isBlank)

/-! ## Gutters -/

/-- A line end. -/
def lineEnd : Ink := .text "\n"

/-- The place of the line numbers, left empty. -/
def margin (padding : Nat) : Ink := .text (String.ofList (List.replicate (padding + 1) ' '))

/-- The border between the line numbers and the text. -/
def border : List Ink := styled .secondary "│"

/-- A number, filled up with spaces from the left. -/
def padded (padding number : Nat) : String :=
  let digits := toString number
  String.ofList (List.replicate (padding - digits.length) ' ') ++ digits

/-- A line with nothing but the border, in a snippet with the given number of brackets. -/
def emptyLine (padding brackets : Nat) : List Ink :=
  margin padding :: border ++ repeated (2 * brackets) ' ' ++ [lineEnd]

/-- The bracket in front of the text of a line. -/
def bracket (line : List Char) : Option Part → List Ink
  | none => []
  | some (.top start) => if start ≤ indent line then .text " " :: styled .primary "╭" else [.text "  "]
  | some .inside | some (.bottom _ _) => .text " " :: styled .primary "│"

/-! ## Lines -/

/-- Whether a character is part of the place that the error is at. -/
def isPrimary (labels : List LineLabel) (part : Option Part) (cell : Cell) : Bool :=
  labels.any (fun l => l.style = .primary ∧ l.covers cell) || match part with
    | none => false
    | some (.top start) => start ≤ cell.offset
    | some .inside => true
    | some (.bottom stop _) => cell.stop ≤ stop

/-- The text of a line. `marked` says that the character before had the style of the error. -/
def sourceText (primary : Cell → Bool) (marked : Bool) : List Cell → List Ink
  | [] => if marked then [.reset] else []
  | cell :: rest =>
    let change := match primary cell, marked with
      | true, false => [.set .primary]
      | false, true => [.reset]
      | _, _ => []
    let shown := if cell.char = '\t' then repeated cell.width ' ' else [.text cell.char.toString]
    change ++ shown ++ sourceText primary (primary cell) rest

/-- A line of the source, with its number. -/
def sourceLine (padding : Nat) (l : Line) : List Ink :=
  styled .secondary (padded padding l.number) ++ .text " " :: border ++ bracket l.text l.part ++
    .text " " :: sourceText (isPrimary l.labels l.part) false (cells l.text) ++ [lineEnd]

/-- Carets below the labelled characters, up to the last label. `before` is the style of the
character before. -/
def carets (labels : List LineLabel) (last : Nat) (before : Option LabelStyle) : List Cell → List Ink
  | [] => if before.isSome then [.reset] else []
  | cell :: rest =>
    let style := styleOf (labels.filter (·.covers cell))
    let change :=
      if style = before then []
      else match style with
        | some style => [.set (ink style)]
        | none => [.reset]
    let shown := match style with
      | some .primary => repeated cell.width '^'
      | some .secondary => repeated cell.width '-'
      | none => if cell.offset < last then repeated cell.width ' ' else []
    change ++ shown ++ carets labels last style rest

/-- The greatest of some numbers. -/
def greatest (ns : List Nat) : Nat := ns.foldl max 0

/-- The label whose message stands beside the carets: the one that ends last, if it has a message
and lies on no other. The rest of the labels, in order, come with it. -/
def splitTrailing (labels : List LineLabel) : Option LineLabel × List LineLabel :=
  let last := greatest (labels.map (·.stop))
  match labels.reverse.span (·.stop ≠ last) with
  | (_, []) => (none, labels)
  | (after, l :: before) =>
    let others := before.reverse ++ after.reverse
    if l.message = "" ∨ others.any (fun other => overlap l.start l.stop other.start other.stop) then (none, labels)
    else (some l, others)

/-- Pointers from the carets down to the messages of the hanging labels. -/
def pointers (hanging : List LineLabel) (last : Nat) (line : List Cell) : List Ink :=
  line.flatMap fun cell =>
    let style := styleOf (hanging.filter fun l => cell.offset ≤ l.start ∧ l.start < cell.stop)
    let (pointer, drawn) := match style with
      | some style => (styled (ink style) "│", 1)
      | none => ([], 0)
    pointer ++ if cell.offset ≤ last then repeated (cell.width - drawn) ' ' else []

/-- The lines below a line of the source that has labels. -/
def labelLines (padding : Nat) (l : Line) : List Ink :=
  if l.labels = [] then []
  else
    let line := cells l.text
    let place : Cell := ⟨'\x00', Text.size l.text, 1⟩
    let gutter := margin padding :: border ++ [.text " "]
    let (trailing, others) := splitTrailing l.labels
    let hanging := others.filter (·.message ≠ "")
    let lastStart := greatest (l.labels.map (·.start))
    let lastStop := greatest (l.labels.map (·.stop))
    let beside := match trailing with
      | some t => .text " " :: styled (ink t.style) t.message
      | none => []
    let below := if hanging = [] then [] else gutter ++ pointers hanging lastStart line ++ [lineEnd]
    let messages := hanging.reverse.flatMap fun h =>
      gutter ++ pointers hanging lastStart (line.takeWhile (·.offset < h.start)) ++ styled (ink h.style) h.message ++
        [lineEnd]
    gutter ++ carets l.labels lastStop none (line ++ [place]) ++ beside ++ [lineEnd] ++ below ++ messages

/-- A corner of a bracket, and the line from it to a caret below the text. -/
def bracketLine (padding : Nat) (corner : String) (columns : List Cell) (message : String) : List Ink :=
  let rule := columns.flatMap fun cell => repeated cell.width '─'
  let comment := if message = "" then [] else [.text (" " ++ message)]
  margin padding :: border ++ .text " " :: styled .primary corner ++ .set .primary :: rule ++ .text "^" :: comment ++
    [.reset, lineEnd]

/-- The line below a line of the source at which a bracket starts or ends. -/
def partLines (padding : Nat) (l : Line) : List Ink :=
  let line := cells l.text
  match l.part with
  | some (.top start) =>
    if start ≤ indent l.text then [] else bracketLine padding "╭" (line.takeWhile (·.offset < start + 1)) ""
  | some (.bottom stop message) => bracketLine padding "╰" (line.takeWhile (·.offset < stop)) message
  | some .inside | none => []

/-- A line of the source and all that is below it. -/
def lineWithLabels (padding : Nat) (l : Line) : List Ink :=
  sourceLine padding l ++ labelLines padding l ++ partLines padding l

/-- The mark for lines that are left out after a line. -/
def lineBreak (padding : Nat) (after : Line) : List Ink :=
  let gutter := match after.part with
    | none => []
    | some (.top _) => [.text "  "]
    | some .inside | some (.bottom _ _) => .text " " :: styled .primary "│"
  margin padding :: styled .secondary "·" ++ gutter ++ [lineEnd]

/-! ## Files -/

/-- The text of a line without what ends it. -/
def lineText (f : SourceFile) (index : Nat) : Except LookupError (List Char) := do
  let range ← f.lineRange index
  let text := Text.takeBytes (range.stop - range.start) (Text.dropBytes range.start f.text.toList)
  return (text.reverse.dropWhile fun c => c = '\n' ∨ c = '\r' ∨ c = '\x00').reverse

/-- A label with the number of the line in which it starts, if it ends in the same line. -/
def lineLabel? (f : SourceFile) (l : Label) : Except LookupError (Option (Nat × LineLabel)) := do
  let first := f.lineIndex l.range.start
  if first ≠ f.lineIndex l.range.stop then return none
  let range ← f.lineRange first
  let start := l.range.start - range.start
  return some (first, ⟨l.style, start, max (l.range.stop - range.start) (start + 1), l.message⟩)

/-- Puts a label into the lines with labels, which are sorted by their number. -/
def insertIntoLines (index : Nat) (l : LineLabel) : List (Nat × List LineLabel) → List (Nat × List LineLabel)
  | [] => [(index, [l])]
  | (other, labels) :: rest =>
    if index < other then (index, [l]) :: (other, labels) :: rest
    else if index = other then (other, insertLabel l labels) :: rest
    else (other, labels) :: insertIntoLines index l rest

/-- How many lines of a label over several lines are shown after its first one. -/
def contextAfterStart : Nat := 3

/-- How many lines of a label over several lines are shown before its last one. -/
def contextBeforeEnd : Nat := 1

/-- The lines of a label over several lines that are shown. -/
def spanningLines (f : SourceFile) (l : Label) : Except LookupError (List (Nat × Line)) := do
  let first := f.lineIndex l.range.start
  let last := f.lineIndex l.range.stop
  let shown := (List.range (last + 1)).filter fun i =>
    first ≤ i ∧ (i - first ≤ contextAfterStart ∨ last - i ≤ contextBeforeEnd)
  shown.mapM fun i => do
    let range ← f.lineRange i
    let part :=
      if i = first then Part.top (l.range.start - range.start)
      else if i = last then .bottom (l.range.stop - range.start) l.message
      else .inside
    return (i, ⟨i + 1, ← lineText f i, [], some part⟩)

/-- The lines with labels, and the number of brackets beside them. -/
def labelledLines (f : SourceFile) (labels : List Label) : Except LookupError (List (Nat × Line) × Nat) := do
  let placed ← labels.mapM fun l => lineLabel? f l
  match (labels.zip placed).find? (·.2.isNone) with
  | some (spanning, _) => return (← spanningLines f spanning, 1)
  | none =>
    let byLine := (placed.filterMap id).foldl (fun lines (index, l) => insertIntoLines index l lines) []
    let lines ← byLine.mapM fun (index, labels) => do return (index, ⟨index + 1, ← lineText f index, labels, none⟩)
    return (lines, 0)

/-- The lines of a snippet. A single line that is left out between two of them is shown after
all. -/
def lines (f : SourceFile) (padding : Nat) : List (Nat × Line) → Except LookupError (List Ink)
  | [] => return []
  | [(_, l)] => return lineWithLabels padding l
  | (i, l) :: (j, next) :: rest => do
    let between ←
      if j = i + 1 then pure []
      else if j = i + 2 then do
        let plain : Line := ⟨i + 2, ← lineText f (i + 1), [], l.part.map fun _ => .inside⟩
        pure (lineWithLabels padding plain)
      else pure (lineBreak padding l)
    return lineWithLabels padding l ++ between ++ (← lines f padding ((j, next) :: rest))

/-- The label that a snippet is located by: the first primary one, or else the first one. -/
def mainLabel (first : Label) (rest : List Label) : Label := ((first :: rest).find? (·.style = .primary)).getD first

/-- The snippet of a file with labels. `more` says that something follows it. -/
def fileSnippet (library : Library) (padding : Nat) (more : Bool) (labels : List Label) :
    Except LookupError (List Ink) := do
  match labels with
  | [] => return []
  | first :: rest =>
    let main := mainLabel first rest
    let f ← library.get main.range.file
    let location ← f.location main.range.start
    let (shown, brackets) ← labelledLines f labels
    let title := margin padding :: styled .secondary "┌─" ++ [.text s!" {f.name}:{location}", lineEnd]
    let foot := if more then emptyLine padding brackets else []
    return title ++ emptyLine padding brackets ++ (← lines f padding shown) ++ foot

/-- The labels of a list in groups of one file each, in the order of the first label of each
file. -/
def byFile (labels : List Label) : List (List Label) :=
  (labels.map (·.range.file)).eraseDups.map fun file => labels.filter (·.range.file = file)

/-- Snippets one after the other. `notes` says that notes follow the last one. -/
def snippets (library : Library) (padding : Nat) (notes : Bool) : List (List Label) → Except LookupError (List Ink)
  | [] => return []
  | labels :: rest => do
    let here ← fileSnippet library padding (!rest.isEmpty || notes) labels
    return here ++ (← snippets library padding notes rest)

/-- The number of the line that a label ends in. -/
def lastLineNumber (library : Library) (l : Label) : Except LookupError Nat := do
  let f ← library.get l.range.file
  return max (f.lineIndex l.range.start) (f.lineIndex l.range.stop) + 1

/-- The number of columns that the line numbers take. -/
def paddingFor (library : Library) (labels : List Label) : Except LookupError Nat := do
  match ← labels.mapM (lastLineNumber library) with
  | [] => return 0
  | numbers => return (toString (greatest numbers)).length

/-! ## Diagnostics -/

/-- The lines of a text, without what ends them. -/
def textLines (text : String) : List String :=
  let pieces := text.splitOn "\n"
  let kept := if pieces.getLast? = some "" then pieces.dropLast else pieces
  kept.map fun piece => if piece.toList.getLast? = some '\r' then String.ofList piece.toList.dropLast else piece

/-- A note, with a bullet in front of its first line. -/
def note (padding : Nat) (text : String) : List Ink :=
  match textLines text with
  | [] => []
  | first :: rest =>
    margin padding :: styled .secondary "=" ++ [.text (" " ++ first), lineEnd] ++
      rest.flatMap fun line => [margin padding, .text ("  " ++ line), lineEnd]

/-- A diagnostic with its snippets and its notes. -/
def render (library : Library) (d : Diagnostic) : Except LookupError (List Ink) := do
  let padding ← paddingFor library d.labels
  let shown ← snippets library padding (!d.notes.isEmpty) (byFile d.labels)
  let header := [.set .header, .text "error", .set .headerMessage, .text (": " ++ d.message), .reset, lineEnd]
  return header ++ shown ++ d.notes.flatMap (note padding) ++ [lineEnd]

end Idl.Snippet
