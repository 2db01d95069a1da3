/-!
# Paths

A path is kept as it was written, and its meaning is its list of components. A leading slash is the
root, repeated and trailing slashes count for nothing, and so does a dot, except at the very start
of a relative path. Two paths name the same place in a table if their components agree, and paths
are ordered component by component.
-/

namespace Idl

/-- A step of a path. -/
inductive Component where
  | root
  | current
  | parent
  | name (text : String)
deriving DecidableEq, Repr

namespace Component

/-- A component as it is written. -/
def text : Component → String
  | root => "/"
  | current => "."
  | parent => ".."
  | name text => text

/-- The rank of a component among components of other kinds. -/
def rank : Component → Nat
  | root => 0
  | current => 1
  | parent => 2
  | name _ => 3

/-- The root comes first, then a dot, then two dots, then the names in the order of their bytes. -/
instance : Ord Component where
  compare
    | name a, name b => compare a b
    | c, d => compare c.rank d.rank

/-- What a text between two slashes stands for: nothing if it is empty or a dot. -/
def ofPiece? (piece : List Char) : Option Component :=
  if piece = [] ∨ piece = ['.'] then none
  else if piece = ['.', '.'] then some parent
  else some (name (String.ofList piece))

end Component

/-- A path, as it is written. -/
structure Path where
  text : String
deriving DecidableEq, Repr, Inhabited

namespace Path

/-- The path without a component. -/
def empty : Path := ⟨""⟩

instance : ToString Path := ⟨text⟩

/-- The texts between the slashes of a text; there is always one more of them than of slashes. -/
def pieces : List Char → List (List Char)
  | [] => [[]]
  | c :: cs =>
    if c = '/' then [] :: pieces cs
    else match pieces cs with
      | [] => [[c]]
      | piece :: rest => (c :: piece) :: rest

/-- The components of a path written as `cs`. -/
def componentsOf (cs : List Char) : List Component :=
  match pieces cs with
  | [] => []
  | [] :: [] => []
  | [] :: rest => .root :: rest.filterMap Component.ofPiece?
  | first :: rest =>
    if first = ['.'] then .current :: rest.filterMap Component.ofPiece?
    else (first :: rest).filterMap Component.ofPiece?

/-- The components of a path, from left to right. -/
def components (p : Path) : List Component := componentsOf p.text.toList

/-- Whether two paths have the same components. -/
def same (p q : Path) : Bool := p.components == q.components

/-- Whether a path starts at the root. -/
def isAbsolute (p : Path) : Bool := p.text.toList.head? == some '/'

/-! ## Building paths -/

/-- The text of a path with the given components. -/
def render : List Component → String
  | [] => ""
  | .root :: cs => "/" ++ "/".intercalate (cs.map Component.text)
  | cs => "/".intercalate (cs.map Component.text)

/-- The path with the given components. -/
def ofComponents (cs : List Component) : Path := ⟨render cs⟩

/-- The path `q` taken from `p`. An absolute `q` stands for itself. -/
def join (p q : Path) : Path :=
  if q.isAbsolute then q
  else match p.text.toList.getLast? with
    | none | some '/' => ⟨p.text ++ q.text⟩
    | some _ => ⟨p.text ++ "/" ++ q.text⟩

/-! ## The last component -/

/-- Drops what counts for nothing from the end of a path, whose text is given backwards. -/
def dropTrail : List Char → List Char
  | '/' :: cs => dropTrail cs
  | '.' :: '/' :: cs => dropTrail cs
  | cs => cs

/-- A path cut at its last component: the text up to it, the component as it is written, and whether
the path ends there. -/
structure Last where
  before : List Char
  piece : List Char
  atEnd : Bool
deriving DecidableEq, Repr

/-- The last component of a path that has one beside the root. -/
def last? (p : Path) : Option Last :=
  let written := p.text.toList.reverse
  let kept := dropTrail written
  match kept.takeWhile (· ≠ '/') with
  | [] => none
  | piece => some ⟨(kept.dropWhile (· ≠ '/')).reverse, piece.reverse, kept == written⟩

/-- The path without its last component; none for the empty path and the root. -/
def parent? (p : Path) : Option Path :=
  p.last?.map fun l =>
    match dropTrail l.before.reverse with
    | [] => if p.isAbsolute then ⟨"/"⟩ else empty
    | kept => ⟨String.ofList kept.reverse⟩

/-- The directory of a path: its parent, or the empty path if it has none. -/
def directory (p : Path) : Path := p.parent?.getD empty

/-- The last component of a path, if it is a name. -/
def fileName? (p : Path) : Option String :=
  match p.last? with
  | some l => if l.piece = ['.'] ∨ l.piece = ['.', '.'] then none else some (String.ofList l.piece)
  | none => none

/-! ## Extensions -/

/-- A file name cut at its last dot. A dot in front of everything else does not count. -/
def splitExtension (name : List Char) : List Char × Option (List Char) :=
  let ext := name.reverse.takeWhile (· ≠ '.')
  match name.reverse.dropWhile (· ≠ '.') with
  | [] | [_] => (name, none)
  | _ :: stem => (stem.reverse, some ext.reverse)

/-- The part of the file name after its last dot. -/
def extension? (p : Path) : Option String :=
  p.fileName?.bind fun name => (splitExtension name.toList).2.map String.ofList

/-- The path with the extension of its file name replaced, or taken away if `ext` is empty. A path
without a file name stays as it is. A final name of two dots and an extension without dots only
loses the extension. -/
def withExtension (p : Path) (ext : String) : Path :=
  match p.last? with
  | none => p
  | some l =>
    if l.piece = ['.'] ∨ l.piece = ['.', '.'] then p
    else match splitExtension l.piece with
      | (['.'], some _) => if l.atEnd then ⟨String.ofList (l.before ++ ['.', '.'])⟩ else replaced l.before ['.']
      | (stem, _) => replaced l.before stem
where
  /-- The text before the file name, then the stem, then the new extension. -/
  replaced (dir stem : List Char) : Path :=
    if ext.isEmpty then ⟨String.ofList (dir ++ stem)⟩ else ⟨String.ofList (dir ++ stem) ++ "." ++ ext⟩

end Path

end Idl
