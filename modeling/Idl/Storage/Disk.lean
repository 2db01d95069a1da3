import Idl.Storage.Basic
import Idl.Storage.Place

/-!
# Storage in a directory tree

Trees of directories and files. A path is followed component by component, and every component but
the last one has to be a directory. Names and paths can be too long.

The root, the working directory and the directories above it are always there.
-/

namespace Idl

/-- Why an operation on a tree failed. -/
inductive DiskError where
  | notFound
  | alreadyExists
  | notDirectory
  | isDirectory
  | nameTooLong
  | nulInName
  | notText
deriving DecidableEq, Repr

/-- The text of a failure, with the number that the system has for it. -/
def DiskError.message : DiskError → String
  | notFound => "No such file or directory (os error 2)"
  | alreadyExists => "File exists (os error 17)"
  | notDirectory => "Not a directory (os error 20)"
  | isDirectory => "Is a directory (os error 21)"
  | nameTooLong => "File name too long (os error 36)"
  | nulInName => "file name contained an unexpected NUL byte"
  | notText => "stream did not contain valid UTF-8"

/-- What there is at a place of a tree. -/
inductive DiskNode where
  | directory (entries : List (String × DiskNode))
  | file (bytes : ByteArray)

namespace DiskNode

/-- What there is in a directory under a name. -/
def child? (name : String) : DiskNode → Option DiskNode
  | directory entries => entries.lookup name
  | file _ => none

/-- What there is at the end of some names. -/
def descend? (node : DiskNode) : List String → Option DiskNode
  | [] => some node
  | name :: names => (node.child? name).bind (·.descend? names)

/-- Entries of a directory, with those of a name replaced. -/
def replaceEntry (name : String) (new : Option DiskNode) (entries : List (String × DiskNode)) :
    List (String × DiskNode) :=
  (new.map fun node => (name, node)).toList ++ entries.filter (·.1 ≠ name)

/-- Replaces what there is at the end of some names, if they lead through directories. -/
def replace (new : Option DiskNode) : Option DiskNode → List String → Option DiskNode
  | _, [] => new
  | some (directory entries), name :: names =>
    some (directory (replaceEntry name (replace new (entries.lookup name) names) entries))
  | old, _ :: _ => old

mutual

/-- The files in a tree that stands at a place. -/
def filesFrom (place : Place) : DiskNode → List (Place × ByteArray)
  | directory entries => entryFilesFrom place entries
  | file bytes => [(place, bytes)]

/-- The files in the entries of a directory that stands at a place. -/
def entryFilesFrom (place : Place) : List (String × DiskNode) → List (Place × ByteArray)
  | [] => []
  | (name, node) :: rest => node.filesFrom (place.child name) ++ entryFilesFrom place rest

end

end DiskNode

/-- The trees that stand at the root, at the working directory and at the directories above it. Where
none is kept there is an empty directory. -/
structure Disk where
  trees : List (Base × DiskNode)

/-- A place, and what there is at it. -/
structure Spot where
  place : Place
  node? : Option DiskNode

/-- The spot with a name in a directory. -/
def Spot.child (spot : Spot) (name : String) : Spot := ⟨spot.place.child name, spot.node?.bind (·.child? name)⟩

namespace Disk

/-- The disk on which nothing was made yet. -/
def empty : Disk := ⟨[]⟩

/-- The tree that places are counted from. -/
def tree (d : Disk) (base : Base) : DiskNode := (d.trees.lookup base).getD (.directory [])

/-- A place along with what there is at it. -/
def spot (d : Disk) (place : Place) : Spot := ⟨place, (d.tree place.base).descend? place.names.reverse⟩

/-- Replaces what there is at a place in a directory. -/
def replace (d : Disk) (place : Place) (new : Option DiskNode) : Disk :=
  let tree := DiskNode.replace new (some (d.tree place.base)) place.names.reverse
  ⟨(tree.map fun node => (place.base, node)).toList ++ d.trees.filter (·.1 ≠ place.base)⟩

/-! ## Following paths -/

/-- The most bytes that a name can have. -/
def maxNameLength : Nat := 255

/-- The most bytes that a path can have. -/
def maxPathLength : Nat := 4095

/-- Checks that a path can be given to the system at all. -/
def checkPath (path : Path) : Except DiskError Unit :=
  if path.text.toList.contains '\x00' then .error .nulInName
  else if maxPathLength < Text.byteLength path.text then .error .nameTooLong
  else .ok ()

/-- Follows components from a spot. There need not be anything at the end. -/
def follow (d : Disk) : Spot → List Component → Except DiskError Spot
  | spot, [] => .ok spot
  | spot, c :: rest =>
    match spot.node? with
    | none => .error .notFound
    | some (.file _) => .error .notDirectory
    | some (.directory _) =>
      match c with
      | .root => d.follow (d.spot .root) rest
      | .current => d.follow spot rest
      | .parent => d.follow (d.spot spot.place.parent) rest
      | .name text =>
        if maxNameLength < Text.byteLength text then .error .nameTooLong
        else d.follow (spot.child text) rest

/-- The spot that a path leads to. -/
def find (d : Disk) (path : Path) : Except DiskError Spot := do
  checkPath path
  match path.components with
  | [] => .error .notFound
  | cs => d.follow (d.spot .here) cs

/-! ## Files -/

/-- The bytes of the file at a path. -/
def readBytes (d : Disk) (path : Path) : Except DiskError ByteArray := do
  match (← d.find path).node? with
  | none => .error .notFound
  | some (.directory _) => .error .isDirectory
  | some (.file bytes) => .ok bytes

/-- The text of the file at a path. -/
def read (d : Disk) (path : Path) : Except DiskError String := do
  match String.fromUTF8? (← d.readBytes path) with
  | some text => .ok text
  | none => .error .notText

/-- Writes a file. -/
def writeBytes (d : Disk) (path : Path) (bytes : ByteArray) : Except DiskError Disk := do
  let spot ← d.find path
  match spot.node? with
  | some (.directory _) => .error .isDirectory
  | _ => .ok (d.replace spot.place (some (.file bytes)))

/-- Removes a file. -/
def remove (d : Disk) (path : Path) : Except DiskError Disk := do
  let spot ← d.find path
  match spot.node? with
  | none => .error .notFound
  | some (.directory _) => .error .isDirectory
  | some (.file _) => .ok (d.replace spot.place none)

/-- Whether there is something at a path. -/
def isPresent (d : Disk) (path : Path) : Bool :=
  match d.find path with
  | .ok spot => spot.node?.isSome
  | .error _ => false

/-! ## Directories -/

/-- Makes the directories that are missing on the way along some components. Those that were made
before a failure stay. -/
def makeAlong (d : Disk) : Spot → List Component → Except DiskError Unit × Disk
  | _, [] => (.ok (), d)
  | _, .root :: rest => d.makeAlong (d.spot .root) rest
  | spot, .current :: rest => d.makeAlong spot rest
  | spot, .parent :: rest => d.makeAlong (d.spot spot.place.parent) rest
  | spot, .name text :: rest =>
    let inner := spot.child text
    if maxNameLength < Text.byteLength text then (.error .nameTooLong, d)
    else match inner.node? with
      | none =>
        let made := DiskNode.directory []
        (d.replace inner.place (some made)).makeAlong ⟨inner.place, some made⟩ rest
      | some (.directory _) => d.makeAlong inner rest
      | some (.file _) => (.error (if rest = [] then .alreadyExists else .notDirectory), d)

/-- Makes a path a directory, along with the directories above it. -/
def makeDirectory (d : Disk) (path : Path) : Except DiskError Unit × Disk :=
  match checkPath path with
  | .error e => (.error e, d)
  | .ok () => d.makeAlong (d.spot .here) path.components

/-! ## The disk as a storage -/

/-- The files, each with its place. -/
def files (d : Disk) : List (Place × ByteArray) := d.trees.flatMap fun (base, node) => node.filesFrom ⟨base, []⟩

/-- The files below the working directory, each with its path. -/
def filesBelow (d : Disk) : List (Path × ByteArray) :=
  ((d.tree (.above 0)).filesFrom .here).map fun (place, bytes) => (place.path, bytes)

/-- What can be read: the files that are texts. -/
def sources (d : Disk) : Sources where
  texts := d.files.filterMap fun (place, bytes) =>
    (String.fromUTF8? bytes).map fun text => (place.path, text)
  failure path :=
    match d.read path with
    | .ok _ => DiskError.notFound.message
    | .error e => e.message

/-- Performs an operation. -/
def perform (d : Disk) (op : Operation) : Except String Unit × Disk :=
  let (result, after) := match op with
    | .makeDirectory path => d.makeDirectory path
    | .write path contents => Storage.settle d (d.writeBytes path contents.toUTF8)
    | .remove path => Storage.settle d (d.remove path)
  (result.mapError DiskError.message, after)

instance : Storage Disk := ⟨sources, isPresent, perform⟩

end Disk

end Idl
