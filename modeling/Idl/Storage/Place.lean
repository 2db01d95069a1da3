import Idl.Path.Basic

/-!
# Places in a directory tree

A place is reached from the root, from the working directory or from a directory above it, by a list
of names. What the working directory and the ones above it are called is not known.
-/

namespace Idl

/-- A directory from which places are counted. -/
inductive Base where
  | root
  /-- The directory that many levels above the working directory. -/
  | above (levels : Nat)
deriving DecidableEq, Repr

/-- A place in a directory tree, with the names on the way to it, the last one first. -/
structure Place where
  base : Base
  names : List String
deriving DecidableEq, Repr

namespace Place

/-- The root. -/
def root : Place := ⟨.root, []⟩

/-- The working directory. -/
def here : Place := ⟨.above 0, []⟩

/-- The directory that a place is in. The root is in itself. -/
def parent (p : Place) : Place :=
  match p.base, p.names with
  | .root, [] => root
  | .above levels, [] => ⟨.above (levels + 1), []⟩
  | base, _ :: names => ⟨base, names⟩

/-- The place with a name in a directory. -/
def child (p : Place) (name : String) : Place := ⟨p.base, name :: p.names⟩

/-- The way to a place. -/
def components (p : Place) : List Component :=
  let start := match p.base with
    | .root => [Component.root]
    | .above levels => List.replicate levels .parent
  start ++ p.names.reverse.map .name

/-- The path of a place. -/
def path (p : Place) : Path := .ofComponents p.components

end Place

end Idl
