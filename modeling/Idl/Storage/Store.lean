import Idl.Path.Normal
import Idl.Path.Table
import Idl.Storage.Basic

/-!
# Storage in memory

A table of texts by normal path. Directories need not be made. Chosen operations can be made to
fail.
-/

namespace Idl

/-- Texts by the components of a normal path. -/
structure Store where
  table : PathTable String
deriving Repr

namespace Store

/-- The store without texts. -/
def empty : Store := ⟨.empty⟩

/-- Why a path without a text cannot be read or removed. -/
def notFound : String := "No such file or directory"

/-- Puts a text at a path. -/
def insert (s : Store) (path : Path) (contents : String) : Store :=
  ⟨s.table.insert (Path.resolve path.components) contents⟩

/-- The text at a path. -/
def get? (s : Store) (path : Path) : Option String := s.table.find? (Path.resolve path.components)

/-- The text at a path, or the reason why there is none. -/
def read (s : Store) (path : Path) : Except String String :=
  match s.get? path with
  | some text => .ok text
  | none => .error notFound

/-- Takes away the text at a path. -/
def remove (s : Store) (path : Path) : Except String Store :=
  if (s.get? path).isSome then .ok ⟨s.table.erase (Path.resolve path.components)⟩ else .error notFound

/-- The texts, each with its normal path. -/
def texts (s : Store) : List (Path × String) := s.table.entries.map fun (key, text) => (.ofComponents key, text)

/-- Performs an operation. -/
def perform (s : Store) : Operation → Except String Unit × Store
  | .makeDirectory _ => (.ok (), s)
  | .write path contents => (.ok (), s.insert path contents)
  | .remove path => Storage.settle s (s.remove path)

end Store

/-- The ways to use a path of a storage. -/
inductive Access where
  | read
  | makeDirectory
  | write
  | remove
deriving DecidableEq, Repr

/-- The path that an operation uses, and how. -/
def Operation.access : Operation → Access × Path
  | makeDirectory path => (.makeDirectory, path)
  | write path _ => (.write, path)
  | remove path => (.remove, path)

/-- A store in which some uses of some paths fail, each for a reason of its own. -/
structure FaultyStore where
  store : Store
  fault : Access → Path → Option String

namespace FaultyStore

/-- What can be read of a store in which some reads fail. -/
def sources (s : FaultyStore) : Sources where
  texts := s.store.texts.filter fun entry => (s.fault .read entry.1).isNone
  failure path := (s.fault .read path).getD Store.notFound

/-- Performs an operation that is not made to fail. -/
def perform (s : FaultyStore) (op : Operation) : Except String Unit × FaultyStore :=
  match s.fault op.access.1 op.access.2 with
  | some reason => (.error reason, s)
  | none => (s.store.perform op).map id fun store => { s with store }

instance : Storage FaultyStore := ⟨sources, fun s path => (s.store.get? path).isSome, perform⟩

end FaultyStore

end Idl
