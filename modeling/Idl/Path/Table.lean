import Idl.Path.Basic

/-!
# Tables by components

A table keeps one value for each list of components, in the order of the paths.
-/

namespace Idl

/-- Values by the components of a path, in the order of the paths. -/
structure PathTable (α : Type) where
  entries : List (List Component × α)
deriving Repr

namespace PathTable

variable {α : Type}

/-- The table without entries. -/
def empty : PathTable α := ⟨[]⟩

/-- The value at a path with the given components. -/
def find? (t : PathTable α) (key : List Component) : Option α := t.entries.lookup key

/-- Puts a value into a list of entries in path order. -/
def insertEntry (key : List Component) (a : α) : List (List Component × α) → List (List Component × α)
  | [] => [(key, a)]
  | (other, b) :: rest =>
    match compare key other with
    | .lt => (key, a) :: (other, b) :: rest
    | .eq => (key, a) :: rest
    | .gt => (other, b) :: insertEntry key a rest

/-- Puts a value at a path with the given components. -/
def insert (t : PathTable α) (key : List Component) (a : α) : PathTable α := ⟨insertEntry key a t.entries⟩

/-- Takes away the value at a path with the given components. -/
def erase (t : PathTable α) (key : List Component) : PathTable α := ⟨t.entries.filter (·.1 ≠ key)⟩

end PathTable

end Idl
