import Idl.Compilation.Compile

/-!
# Storages

What sources are read from and outputs are written to. An operation on a storage succeeds or fails
for a reason, and it gives the storage after it in either case: an operation in several steps that
fails at one of them leaves what the steps before it did.
-/

namespace Idl

/-- An operation that changes a storage. -/
inductive Operation where
  /-- Makes a path a directory, along with the directories above it. -/
  | makeDirectory (path : Path)
  | write (path : Path) (contents : String)
  | remove (path : Path)
deriving DecidableEq, Repr

/-- What sources are read from and outputs are written to. -/
class Storage (σ : Type) where
  /-- What can be read. -/
  sources : σ → Sources
  /-- Whether there is something at a path. -/
  isPresent : σ → Path → Bool
  /-- Performs an operation: gives the reason if it failed, and the storage after it. -/
  perform : σ → Operation → Except String Unit × σ

namespace Storage

variable {σ : Type}

/-- The outcome of an attempt that changes nothing if it fails. -/
def settle {ε : Type} (s : σ) : Except ε σ → Except ε Unit × σ
  | .ok t => (.ok (), t)
  | .error e => (.error e, s)

/-- Performs operations one after the other, up to the first one that fails. -/
def performAll [Storage σ] (s : σ) : List Operation → Except String Unit × σ
  | [] => (.ok (), s)
  | op :: ops =>
    match perform s op with
    | (.ok (), s) => performAll s ops
    | (.error reason, s) => (.error reason, s)

end Storage

end Idl
