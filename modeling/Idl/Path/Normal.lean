import Idl.Path.Basic

/-!
# Normal paths

Dots and pairs of dots are resolved on the text alone, without a look at any directory. What is left
is an optional root, then pairs of dots that lead out of the starting directory, then names.
-/

namespace Idl.Path

/-- Appends a component to a path walked so far, given backwards. Two dots take back a name, stay at
the root, and are kept otherwise. -/
def walk : List Component → Component → List Component
  | done, .current => done
  | .name _ :: done, .parent => done
  | .root :: done, .parent => .root :: done
  | done, c => c :: done

/-- The components of the normal form. -/
def resolve (cs : List Component) : List Component := (cs.foldl walk []).reverse

/-- The normal form of a path. -/
def normalize (p : Path) : Path := ofComponents (resolve p.components)

end Idl.Path
