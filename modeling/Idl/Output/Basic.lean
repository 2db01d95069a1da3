import Idl.Declaration.Rendering
import Idl.Path.Basic

/-!
# Outputs

An output holds a line for each place that it imports from, and then its bodies. If nothing but line
ends is left of the bodies, the output should not exist.
-/

namespace Idl

/-- A generated file. Without contents, the file should not exist. -/
structure Output where
  path : Path
  contents : Option String
deriving DecidableEq, Repr

namespace Output

/-- Inserts a text into a list of texts in increasing order, unless it is there already. -/
def insertText (text : String) : List String → List String
  | [] => [text]
  | other :: rest =>
    if text < other then text :: other :: rest
    else if text = other then other :: rest
    else other :: insertText text rest

/-- The distinct texts of a list, in increasing order. -/
def distinctTexts (texts : List String) : List String := texts.foldr insertText []

/-- The imports among declarations. -/
def imports (body : List Declaration) : List Import :=
  body.filterMap fun
    | .imported i => some i
    | _ => none

/-- The line that imports names from one specifier. -/
def importLine (specifier : String) (names : List String) : String :=
  "import \x7b " ++ ", ".intercalate names ++ " \x7d from '" ++ specifier ++ "';\n"

/-- The import lines for a list of imports: a line for each specifier. -/
def importLines (all : List Import) : List String :=
  (distinctTexts (all.map (·.specifier))).map fun specifier =>
    importLine specifier (distinctTexts ((all.filter (·.specifier == specifier)).map (·.name)))

/-- The contents of the output that received the given bodies. -/
def contentsOf (bodies : List (List Declaration)) : Option String :=
  match (String.join (bodies.map Declaration.bodyText)).toList.dropWhile (· == '\n') with
  | [] => none
  | body =>
    let lines := importLines (bodies.flatMap imports)
    let header := String.join lines ++ (if lines.isEmpty then "" else "\n")
    some (header ++ String.ofList body ++ "\n")

end Output

end Idl
