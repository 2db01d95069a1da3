import Idl.Declaration.Basic
import Idl.Error
import Idl.Output.Placement
import Idl.Text.EditDistance
import Idl.TypeText

/-!
# Declared names and the meaning of type texts

A name is declared once in all the files of a compilation, and no built-in name can be declared. A
type text stands for a declared name, for a string with a bound, for a sequence, or for a built-in
type.
-/

namespace Idl

/-- The declared names, latest first. -/
structure SymbolTable where
  entries : List (String × Symbol)
deriving DecidableEq, Repr

namespace SymbolTable

/-- The names of built-in types. -/
def builtins : List String :=
  ["any", "boolean", "char", "double", "float", "long", "long double", "long long", "octet", "short", "string",
    "unsigned long", "unsigned long long", "unsigned short", "wchar", "wstring"]

/-- The other names that cannot be declared. -/
def reserved : List String := ["sequence", "void"]

/-- No name is declared. -/
def empty : SymbolTable := ⟨[]⟩

/-- What a name was declared as. -/
def find? (t : SymbolTable) (name : String) : Option Symbol := t.entries.lookup name

/-- Declares a name. -/
def register (t : SymbolTable) (name : String) (symbol : Symbol) : Except Error SymbolTable :=
  if name ∈ builtins ∨ name ∈ reserved then .error (.reservedName name symbol.range)
  else match t.find? name with
    | some previous => .error (.duplicateSymbol name symbol.range previous.range)
    | none => .ok ⟨(name, symbol) :: t.entries⟩

/-! ## Suggestions -/

/-- The greatest distance at which a name is suggested. -/
def nearness : Nat := 2

/-- The better one of two names with their distances: the nearer one, or else the one that comes
first. -/
def better (a b : Nat × String) : Nat × String :=
  if b.1 < a.1 ∨ (b.1 = a.1 ∧ b.2 < a.2) then b else a

/-- The best one of some names with their distances. -/
def best? : List (Nat × String) → Option (Nat × String)
  | [] => none
  | a :: rest => some (rest.foldl better a)

/-- The known name that is meant by a misspelled type, if one is near. -/
def suggestion? (t : SymbolTable) (type : String) : Option String :=
  let candidates := (builtins ++ t.entries.map (·.1)).map fun name => (Text.editDistance type.toList name.toList, name)
  (best? (candidates.filter (·.1 ≤ nearness))).map (·.2)

/-! ## Resolution -/

/-- What a built-in type name stands for. -/
def builtin? (type : String) : Option ScriptType :=
  match type with
  | "octet" | "short" | "long" | "long long" | "unsigned short" | "unsigned long" | "unsigned long long" | "float"
  | "double" | "long double" => some .number
  | "string" | "wstring" | "char" | "wchar" => some .string
  | "boolean" => some .boolean
  | "any" => some .any
  | _ => none

/-- A use of a declared name, with the import that it needs in an output other than its own. -/
def use (name : String) (symbol : Symbol) (target : Path) : ScriptType × List Import :=
  (.named name, if symbol.target.same target then [] else [⟨name, Placement.importSpecifier target symbol.target⟩])

/-- What a type text stands for in the output `target`, and the imports that it needs. -/
def resolveChars (t : SymbolTable) (range : FileRange) (target : Path) (type : List Char) :
    Except Error (ScriptType × List Import) :=
  match t.find? (String.ofList type) with
  | some symbol => .ok (use (String.ofList type) symbol target)
  | none =>
    let normal := TypeText.normalChars type
    match t.find? (String.ofList normal) with
    | some symbol => .ok (use (String.ofList normal) symbol target)
    | none =>
      if (TypeText.argument? "string" normal).isSome ∨ (TypeText.argument? "wstring" normal).isSome then
        .ok (.string, [])
      else if normal = "sequence<octet>".toList then .ok (.buffer, [])
      else match h : TypeText.argument? "sequence" normal with
        | some element =>
          have : element.length < type.length :=
            Nat.lt_of_lt_of_le (TypeText.length_argument?_lt h) (TypeText.length_normalChars_le type)
          match resolveChars t range target element with
          | .ok (type, imports) => .ok (.array type, imports)
          | .error e => .error e
        | none =>
          match builtin? (String.ofList normal) with
          | some type => .ok (type, [])
          | none => .error (.unknownType (String.ofList normal) range (t.suggestion? (String.ofList normal)))
termination_by type.length

/-- What a type text stands for in the output `target`, and the imports that it needs. -/
def resolve (t : SymbolTable) (range : FileRange) (target : Path) (type : String) :
    Except Error (ScriptType × List Import) :=
  t.resolveChars range target type.toList

/-- What the type of a method's result stands for; it may be `void`. -/
def resolveReturn (t : SymbolTable) (range : FileRange) (target : Path) (type : String) :
    Except Error (ScriptType × List Import) :=
  if TypeText.normalize type = "void" then .ok (.void, []) else t.resolve range target type

/-- Checks that a name is a declared exception. -/
def checkException (t : SymbolTable) (name : String) (range : FileRange) : Except Error Unit :=
  match t.find? name with
  | some symbol => if symbol.kind = .exception then .ok () else .error (.notException name range (some symbol.kind))
  | none => .error (.notException name range none)

end SymbolTable

end Idl
