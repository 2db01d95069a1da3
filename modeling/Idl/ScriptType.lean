/-!
# TypeScript types

The types of the generated code.
-/

namespace Idl

/-- A type of the generated code. -/
inductive ScriptType where
  | number
  | string
  | boolean
  | buffer
  | any
  | void
  | array (element : ScriptType)
  | named (name : String)
deriving DecidableEq, Repr

/-- A type as it is written. -/
def ScriptType.text : ScriptType → String
  | number => "number"
  | string => "string"
  | boolean => "boolean"
  | buffer => "Buffer"
  | any => "any"
  | void => "void"
  | array element => "Array<" ++ element.text ++ ">"
  | named name => name

end Idl
