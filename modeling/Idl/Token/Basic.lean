import Idl.Source.Range

/-!
# Tokens

A token is a run of characters that the grammar treats as one, together with the blanks in front of
it and its place in the file. So the tokens of a file, written one after the other with their
blanks, give the file back.
-/

namespace Idl

/-- Which way a parameter goes. -/
inductive Direction where
  | input
  | output
  | both
deriving DecidableEq, Repr

namespace Direction

/-- A direction as it is written. -/
def text : Direction → String
  | input => "in"
  | output => "out"
  | both => "inout"

/-- Whether a parameter of this direction is handed over in a box, so that the callee can set it. -/
def isBoxed : Direction → Bool
  | input => false
  | output | both => true

end Direction

/-- The words with a meaning of their own. -/
inductive Keyword where
  | module
  | typedef
  | struct
  | exception
  | enum
  | interface
  | raises
  | direction (d : Direction)
deriving DecidableEq, Repr

/-- A keyword as it is written. -/
def Keyword.text : Keyword → String
  | module => "module"
  | typedef => "typedef"
  | struct => "struct"
  | exception => "exception"
  | enum => "enum"
  | interface => "interface"
  | raises => "raises"
  | direction d => d.text

/-- Every keyword. -/
def Keyword.all : List Keyword :=
  [module, typedef, struct, exception, enum, interface, raises, direction .input, direction .output, direction .both]

/-- The words that stand for an instruction to the compiler. -/
inductive Directive where
  | include
  | ifndef
  | endif
  | define
deriving DecidableEq, Repr

/-- A directive as it is written. -/
def Directive.text : Directive → String
  | .include => "#include"
  | .ifndef => "#ifndef"
  | .endif => "#endif"
  | .define => "#define"

/-- Every directive. -/
def Directive.all : List Directive := [.include, .ifndef, .endif, .define]

/-- The characters that are a token each. -/
inductive Mark where
  | openParen
  | closeParen
  | less
  | greater
  | slash
  | star
  | semicolon
  | comma
  | quote
  | doubleQuote
  | openBrace
  | closeBrace
deriving DecidableEq, Repr

/-- A mark as it is written. -/
def Mark.char : Mark → Char
  | openParen => '('
  | closeParen => ')'
  | less => '<'
  | greater => '>'
  | slash => '/'
  | star => '*'
  | semicolon => ';'
  | comma => ','
  | quote => '\''
  | doubleQuote => '"'
  | openBrace => '\x7b'
  | closeBrace => '\x7d'

/-- Every mark. -/
def Mark.all : List Mark :=
  [openParen, closeParen, less, greater, slash, star, semicolon, comma, quote, doubleQuote, openBrace, closeBrace]

/-- The mark that a character is. -/
def Mark.ofChar? (c : Char) : Option Mark := Mark.all.find? (·.char == c)

namespace Token

/-- What a token is. -/
inductive Kind where
  | word
  | keyword (k : Keyword)
  | directive (d : Directive)
  | mark (m : Mark)
  | lineComment
  | blockComment
  | unknown
deriving DecidableEq, Repr

namespace Kind

/-- What a token of this kind is called. -/
def description : Kind → String
  | word => "name"
  | keyword k => k.text
  | directive d => d.text
  | mark m => m.char.toString
  | lineComment => "line comment"
  | blockComment => "block comment"
  | unknown => "error"

/-- Whether a token of this kind is left out of the grammar. -/
def isComment : Kind → Bool
  | lineComment | blockComment => true
  | _ => false

/-- Whether tokens of this kind run together unless there is a blank between them. -/
def isWordLike : Kind → Bool
  | word | keyword _ => true
  | _ => false

/-- What a run of characters that are neither blanks nor marks is: a keyword or a directive only as
a whole. -/
def ofWord (text : List Char) : Kind :=
  match Keyword.all.find? (·.text.toList == text) with
  | some k => keyword k
  | none =>
    match Directive.all.find? (·.text.toList == text) with
    | some d => directive d
    | none => word

end Kind

end Token

/-- A token and where it stands. -/
structure Token where
  kind : Token.Kind
  /-- The blanks between the token before this one, or the start of the file, and this one. -/
  leading : String
  text : String
  range : FileRange
  position : Position
deriving DecidableEq, Repr

end Idl
