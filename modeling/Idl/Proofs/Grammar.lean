import Idl.Proofs.Erasure

/-!
# The grammar of files

What a file without includes may look like, and what it says. The grammar is over terminals, so there
are no comments in it. A type is written with any terminals up to the name after it, as long as there
is no brace among them and none of the marks that end a type in that place.

* `Phrase`: a declaration as it is written, with each type as one text.
* `Grammar.Derives ls file`: the terminals `ls` are those of a file with the declarations `file`.
-/

namespace Idl

/-- A declaration as it is written. -/
inductive Phrase where
  | define (name : String)
  | guarded (name : String) (body : List Phrase)
  | module (name : String) (body : List Phrase)
  | typedef (type name : String)
  | record (kind : RecordKind) (name : String) (fields : List (Field String))
  | enum (name : String) (values : List String)
  | interface (name : String) (methods : List (Method String String))
deriving Repr

/-- A word that can be the name of something. -/
def Terminal.IsName (l : Terminal) : Prop := l.kind = .word ∧ Idl.IsName l.text

namespace Grammar

/-! ## Types and lists -/

/-- Terminals that are a type where the marks `stops` end one. -/
structure IsType (stops : List Mark) (ls : List Terminal) : Prop where
  nonempty : ls ≠ []
  unstopped : ∀ l ∈ ls, ∀ m, l.kind = .mark m → m ∉ stops ∧ m ≠ .openBrace ∧ m ≠ .closeBrace

/-- Terminals as one text. -/
def spelled (ls : List Terminal) : String := Cursor.spell (ls.map Terminal.token)

section Lists

variable {α : Type} (item : List Terminal → α → Prop)

/-- Items one after the other. -/
inductive Many : List Terminal → List α → Prop
  | nil : Many [] []
  | cons {ls more : List Terminal} {a : α} {as : List α} (first : item ls a) (rest : Many more as) :
      Many (ls ++ more) (a :: as)

/-- One or more items with commas between them. -/
inductive Listed : List Terminal → List α → Prop
  | one {ls : List Terminal} {a : α} (only : item ls a) : Listed ls [a]
  | cons {ls more : List Terminal} {comma : Terminal} {a : α} {as : List α} (first : item ls a)
      (between : comma.kind = .mark .comma) (rest : Listed more as) : Listed (ls ++ comma :: more) (a :: as)

/-- Items with commas between them, or nothing. -/
inductive MaybeListed : List Terminal → List α → Prop
  | nothing : MaybeListed [] []
  | listed {ls : List Terminal} {as : List α} (all : Listed item ls as) : MaybeListed ls as

end Lists

/-! ## Members -/

/-- A name. -/
inductive IsNameOf : List Terminal → String → Prop
  | name {l : Terminal} (isName : l.IsName) : IsNameOf [l] l.text

/-- A field of a struct or an exception. -/
inductive IsField : List Terminal → Field String → Prop
  | field {type : List Terminal} {name mark : Terminal} (isType : IsType [.comma, .semicolon, .closeParen] type)
      (isName : name.IsName) (ended : mark.kind = .mark .semicolon ∨ mark.kind = .mark .comma) :
      IsField (type ++ [name, mark]) ⟨name.text, spelled type⟩

/-- A parameter of a method. -/
inductive IsParameter : List Terminal → Parameter String → Prop
  | parameter {head : Terminal} {direction : Direction} {type : List Terminal} {name : Terminal}
      (directed : head.kind = .keyword (.direction direction)) (isType : IsType [.comma, .semicolon, .closeParen] type)
      (isName : name.IsName) : IsParameter (head :: (type ++ [name])) ⟨direction, name.text, spelled type⟩

/-- What a method raises. -/
inductive Raises : List Terminal → List String → Prop
  | nothing : Raises [] []
  | raises {head opening closing : Terminal} {ls : List Terminal} {names : List String}
      (headed : head.kind = .keyword .raises) (opened : opening.kind = .mark .openParen)
      (listed : Listed IsNameOf ls names)
      (closed : closing.kind = .mark .closeParen) : Raises (head :: opening :: (ls ++ [closing])) names

/-- A method of an interface. -/
inductive IsMethod : List Terminal → Method String String → Prop
  | method {type ps rs : List Terminal} {name opening closing semicolon : Terminal}
      {parameters : List (Parameter String)} {raises : List String} (isType : IsType [.openParen] type) (isName : name.IsName)
      (opened : opening.kind = .mark .openParen) (listed : MaybeListed IsParameter ps parameters)
      (closed : closing.kind = .mark .closeParen) (raised : Raises rs raises)
      (ended : semicolon.kind = .mark .semicolon) :
      IsMethod (type ++ name :: opening :: (ps ++ closing :: (rs ++ [semicolon])))
        ⟨name.text, spelled type, parameters, raises⟩

/-! ## Declarations -/

/-- Members in braces, with a semicolon after them. -/
inductive Braced {α : Type} (members : List Terminal → α → Prop) : List Terminal → α → Prop
  | braced {opening closing semicolon : Terminal} {ls : List Terminal} {a : α}
      (opened : opening.kind = .mark .openBrace) (inner : members ls a) (closed : closing.kind = .mark .closeBrace)
      (ended : semicolon.kind = .mark .semicolon) :
      Braced members (opening :: (ls ++ [closing, semicolon])) a

/-- The word that starts a struct or an exception. -/
def recordKeyword : RecordKind → Keyword
  | .struct => .struct
  | .exception => .exception

/-- A declaration that holds no others. -/
inductive Simple : List Terminal → Phrase → Prop
  | define {head name : Terminal} (headed : head.kind = .directive .define) (isName : name.IsName) :
      Simple [head, name] (.define name.text)
  | typedef {head name semicolon : Terminal} {type : List Terminal} (headed : head.kind = .keyword .typedef)
      (isType : IsType [.semicolon] type) (isName : name.IsName) (ended : semicolon.kind = .mark .semicolon) :
      Simple (head :: (type ++ [name, semicolon])) (.typedef (spelled type) name.text)
  | record {head name : Terminal} {kind : RecordKind} {ls : List Terminal} {fields : List (Field String)}
      (headed : head.kind = .keyword (recordKeyword kind)) (isName : name.IsName)
      (block : Braced (Many IsField) ls fields) : Simple (head :: name :: ls) (.record kind name.text fields)
  | enum {head name : Terminal} {ls : List Terminal} {values : List String} (headed : head.kind = .keyword .enum)
      (isName : name.IsName) (block : Braced (MaybeListed IsNameOf) ls values) :
      Simple (head :: name :: ls) (.enum name.text values)
  | interface {head name : Terminal} {ls : List Terminal} {methods : List (Method String String)}
      (headed : head.kind = .keyword .interface) (isName : name.IsName) (block : Braced (Many IsMethod) ls methods) :
      Simple (head :: name :: ls) (.interface name.text methods)

/-- The declarations of a file or of a body, one after the other. -/
inductive Derives : List Terminal → List Phrase → Prop
  | nil : Derives [] []
  | simple {ls more : List Terminal} {p : Phrase} {file : List Phrase} (first : Simple ls p)
      (rest : Derives more file) : Derives (ls ++ more) (p :: file)
  | guarded {head name closing : Terminal} {ls more : List Terminal} {body file : List Phrase}
      (headed : head.kind = .directive .ifndef) (isName : name.IsName) (inner : Derives ls body)
      (closed : closing.kind = .directive .endif) (rest : Derives more file) :
      Derives (head :: name :: (ls ++ closing :: more)) (.guarded name.text body :: file)
  | module {head name opening closing semicolon : Terminal} {ls more : List Terminal} {body file : List Phrase}
      (headed : head.kind = .keyword .module) (isName : name.IsName) (opened : opening.kind = .mark .openBrace)
      (inner : Derives ls body) (closed : closing.kind = .mark .closeBrace)
      (ended : semicolon.kind = .mark .semicolon) (rest : Derives more file) :
      Derives (head :: name :: opening :: (ls ++ closing :: semicolon :: more)) (.module name.text body :: file)

end Grammar

end Idl
