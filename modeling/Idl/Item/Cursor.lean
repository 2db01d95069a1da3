import Idl.Item.Basic
import Idl.Text.Letter

/-!
# A place among tokens

A cursor holds the tokens that are still to be read and the comments that were passed since they
were last taken. Reading on needs the end of the file, which is what a fault at the end points at.
-/

namespace Idl

/-- A fault at a token that should have been something else. -/
def Token.unexpected (token : Token) (expected : String) : Error :=
  .unexpectedToken token.range ("`" ++ token.text ++ "`") expected

/-- The name that a token is. -/
def Token.name (token : Token) : Except Error Name :=
  if token.kind = .word ∧ Text.isName token.text.toList then .ok ⟨token.text, token.range⟩
  else .error (token.unexpected "a name")

/-- A place among the tokens of a file. -/
structure Cursor where
  tokens : List Token
  comments : List Comment
deriving DecidableEq, Repr

namespace Cursor

/-- The number of tokens that are still to be read. -/
def size (c : Cursor) : Nat := c.tokens.length

/-- The cursor after the comments that come next. -/
def skip (c : Cursor) : Cursor :=
  ⟨c.tokens.dropWhile (·.kind.isComment), c.comments ++ (c.tokens.takeWhile (·.kind.isComment)).map .ofToken⟩

/-- The cursor after the comments that come next, without the comments that were passed. -/
def fresh (c : Cursor) : Cursor := ⟨c.skip.tokens, []⟩

/-- The kind of the next token that is not a comment. -/
def kind? (c : Cursor) : Option Token.Kind := c.skip.tokens.head?.map (·.kind)

/-- The next token that is not a comment. -/
def next (finish : FileRange) (expected : String) (c : Cursor) : Except Error (Token × Cursor) :=
  match c.skip.tokens with
  | [] => .error (.unexpectedEnd finish expected)
  | token :: rest => .ok (token, ⟨rest, c.skip.comments⟩)

/-- The cursor after a token of the given kind. -/
def expect (finish : FileRange) (kind : Token.Kind) (expected : String) (c : Cursor) : Except Error Cursor := do
  let (token, c) ← c.next finish expected
  if token.kind = kind then .ok c else .error (token.unexpected expected)

/-- The next token, which has to be a name. -/
def name (finish : FileRange) (c : Cursor) : Except Error (Name × Cursor) := do
  let (token, c) ← c.next finish "a name"
  let name ← token.name
  return (name, c)

/-! ## Types -/

/-- The tokens of a type as one text: words are kept apart by a space. -/
def spell : List Token → String
  | [] => ""
  | [token] => token.text
  | token :: next :: rest =>
    token.text ++ (if token.kind.isWordLike && next.kind.isWordLike then " " else "") ++ spell (next :: rest)

/-- The type that some tokens spell. -/
def typeExpr (first : Token) (rest : List Token) : TypeExpr :=
  ⟨spell (first :: rest), first.range.extend (rest.getLastD first).range⟩

/-- Whether a token ends a type and a name: one of the given marks, or a brace. -/
def endsType (stops : List Mark) (token : Token) : Bool :=
  match token.kind with
  | .mark m => m ∈ stops ∨ m = .openBrace ∨ m = .closeBrace
  | _ => false

/-- What is expected where a type and a name should stand. -/
def typedNameText : String := "a type followed by a name"

/-- A type followed by a name, up to one of the given marks or a brace. -/
def typedName (finish : FileRange) (stops : List Mark) (c : Cursor) : Except Error (TypedName × Cursor) :=
  let passed := c.tokens.takeWhile (!endsType stops ·)
  match c.tokens.dropWhile (!endsType stops ·) with
  | [] => .error (.unexpectedEnd finish typedNameText)
  | stop :: rest =>
    let words := passed.filter (!·.kind.isComment)
    match words.dropLast, words.getLast? with
    | first :: more, some last => do
      let name ← last.name
      let comments := (passed.filter (·.kind.isComment)).map .ofToken
      return (⟨typeExpr first more, name⟩, ⟨stop :: rest, c.comments ++ comments⟩)
    | _, _ => .error (stop.unexpected typedNameText)

/-! ## Reading goes forward -/

theorem size_skip_le (c : Cursor) : c.skip.size ≤ c.size := (List.dropWhile_sublist _).length_le

theorem size_fresh_le (c : Cursor) : c.fresh.size ≤ c.size := (List.dropWhile_sublist _).length_le

theorem size_lt_of_skip {c : Cursor} {head : Token} {tokens : List Token} (h : c.skip.tokens = head :: tokens) :
    tokens.length < c.size := by
  have := c.size_skip_le
  simp only [size, h, List.length_cons] at this ⊢
  omega

theorem size_lt_of_next {finish : FileRange} {expected : String} {c d : Cursor} {token : Token}
    (h : c.next finish expected = .ok (token, d)) : d.size < c.size := by
  unfold next at h
  split at h
  · cases h
  · rename_i token' rest htokens
    cases h
    exact size_lt_of_skip htokens

theorem size_lt_of_expect {finish : FileRange} {kind : Token.Kind} {expected : String} {c d : Cursor}
    (h : c.expect finish kind expected = .ok d) : d.size < c.size := by
  unfold expect at h
  rcases hn : c.next finish expected with e | ⟨token, d'⟩
  · rw [hn] at h
    cases h
  · rw [hn] at h
    simp only [bind, Except.bind] at h
    split at h
    · cases h
      exact size_lt_of_next hn
    · cases h

theorem size_lt_of_name {finish : FileRange} {c d : Cursor} {name : Name} (h : c.name finish = .ok (name, d)) :
    d.size < c.size := by
  unfold Cursor.name at h
  rcases hn : c.next finish "a name" with e | ⟨token, d'⟩
  · rw [hn] at h
    cases h
  · rw [hn] at h
    simp only [bind, Except.bind] at h
    rcases ht : token.name with e | name'
    · rw [ht] at h
      cases h
    · rw [ht] at h
      cases h
      exact size_lt_of_next hn

theorem size_le_of_typedName {finish : FileRange} {stops : List Mark} {c d : Cursor} {typed : TypedName}
    (h : c.typedName finish stops = .ok (typed, d)) : d.size ≤ c.size := by
  unfold typedName at h
  split at h
  · cases h
  · rename_i stop rest hrest
    have hle := (List.dropWhile_sublist (l := c.tokens) (!endsType stops ·)).length_le
    simp only at h
    split at h
    · rename_i last _ _
      rcases ht : last.name with e | name'
      · rw [ht] at h
        cases h
      · rw [ht] at h
        cases h
        rw [hrest] at hle
        exact hle
    · cases h

end Cursor

end Idl
