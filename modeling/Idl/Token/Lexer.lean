import Idl.Error
import Idl.Text.Bytes
import Idl.Token.Basic

/-!
# Reading tokens

A text is cut into tokens from left to right, each as long as it can be. A line comment ends before
the next line end, a block comment after the first star and slash that follow its opening. Every
character that is neither a blank nor a mark belongs to a word, so the only text without tokens is
one with a block comment that is never closed.
-/

namespace Idl.Token

/-- Whether a character separates tokens and belongs to none. -/
def isGap (c : Char) : Bool := c == ' ' || c == '\t' || c == '\n' || c == '\r' || c == '\x0c'

/-- Whether a character ends a line. -/
def isLineEnd (c : Char) : Bool := c == '\r' || c == '\n'

/-- Whether a character belongs to a word. -/
def isWordChar (c : Char) : Bool := !isGap c && (Mark.ofChar? c).isNone

/-- A text cut after the first star and slash in it. -/
def closeComment : List Char → Option (List Char × List Char)
  | [] => none
  | '*' :: '/' :: cs => some (['*', '/'], cs)
  | c :: cs => (closeComment cs).map fun (comment, rest) => (c :: comment, rest)

/-- How a text without leading blanks starts. -/
inductive First where
  /-- There is nothing left. -/
  | nothing
  /-- A block comment that is never closed. -/
  | unclosed
  /-- A token, and the text after it. -/
  | token (kind : Kind) (text rest : List Char)
deriving DecidableEq, Repr

/-- The first token of a text without leading blanks. -/
def first : List Char → First
  | [] => .nothing
  | '/' :: '/' :: cs => .token .lineComment ('/' :: '/' :: cs.takeWhile (!isLineEnd ·)) (cs.dropWhile (!isLineEnd ·))
  | '/' :: '*' :: cs =>
    match closeComment cs with
    | some (comment, rest) => .token .blockComment ('/' :: '*' :: comment) rest
    | none => .unclosed
  | c :: cs =>
    match Mark.ofChar? c with
    | some m => .token (.mark m) [c] cs
    | none =>
      let word := c :: cs.takeWhile isWordChar
      .token (Kind.ofWord word) word (cs.dropWhile isWordChar)

theorem append_of_closeComment {cs comment rest : List Char} (h : closeComment cs = some (comment, rest)) :
    comment ++ rest = cs := by
  fun_induction closeComment cs generalizing comment with
  | case1 => simp at h
  | case2 cs =>
    obtain ⟨rfl, rfl⟩ := Prod.mk.injEq .. ▸ Option.some.injEq .. ▸ h
    rfl
  | case3 c cs _ ih =>
    obtain ⟨⟨comment', rest'⟩, h', heq⟩ := Option.map_eq_some_iff.1 h
    obtain ⟨rfl, rfl⟩ := Prod.mk.injEq .. ▸ heq
    simp [ih h']

/-- A token and what comes after it are the text. -/
theorem append_of_first {cs text rest : List Char} {kind : Kind} (h : first cs = .token kind text rest) :
    text ++ rest = cs := by
  unfold first at h
  split at h
  · simp at h
  · obtain ⟨-, rfl, rfl⟩ := First.token.injEq .. ▸ h
    simp [List.takeWhile_append_dropWhile]
  · split at h
    · rename_i hc
      obtain ⟨-, rfl, rfl⟩ := First.token.injEq .. ▸ h
      simp [append_of_closeComment hc]
    · simp at h
  · split at h <;> obtain ⟨-, rfl, rfl⟩ := First.token.injEq .. ▸ h <;> simp [List.takeWhile_append_dropWhile]

/-- A token is not empty. -/
theorem ne_nil_of_first {cs text rest : List Char} {kind : Kind} (h : first cs = .token kind text rest) :
    text ≠ [] := by
  unfold first at h
  split at h
  · simp at h
  · obtain ⟨-, rfl, -⟩ := First.token.injEq .. ▸ h
    simp
  · split at h
    · obtain ⟨-, rfl, -⟩ := First.token.injEq .. ▸ h
      simp
    · simp at h
  · split at h <;> obtain ⟨-, rfl, -⟩ := First.token.injEq .. ▸ h <;> simp

theorem length_lt_of_first {cs text rest : List Char} {kind : Kind} (h : first cs = .token kind text rest) :
    rest.length < cs.length := by
  have hlen := congrArg List.length (append_of_first h)
  have := List.length_pos_iff.2 (ne_nil_of_first h)
  simp at hlen
  omega

/-- The tokens of a text that starts at the given offset and position of a file. -/
def scan (file offset : Nat) (position : Position) (cs : List Char) : Except Error (List Token) :=
  let gap := cs.takeWhile isGap
  let start := offset + Text.size gap
  let position := position.advance gap
  match h : first (cs.dropWhile isGap) with
  | .nothing => .ok []
  | .unclosed => .error (.unclosedComment ⟨file, start, start + 2⟩)
  | .token kind text rest => do
    let stop := start + Text.size text
    let token := ⟨kind, String.ofList gap, String.ofList text, ⟨file, start, stop⟩, position⟩
    let tokens ← scan file stop (position.advance text) rest
    return token :: tokens
termination_by cs.length
decreasing_by
  have := length_lt_of_first h
  have := (List.dropWhile_sublist (l := cs) isGap).length_le
  omega

/-- The tokens of a file. -/
def ofSource (file : Nat) (source : String) : Except Error (List Token) := scan file 0 .first source.toList

end Idl.Token
