import Idl.Proofs.Places
import Idl.Output.Placement

/-!
# Reading stays in bounds

A file is read by offsets, indices and differences. Each of these operations can go out of bounds: a
slice can start or end inside of a character or behind the end of the text, an index can be behind
the last element, a difference can be negative and a number can need more than 32 bits. `Strict` holds
the reading of files in terms of operations that refuse this. They refuse nothing (`Strict.InBounds`):
where the texts are shorter than 4 GiB, the strict reading gives the same as the plain one, at every
place among the tokens of every file that a compilation reads (`compileFile_stays_in_bounds`).
-/

namespace Idl

namespace Strict

/-! ## Operations with bounds -/

/-- A number of 32 bits. -/
def word (n : Nat) : Option Nat := if n < UInt32.size then some n else none

/-- A difference that is not negative. -/
def sub (a b : Nat) : Option Nat := if b ≤ a then some (a - b) else none

/-- A list from an index on that is not behind its end. -/
def drop {α : Type} (n : Nat) (xs : List α) : Option (List α) := if n ≤ xs.length then some (xs.drop n) else none

/-- The offset of the first character of a kind. -/
def find (p : Char → Bool) (cs : List Char) : Option Nat :=
  if cs.any p then some (Text.size (cs.takeWhile (!p ·))) else none

/-! ## Tokens -/

/-- A token without its text. -/
structure Lexed where
  kind : Token.Kind
  range : FileRange
  position : Position
deriving DecidableEq, Repr

/-- A token, and neither its text nor the blanks in front of it. -/
def lexed (token : Token) : Lexed := ⟨token.kind, token.range, token.position⟩

/-- The position after some characters. -/
def advance (p : Position) : List Char → Option Position
  | [] => some p
  | c :: cs => do
    let line ← word (p.next c).line
    let column ← word (p.next c).column
    advance ⟨line, column⟩ cs

/-- The tokens of the text `cs` at `offset` in a source. The position is that of the offset `consumed`, which is where
the token before starts. -/
def lexFrom (file : Nat) (source : List Char) (consumed : Nat) (position : Position) (offset : Nat) (cs : List Char) :
    Option (Except Error (List Lexed)) :=
  match hfirst : Token.first (cs.dropWhile Token.isGap) with
  | .nothing => some (.ok [])
  | .unclosed => do
    let start := offset + Text.size (cs.takeWhile Token.isGap)
    let passed ← Text.slice? consumed start source
    let _ ← advance position passed
    return .error (.unclosedComment ⟨file, ← word start, ← word (start + 2)⟩)
  | .token kind text rest => do
    let start := offset + Text.size (cs.takeWhile Token.isGap)
    let passed ← Text.slice? consumed start source
    let position ← advance position passed
    let range : FileRange := ⟨file, ← word start, ← word (start + Text.size text)⟩
    let more ← lexFrom file source start position (start + Text.size text) rest
    return more.map (⟨kind, range, position⟩ :: ·)
termination_by cs.length
decreasing_by
  have := Token.length_lt_of_first hfirst
  have := (List.dropWhile_sublist (l := cs) Token.isGap).length_le
  omega

/-- The tokens of a text that is not too long. -/
def lex (file : Nat) (source : String) : Option (Except Error (List Lexed)) := do
  let _ ← word (Text.byteLength source)
  lexFrom file source.toList 0 .first 0 source.toList

/-- The text of a token. -/
def text (source : List Char) (token : Token) : Option String :=
  (Text.slice? token.range.start token.range.stop source).map String.ofList

/-! ## Cursors -/

/-- Where the token in front of an index stops, or the start of the text. -/
def previousStop (tokens : List Token) (index : Nat) : Option Nat :=
  if index = 0 then some 0 else do
    let before ← tokens[← sub index 1]?
    return before.range.stop

/-- The blanks in front of the token with an index, behind the token before it. -/
def leading (source : List Char) (tokens : List Token) (index : Nat) : Option String := do
  let token ← tokens[index]?
  let previous ← previousStop tokens index
  return String.ofList (← Text.slice? previous token.range.start source)

/-- The comments at an index, and the index after them. -/
def skip (source : List Char) (tokens : List Token) (index : Nat) : Option (List Comment × Nat) :=
  if h : index < tokens.length then
    if tokens[index].kind.isComment then do
      let comment := ⟨← leading source tokens index, ← text source tokens[index]⟩
      let (comments, index) ← skip source tokens (index + 1)
      return (comment :: comments, index)
    else some ([], index)
  else some ([], index)
termination_by tokens.length - index

/-- The texts of some tokens in a row, with spaces between words. -/
def spell (source : List Char) : List Token → Option String
  | [] => some ""
  | [token] => text source token
  | token :: next :: rest => do
    let space := if token.kind.isWordLike && next.kind.isWordLike then " " else ""
    return (← text source token) ++ space ++ (← spell source (next :: rest))

/-- The range from the first to the last of some tokens. -/
def extent (tokens : List Token) : Option FileRange := do
  let first ← tokens[0]?
  let last ← tokens[← sub tokens.length 1]?
  return first.range.extend last.range

/-- A type followed by a name, up to one of the given marks or a brace. -/
def typedName (source : List Char) (finish : FileRange) (stops : List Mark) (c : Cursor) :
    Option (Except Error (TypedName × Cursor)) :=
  let passed := c.tokens.takeWhile (!Cursor.endsType stops ·)
  match c.tokens.dropWhile (!Cursor.endsType stops ·) with
  | [] => some (.error (.unexpectedEnd finish Cursor.typedNameText))
  | stop :: rest =>
    let words := passed.filter (!·.kind.isComment)
    match words.getLast? with
    | none => some (.error (stop.unexpected Cursor.typedNameText))
    | some last =>
      if words.dropLast.isEmpty then some (.error (stop.unexpected Cursor.typedNameText))
      else match last.name with
        | .error e => some (.error e)
        | .ok name => do
          let type := ⟨← spell source words.dropLast, ← extent words.dropLast⟩
          let comments := (passed.filter (·.kind.isComment)).map .ofToken
          return .ok (⟨type, name⟩, ⟨stop :: rest, c.comments ++ comments⟩)

/-- The index of the first token that does not start in front of `close`, unless one in front of it stops behind
`lineEnd`. -/
def passOver (tokens : List Token) (close lineEnd index : Nat) : Except FileRange Nat :=
  if h : index < tokens.length then
    if close ≤ tokens[index].range.start then .ok index
    else if lineEnd < tokens[index].range.stop then .error tokens[index].range
    else passOver tokens close lineEnd (index + 1)
  else .ok index
termination_by tokens.length - index

/-- What was read of an include: what is malformed in it, or its path, its range and the index after it. -/
abbrev Included := Except FileRange (String × FileRange × Nat)

/-- An include whose first token is `head`, from the index after it on. -/
def includeAt (source : List Char) (tokens : List Token) (head : Token) (index : Nat) : Option Included :=
  match tokens[index]? with
  | none => some (.error head.range)
  | some quote =>
    if quote.kind ≠ .mark .doubleQuote then some (.error quote.range)
    else do
      let start := quote.range.stop
      let behind ← Text.slice? start (Text.size source) source
      let line ← Text.slice? 0 ((find Token.isLineEnd behind).getD (Text.size behind)) behind
      match find (· == '"') line with
      | none => return .error quote.range
      | some length =>
        let written ← Text.slice? 0 length line
        let close ← word (start + Text.size written + 1)
        let lineEnd ← word (start + Text.size line)
        let range : FileRange := ⟨head.range.file, head.range.start, close⟩
        return (passOver tokens close lineEnd (index + 1)).map fun index => (String.ofList written, range, index)

/-- The step of a reader that an include is. -/
def step (tokens : List Token) (head : Token) : Included → Item.Step
  | .error range => .stop (.fault (some head) (.malformedInclude (head.range.extend range)))
  | .ok (written, range, index) => .items [.include head written range] ⟨tokens.drop index, []⟩

/-! ## Outputs and files -/

/-- How the code in `target` refers to the code in `declaredIn`. -/
def importSpecifier (target declaredIn : Path) : Option String := do
  let origin := target.directory.normalize.components
  let goal := (declaredIn.withExtension "").normalize.components
  let common := Placement.commonLength origin goal
  let ups := List.replicate (← sub origin.length common) ".."
  let downs := (← drop common goal).map Component.text
  let way := "/".intercalate (ups ++ downs)
  return if "..".toList.isPrefixOf way.toList then way else "./" ++ way

/-- The file with a number, counted from one. -/
def get (l : Library) (id : Nat) : Option (Except LookupError SourceFile) := do
  let index ← sub id 1
  return match l.files[index]? with
    | some file => .ok file
    | none => .error .fileMissing

/-! ## Nothing is refused -/

theorem word_eq {n : Nat} (h : n < UInt32.size) : word n = some n := if_pos h

theorem sub_eq {a b : Nat} (h : b ≤ a) : sub a b = some (a - b) := if_pos h

theorem length_le_size (cs : List Char) : cs.length ≤ Text.size cs := by
  induction cs with
  | nil => exact Nat.le_refl 0
  | cons c cs ih =>
    have := c.utf8Size_pos
    rw [List.length_cons, Text.size_cons]
    omega

/-- A character moves the line and the column by one at most. -/
theorem next_le {p : Position} {n : Nat} (hline : p.line ≤ n) (hcolumn : p.column ≤ n) (c : Char) :
    (p.next c).line ≤ n + 1 ∧ (p.next c).column ≤ n + 1 := by
  unfold Position.next
  split
  · exact ⟨Nat.succ_le_succ hline, Nat.succ_le_succ (Nat.zero_le n)⟩
  · split
    · exact ⟨Nat.le_succ_of_le hline, Nat.le_succ_of_le hcolumn⟩
    · exact ⟨Nat.le_succ_of_le hline, Nat.succ_le_succ hcolumn⟩

theorem advance_eq {p : Position} {n : Nat} (hline : p.line ≤ n) (hcolumn : p.column ≤ n) (cs : List Char)
    (hsize : n + cs.length < UInt32.size) :
    advance p cs = some (p.advance cs) ∧ (p.advance cs).line ≤ n + cs.length ∧ (p.advance cs).column ≤ n + cs.length := by
  induction cs generalizing p n with
  | nil => exact ⟨rfl, hline, hcolumn⟩
  | cons c cs ih =>
    obtain ⟨hline', hcolumn'⟩ := next_le hline hcolumn c
    rw [List.length_cons] at hsize ⊢
    obtain ⟨hrest, hlast⟩ := ih hline' hcolumn' (by omega)
    rw [advance, word_eq (by omega), word_eq (by omega), ← Nat.add_assoc, Nat.add_right_comm]
    exact ⟨hrest, hlast⟩

/-- A place in a text of less than 4 GiB has a line and a column of 32 bits, if anything stands behind it. -/
theorem advance_first {done skipped rest : List Char} (hsize : Text.size (done ++ skipped ++ rest) < UInt32.size)
    (hrest : rest ≠ []) :
    advance (Position.first.advance done) skipped = some (Position.first.advance (done ++ skipped)) := by
  have hlength := length_le_size (done ++ skipped ++ rest)
  have hpos := List.length_pos_iff.2 hrest
  rw [List.length_append, List.length_append] at hlength
  obtain ⟨-, hline, hcolumn⟩ := advance_eq (p := .first) (n := 1) (Nat.le_refl 1) (Nat.le_refl 1) done (by omega)
  obtain ⟨hadvance, -⟩ := advance_eq hline hcolumn skipped (by omega)
  rw [hadvance, Position.advance_append]

section Lex

variable {file : Nat} {source : List Char}

theorem lexFrom_eq (consumed : Nat) (position : Position) (offset : Nat) (cs : List Char) :
    lexFrom file source consumed position offset cs = match Token.first (cs.dropWhile Token.isGap) with
      | .nothing => some (.ok [])
      | .unclosed => do
        let start := offset + Text.size (cs.takeWhile Token.isGap)
        let passed ← Text.slice? consumed start source
        let _ ← advance position passed
        return .error (.unclosedComment ⟨file, ← word start, ← word (start + 2)⟩)
      | .token kind text rest => do
        let start := offset + Text.size (cs.takeWhile Token.isGap)
        let passed ← Text.slice? consumed start source
        let position ← advance position passed
        let range : FileRange := ⟨file, ← word start, ← word (start + Text.size text)⟩
        let more ← lexFrom file source start position (start + Text.size text) rest
        return more.map (⟨kind, range, position⟩ :: ·) := by
  rw [lexFrom]
  split
  · rename_i hfirst
    rw [hfirst]
  · rename_i hfirst
    rw [hfirst]
  · rename_i kind text rest hfirst
    rw [hfirst]

/-- The scanner stays in bounds: the text since the last token is a slice of the source, and all numbers are of 32
bits. -/
theorem lexFrom_eq_scan {done skipped cs : List Char} (hsource : done ++ skipped ++ cs = source)
    (hsize : Text.size source < UInt32.size) :
    lexFrom file source (Text.size done) (Position.first.advance done) (Text.size (done ++ skipped)) cs =
      some ((Token.scan file (Text.size (done ++ skipped)) (Position.first.advance (done ++ skipped)) cs).map
        (·.map lexed)) := by
  induction hn : cs.length using Nat.strongRecOn generalizing done skipped cs with
  | _ n ih =>
    subst hn
    have hgap := List.takeWhile_append_dropWhile (p := Token.isGap) (l := cs)
    rw [lexFrom_eq, Token.scan_eq]
    generalize cs.takeWhile Token.isGap = gap at hgap ⊢
    generalize cs.dropWhile Token.isGap = behind at hgap ⊢
    have htext : done ++ (skipped ++ gap) ++ behind = source := by
      rw [← hsource, ← hgap]
      simp only [List.append_assoc]
    have hslice : Text.slice? (Text.size done) (Text.size (done ++ skipped) + Text.size gap) source =
        some (skipped ++ gap) := by
      refine Text.slice?_eq_some.2 ⟨done, behind, htext, rfl, ?_⟩
      rw [Text.size_append, Text.size_append, Nat.add_assoc]
    rw [← htext] at hsize
    have hbehind := hsize
    rw [Text.size_append, Text.size_append, Text.size_append] at hbehind
    cases hfirst : Token.first behind with
    | nothing => rfl
    | unclosed =>
      obtain ⟨after, rfl⟩ := Token.exists_of_first_unclosed hfirst
      have hstart : Text.size (done ++ skipped) + Text.size gap + 2 < UInt32.size := by
        rw [Text.size_append]
        simp only [Text.size_cons, show '/'.utf8Size = 1 from rfl, show '*'.utf8Size = 1 from rfl] at hbehind
        omega
      dsimp only
      rw [hslice, Option.bind_eq_bind, Option.bind_some, advance_first hsize (List.cons_ne_nil _ _), word_eq hstart,
        word_eq (Nat.lt_of_le_of_lt (Nat.le_add_right _ 2) hstart)]
      rfl
    | token kind text rest =>
      have happend := Token.append_of_first hfirst
      have hne : behind ≠ [] := by
        rw [← happend]
        exact List.append_ne_nil_of_left_ne_nil (Token.ne_nil_of_first hfirst) rest
      have hstop : Text.size (done ++ skipped) + Text.size gap + Text.size text < UInt32.size := by
        rw [← happend, Text.size_append] at hbehind
        rw [Text.size_append]
        omega
      have hlength : rest.length < cs.length := by
        have := Token.length_lt_of_first hfirst
        rw [← hgap, List.length_append]
        omega
      have happend' : done ++ (skipped ++ gap) ++ text ++ rest = source := by
        rw [List.append_assoc, happend]
        exact htext
      have hrest := ih rest.length hlength happend' rfl
      have hstart : Text.size (done ++ (skipped ++ gap)) = Text.size (done ++ skipped) + Text.size gap := by
        rw [← List.append_assoc, Text.size_append]
      have hplace : Position.first.advance (done ++ (skipped ++ gap)) =
          (Position.first.advance (done ++ skipped)).advance gap := by
        rw [← List.append_assoc, Position.advance_append]
      rw [Text.size_append _ text, Position.advance_append _ _ text, hstart, hplace] at hrest
      dsimp only
      rw [hslice, Option.bind_eq_bind, Option.bind_some, advance_first hsize hne, word_eq hstop,
        word_eq (Nat.lt_of_le_of_lt (Nat.le_add_right _ _) hstop), hplace]
      simp only [Option.bind_eq_bind, Option.bind_some]
      rw [hrest, Text.size_append gap, ← Nat.add_assoc, Position.advance_append _ gap text]
      cases Token.scan file (Text.size (done ++ skipped) + Text.size gap + Text.size text)
          (((Position.first.advance (done ++ skipped)).advance gap).advance text) rest with
      | error e => rfl
      | ok tokens => rfl

theorem lex_eq {text : String} (hsize : Text.byteLength text < UInt32.size) :
    lex file text = some ((Token.ofSource file text).map (·.map lexed)) := by
  rw [lex, word_eq hsize]
  exact @lexFrom_eq_scan file text.toList [] [] text.toList rfl hsize

end Lex

section Tokens

variable {id : Nat} {source : String} {tokens : List Token} {token : Token}

theorem text_eq (h : Token.ofSource id source = .ok tokens) (hmem : token ∈ tokens) :
    text source.toList token = some token.text := by
  obtain ⟨before, after, rfl⟩ := List.append_of_mem hmem
  obtain ⟨-, htext, -⟩ := Token.slices_of_scan h
  rw [text, htext, Option.map_some, String.ofList_toList]

theorem previousStop_eq {index : Nat} (h : index ≤ tokens.length) :
    previousStop tokens index = some (((tokens.take index).getLast?.map (·.range.stop)).getD 0) := by
  cases index with
  | zero => rfl
  | succ index =>
    have hindex : tokens[index]? = some tokens[index] := List.getElem?_eq_getElem h
    rw [previousStop, if_neg (Nat.succ_ne_zero index), sub_eq (Nat.le_add_left 1 index), Nat.add_sub_cancel,
      List.take_succ_eq_append_getElem h, List.getLast?_concat]
    simp only [Option.bind_eq_bind, Option.bind_some, hindex]
    rfl

/-- What is in front of a token in the text starts where the token before it stops. -/
theorem leading_eq (h : Token.ofSource id source = .ok tokens) {index : Nat} (hindex : tokens[index]? = some token) :
    leading source.toList tokens index = some token.leading := by
  obtain ⟨hlt, rfl⟩ := List.getElem?_eq_some_iff.1 hindex
  have hsplit : tokens.take index ++ tokens[index] :: tokens.drop (index + 1) = tokens := by
    rw [← List.drop_eq_getElem_cons hlt, List.take_append_drop]
  have hscan := h
  rw [← hsplit] at hscan
  obtain ⟨-, -, hleading⟩ := Token.slices_of_scan hscan
  rw [leading, hindex, previousStop_eq (Nat.le_of_lt hlt)]
  simp only [Option.bind_eq_bind, Option.bind_some, hleading, String.ofList_toList]
  rfl

theorem skip_cons_comment {rest : List Token} (h : token.kind.isComment = true) (pending : List Comment) :
    (⟨token :: rest, pending⟩ : Cursor).skip = (⟨rest, pending ++ [.ofToken token]⟩ : Cursor).skip := by
  simp [Cursor.skip, h]

theorem skip_of_not_comment {rest : List Token} (h : ∀ token ∈ rest.head?, token.kind.isComment = false)
    (pending : List Comment) : (⟨rest, pending⟩ : Cursor).skip = ⟨rest, pending⟩ := by
  cases rest with
  | nil => simp [Cursor.skip]
  | cons token rest => simp [Cursor.skip, h token rfl]

/-- The comments at any index are slices of the text, and the reader goes on where the strict one does. -/
theorem skip_eq (h : Token.ofSource id source = .ok tokens) (index : Nat) :
    ∃ comments after, skip source.toList tokens index = some (comments, after) ∧
      ∀ pending, (⟨tokens.drop index, pending⟩ : Cursor).skip = ⟨tokens.drop after, pending ++ comments⟩ := by
  fun_induction skip source.toList tokens index with
  | case1 index hlt hcomment ih =>
    obtain ⟨comments, after, hskip, hcursor⟩ := ih
    have hindex := List.getElem?_eq_getElem hlt
    refine ⟨.ofToken tokens[index] :: comments, after, ?_, fun pending => ?_⟩
    · rw [leading_eq h hindex, text_eq h (List.getElem_mem hlt), hskip]
      rfl
    · have hrest := hcursor (pending ++ [.ofToken tokens[index]])
      rw [List.append_assoc, List.singleton_append] at hrest
      rw [← hrest, List.drop_eq_getElem_cons hlt, skip_cons_comment hcomment]
  | case2 index hlt hcomment =>
    refine ⟨[], index, rfl, fun pending => ?_⟩
    rw [List.append_nil]
    refine skip_of_not_comment (fun token htoken => ?_) pending
    rw [List.drop_eq_getElem_cons hlt] at htoken
    cases htoken
    exact Bool.eq_false_iff.2 hcomment
  | case3 index hlt =>
    refine ⟨[], index, rfl, fun pending => ?_⟩
    rw [List.append_nil]
    refine skip_of_not_comment (fun token htoken => ?_) pending
    rw [List.drop_eq_nil_of_le (Nat.le_of_not_lt hlt)] at htoken
    cases htoken

end Tokens

/-! ## Types -/

section Types

variable {source : List Char}

theorem spell_eq {tokens : List Token} (h : ∀ token ∈ tokens, text source token = some token.text) :
    spell source tokens = some (Cursor.spell tokens) := by
  fun_induction Cursor.spell tokens with
  | case1 => rfl
  | case2 token => exact h token List.mem_cons_self
  | case3 token next rest ih =>
    obtain ⟨htoken, hrest⟩ := List.forall_mem_cons.1 h
    rw [spell, htoken, ih hrest]
    rfl

/-- A type has a first and a last token. -/
theorem extent_cons (first : Token) (rest : List Token) :
    extent (first :: rest) = some (first.range.extend (rest.getLastD first).range) := by
  have hlast : (first :: rest)[rest.length]? = some (rest.getLastD first) := by
    cases rest with
    | nil => rfl
    | cons next rest => simp [List.getLastD_eq_getLast?, List.getLast?_eq_getElem?]
  rw [extent, List.length_cons, sub_eq (Nat.le_add_left 1 _), Nat.add_sub_cancel]
  simp only [Option.bind_eq_bind, Option.bind_some, hlast]
  rfl

theorem typedName_eq (finish : FileRange) (stops : List Mark) {c : Cursor}
    (h : ∀ token ∈ c.tokens, text source token = some token.text) :
    typedName source finish stops c = some (c.typedName finish stops) := by
  unfold typedName Cursor.typedName
  dsimp only
  cases c.tokens.dropWhile (!Cursor.endsType stops ·) with
  | nil => rfl
  | cons stop rest =>
    generalize hwords : (c.tokens.takeWhile (!Cursor.endsType stops ·)).filter (!·.kind.isComment) = words
    have hmem : ∀ token ∈ words.dropLast, text source token = some token.text := by
      intro token htoken
      have hword := List.dropLast_subset words htoken
      rw [← hwords] at hword
      exact h token ((List.takeWhile_sublist _).subset (List.mem_filter.1 hword).1)
    dsimp only
    cases words.getLast? with
    | none =>
      cases words.dropLast with
      | nil => rfl
      | cons first more => rfl
    | some last =>
      cases htypes : words.dropLast with
      | nil => rfl
      | cons first more =>
        rw [htypes] at hmem
        dsimp only [List.isEmpty_cons]
        cases hname : last.name with
        | error e => rfl
        | ok name =>
          rw [spell_eq hmem, extent_cons]
          rfl

end Types

/-! ## Includes -/

theorem passOver_eq (tokens : List Token) (close lineEnd index : Nat) :
    (passOver tokens close lineEnd index).map (tokens.drop ·) =
      match ((tokens.drop index).takeWhile (·.range.start < close)).find? (lineEnd < ·.range.stop) with
      | some token => .error token.range
      | none => .ok ((tokens.drop index).dropWhile (·.range.start < close)) := by
  fun_induction passOver tokens close lineEnd index with
  | case1 index hlt hclose =>
    have hstart : decide (tokens[index].range.start < close) = false := decide_eq_false (Nat.not_lt.2 hclose)
    rw [List.drop_eq_getElem_cons hlt, List.takeWhile_cons, List.dropWhile_cons, hstart]
    exact congrArg Except.ok (List.drop_eq_getElem_cons hlt)
  | case2 index hlt hclose hend =>
    have hstart : decide (tokens[index].range.start < close) = true := decide_eq_true (Nat.lt_of_not_le hclose)
    rw [List.drop_eq_getElem_cons hlt, List.takeWhile_cons, hstart, if_pos rfl, List.find?_cons, decide_eq_true hend]
    rfl
  | case3 index hlt hclose hend ih =>
    have hstart : decide (tokens[index].range.start < close) = true := decide_eq_true (Nat.lt_of_not_le hclose)
    rw [ih, List.drop_eq_getElem_cons hlt, List.takeWhile_cons, List.dropWhile_cons, hstart, if_pos rfl, if_pos rfl,
      List.find?_cons, decide_eq_false hend]
  | case4 index hlt =>
    have hnil : tokens.drop index = [] := List.drop_eq_nil_of_le (Nat.le_of_not_lt hlt)
    change Except.ok (tokens.drop index) = _
    rw [hnil]
    rfl

/-- A text up to the first character of a kind, or to its end. -/
theorem slice?_find (p : Char → Bool) (cs : List Char) :
    Text.slice? 0 ((find p cs).getD (Text.size cs)) cs = some (cs.takeWhile (!p ·)) := by
  have hsize : (find p cs).getD (Text.size cs) = Text.size (cs.takeWhile (!p ·)) := by
    rw [find]
    split
    · rfl
    · rename_i hany
      have hall : ∀ c ∈ cs, (!p c) = true := by simpa using hany
      have htake : (cs ++ []).takeWhile (!p ·) = cs ++ [] := List.takeWhile_append_of_pos hall
      rw [List.append_nil] at htake
      rw [htake]
      rfl
  rw [hsize]
  exact Text.slice?_eq_some.2 ⟨[], cs.dropWhile (!p ·), List.takeWhile_append_dropWhile, rfl, Nat.zero_add _⟩

/-- A quote in a text is behind the text in front of the first one. -/
theorem find_quote (line : List Char) :
    (find (· == '"') line = none ∧ '"' ∉ line) ∨
      (find (· == '"') line = some (Text.size (line.takeWhile (· ≠ '"'))) ∧ '"' ∈ line ∧
        Text.size (line.takeWhile (· ≠ '"')) + 1 ≤ Text.size line) := by
  have hwritten : line.takeWhile (!(· == '"') ·) = line.takeWhile (· ≠ '"') := by
    congr 1
    funext c
    by_cases hc : c = '"' <;> simp [hc]
  by_cases hmem : '"' ∈ line
  · refine .inr ⟨?_, hmem, ?_⟩
    · rw [find, if_pos (List.any_eq_true.2 ⟨'"', hmem, rfl⟩), hwritten]
    · have hsplit := List.takeWhile_append_dropWhile (p := (· ≠ '"')) (l := line)
      cases hdrop : line.dropWhile (· ≠ '"') with
      | nil =>
        rw [hdrop, List.append_nil] at hsplit
        rw [← hsplit] at hmem
        have hquote := List.all_eq_true.1 List.all_takeWhile '"' hmem
        simp at hquote
      | cons c rest =>
        have hsize := congrArg Text.size hsplit
        have hpos := c.utf8Size_pos
        rw [hdrop, Text.size_append, Text.size_cons] at hsize
        omega
  · refine .inl ⟨?_, hmem⟩
    rw [find, if_neg]
    rw [List.any_eq_true]
    rintro ⟨c, hc, hquote⟩
    exact hmem (eq_of_beq hquote ▸ hc)

theorem includeAt_eq {id : Nat} {source : String} {tokens : List Token} (h : Token.ofSource id source = .ok tokens)
    (hsize : Text.byteLength source < UInt32.size) (head : Token) (index : Nat) :
    (includeAt source.toList tokens head index).map (step tokens head) =
      some (Item.includeStep (.ofFile id source) head (tokens.drop index)) := by
  rw [includeAt]
  cases hquote : tokens[index]? with
  | none =>
    rw [List.drop_eq_nil_of_le (List.getElem?_eq_none_iff.1 hquote)]
    rfl
  | some quote =>
    obtain ⟨hlt, hget⟩ := List.getElem?_eq_some_iff.1 hquote
    have hdrop := List.drop_eq_getElem_cons hlt
    rw [hget] at hdrop
    -- the raw text behind the quote starts where the quote stops
    have hscan := h
    rw [← List.take_append_drop index tokens, hdrop] at hscan
    obtain ⟨passed, behind, hpassed, hstop, -⟩ := Token.exists_of_scan_after hscan
    have hbehind : Text.slice? quote.range.stop (Text.size source.toList) source.toList = some behind := by
      refine Text.slice?_eq_some.2 ⟨passed, [], by rw [List.append_nil, hpassed], hstop.symm, ?_⟩
      rw [hstop, ← Text.size_append, hpassed]
    have hraw : Text.dropBytes quote.range.stop source.toList = behind := by
      rw [hstop, ← hpassed, Text.dropBytes_size_append]
    rw [hdrop]
    by_cases hkind : quote.kind = .mark .doubleQuote
    · have hline : Text.size (behind.takeWhile (!Token.isLineEnd ·)) ≤ Text.size behind := by
        have hsplit := congrArg Text.size (List.takeWhile_append_dropWhile (p := (!Token.isLineEnd ·)) (l := behind))
        rw [Text.size_append] at hsplit
        omega
      have hfits : quote.range.stop + Text.size behind < UInt32.size := by
        rw [hstop, ← Text.size_append, hpassed]
        exact hsize
      simp only [hkind, ne_eq, not_true_eq_false, if_false, hbehind, slice?_find, Option.bind_eq_bind, Option.bind_some,
        Item.includeStep, SourceText.ofFile, hraw]
      generalize behind.takeWhile (!Token.isLineEnd ·) = line at *
      rcases find_quote line with ⟨hfind, hmem⟩ | ⟨hfind, hmem, hwritten⟩
      · rw [hfind, if_pos hmem]
        rfl
      · have hslice : Text.slice? 0 (Text.size (line.takeWhile (· ≠ '"'))) line = some (line.takeWhile (· ≠ '"')) :=
          Text.slice?_eq_some.2 ⟨[], line.dropWhile (· ≠ '"'), List.takeWhile_append_dropWhile, rfl, Nat.zero_add _⟩
        have hpass := passOver_eq tokens (quote.range.stop + Text.size (line.takeWhile (· ≠ '"')) + 1)
          (quote.range.stop + Text.size line) (index + 1)
        rw [hfind, if_neg (fun hnot => hnot hmem)]
        dsimp only
        rw [hslice, Option.bind_some, word_eq (by omega), Option.bind_some, word_eq (by omega), Option.bind_some]
        generalize quote.range.stop + Text.size (line.takeWhile (· ≠ '"')) + 1 = close at hpass ⊢
        generalize ((tokens.drop (index + 1)).takeWhile (·.range.start < close)).find?
          (quote.range.stop + Text.size line < ·.range.stop) = fault at hpass ⊢
        cases hover : passOver tokens close (quote.range.stop + Text.size line) (index + 1) with
        | error range =>
          rw [hover] at hpass
          cases fault with
          | none => cases hpass
          | some token =>
            cases hpass
            rfl
        | ok after =>
          rw [hover] at hpass
          cases fault with
          | none =>
            have hafter := Except.ok.inj hpass
            rw [← hafter]
            rfl
          | some token => cases hpass
    · simp only [hkind, ne_eq, not_false_eq_true, if_true, Item.includeStep]
      rfl

/-! ## Outputs and files -/

theorem commonLength_le (cs ds : List Component) :
    Placement.commonLength cs ds ≤ cs.length ∧ Placement.commonLength cs ds ≤ ds.length := by
  fun_induction Placement.commonLength cs ds with
  | case1 c cs ds ih => exact ⟨Nat.succ_le_succ ih.1, Nat.succ_le_succ ih.2⟩
  | case2 => exact ⟨Nat.zero_le _, Nat.zero_le _⟩
  | case3 => exact ⟨Nat.zero_le _, Nat.zero_le _⟩

theorem importSpecifier_eq (target declaredIn : Path) :
    importSpecifier target declaredIn = some (Placement.importSpecifier target declaredIn) := by
  obtain ⟨horigin, hgoal⟩ := commonLength_le target.directory.normalize.components
    (declaredIn.withExtension "").normalize.components
  rw [importSpecifier, sub_eq horigin, drop, if_pos hgoal]
  rfl

theorem get_eq {id : Nat} (h : 0 < id) (l : Library) : get l id = some (l.get id) := by
  rw [get, sub_eq h, Library.get, if_neg (Nat.pos_iff_ne_zero.1 h)]
  rfl

end Strict

/-! ## Files -/

/-- A place among the tokens of a file that its reader comes to, from the start of the file on. -/
inductive Item.Visits (source : SourceText) (tokens : List Token) : Cursor → Prop
  | start : Visits source tokens ⟨tokens, []⟩
  | step {c d : Cursor} {head : Token} {rest : List Token} (visits : Visits source tokens c)
      (next : c.skip.tokens = head :: rest) (goesOn : (Item.step source head ⟨rest, []⟩).rest? = some d) :
      Visits source tokens d
  | close {c d : Cursor} {head : Token} {rest : List Token} {opener : Opener} {body : List Item}
      (visits : Visits source tokens c) (next : c.skip.tokens = head :: rest)
      (goesOn : (opener.close source.finish body ⟨rest, []⟩).2 = some d) : Visits source tokens d

theorem Item.Visits.suffix {source : SourceText} {tokens : List Token} {c : Cursor} (h : Visits source tokens c) :
    c.tokens <:+ tokens := by
  have hafter {c d : Cursor} {head : Token} {rest : List Token} (hc : c.tokens <:+ tokens)
      (hnext : c.skip.tokens = head :: rest) (hd : d.tokens <:+ rest) : d.tokens <:+ tokens := by
    have hskip := c.skip_suffix
    rw [hnext] at hskip
    exact hd.trans ((List.suffix_cons head rest).trans (hskip.trans hc))
  induction h with
  | start => exact List.suffix_rfl
  | step _ next goesOn ih => exact hafter ih next (suffix_of_step goesOn)
  | close _ next goesOn ih => exact hafter ih next (suffix_of_close goesOn)

/-- Reading the file `source` with the number `id` stays in bounds: nothing is refused where its tokens are cut, and
with these tokens nothing is refused at any place among them, and the strict reading gives what the plain one gives. -/
structure Strict.InBounds (id : Nat) (source : String) : Prop where
  lexing : lex id source = some ((Token.ofSource id source).map (·.map lexed))
  texts : ∀ tokens, Token.ofSource id source = .ok tokens →
    ∀ token ∈ tokens, text source.toList token = some token.text
  gaps : ∀ tokens, Token.ofSource id source = .ok tokens →
    ∀ index token, tokens[index]? = some token → leading source.toList tokens index = some token.leading
  comments : ∀ tokens, Token.ofSource id source = .ok tokens → ∀ index, ∃ comments after,
    skip source.toList tokens index = some (comments, after) ∧
      ∀ pending, (⟨tokens.drop index, pending⟩ : Cursor).skip = ⟨tokens.drop after, pending ++ comments⟩
  types : ∀ tokens, Token.ofSource id source = .ok tokens → ∀ finish stops index pending,
    typedName source.toList finish stops ⟨tokens.drop index, pending⟩ =
      some (Cursor.typedName finish stops ⟨tokens.drop index, pending⟩)
  includes : ∀ tokens, Token.ofSource id source = .ok tokens → ∀ head index,
    (includeAt source.toList tokens head index).map (step tokens head) =
      some (Item.includeStep (.ofFile id source) head (tokens.drop index))
  places : ∀ tokens, Token.ofSource id source = .ok tokens → ∀ c, Item.Visits (.ofFile id source) tokens c →
    ∃ index ≤ tokens.length, c.tokens = tokens.drop index

theorem Strict.inBounds {source : String} (hsize : Text.byteLength source < UInt32.size) (id : Nat) :
    InBounds id source where
  lexing := lex_eq hsize
  texts _ hlexed _ hmem := text_eq hlexed hmem
  gaps _ hlexed _ _ hindex := leading_eq hlexed hindex
  comments _ hlexed index := skip_eq hlexed index
  types _ hlexed finish stops index _ :=
    typedName_eq finish stops fun _ hmem => text_eq hlexed (List.mem_of_mem_drop hmem)
  includes _ hlexed head index := includeAt_eq hlexed hsize head index
  places tokens _ c hvisits := by
    obtain ⟨before, happend⟩ := hvisits.suffix
    refine ⟨before.length, ?_, ?_⟩
    · rw [← happend, List.length_append]
      exact Nat.le_add_right _ _
    · rw [← happend, List.drop_left]

namespace Compilation

variable {sources : Sources} {s : Compilation}

/-- The files that were read are sources. -/
def Loaded (sources : Sources) (s : Compilation) : Prop :=
  ∀ file ∈ s.library.files, ∃ path, (path, file.text) ∈ sources.texts

theorem Loaded.of_same {s' : Compilation} (h : Loaded sources s) (hsame : SameFiles s s') : Loaded sources s' := by
  unfold Loaded
  rw [hsame.library]
  exact h

theorem Loaded.add {path : Path} {text : String} (h : Loaded sources s) (hmem : (path, text) ∈ sources.texts) :
    Loaded sources { s with library := s.library.add ⟨path.text, text⟩ } := by
  intro file hfile
  rcases List.mem_append.1 hfile with hfile | hfile
  · exact h file hfile
  · obtain rfl := List.mem_singleton.1 hfile
    exact ⟨path, hmem⟩

theorem loaded_compileText {includeFile : Path → FileRange → CompileM Unit} {path target : Path} {text : String}
    (hs : Loaded sources s) (hmem : (path, text) ∈ sources.texts)
    (hinclude : ∀ written range s, Loaded sources s → Ends (includeFile (includedPath path written) range) s
      (fun _ s' => Follows (Loaded sources) path [written] s s') fun _ s' => Loaded sources s') :
    Ends (compileText includeFile path target text) s
      (fun _ s' => Loaded sources s' ∧ AddsFiles s s' ∧ path ∈ s'.compiled) fun _ s' => Loaded sources s' := by
  have hadd := hs.add hmem
  refine ends_compileText (fun _ _ => hadd) ?_
  rintro tokens _ - ⟨log, rfl⟩
  have hitems : Ends (declareAll ⟨path, includeFile⟩ target (Item.ofTokens (.ofFile s.library.nextId text) tokens))
      ({ s with library := s.library.add ⟨path.text, text⟩, log }.enter path)
      (fun _ s' => Follows (Loaded sources) path _ _ s') fun _ s' => Loaded sources s' :=
    ends_declareAll (fun _ _ h hsame => h.of_same hsame) (fun _ _ h _ => h) (Item.faultsIn_isLocal _ _)
      (fun written _ range s' h => hinclude written range s' h) hadd
  refine hitems.mono ?_ fun _ _ h => h
  rintro body s₂ ⟨hloaded, hadds, -⟩ _ ⟨log', rfl⟩
  refine ⟨hloaded, ⟨(List.prefix_append ..).trans hadds.library, ?_⟩, List.mem_cons_self⟩
  exact hadds.compiled.trans (List.suffix_cons ..)

/-- Whatever a compilation reads is a source, however it ends. -/
theorem loaded_compileFrom {stack : List Path} {origin : Option FileRange} {path : Path} (hs : Loaded sources s) :
    Ends (compileFrom sources stack origin path) s
      (fun _ s' => Loaded sources s' ∧ AddsFiles s s' ∧ path ∈ s'.compiled) fun _ s' => Loaded sources s' := by
  induction hn : sources.unread stack using Nat.strongRecOn generalizing stack origin path s with
  | _ n ih =>
    subst hn
    rw [compileFrom]
    refine ends_compileOnce ?_ (fun _ => hs) (fun _ _ => hs) fun text _ _ htext => ?_
    · rintro hmem _ ⟨log, rfl⟩
      exact ⟨hs, ⟨List.prefix_rfl, List.suffix_rfl⟩, hmem⟩
    · refine loaded_compileText hs (mem_of_lookup htext) fun written range s₁ h₁ => ?_
      refine ends_get_bind ?_
      split
      · rename_i h
        have hfile : Ends (compileFrom sources s₁.compiling (some range) (included path written)) s₁ _ _ :=
          ih _ h.2 h₁ rfl
        exact hfile.discard.mono (fun _ s' h' => ⟨h'.1, h'.2.1, by simpa [included] using h'.2.2⟩) fun _ _ h => h
      · exact ends_throw h₁

theorem loaded_compileFile (sources : Sources) (path : Path) :
    Loaded sources (outcome (compileFile sources path) .empty).2 := by
  have hends : Ends (compileFile sources path) .empty (fun _ s' => Loaded sources s') fun _ s' => Loaded sources s' := by
    have hcompile {s : Compilation} (hs : Loaded sources s) : Ends (compile sources none path.normalize) s
        (fun _ s' => Loaded sources s') fun _ s' => Loaded sources s' := by
      refine ends_get_bind ?_
      exact (loaded_compileFrom hs).mono (fun _ _ h => h.1) fun _ _ h => h
    unfold compileFile
    split
    · refine (ends_note (Q := fun _ s₁ => Quiet .empty s₁) fun _ => id).bind ?_
      rintro _ _ ⟨log, rfl⟩
      exact hcompile fun _ hfile => by cases hfile
    · exact hcompile fun _ hfile => by cases hfile
  exact hends.after (fun _ _ h => h) fun _ _ h => h

/-- Whatever is compiled, no slice, index, difference or number of 32 bits goes out of bounds, as long as no text has
4 GiB or more: neither while a file is read, nor where a range of an error is looked up, nor where one output refers to
another. -/
theorem compileFile_stays_in_bounds (sources : Sources) (path : Path)
    (small : ∀ entry ∈ sources.texts, Text.byteLength entry.2 ≤ UInt32.size - 1) :
    let run := outcome (compileFile sources path) .empty
    (∀ id, 0 < id → id ≤ run.2.library.files.length →
      ∃ file, Strict.get run.2.library id = some (.ok file) ∧ Strict.InBounds id file.text) ∧
    (∀ e, run.1 = .error e → ∀ r ∈ e.ranges, ∃ file, Strict.get run.2.library r.file = some (.ok file)) ∧
    ∀ target declaredIn,
      Strict.importSpecifier target declaredIn = some (Placement.importSpecifier target declaredIn) := by
  intro run
  refine ⟨fun id hpos hle => ?_, fun e he r hr => ?_, Strict.importSpecifier_eq⟩
  · have hlt : id - 1 < run.2.library.files.length := by omega
    have hget : run.2.library.get id = .ok run.2.library.files[id - 1] :=
      Library.get_eq_ok.2 ⟨hpos, List.getElem?_eq_getElem hlt⟩
    obtain ⟨origin, hmem⟩ := loaded_compileFile sources path _ (List.getElem_mem hlt)
    have hsmall := small _ hmem
    refine ⟨_, by rw [Strict.get_eq hpos, hget], Strict.inBounds ?_ id⟩
    exact Nat.lt_of_le_of_lt hsmall (by decide)
  · have hplaced := (points_compileFile sources path .empty recorded_empty).failure e run.2 (Prod.ext he rfl)
    obtain @⟨file, hloaded, -, -, -, -⟩ := hplaced.holds r hr
    exact ⟨file, by rw [Strict.get_eq (Library.get_eq_ok.1 hloaded).1, hloaded]⟩

/-- One file has a character of two bytes in it and declares a name of the other one again. -/
theorem compileFile_stays_in_bounds_declared_twice :
    (∀ entry ∈ declaredTwice.texts, Text.byteLength entry.2 ≤ UInt32.size - 1) ∧
    (outcome (compileFile declaredTwice ⟨"m.idl"⟩) .empty).2.library.files.length = 2 ∧
    ∃ file, Strict.get (outcome (compileFile declaredTwice ⟨"m.idl"⟩) .empty).2.library 2 = some (.ok file) ∧
      Strict.InBounds 2 file.text := by
  have small : ∀ entry ∈ declaredTwice.texts, Text.byteLength entry.2 ≤ UInt32.size - 1 := by decide +kernel
  have hfiles : (outcome (compileFile declaredTwice ⟨"m.idl"⟩) .empty).2.library.files.length = 2 := by decide +kernel
  obtain ⟨hread, -⟩ := compileFile_stays_in_bounds declaredTwice ⟨"m.idl"⟩ small
  exact ⟨small, hfiles, hread 2 (by decide) (Nat.le_of_eq hfiles.symm)⟩

end Compilation

end Idl
