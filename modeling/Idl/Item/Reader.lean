import Idl.Item.Members
import Idl.Token.Lexer

/-!
# Reading items

The tokens of a file are read as a list of items, ending in a fault if the file is not well formed.
Modules and guarded blocks that are still open are kept on a stack, each with the items in front of
it.
-/

namespace Idl

/-- A text and the empty range at its end. -/
structure SourceText where
  chars : List Char
  finish : FileRange
deriving DecidableEq, Repr

/-- The text of the file with a number. -/
def SourceText.ofFile (file : Nat) (text : String) : SourceText :=
  ⟨text.toList, .point file (Text.size text.toList)⟩

namespace Item

/-- The start of a body: its first token and its name. -/
inductive Opener where
  | guarded (head : Token) (name : Name)
  | module (head : Token) (name : Name)
deriving DecidableEq, Repr

/-- The token that ends a body. -/
def Opener.closer : Opener → Token.Kind
  | guarded _ _ => .directive .endif
  | module _ _ => .mark .closeBrace

/-- The token that ends a body, for a message. -/
def Opener.closerText : Opener → String
  | guarded _ _ => "`#endif`"
  | module _ _ => "`\x7d`"

/-- An open body, and the items before it in the body around it. -/
structure Frame where
  opener : Opener
  before : List Item
deriving Repr

/-- What follows the first token of an item. -/
inductive Step where
  /-- Items that are complete. -/
  | items (read : List Item) (rest : Cursor)
  /-- The start of a body. -/
  | enter (opener : Opener) (rest : Cursor)
  /-- An item with a fault in it. -/
  | stop (item : Item)
deriving Repr

/-- An item that is complete if there is something left to read on. -/
def Step.ofItem : Item × Option Cursor → Step
  | (item, some rest) => .items [item] rest
  | (item, none) => .stop item

/-- A step that needs a reading to succeed. -/
def Step.after {α : Type} (head : Token) (r : Except Error (α × Cursor)) (f : α → Cursor → Step) : Step :=
  match r with
  | .ok (a, c) => f a c
  | .error e => .stop (.fault (some head) e)

/-! ## Includes -/

/-- An include directive without its first token. The path is the raw text between two quotes on one
line, so it may hold what would start a comment elsewhere; the tokens that start in it are passed
over. -/
def includeStep (source : SourceText) (head : Token) (tokens : List Token) : Step :=
  let malformed (range : FileRange) := Step.stop (.fault (some head) (.malformedInclude (head.range.extend range)))
  match tokens with
  | [] => malformed head.range
  | quote :: rest =>
    if quote.kind ≠ .mark .doubleQuote then malformed quote.range
    else
      let line := (Text.dropBytes quote.range.stop source.chars).takeWhile (!Token.isLineEnd ·)
      if '"' ∉ line then malformed quote.range
      else
        let written := line.takeWhile (· ≠ '"')
        let close := quote.range.stop + Text.size written + 1
        let lineEnd := quote.range.stop + Text.size line
        match (rest.takeWhile (·.range.start < close)).find? (lineEnd < ·.range.stop) with
        | some token => malformed token.range
        | none =>
          let range : FileRange := ⟨head.range.file, head.range.start, close⟩
          .items [.include head (String.ofList written) range] ⟨rest.dropWhile (·.range.start < close), []⟩

/-! ## Items -/

/-- A typedef without its first token. -/
def typedefStep (finish : FileRange) (head : Token) (c : Cursor) : Step :=
  .after head (c.typedName finish [.semicolon]) fun typed c =>
    match c.expect finish (.mark .semicolon) "`;`" with
    | .error e => .stop (.fault (some head) e)
    | .ok c => .items [.typedef head typed (c.comments.map Comment.detach)] ⟨c.tokens, []⟩

/-- An item without its first token. -/
def step (source : SourceText) (head : Token) (c : Cursor) : Step :=
  let finish := source.finish
  match head.kind with
  | .directive .define =>
    .after head (c.name finish) fun name c => .items (c.comments.map .comment ++ [.define head name]) ⟨c.tokens, []⟩
  | .directive .ifndef => .after head (c.name finish) fun name c => .enter (.guarded head name) c
  | .directive .include => includeStep source head c.tokens
  | .keyword .module =>
    .after head (c.name finish) fun name c =>
      match c.expect finish (.mark .openBrace) "`\x7b`" with
      | .error e => .stop (.fault (some head) e)
      | .ok c => .enter (.module head name) c
  | .keyword .typedef => typedefStep finish head c
  | .keyword .struct =>
    .after head (c.name finish) fun name c =>
      .ofItem ((c.block finish (·.fields finish) "`\x7d`").map (.record head .struct name) id)
  | .keyword .exception =>
    .after head (c.name finish) fun name c =>
      .ofItem ((c.block finish (·.fields finish) "`\x7d`").map (.record head .exception name) id)
  | .keyword .enum =>
    .after head (c.name finish) fun name c =>
      .ofItem ((c.block finish (·.enumMembers finish) "`,` or `\x7d`").map (.enum head name) id)
  | .keyword .interface =>
    .after head (c.name finish) fun name c =>
      .ofItem ((c.block finish (·.methods finish) "`\x7d`").map (.interface head name) id)
  | _ => .stop (.fault (some head) (head.unexpected "a declaration"))

/-- The end of a body, after the token that closes it. -/
def Opener.close (opener : Opener) (finish : FileRange) (body : List Item) (c : Cursor) : Item × Option Cursor :=
  match opener with
  | guarded head name => (.guarded head name body, some c)
  | module head name =>
    match c.expect finish (.mark .semicolon) "`;`" with
    | .error e => (.module head name body [] (some e), none)
    | .ok c => (.module head name body (c.comments.map Comment.detach) none, some ⟨c.tokens, []⟩)

/-- The body around an open body that ends in a fault. -/
def Frame.abandon (body : List Item) (frame : Frame) : List Item :=
  frame.before ++ [match frame.opener with
    | .guarded head name => .guarded head name body
    | .module head name => .module head name body [] none]

/-! ## Reading goes forward -/

/-- The cursor after a step, if reading goes on. -/
def Step.rest? : Step → Option Cursor
  | items _ rest | enter _ rest => some rest
  | stop _ => none

theorem size_le_of_after {α : Type} {head : Token} {r : Except Error (α × Cursor)} {f : α → Cursor → Step}
    {d : Cursor} {n : Nat} (hr : ∀ a c, r = .ok (a, c) → c.size ≤ n)
    (hf : ∀ a c, (f a c).rest? = some d → d.size ≤ c.size) (h : (Step.after head r f).rest? = some d) :
    d.size ≤ n := by
  rcases r with e | ⟨a, c⟩
  · cases h
  · exact Nat.le_trans (hf a c h) (hr a c rfl)

theorem size_le_of_block_map {α : Type} {finish : FileRange} {members : Cursor → Cursor.Reading (Member α)}
    {closer : String} {f : Block α → Item} {c d : Cursor} (hmembers : ∀ {c d}, (members c).2 = .ok d → d.size ≤ c.size)
    (h : (Step.ofItem ((c.block finish members closer).map f id)).rest? = some d) : d.size ≤ c.size := by
  rcases hb : c.block finish members closer with ⟨b, _ | rest⟩
  · rw [hb] at h
    cases h
  · rw [hb] at h
    cases h
    exact Cursor.size_le_of_block hmembers (by rw [hb])

theorem size_le_of_includeStep {source : SourceText} {head : Token} {tokens : List Token} {d : Cursor}
    (h : (includeStep source head tokens).rest? = some d) : d.size ≤ tokens.length := by
  unfold includeStep at h
  split at h
  · cases h
  · rename_i quote rest
    simp only at h
    split at h
    · cases h
    · split at h
      · cases h
      · split at h
        · cases h
        · cases h
          have := (List.dropWhile_sublist (l := rest) (fun token => decide (token.range.start <
            quote.range.stop + Text.size ((List.takeWhile (fun x => !Token.isLineEnd x)
              (Text.dropBytes quote.range.stop source.chars)).takeWhile (· ≠ '"')) + 1))).length_le
          simp only [Cursor.size, List.length_cons]
          omega

theorem size_le_of_typedefStep {finish : FileRange} {head : Token} {c d : Cursor}
    (h : (typedefStep finish head c).rest? = some d) : d.size ≤ c.size := by
  refine size_le_of_after (fun _ _ => Cursor.size_le_of_typedName) (fun typed c' h' => ?_) h
  rcases he : c'.expect finish (.mark .semicolon) "`;`" with e | c''
  · simp only [he] at h'
    cases h'
  · simp only [he] at h'
    cases h'
    have := Cursor.size_lt_of_expect he
    exact Nat.le_of_lt this

theorem size_le_of_step {source : SourceText} {head : Token} {c d : Cursor}
    (h : (step source head c).rest? = some d) : d.size ≤ c.size := by
  have hname : ∀ a c', c.name source.finish = .ok (a, c') → c'.size ≤ c.size :=
    fun _ _ h => Nat.le_of_lt (Cursor.size_lt_of_name h)
  unfold step at h
  simp only at h
  split at h
  · refine size_le_of_after hname (fun name c' h' => ?_) h
    cases h'
    exact Nat.le_refl _
  · refine size_le_of_after hname (fun name c' h' => ?_) h
    cases h'
    exact Nat.le_refl _
  · exact size_le_of_includeStep h
  · refine size_le_of_after hname (fun name c' h' => ?_) h
    rcases he : c'.expect source.finish (.mark .openBrace) "`\x7b`" with e | c''
    · simp only [he] at h'
      cases h'
    · simp only [he] at h'
      cases h'
      exact Nat.le_of_lt (Cursor.size_lt_of_expect he)
  · exact size_le_of_typedefStep h
  · exact size_le_of_after hname (fun _ _ => size_le_of_block_map Cursor.size_le_of_fields) h
  · exact size_le_of_after hname (fun _ _ => size_le_of_block_map Cursor.size_le_of_fields) h
  · exact size_le_of_after hname (fun _ _ => size_le_of_block_map Cursor.size_le_of_enumMembers) h
  · exact size_le_of_after hname (fun _ _ => size_le_of_block_map Cursor.size_le_of_methods) h
  · cases h

theorem size_le_of_close {opener : Opener} {finish : FileRange} {body : List Item} {c d : Cursor}
    (h : (opener.close finish body c).2 = some d) : d.size ≤ c.size := by
  cases opener with
  | guarded head name =>
    cases h
    exact Nat.le_refl _
  | module head name =>
    rcases he : c.expect finish (.mark .semicolon) "`;`" with e | c'
    · simp only [Opener.close, he] at h
      cases h
    · simp only [Opener.close, he] at h
      cases h
      have := Cursor.size_lt_of_expect he
      exact Nat.le_of_lt this

/-! ## Files -/

/-- The body that a token ends, and the bodies around it. -/
def closing? (head : Token) : List Frame → Option (Frame × List Frame)
  | [] => none
  | frame :: outer => if head.kind = frame.opener.closer then some (frame, outer) else none

/-- The items of a file whose tokens are used up. -/
def ended (finish : FileRange) (frames : List Frame) (items : List Item) : List Item :=
  match frames with
  | [] => items
  | frame :: _ => frames.foldl Frame.abandon (items ++ [.fault none (.unexpectedEnd finish frame.opener.closerText)])

/-- The items of a file, from the open bodies, the items read so far in the innermost one, and the
cursor. -/
def readFrom (source : SourceText) (frames : List Frame) (before : List Item) (c : Cursor) : List Item :=
  let items := before ++ c.skip.comments.map .comment
  match hs : c.skip.tokens with
  | [] => ended source.finish frames items
  | head :: tokens =>
    have hlt : tokens.length < c.tokens.length := Cursor.size_lt_of_skip hs
    match closing? head frames with
    | some (frame, outer) =>
      match h : frame.opener.close source.finish items ⟨tokens, []⟩ with
      | (item, some rest) =>
        have hle : rest.size ≤ tokens.length := size_le_of_close (congrArg (·.2) h)
        have : rest.tokens.length < c.tokens.length := Nat.lt_of_le_of_lt hle hlt
        readFrom source outer (frame.before ++ [item]) rest
      | (item, none) => outer.foldl Frame.abandon (frame.before ++ [item])
    | none =>
      match h : step source head ⟨tokens, []⟩ with
      | .items read rest =>
        have hle : rest.size ≤ tokens.length := size_le_of_step (congrArg Step.rest? h)
        have : rest.tokens.length < c.tokens.length := Nat.lt_of_le_of_lt hle hlt
        readFrom source frames (items ++ read) rest
      | .enter opener rest =>
        have hle : rest.size ≤ tokens.length := size_le_of_step (congrArg Step.rest? h)
        have : rest.tokens.length < c.tokens.length := Nat.lt_of_le_of_lt hle hlt
        readFrom source (⟨opener, items⟩ :: frames) [] rest
      | .stop item => frames.foldl Frame.abandon (items ++ [item])
termination_by c.tokens.length

/-- The items of a file with the given tokens. -/
def ofTokens (source : SourceText) (tokens : List Token) : List Item := readFrom source [] [] ⟨tokens, []⟩

end Item

end Idl
