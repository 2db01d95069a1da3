import Idl.Proofs.Comments
import Idl.Source.Library

/-!
# Tokens and the text that they stand in

Tokens are cut from a text one after the other, so each of them stands in the text where its range
says, behind the blanks that it has in front of it.

* `Text.slice? start stop cs`: the text between two byte offsets, if both are ends of characters.
* `Token.exists_of_scan_append`: the tokens after some others are those of the rest of the text.
* `Token.slices_of_scan`: the text and the blanks of a token are slices of the source.
* `Token.scan_move`: the tokens of a text further on in a file are those of the text on its own, moved.
-/

namespace Idl

/-! ## Slices -/

namespace Text

/-- A text cut at a byte offset, unless that is inside of a character or behind the end. -/
def cut? : Nat → List Char → Option (List Char × List Char)
  | 0, cs => some ([], cs)
  | _ + 1, [] => none
  | n + 1, c :: cs =>
    if c.utf8Size ≤ n + 1 then (cut? (n + 1 - c.utf8Size) cs).map fun (before, after) => (c :: before, after) else none

/-- The text between two byte offsets, if both are ends of characters and in order. -/
def slice? (start stop : Nat) (cs : List Char) : Option (List Char) :=
  if start ≤ stop then (cut? start cs).bind fun (_, rest) => (cut? (stop - start) rest).map (·.1) else none

theorem cut?_eq_some {n : Nat} {cs before after : List Char} :
    cut? n cs = some (before, after) ↔ before ++ after = cs ∧ size before = n := by
  fun_induction cut? n cs generalizing before with
  | case1 cs =>
    constructor
    · intro h
      cases h
      exact ⟨rfl, rfl⟩
    · rintro ⟨rfl, hsize⟩
      cases before with
      | nil => rfl
      | cons c before =>
        have := c.utf8Size_pos
        simp only [size_cons] at hsize
        omega
  | case2 n =>
    constructor
    · intro h
      cases h
    · rintro ⟨hnil, hsize⟩
      obtain ⟨rfl, -⟩ := List.append_eq_nil_iff.1 hnil
      cases hsize
  | case3 n c cs hle ih =>
    constructor
    · intro h
      obtain ⟨⟨before', after'⟩, hcut, heq⟩ := Option.map_eq_some_iff.1 h
      cases heq
      obtain ⟨rfl, hsize⟩ := ih.1 hcut
      refine ⟨rfl, ?_⟩
      simp only [size_cons]
      omega
    · rintro ⟨happend, hsize⟩
      cases before with
      | nil => cases hsize
      | cons d before =>
        cases happend
        simp only [size_cons] at hsize
        rw [ih.2 ⟨rfl, by omega⟩]
        rfl
  | case4 n c cs hlt =>
    constructor
    · intro h
      cases h
    · rintro ⟨happend, hsize⟩
      cases before with
      | nil => cases hsize
      | cons d before =>
        cases happend
        simp only [size_cons] at hsize
        omega

/-- A slice is what stands between a text of the size of the one offset and the other offset. -/
theorem slice?_eq_some {start stop : Nat} {cs text : List Char} :
    slice? start stop cs = some text ↔
      ∃ before after, before ++ text ++ after = cs ∧ size before = start ∧ start + size text = stop := by
  unfold slice?
  constructor
  · intro h
    split at h
    · obtain ⟨⟨before, rest⟩, hcut, h⟩ := Option.bind_eq_some_iff.1 h
      obtain ⟨⟨text', after⟩, hcut', rfl⟩ := Option.map_eq_some_iff.1 h
      obtain ⟨rfl, hbefore⟩ := cut?_eq_some.1 hcut
      obtain ⟨rfl, htext⟩ := cut?_eq_some.1 hcut'
      dsimp only at htext ⊢
      exact ⟨before, after, by simp, hbefore, by omega⟩
    · cases h
  · rintro ⟨before, after, rfl, rfl, rfl⟩
    have hcut : cut? (size before) (before ++ text ++ after) = some (before, text ++ after) :=
      cut?_eq_some.2 ⟨by simp, rfl⟩
    have hcut' : cut? (size before + size text - size before) (text ++ after) = some (text, after) :=
      cut?_eq_some.2 ⟨rfl, by omega⟩
    rw [if_pos (by omega), hcut, Option.bind_some]
    dsimp only
    rw [hcut', Option.map_some]

end Text

/-! ## Positions -/

namespace Position

theorem advance_append (p : Position) (cs ds : List Char) : p.advance (cs ++ ds) = (p.advance cs).advance ds :=
  List.foldl_append

/-- The place of `q` in a text that starts at `p`. -/
def after (p q : Position) : Position :=
  if q.line = 1 then ⟨p.line, p.column + (q.column - 1)⟩ else ⟨p.line + (q.line - 1), q.column⟩

/-- Lines and columns are counted from one. -/
structure Counted (p : Position) : Prop where
  line : 1 ≤ p.line
  column : 1 ≤ p.column

theorem counted_first : first.Counted := ⟨Nat.le_refl 1, Nat.le_refl 1⟩

@[simp]
theorem after_first (p : Position) : p.after first = p := rfl

theorem Counted.next {q : Position} (h : q.Counted) (c : Char) : (q.next c).Counted := by
  obtain ⟨hline, hcolumn⟩ := h
  unfold Position.next
  split
  · exact ⟨Nat.le_add_left 1 q.line, Nat.le_refl 1⟩
  · split
    · exact ⟨hline, hcolumn⟩
    · exact ⟨hline, Nat.le_add_left 1 q.column⟩

theorem Counted.next_after {q : Position} (h : q.Counted) (p : Position) (c : Char) :
    (p.after q).next c = p.after (q.next c) := by
  obtain ⟨hline, hcolumn⟩ := h
  obtain ⟨line, column⟩ := q
  simp only at hline hcolumn
  unfold Position.next
  by_cases hfeed : c = '\n'
  · -- the line after the first one starts in the first column
    by_cases hone : line = 1
    · simp [hfeed, after, hone]
    · have hsucc : line + 1 ≠ 1 := by omega
      simp only [hfeed, after, hone, hsucc, if_true, if_false, mk.injEq, and_true]
      omega
  · by_cases hreturn : c = '\r'
    · simp [hreturn]
    · by_cases hone : line = 1
      · simp only [hfeed, hreturn, after, hone, if_true, if_false, mk.injEq, true_and]
        omega
      · simp [hfeed, hreturn, after, hone]

/-- Going on from a place in a text further on is going on in the text, further on. -/
theorem Counted.advance_after {q : Position} (h : q.Counted) (p : Position) (cs : List Char) :
    (q.advance cs).Counted ∧ (p.after q).advance cs = p.after (q.advance cs) := by
  induction cs generalizing q with
  | nil => exact ⟨h, rfl⟩
  | cons c cs ih =>
    obtain ⟨hcounted, hadvance⟩ := ih (h.next c)
    refine ⟨hcounted, ?_⟩
    calc (p.after q).advance (c :: cs)
        = ((p.after q).next c).advance cs := rfl
      _ = (p.after (q.next c)).advance cs := by rw [h.next_after]
      _ = p.after (q.advance (c :: cs)) := hadvance

end Position

namespace Token

/-! ## Scanning -/

section Scan

variable {file offset : Nat} {position : Position} {cs : List Char} {token : Token} {before tokens : List Token}

/-- The token that `text` is behind the blanks `gap`. -/
def cutAt (file offset : Nat) (position : Position) (kind : Kind) (gap text : List Char) : Token :=
  ⟨kind, String.ofList gap, String.ofList text,
    ⟨file, offset + Text.size gap, offset + Text.size gap + Text.size text⟩, position.advance gap⟩

/-- A text is scanned by its first token. -/
theorem scan_eq (file offset : Nat) (position : Position) (cs : List Char) :
    scan file offset position cs = match first (cs.dropWhile isGap) with
      | .nothing => .ok []
      | .unclosed => .error (.unclosedComment ⟨file, offset + Text.size (cs.takeWhile isGap),
          offset + Text.size (cs.takeWhile isGap) + 2⟩)
      | .token kind text rest => do
        let tokens ← scan file (offset + Text.size (cs.takeWhile isGap ++ text))
          (position.advance (cs.takeWhile isGap ++ text)) rest
        return cutAt file offset position kind (cs.takeWhile isGap) text :: tokens := by
  rw [scan]
  split
  · rename_i hfirst
    rw [hfirst]
  · rename_i hfirst
    rw [hfirst]
  · rename_i kind text rest hfirst
    simp only [hfirst, Text.size_append, ← Nat.add_assoc, Position.advance_append]
    rfl

theorem eq_nil_of_first (h : first cs = .nothing) : cs = [] := by
  unfold first at h
  split at h
  · rfl
  · cases h
  · split at h <;> cases h
  · split at h <;> cases h

/-- What is never closed is a block comment. -/
theorem exists_of_first_unclosed (h : first cs = .unclosed) : ∃ after, '/' :: '*' :: after = cs := by
  unfold first at h
  split at h
  · cases h
  · cases h
  · exact ⟨_, rfl⟩
  · split at h <;> cases h

theorem isGap_of_mem_takeWhile {c : Char} (h : c ∈ cs.takeWhile isGap) : isGap c = true :=
  List.all_eq_true.1 List.all_takeWhile c h

/-- If there are no tokens, there are blanks only. -/
theorem isGap_of_scan_nil (h : scan file offset position cs = .ok []) : ∀ c ∈ cs, isGap c = true := by
  rw [scan_eq] at h
  split at h
  · rename_i hfirst
    have hsplit := List.takeWhile_append_dropWhile (p := isGap) (l := cs)
    rw [eq_nil_of_first hfirst, List.append_nil] at hsplit
    intro c hc
    rw [← hsplit] at hc
    exact isGap_of_mem_takeWhile hc
  · cases h
  · obtain ⟨tokens, -, heq⟩ := Except.bind_eq_ok.1 h
    cases heq

/-- If there are tokens, the first one stands behind blanks, and the others are those of the rest. -/
theorem exists_of_scan_cons (h : scan file offset position cs = .ok (token :: tokens)) :
    ∃ kind gap text rest, gap ++ text ++ rest = cs ∧ (∀ c ∈ gap, isGap c = true) ∧
      first (text ++ rest) = .token kind text rest ∧ token = cutAt file offset position kind gap text ∧
      scan file (offset + Text.size (gap ++ text)) (position.advance (gap ++ text)) rest = .ok tokens := by
  rw [scan_eq] at h
  split at h
  · cases h
  · cases h
  · rename_i kind text rest hfirst
    obtain ⟨tokens', hscan, heq⟩ := Except.bind_eq_ok.1 h
    cases heq
    have hrest := append_of_first hfirst
    refine ⟨kind, cs.takeWhile isGap, text, rest, ?_, fun c hc => isGap_of_mem_takeWhile hc, ?_, rfl, hscan⟩
    · rw [List.append_assoc, hrest, List.takeWhile_append_dropWhile]
    · rw [hrest, hfirst]

/-- The tokens after some others are those of the rest of the text. -/
theorem exists_of_scan_append (h : scan file offset position cs = .ok (before ++ tokens)) :
    ∃ passed rest, passed ++ rest = cs ∧
      (before.getLast?.map (·.range.stop)).getD offset = offset + Text.size passed ∧
      scan file (offset + Text.size passed) (position.advance passed) rest = .ok tokens := by
  induction before generalizing offset position cs with
  | nil => exact ⟨[], cs, rfl, rfl, h⟩
  | cons token before ih =>
    obtain ⟨kind, gap, text, rest, rfl, -, -, rfl, hscan⟩ := exists_of_scan_cons h
    obtain ⟨passed, rest, rfl, hlast, htokens⟩ := ih hscan
    refine ⟨gap ++ text ++ passed, rest, by simp, ?_, ?_⟩
    · cases before with
      | nil =>
        simp only [List.getLast?_nil, Option.map_none, Option.getD_none, Text.size_append] at hlast
        simp only [List.getLast?_singleton, Option.map_some, Option.getD_some, cutAt, Text.size_append]
        omega
      | cons token' before =>
        simp only [List.getLast?_cons_cons, Text.size_append] at hlast ⊢
        cases hstop : (token' :: before).getLast? with
        | none => simp at hstop
        | some last =>
          simp only [hstop, Option.map_some, Option.getD_some] at hlast ⊢
          omega
    · rwa [Text.size_append, ← Nat.add_assoc, Position.advance_append]

/-- The tokens after a token are those of the text that follows it. -/
theorem exists_of_scan_after (h : scan file 0 position cs = .ok (before ++ token :: tokens)) :
    ∃ passed rest, passed ++ rest = cs ∧ token.range.stop = Text.size passed ∧
      scan file (Text.size passed) (position.advance passed) rest = .ok tokens := by
  have hsplit : before ++ token :: tokens = before ++ [token] ++ tokens := by simp
  rw [hsplit] at h
  obtain ⟨passed, rest, hpassed, hstop, hscan⟩ := exists_of_scan_append h
  simp only [List.getLast?_concat, Option.map_some, Option.getD_some, Nat.zero_add] at hstop hscan
  exact ⟨passed, rest, hpassed, hstop, hscan⟩

/-- No token starts in front of the text. -/
theorem le_start_of_scan (h : scan file offset position cs = .ok tokens) (mem : token ∈ tokens) :
    offset ≤ token.range.start := by
  induction tokens generalizing offset position cs with
  | nil => cases mem
  | cons head tokens ih =>
    obtain ⟨kind, gap, text, rest, rfl, -, -, rfl, hscan⟩ := exists_of_scan_cons h
    cases mem with
    | head => exact Nat.le_add_right offset _
    | tail _ mem =>
      have := ih hscan mem
      omega

/-- The text of a token, and the blanks between it and the token before it, are slices of the source. -/
theorem slices_of_scan (h : scan file 0 position cs = .ok (before ++ token :: tokens)) :
    token.range.file = file ∧ Text.slice? token.range.start token.range.stop cs = some token.text.toList ∧
      Text.slice? ((before.getLast?.map (·.range.stop)).getD 0) token.range.start cs = some token.leading.toList := by
  obtain ⟨passed, rest, rfl, hlast, hscan⟩ := exists_of_scan_append h
  obtain ⟨kind, gap, text, rest, rfl, -, -, rfl, -⟩ := exists_of_scan_cons hscan
  refine ⟨rfl, Text.slice?_eq_some.2 ⟨passed ++ gap, rest, ?_, ?_, ?_⟩,
    Text.slice?_eq_some.2 ⟨passed, text ++ rest, ?_, ?_, ?_⟩⟩
  · simp [cutAt]
  · simp [cutAt]
  · simp [cutAt]
  · simp [cutAt]
  · rw [hlast]
    omega
  · rw [hlast]
    simp [cutAt]

/-- Scanning fails at a block comment only, and says where its first two characters are. -/
theorem exists_of_scan_error {e : Error} (h : scan file offset position cs = .error e) :
    ∃ passed after, passed ++ '/' :: '*' :: after = cs ∧
      e = .unclosedComment ⟨file, offset + Text.size passed, offset + Text.size passed + 2⟩ := by
  fun_induction scan file offset position cs with
  | case1 offset position cs => cases h
  | case2 offset position cs gap =>
    rename_i hfirst
    cases h
    obtain ⟨after, hafter⟩ := exists_of_first_unclosed hfirst
    exact ⟨gap, after, by rw [hafter]; exact List.takeWhile_append_dropWhile, rfl⟩
  | case3 offset position cs gap start position' kind text rest hfirst stop token ih =>
    cases hscan : scan file stop (position'.advance text) rest with
    | ok tokens =>
      rw [hscan] at h
      cases h
    | error e' =>
      rw [hscan] at h
      cases h
      obtain ⟨passed, after, hrest, he⟩ := ih hscan
      refine ⟨gap ++ text ++ passed, after, ?_, ?_⟩
      · rw [List.append_assoc, hrest, List.append_assoc, append_of_first hfirst]
        exact List.takeWhile_append_dropWhile
      · rw [he]
        simp only [stop, start, Text.size_append, Nat.add_assoc]

end Scan

/-! ## Texts further on in a file -/

/-- A token of a text as it is when the text starts at the given offset and position. -/
def move (offset : Nat) (position : Position) (token : Token) : Token :=
  { token with
    range := ⟨token.range.file, offset + token.range.start, offset + token.range.stop⟩
    position := position.after token.position }

theorem toOption_cons (token : Token) (x : Except Error (List Token)) :
    (do let tokens ← x; return token :: tokens).toOption = x.toOption.map (token :: ·) := by
  cases x <;> rfl

/-- A text has the same tokens wherever it starts, moved there. -/
theorem scan_move (file offset : Nat) {position : Position} (hposition : position.Counted) (k : Nat) (p : Position)
    (cs : List Char) :
    (scan file (k + offset) (p.after position) cs).toOption =
      (scan file offset position cs).toOption.map (List.map (move k p)) := by
  fun_induction scan file offset position cs with
  | case1 offset position cs =>
    rename_i hfirst
    rw [scan_eq, hfirst]
    rfl
  | case2 offset position cs =>
    rename_i hfirst
    rw [scan_eq, hfirst]
    rfl
  | case3 offset position cs gap start position' kind text rest hfirst stop token ih =>
    obtain ⟨hgap, hafter⟩ := hposition.advance_after p gap
    obtain ⟨htext, hafter'⟩ := hgap.advance_after p text
    have hcut : cutAt file (k + offset) (p.after position) kind gap text = token.move k p := by
      simp only [cutAt, move, token, start, stop, hafter, Nat.add_assoc, position']
    have ih := ih htext
    rw [← hafter', ← hafter] at ih
    have hstop : k + stop = k + offset + Text.size (gap ++ text) := by
      simp only [stop, start, Text.size_append]
      omega
    rw [hstop, ← Position.advance_append] at ih
    rw [scan_eq, hfirst]
    dsimp only
    rw [hcut, toOption_cons, toOption_cons, ih, Option.map_map, Option.map_map]
    rfl

end Token

end Idl
