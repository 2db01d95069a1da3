import Idl.Proofs.Bounds
import Idl.Proofs.Tokenization
import Mathlib.Data.List.Induction

/-!
# Lines and columns

The scanner counts lines and columns as it goes from token to token, over blanks and comments of any
number of lines. The library looks lines up among the offsets at which they start, and counts the
characters of a line up to an offset. Both can be said of the text in front of a place alone: a
place is in the line after its line ends, and in the column after the characters since the last one
of them, where the scanner leaves carriage returns out.

* `Position.advance_first_eq`: what the scanner counts.
* `SourceFile.location_eq`: what the library finds.
* `Token.StandsBehind`: where a token stands, with its offsets.
-/

namespace Idl

namespace Text

/-! ## The last line of a text -/

/-- What stands behind the last line end of a text. -/
def lastLine (cs : List Char) : List Char := (cs.reverse.takeWhile (· ≠ '\n')).reverse

@[simp]
theorem lastLine_nil : lastLine [] = [] := rfl

theorem lastLine_snoc (cs : List Char) (c : Char) :
    lastLine (cs ++ [c]) = if c = '\n' then [] else lastLine cs ++ [c] := by
  unfold lastLine
  rw [List.reverse_append, List.reverse_singleton, List.singleton_append, List.takeWhile_cons]
  by_cases hc : c = '\n' <;> simp [hc]

/-- A text is cut into its lines with their line ends and its last line. -/
theorem exists_lastLine (cs : List Char) : ∃ front, front ++ lastLine cs = cs ∧ '\n' ∉ lastLine cs ∧
    ∀ c ∈ front.getLast?, c = '\n' := by
  induction cs using List.reverseRecOn with
  | nil => exact ⟨[], rfl, by simp, by simp⟩
  | append_singleton cs c ih =>
    rw [lastLine_snoc]
    split
    · rename_i hc
      exact ⟨cs ++ [c], by simp, by simp, by simp [hc]⟩
    · rename_i hc
      obtain ⟨front, happend, hline, hfront⟩ := ih
      refine ⟨front, by rw [← List.append_assoc, happend], ?_, hfront⟩
      simp [hline, Ne.symm hc]

/-- Each carriage return stands in front of a line end. -/
def ReturnsPaired (cs : List Char) : Prop := ∀ i < cs.length, cs[i]? = some '\r' → cs[i + 1]? = some '\n'

instance (cs : List Char) : Decidable (ReturnsPaired cs) :=
  inferInstanceAs (Decidable (∀ i < cs.length, cs[i]? = some '\r' → cs[i + 1]? = some '\n'))

/-- There is no carriage return in a line up to a place that is not a line end. -/
theorem ReturnsPaired.notMem_lastLine {before after : List Char} (h : ReturnsPaired (before ++ after))
    (hafter : after.head? ≠ some '\n') : '\r' ∉ lastLine before := by
  intro hmem
  obtain ⟨front, happend, hline, -⟩ := exists_lastLine before
  obtain ⟨left, right, hsplit⟩ := List.append_of_mem hmem
  rw [hsplit] at hline happend
  have hcut : before ++ after = front ++ left ++ '\r' :: (right ++ after) := by simp [← happend]
  have hnext : (right ++ after).head? = some '\n' := by
    have hpaired := h (front ++ left).length
    rw [hcut, List.getElem?_append_right (Nat.le_refl _), List.getElem?_append_right (Nat.le_add_right _ 1),
      Nat.sub_self, Nat.add_sub_cancel_left] at hpaired
    rw [List.head?_eq_getElem?]
    exact hpaired (by simp) rfl
  cases right with
  | nil => exact hafter hnext
  | cons c right =>
    obtain rfl : c = '\n' := by simpa using hnext
    simp at hline

end Text

open Text

/-! ## What the scanner counts -/

/-- Lines are counted by line ends, columns by the other characters since the last one, without carriage returns. -/
theorem Position.advance_first_eq (cs : List Char) :
    first.advance cs = ⟨1 + cs.count '\n', 1 + (lastLine cs).countP (· ≠ '\r')⟩ := by
  induction cs using List.reverseRecOn with
  | nil => rfl
  | append_singleton cs c ih =>
    rw [advance_append, ih, lastLine_snoc, List.count_append, advance, List.foldl_cons, List.foldl_nil, next]
    by_cases hline : c = '\n'
    · simp [hline, Nat.add_assoc]
    · by_cases hreturn : c = '\r'
      · simp [hreturn]
      · simp [hline, hreturn, Nat.add_assoc]

theorem Position.advance_first_le (cs : List Char) :
    (first.advance cs).line ≤ 1 + cs.length ∧ (first.advance cs).column ≤ 1 + cs.length := by
  obtain ⟨front, happend, -, -⟩ := exists_lastLine cs
  have hlength := congrArg List.length happend
  have hcount := List.countP_le_length (p := fun c => decide (c ≠ '\r')) (l := lastLine cs)
  rw [List.length_append] at hlength
  rw [advance_first_eq]
  exact ⟨Nat.add_le_add_left List.count_le_length 1, by dsimp only; omega⟩

/-! ## What the library finds -/

namespace SourceFile

variable {offset : Nat} {cs : List Char}

theorem lineStartsFrom_append (offset : Nat) (cs ds : List Char) :
    lineStartsFrom offset (cs ++ ds) = lineStartsFrom offset cs ++ lineStartsFrom (offset + size cs) ds := by
  induction cs generalizing offset with
  | nil => rfl
  | cons c cs ih =>
    rw [List.cons_append, lineStartsFrom, lineStartsFrom, ih, size_cons, Nat.add_assoc]
    split <;> rfl

theorem length_lineStartsFrom (offset : Nat) (cs : List Char) : (lineStartsFrom offset cs).length = cs.count '\n' := by
  induction cs generalizing offset with
  | nil => rfl
  | cons c cs ih =>
    rw [lineStartsFrom]
    by_cases hc : c = '\n'
    · simp [hc, ih]
    · simp [hc, ih]

/-- The lines of a text start behind a character of it. -/
theorem bounds_of_mem_lineStartsFrom {start : Nat} (h : start ∈ lineStartsFrom offset cs) :
    offset < start ∧ start ≤ offset + size cs := by
  induction cs generalizing offset with
  | nil => cases h
  | cons c cs ih =>
    have hpos := c.utf8Size_pos
    rw [lineStartsFrom] at h
    rw [size_cons]
    split at h
    · rcases List.mem_cons.1 h with rfl | hmem
      · omega
      · have := ih hmem
        omega
    · have := ih h
      omega

/-- An offset is in the line after the line ends in front of it. -/
theorem lineIndex_eq {f : SourceFile} {before after : List Char} (h : before ++ after = f.text.toList) :
    f.lineIndex (size before) = before.count '\n' := by
  have hbefore : (lineStartsFrom 0 before).filter (· ≤ size before) = lineStartsFrom 0 before := by
    refine List.filter_eq_self.2 fun start hmem => decide_eq_true ?_
    have := (bounds_of_mem_lineStartsFrom hmem).2
    omega
  have hafter : (lineStartsFrom (0 + size before) after).filter (· ≤ size before) = [] := by
    refine List.filter_eq_nil_iff.2 fun start hmem => ?_
    have := (bounds_of_mem_lineStartsFrom hmem).1
    simp only [decide_eq_true_eq]
    omega
  unfold lineIndex lineStarts
  rw [← h, lineStartsFrom_append, List.filter_cons_of_pos (by simp), List.filter_append, hbefore, hafter]
  simp [length_lineStartsFrom]

/-- The line of an offset starts where the last line in front of it does, and ends behind the offset or at it. -/
theorem lineRange_eq {f : SourceFile} {front line after : List Char} (h : front ++ line ++ after = f.text.toList)
    (hline : '\n' ∉ line) (hfront : ∀ c ∈ front.getLast?, c = '\n') :
    ∃ stop, size (front ++ line) ≤ stop ∧ f.lineRange (front.count '\n') = .ok ⟨size front, stop⟩ := by
  have hstarts : f.lineStarts = 0 :: lineStartsFrom 0 front ++ lineStartsFrom (size (front ++ line)) after := by
    have hnone : lineStartsFrom (0 + size front) line = [] := by
      rw [← List.length_eq_zero_iff, length_lineStartsFrom, List.count_eq_zero]
      exact hline
    rw [lineStarts, ← h, lineStartsFrom_append, lineStartsFrom_append, hnone, List.append_nil, Nat.zero_add]
    rfl
  have hlast : (0 :: lineStartsFrom 0 front)[front.count '\n']? = some (size front) := by
    rcases List.eq_nil_or_concat front with rfl | ⟨init, c, rfl⟩
    · rfl
    · obtain rfl : c = '\n' := hfront c (by simp)
      rw [List.concat_eq_append, lineStartsFrom_append, List.count_append]
      simp [length_lineStartsFrom, lineStartsFrom]
  have hlength : (0 :: lineStartsFrom 0 front).length = front.count '\n' + 1 := by
    rw [List.length_cons, length_lineStartsFrom]
  have hstart : f.lineStart (front.count '\n') = .ok (size front) := by
    rw [lineStart, hstarts, List.getElem?_append_left (by omega), hlast]
  have hstop : ∃ stop, size (front ++ line) ≤ stop ∧ f.lineStart (front.count '\n' + 1) = .ok stop := by
    unfold lineStart lineCount
    rw [hstarts, List.getElem?_append_right (Nat.le_of_eq hlength), hlength, Nat.sub_self, ← List.head?_eq_getElem?]
    cases hafter : lineStartsFrom (size (front ++ line)) after with
    | nil =>
      refine ⟨byteLength f.text, ?_, ?_⟩
      · rw [byteLength, ← h, size_append _ after]
        exact Nat.le_add_right _ _
      · rw [List.append_nil, hlength]
        exact if_pos rfl
    | cons stop more =>
      have hbounds := bounds_of_mem_lineStartsFrom (hafter ▸ List.mem_cons_self)
      exact ⟨stop, Nat.le_of_lt hbounds.1, rfl⟩
  obtain ⟨stop, hle, hstop⟩ := hstop
  exact ⟨stop, hle, by rw [lineRange, hstart, hstop]; rfl⟩

theorem charsEndingBy_eq (offset : Nat) (line after : List Char) :
    charsEndingBy (offset + size line) offset (line ++ after) = line.length := by
  induction line generalizing offset with
  | nil =>
    cases after with
    | nil => rfl
    | cons c after =>
      have hpos := c.utf8Size_pos
      exact if_neg (by rw [size_nil]; omega)
  | cons c line ih =>
    have hle : offset + c.utf8Size ≤ offset + size (c :: line) := by
      rw [size_cons]
      omega
    rw [List.cons_append, charsEndingBy, if_pos hle, size_cons, ← Nat.add_assoc, ih]
    rfl

/-- The library finds an offset in the line after the line ends in front of it, behind the characters of its line. -/
theorem location_eq {f : SourceFile} {before after : List Char} (h : before ++ after = f.text.toList) :
    f.location (size before) = .ok ⟨1 + before.count '\n', 1 + (lastLine before).length⟩ := by
  obtain ⟨front, happend, hline, hfront⟩ := exists_lastLine before
  have hcount : before.count '\n' = front.count '\n' := by
    rw [← happend, List.count_append, List.count_eq_zero.2 hline, Nat.add_zero]
  have htext : front ++ lastLine before ++ after = f.text.toList := by rw [happend, h]
  obtain ⟨stop, hle, hrange⟩ := lineRange_eq htext hline hfront
  rw [happend] at hle
  have hend : size before ≤ byteLength f.text := by
    rw [byteLength, ← h, size_append]
    exact Nat.le_add_right _ _
  have hlimit : min (size before) (min stop (byteLength f.text)) = size front + size (lastLine before) := by
    rw [Nat.min_eq_left (Nat.le_min.2 ⟨hle, hend⟩), ← size_append, happend]
  have hdrop : dropBytes (size front) f.text.toList = lastLine before ++ after := by
    rw [← htext, List.append_assoc, dropBytes_size_append]
  unfold location
  rw [lineIndex_eq h, hcount]
  dsimp only
  rw [hrange]
  show Except.ok _ = _
  rw [hlimit, hdrop, charsEndingBy_eq, Nat.add_comm, Nat.add_comm (lastLine before).length]

end SourceFile

/-! ## Where tokens stand -/

namespace Token

variable {id : Nat} {source : String} {tokens : List Token} {token : Token}

/-- The token stands behind the text `before`, and its offsets, its line and its column say so. -/
structure StandsBehind (source : String) (before : List Char) (token : Token) : Prop where
  text : before ++ token.text.toList <+: source.toList
  start : token.range.start = size before
  stop : token.range.stop = size before + size token.text.toList
  line : token.position.line = 1 + before.count '\n'
  column : token.position.column = 1 + (lastLine before).countP (· ≠ '\r')

/-- A token stands where the scanner has come to, and does not start with a line end. -/
theorem exists_standsBehind (h : ofSource id source = .ok tokens) (hmem : token ∈ tokens) : ∃ before behind,
    before ++ behind = source.toList ∧ behind ≠ [] ∧ behind.head? ≠ some '\n' ∧ StandsBehind source before token := by
  obtain ⟨done, more, rfl⟩ := List.append_of_mem hmem
  obtain ⟨passed, rest, hsource, -, hscan⟩ := exists_of_scan_append h
  obtain ⟨kind, gap, text, after, rfl, -, hfirst, rfl, -⟩ := exists_of_scan_cons hscan
  obtain ⟨before, text', after', hsource', hrange, hlexeme⟩ :=
    @lexemes_of_scan id _ [] _ _ h (divides_nil _) _ hmem
  have hsplit : passed ++ gap ++ (text ++ after) = source.toList := by rw [← hsource]; simp
  have hstart : 0 + size passed + size gap = size before := congrArg FileRange.start hrange
  rw [List.nil_append, List.append_assoc, ← hsplit] at hsource'
  obtain ⟨rfl, hbehind⟩ := eq_of_size hsource' (by rw [← hstart, size_append, Nat.zero_add])
  have hposition : (cutAt id (0 + size passed) (Position.first.advance passed) kind gap text).position =
      Position.first.advance (passed ++ gap) := (Position.advance_append ..).symm
  refine ⟨passed ++ gap, text ++ after, hsplit, ?_, fun hhead => ?_, ⟨⟨after, ?_⟩, hstart, ?_, ?_, ?_⟩⟩
  · exact List.append_ne_nil_of_left_ne_nil (ne_nil_of_first hfirst) after
  · rw [← hbehind] at hhead
    exact hlexeme.head_notMem_blanks '\n' hhead (by decide)
  · rw [← hsplit, List.append_assoc (passed ++ gap)]
    simp [cutAt]
  · rw [← hstart]
    simp [cutAt]
  · rw [hposition, Position.advance_first_eq]
  · rw [hposition, Position.advance_first_eq]

/-- The numbers of a token in a source of less than 4 GiB are of 32 bits. -/
structure FitsWords (token : Token) : Prop where
  start : token.range.start < UInt32.size
  stop : token.range.stop < UInt32.size
  line : token.position.line < UInt32.size
  column : token.position.column < UInt32.size

theorem StandsBehind.fitsWords {before behind : List Char} (h : StandsBehind source before token)
    (hsource : before ++ behind = source.toList) (hbehind : behind ≠ []) (hsize : byteLength source < UInt32.size) :
    FitsWords token := by
  obtain ⟨after, htext⟩ := h.text
  have hpos := List.length_pos_iff.2 hbehind
  have hbefore := Strict.length_le_size before
  have hrest := Strict.length_le_size behind
  have hplace := Position.advance_first_le before
  rw [Position.advance_first_eq, ← h.line, ← h.column] at hplace
  have hwhole : byteLength source = size before + size behind := by rw [byteLength, ← hsource, size_append]
  have hcut : byteLength source = size before + size token.text.toList + size after := by
    rw [byteLength, ← htext, size_append, size_append]
  refine ⟨?_, ?_, ?_, ?_⟩
  · rw [h.start]
    omega
  · rw [h.stop]
    omega
  · exact Nat.lt_of_le_of_lt hplace.1 (by omega)
  · exact Nat.lt_of_le_of_lt hplace.2 (by omega)

/-- Tokens of a source of less than 4 GiB stand where their offsets, lines and columns say, in words of 32 bits all
along the way, and the library finds their starts there too if carriage returns only stand in front of line ends. -/
theorem tokens_stand_where_found (hsize : byteLength source ≤ UInt32.size - 1)
    (h : ofSource id source = .ok tokens) :
    (∀ token ∈ tokens, (∃ before, StandsBehind source before token) ∧ FitsWords token) ∧
      Strict.lex id source = some (.ok (tokens.map Strict.lexed)) ∧
      (ReturnsPaired source.toList → ∀ (library : Library) (name : String), library.get id = .ok ⟨name, source⟩ →
        ∀ token ∈ tokens, (do let file ← library.get token.range.file; file.location token.range.start) =
          .ok token.position) := by
  have hsize : byteLength source < UInt32.size := Nat.lt_of_le_of_lt hsize (by decide)
  refine ⟨fun token hmem => ?_, ?_, fun hpaired library name hfile token hmem => ?_⟩
  · obtain ⟨before, behind, hsource, hne, -, hstands⟩ := exists_standsBehind h hmem
    exact ⟨⟨before, hstands⟩, hstands.fitsWords hsource hne hsize⟩
  · rw [Strict.lex_eq hsize, h]
    rfl
  · obtain ⟨before, behind, hsource, -, hhead, hstands⟩ := exists_standsBehind h hmem
    rw [← hsource] at hpaired
    have hreturn := hpaired.notMem_lastLine hhead
    have hcount : (lastLine before).countP (· ≠ '\r') = (lastLine before).length := by
      refine List.countP_eq_length.2 fun c hc => decide_eq_true ?_
      rintro rfl
      exact hreturn hc
    have hid : token.range.file = id := by
      obtain ⟨done, more, rfl⟩ := List.append_of_mem hmem
      exact (slices_of_scan h).1
    rw [hid, hfile]
    show SourceFile.location ⟨name, source⟩ token.range.start = _
    rw [hstands.start, SourceFile.location_eq hsource, ← hcount, ← hstands.line, ← hstands.column]

/-- A comment of two lines, which end in a carriage return and a line end, a wide character in it, and a declaration
behind it. -/
def commentedSource : String := "/* é\r\n*/ struct S\r\n;"

theorem tokens_stand_where_found_commented : ∃ tokens, ofSource 1 commentedSource = .ok tokens ∧
    tokens.map (·.position) = [⟨1, 1⟩, ⟨2, 4⟩, ⟨2, 11⟩, ⟨3, 1⟩] ∧
    ∀ token ∈ tokens, (∃ before, StandsBehind commentedSource before token) ∧
      (do let file ← (Library.empty.add ⟨"s.idl", commentedSource⟩).get token.range.file
          file.location token.range.start) = .ok token.position := by
  have hplaces : (ofSource 1 commentedSource).toOption.map (·.map (·.position)) =
      some [⟨1, 1⟩, ⟨2, 4⟩, ⟨2, 11⟩, ⟨3, 1⟩] := by decide +kernel
  cases htokens : ofSource 1 commentedSource with
  | error e =>
    rw [htokens] at hplaces
    cases hplaces
  | ok tokens =>
    rw [htokens] at hplaces
    obtain ⟨hstand, -, hfound⟩ := tokens_stand_where_found (by decide +kernel) htokens
    have hfile : (Library.empty.add ⟨"s.idl", commentedSource⟩).get 1 = .ok ⟨"s.idl", commentedSource⟩ := rfl
    refine ⟨tokens, rfl, Option.some.inj hplaces, fun token hmem => ⟨(hstand token hmem).1, ?_⟩⟩
    exact hfound (by decide +kernel) _ _ hfile token hmem

end Token

end Idl
