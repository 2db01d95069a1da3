import Idl.Proofs.Lexing
import Mathlib.Logic.Relation

/-!
# Tokenizations

What the tokens of a text are can be said without scanning it: they are words, comments and symbols
that stand in the text one after the other with nothing but blanks in front of them, between them and
behind them (`IsTokenization`). A text has one tokenization at most, and the scanner finds it. It has
none just if someone who reads the text from left to right and skips its comments (`Outside`) meets a
block comment that is never closed, and there the scanner stops.

* `Lexeme before text after kind`: what a stretch of a text has to be to be a token.
* `Lexeme.first`, `lexeme_of_first`: the first token of a text is the lexeme at its start.
* `scan_of_isTokenization`, `isTokenization_of_scan`: the scanner finds the tokenization.
* `Outside.scan_ok`, `Outside.scan_error`: the reader comes to where the scanner does.
-/

namespace Idl.Token

/-! ## What a token may be -/

/-- The characters that stand between tokens. -/
def blanks : List Char := [' ', '\t', '\n', '\r', '\x0c']

/-- The characters that are tokens of their own. -/
def symbols : List Char := ['(', ')', '<', '>', '/', '*', ';', ',', '\'', '"', '\x7b', '\x7d']

/-- A character that can be part of a word. -/
def InWord (c : Char) : Prop := c ∉ blanks ∧ c ∉ symbols

/-- A word is a keyword or a directive just if the whole of it is. -/
inductive IsCalled (text : List Char) : Kind → Prop
  | keyword {k : Keyword} (whole : text = k.text.toList) : IsCalled text (.keyword k)
  | directive {d : Directive} (whole : text = d.text.toList) : IsCalled text (.directive d)
  | word (noKeyword : ∀ k : Keyword, text ≠ k.text.toList) (noDirective : ∀ d : Directive, text ≠ d.text.toList) :
      IsCalled text .word

/-- The text `text`, between `before` and `after`, can be a token of the given kind. -/
inductive Lexeme (before text after : List Char) : Kind → Prop
  /-- A run of characters of words that cannot be made longer. -/
  | word {kind : Kind} (filled : text ≠ []) (inWord : ∀ c ∈ text, InWord c) (left : ∀ c ∈ before.getLast?, ¬ InWord c)
      (right : ∀ c ∈ after.head?, ¬ InWord c) (called : IsCalled text kind) : Lexeme before text after kind
  /-- Two slashes and the rest of their line. -/
  | line {body : List Char} (eq : text = '/' :: '/' :: body) (inLine : ∀ c ∈ body, c ≠ '\r' ∧ c ≠ '\n')
      (ends : ∀ c ∈ after.head?, c = '\r' ∨ c = '\n') : Lexeme before text after .lineComment
  /-- A slash and a star and the text up to the first star and slash after them. -/
  | block {body : List Char} (eq : text = '/' :: '*' :: (body ++ ['*', '/']))
      (unclosed : ¬ ['*', '/'] <:+: body ++ ['*']) : Lexeme before text after .blockComment
  /-- One symbol, unless a comment starts with it. -/
  | symbol {m : Mark} (eq : text = [m.char]) (listed : m.char ∈ symbols)
      (alone : m.char = '/' → ∀ c ∈ after.head?, c ≠ '/' ∧ c ≠ '*') : Lexeme before text after (.mark m)

/-- Where the last of some ranges stops, or the start of the text. -/
def lastStop (spans : List (Kind × FileRange)) : Nat := (spans.getLast?.map (·.2.stop)).getD 0

/-- Where the first of some ranges starts, or the end of the text. -/
def firstStart (size : Nat) (spans : List (Kind × FileRange)) : Nat := (spans.head?.map (·.2.start)).getD size

/-- Ranges that cut a text into tokens. -/
structure IsTokenization (file : Nat) (cs : List Char) (spans : List (Kind × FileRange)) : Prop where
  /-- Each range is that of a token. -/
  lexemes : ∀ span ∈ spans, ∃ before text after, before ++ text ++ after = cs ∧
    span.2 = ⟨file, Text.size before, Text.size before + Text.size text⟩ ∧ Lexeme before text after span.1
  /-- No range is empty. -/
  filled : ∀ span ∈ spans, span.2.start < span.2.stop
  /-- The ranges are in order and do not overlap. -/
  ordered : spans.Pairwise (·.2.stop ≤ ·.2.start)
  /-- In front of the ranges, between them and behind them there are blanks only. -/
  gaps : ∀ done next, done ++ next = spans → ∃ gap,
    Text.slice? (lastStop done) (firstStart (Text.size cs) next) cs = some gap ∧ ∀ c ∈ gap, c ∈ blanks

/-! ## Characters and words -/

theorem isGap_iff {c : Char} : isGap c = true ↔ c ∈ blanks := by simp [isGap, blanks, or_assoc]

theorem isLineEnd_iff {c : Char} : isLineEnd c = true ↔ c = '\r' ∨ c = '\n' := by simp [isLineEnd]

theorem ofChar?_char (m : Mark) : Mark.ofChar? m.char = some m := by cases m <;> rfl

theorem char_of_ofChar? {c : Char} {m : Mark} (h : Mark.ofChar? c = some m) : m.char = c := by
  have hfound := List.find?_some h
  simpa using hfound

theorem char_mem_symbols (m : Mark) : m.char ∈ symbols := by cases m <;> decide

theorem ofChar?_eq_none_iff {c : Char} : Mark.ofChar? c = none ↔ c ∉ symbols := by
  constructor
  · intro hnone hmem
    have hall : symbols.all fun c => (Mark.ofChar? c).isSome := by decide
    have hsome := List.all_eq_true.1 hall c hmem
    rw [hnone] at hsome
    cases hsome
  · intro hmem
    cases hmark : Mark.ofChar? c with
    | none => rfl
    | some m => exact absurd (char_of_ofChar? hmark ▸ char_mem_symbols m) hmem

theorem isWordChar_iff {c : Char} : isWordChar c = true ↔ InWord c := by
  have hgap : isGap c = false ↔ c ∉ blanks := by rw [← isGap_iff, Bool.not_eq_true]
  simp only [isWordChar, InWord, Bool.and_eq_true, Bool.not_eq_true', hgap, Option.isNone_iff_eq_none,
    ofChar?_eq_none_iff]

theorem mem_keywords (k : Keyword) : k ∈ Keyword.all := by
  cases k with
  | direction d => cases d <;> decide
  | _ => decide

theorem mem_directives (d : Directive) : d ∈ Directive.all := by cases d <;> decide

theorem text_keyword_inj {k k' : Keyword} (h : k.text = k'.text) : k = k' := by
  have hall : ∀ k ∈ Keyword.all, ∀ k' ∈ Keyword.all, k.text = k'.text → k = k' := by decide
  exact hall k (mem_keywords k) k' (mem_keywords k') h

theorem text_directive_inj {d d' : Directive} (h : d.text = d'.text) : d = d' := by
  have hall : ∀ d ∈ Directive.all, ∀ d' ∈ Directive.all, d.text = d'.text → d = d' := by decide
  exact hall d (mem_directives d) d' (mem_directives d') h

theorem keyword_ne_directive (k : Keyword) (d : Directive) : k.text ≠ d.text := by
  have hall : ∀ k ∈ Keyword.all, ∀ d ∈ Directive.all, k.text ≠ d.text := by decide
  exact hall k (mem_keywords k) d (mem_directives d)

theorem isCalled_ofWord (text : List Char) : IsCalled text (Kind.ofWord text) := by
  unfold Kind.ofWord
  split
  · rename_i k hk
    have hfound := List.find?_some hk
    exact .keyword (eq_of_beq hfound).symm
  · rename_i hk
    have hkeyword (k : Keyword) : text ≠ k.text.toList := fun whole =>
      List.find?_eq_none.1 hk k (mem_keywords k) (beq_iff_eq.2 whole.symm)
    split
    · rename_i d hd
      have hfound := List.find?_some hd
      exact .directive (eq_of_beq hfound).symm
    · rename_i hd
      exact .word hkeyword fun d whole =>
        List.find?_eq_none.1 hd d (mem_directives d) (beq_iff_eq.2 whole.symm)

/-- What a word is called is settled by its text. -/
theorem IsCalled.unique {text : List Char} {kind kind' : Kind} (h : IsCalled text kind) (h' : IsCalled text kind') :
    kind = kind' := by
  cases h with
  | keyword whole =>
    cases h' with
    | keyword whole' => rw [text_keyword_inj (String.toList_inj.1 (whole.symm.trans whole'))]
    | directive whole' => exact absurd (String.toList_inj.1 (whole.symm.trans whole')) (keyword_ne_directive _ _)
    | word noKeyword => exact absurd whole (noKeyword _)
  | directive whole =>
    cases h' with
    | keyword whole' => exact absurd (String.toList_inj.1 (whole'.symm.trans whole)) (keyword_ne_directive _ _)
    | directive whole' => rw [text_directive_inj (String.toList_inj.1 (whole.symm.trans whole'))]
    | word _ noDirective => exact absurd whole (noDirective _)
  | word noKeyword noDirective =>
    cases h' with
    | keyword whole' => exact absurd whole' (noKeyword _)
    | directive whole' => exact absurd whole' (noDirective _)
    | word => rfl

/-! ## The first token -/

/-- A comment is left unclosed if there is no star and slash after it. -/
theorem closeComment_eq_none_iff {cs : List Char} : closeComment cs = none ↔ ¬ ['*', '/'] <:+: cs := by
  fun_induction closeComment cs with
  | case1 => simp
  | case2 cs => simp [List.infix_cons_iff]
  | case3 c cs hne ih =>
    rw [Option.map_eq_none_iff, ih, List.infix_cons_iff, not_or]
    refine ⟨fun h => ⟨?_, h⟩, And.right⟩
    rintro ⟨more, hmore⟩
    obtain ⟨rfl, rfl⟩ := List.cons.inj hmore
    exact hne more rfl rfl

/-- A comment is closed by the first star and slash. -/
theorem exists_of_closeComment {cs comment rest : List Char} (h : closeComment cs = some (comment, rest)) :
    ∃ body, comment = body ++ ['*', '/'] ∧ ¬ ['*', '/'] <:+: body ++ ['*'] := by
  fun_induction closeComment cs generalizing comment with
  | case1 => cases h
  | case2 cs =>
    cases h
    exact ⟨[], rfl, by decide⟩
  | case3 c cs hne ih =>
    obtain ⟨⟨comment', rest'⟩, hclose, heq⟩ := Option.map_eq_some_iff.1 h
    cases heq
    obtain ⟨body, rfl, hbody⟩ := ih hclose
    refine ⟨c :: body, rfl, ?_⟩
    rw [List.cons_append, List.infix_cons_iff, not_or]
    refine ⟨?_, hbody⟩
    rintro ⟨more, hmore⟩
    obtain ⟨rfl, hslash⟩ := List.cons.inj hmore
    have hcs := append_of_closeComment hclose
    cases body with
    | nil => simp at hslash
    | cons d body =>
      obtain ⟨rfl, -⟩ := List.cons.inj hslash
      exact hne _ rfl hcs.symm

theorem closeComment_of_unclosed {body : List Char} (h : ¬ ['*', '/'] <:+: body ++ ['*']) (rest : List Char) :
    closeComment (body ++ ['*', '/'] ++ rest) = some (body ++ ['*', '/'], rest) := by
  induction body with
  | nil => rfl
  | cons c body ih =>
    rw [List.cons_append, List.infix_cons_iff, not_or] at h
    have hne (more : List Char) (hstar : c = '*') (hslash : body ++ ['*', '/'] ++ rest = '/' :: more) : False := by
      cases body with
      | nil => simp at hslash
      | cons d body =>
        obtain ⟨rfl, -⟩ := List.cons.inj hslash
        exact h.1 ⟨body ++ ['*'], by rw [hstar]; rfl⟩
    rw [List.cons_append, List.cons_append, closeComment.eq_3 _ _ hne, ih h.2]
    rfl

theorem takeWhile_of_head {p : Char → Bool} {cs : List Char} (h : ∀ c ∈ cs.head?, p c = false) :
    cs.takeWhile p = [] ∧ cs.dropWhile p = cs := by
  cases cs with
  | nil => exact ⟨rfl, rfl⟩
  | cons c cs => simp [h c rfl]

/-- The start of a text is as long as its characters go on with `p`. -/
theorem takeWhile_append_of_head {p : Char → Bool} {cs rest : List Char} (hall : ∀ c ∈ cs, p c = true)
    (hend : ∀ c ∈ rest.head?, p c = false) : (cs ++ rest).takeWhile p = cs ∧ (cs ++ rest).dropWhile p = rest := by
  obtain ⟨htake, hdrop⟩ := takeWhile_of_head hend
  rw [List.takeWhile_append_of_pos hall, List.dropWhile_append_of_pos hall, htake, hdrop, List.append_nil]
  exact ⟨rfl, rfl⟩

theorem head_dropWhile {p : Char → Bool} {cs : List Char} : ∀ c ∈ (cs.dropWhile p).head?, p c = false := by
  intro c hc
  have hnot := List.head?_dropWhile_not p cs
  rw [hc] at hnot
  simpa using hnot

/-- The first token of a text that does not start with a comment. -/
theorem first_eq_of_head {c : Char} {cs : List Char} (h : c = '/' → ∀ d ∈ cs.head?, d ≠ '/' ∧ d ≠ '*') :
    first (c :: cs) = match Mark.ofChar? c with
      | some m => .token (.mark m) [c] cs
      | none => .token (Kind.ofWord (c :: cs.takeWhile isWordChar)) (c :: cs.takeWhile isWordChar)
          (cs.dropWhile isWordChar) := by
  refine first.eq_4 c cs (fun more hc hcs => ?_) (fun more hc hcs => ?_)
  · exact (h hc '/' (by rw [hcs]; rfl)).1 rfl
  · exact (h hc '*' (by rw [hcs]; rfl)).2 rfl

section Lexeme

variable {before text after : List Char} {kind : Kind}

/-- A lexeme is the first token of the text that starts with it. -/
theorem Lexeme.first (h : Lexeme before text after kind) : first (text ++ after) = .token kind text after := by
  cases h with
  | word filled inWord left right called =>
    obtain ⟨c, text, rfl⟩ := List.exists_cons_of_ne_nil filled
    obtain ⟨hc, htext⟩ := List.forall_mem_cons.1 inWord
    have hslash : c ≠ '/' := fun heq => hc.2 (heq ▸ by decide)
    obtain ⟨htake, hdrop⟩ := takeWhile_append_of_head (fun d hd => isWordChar_iff.2 (htext d hd))
      (fun d hd => Bool.eq_false_iff.2 (mt isWordChar_iff.1 (right d hd)))
    rw [List.cons_append, first_eq_of_head (fun heq => absurd heq hslash), ofChar?_eq_none_iff.2 hc.2]
    dsimp only
    rw [htake, hdrop, (isCalled_ofWord _).unique called]
  | @line body eq inLine ends =>
    subst eq
    have hline (d : Char) : (!isLineEnd d) = true ↔ d ≠ '\r' ∧ d ≠ '\n' := by
      rw [Bool.not_eq_true', Bool.eq_false_iff, Ne, isLineEnd_iff, not_or]
    obtain ⟨htake, hdrop⟩ := takeWhile_append_of_head (fun d hd => (hline d).2 (inLine d hd))
      (fun d hd => by rw [isLineEnd_iff.2 (ends d hd)]; rfl)
    simp only [List.cons_append, Token.first, htake, hdrop]
  | @block body eq unclosed =>
    subst eq
    simp only [List.cons_append, Token.first, closeComment_of_unclosed unclosed]
  | @symbol m eq listed alone =>
    subst eq
    rw [List.singleton_append, first_eq_of_head alone, ofChar?_char]

/-- Two stretches of text that are not parts of one word. -/
def Divides (before after : List Char) : Prop := ∀ c ∈ before.getLast?, ∀ d ∈ after.head?, ¬ (InWord c ∧ InWord d)

theorem divides_nil (cs : List Char) : Divides [] cs := fun _ hc => by cases hc

/-- The first token of a text is a lexeme, if the text starts neither with a blank nor inside of a word. -/
theorem lexeme_of_first {cs : List Char} (h : first cs = .token kind text after) (hblank : ∀ c ∈ cs.head?, c ∉ blanks)
    (hdivides : Divides before cs) : Lexeme before text after kind := by
  fun_cases Token.first cs with
  | case1 => cases h
  | case2 cs =>
    cases h
    refine .line rfl (fun c hc => ?_) (fun c hc => ?_)
    · have hline := List.all_eq_true.1 List.all_takeWhile c hc
      rwa [Bool.not_eq_true', Bool.eq_false_iff, Ne, isLineEnd_iff, not_or] at hline
    · have hline := head_dropWhile c hc
      rwa [Bool.not_eq_false', isLineEnd_iff] at hline
  | case3 cs comment rest hclose =>
    simp only [Token.first, hclose, First.token.injEq] at h
    obtain ⟨rfl, rfl, rfl⟩ := h
    obtain ⟨body, rfl, hbody⟩ := exists_of_closeComment hclose
    exact .block rfl hbody
  | case4 cs hclose =>
    simp only [Token.first, hclose] at h
    cases h
  | case5 c cs hline hblock mark hmark =>
    rw [first.eq_4 _ _ hline hblock, hmark] at h
    cases h
    obtain rfl := char_of_ofChar? hmark
    refine .symbol rfl (char_mem_symbols mark) fun hslash d hd => ⟨?_, ?_⟩
    · rintro rfl
      obtain ⟨more, hmore⟩ := List.head?_eq_some_iff.1 hd
      exact hline more hslash hmore
    · rintro rfl
      obtain ⟨more, hmore⟩ := List.head?_eq_some_iff.1 hd
      exact hblock more hslash hmore
  | case6 c cs hline hblock hmark word =>
    rw [first.eq_4 _ _ hline hblock, hmark] at h
    cases h
    have hc : InWord c := ⟨hblank c rfl, ofChar?_eq_none_iff.1 hmark⟩
    refine .word (List.cons_ne_nil c _) (List.forall_mem_cons.2 ⟨hc, fun d hd => ?_⟩) (fun d hd hword => ?_)
      (fun d hd => ?_) (isCalled_ofWord _)
    · exact isWordChar_iff.1 (List.all_eq_true.1 List.all_takeWhile d hd)
    · exact hdivides d hd c rfl ⟨hword, hc⟩
    · exact mt isWordChar_iff.2 (Bool.eq_false_iff.1 (head_dropWhile d hd))

/-- A token ends where a word cannot go on. -/
theorem Lexeme.divides (h : Lexeme before text after kind) (front : List Char) : Divides (front ++ text) after := by
  intro c hc d hd hword
  cases h with
  | word filled inWord left right called => exact right d hd hword.2
  | line eq inLine ends =>
    obtain rfl | rfl := ends d hd
    · exact hword.2.1 (by decide)
    · exact hword.2.1 (by decide)
  | @block body eq unclosed =>
    have hlast : (front ++ text).getLast? = some '/' := by
      rw [eq, show front ++ '/' :: '*' :: (body ++ ['*', '/']) = (front ++ '/' :: '*' :: (body ++ ['*'])) ++ ['/'] by simp]
      exact List.getLast?_concat
    cases hlast.symm.trans hc
    exact hword.1.2 (by decide)
  | symbol eq listed alone =>
    rw [eq, List.getLast?_concat] at hc
    cases hc
    exact hword.1.2 listed

theorem Lexeme.head_notMem_blanks (h : Lexeme before text after kind) : ∀ c ∈ (text ++ after).head?, c ∉ blanks := by
  intro c hc
  cases h with
  | word filled inWord left right called =>
    obtain ⟨d, text, rfl⟩ := List.exists_cons_of_ne_nil filled
    cases hc
    exact (inWord c List.mem_cons_self).1
  | line eq inLine ends =>
    subst eq
    cases hc
    decide
  | block eq unclosed =>
    subst eq
    cases hc
    decide
  | @symbol m eq listed alone =>
    subst eq
    cases hc
    cases m <;> decide

end Lexeme

/-! ## Scanning finds the tokenization -/

/-- What a token is and where. -/
def span (token : Token) : Kind × FileRange := (token.kind, token.range)

section Scan

variable {file offset : Nat} {position : Position} {passed cs : List Char} {token : Token} {tokens : List Token}

/-- The first token behind some blanks is a lexeme. -/
theorem lexeme_behind_gap {kind : Kind} {text rest : List Char} (h : first (cs.dropWhile isGap) = .token kind text rest)
    (hdivides : Divides passed cs) : Lexeme (passed ++ cs.takeWhile isGap) text rest kind := by
  refine lexeme_of_first h (fun c hc => mt isGap_iff.2 (Bool.eq_false_iff.1 (head_dropWhile c hc))) ?_
  intro c hc d hd hword
  rcases List.eq_nil_or_concat (cs.takeWhile isGap) with hnil | ⟨front, last, hlast⟩
  · -- there are no blanks, so the token stands at the start of the text
    have hcs := List.takeWhile_append_dropWhile (p := isGap) (l := cs)
    rw [hnil, List.nil_append] at hcs
    rw [hnil, List.append_nil] at hc
    rw [hcs] at hd
    exact hdivides c hc d hd hword
  · rw [List.concat_eq_append] at hlast
    rw [hlast, ← List.append_assoc, List.getLast?_concat] at hc
    cases hc
    have hmem : c ∈ cs.takeWhile isGap := by
      rw [hlast]
      exact List.mem_append_right front List.mem_cons_self
    exact hword.1.1 (isGap_iff.1 (isGap_of_mem_takeWhile hmem))

/-- If there are tokens, the first one is a lexeme behind blanks, and the others are those of the rest. -/
theorem exists_lexeme_of_scan (h : scan file offset position cs = .ok (token :: tokens)) (hdivides : Divides passed cs) :
    ∃ gap text rest, gap ++ text ++ rest = cs ∧ (∀ c ∈ gap, c ∈ blanks) ∧
      Lexeme (passed ++ gap) text rest token.kind ∧ token = cutAt file offset position token.kind gap text ∧
      scan file (offset + Text.size (gap ++ text)) (position.advance (gap ++ text)) rest = .ok tokens := by
  rw [scan_eq] at h
  split at h
  · cases h
  · cases h
  · rename_i kind text rest hfirst
    obtain ⟨tokens', hscan, heq⟩ := Except.bind_eq_ok.1 h
    cases heq
    refine ⟨cs.takeWhile isGap, text, rest, ?_, ?_, lexeme_behind_gap hfirst hdivides, rfl, hscan⟩
    · rw [List.append_assoc, append_of_first hfirst, List.takeWhile_append_dropWhile]
    · exact fun c hc => isGap_iff.1 (isGap_of_mem_takeWhile hc)

/-- The tokens of a text are lexemes of it. -/
theorem lexemes_of_scan (h : scan file (Text.size passed) position cs = .ok tokens) (hdivides : Divides passed cs) :
    ∀ token ∈ tokens, ∃ before text after, before ++ text ++ after = passed ++ cs ∧
      token.range = ⟨file, Text.size before, Text.size before + Text.size text⟩ ∧
      Lexeme before text after token.kind := by
  induction tokens generalizing passed position cs with
  | nil => exact fun token hmem => absurd hmem List.not_mem_nil
  | cons head tokens ih =>
    obtain ⟨gap, text, rest, rfl, -, hlexeme, hhead, hscan⟩ := exists_lexeme_of_scan h hdivides
    refine List.forall_mem_cons.2 ⟨⟨passed ++ gap, text, rest, by simp, ?_, hlexeme⟩, ?_⟩
    · rw [hhead, Text.size_append]
      rfl
    · rw [← Text.size_append] at hscan
      have hrest : passed ++ (gap ++ text) ++ rest = passed ++ (gap ++ text ++ rest) := by simp
      rw [← hrest]
      refine ih hscan ?_
      rw [← List.append_assoc]
      exact hlexeme.divides (passed ++ gap)

theorem ordered_of_scan (h : scan file offset position cs = .ok tokens) :
    tokens.Pairwise (·.range.stop ≤ ·.range.start) := by
  induction tokens generalizing offset position cs with
  | nil => exact List.Pairwise.nil
  | cons head tokens ih =>
    obtain ⟨kind, gap, text, rest, -, -, -, rfl, hscan⟩ := exists_of_scan_cons h
    refine List.Pairwise.cons (fun token hmem => ?_) (ih hscan)
    have hle := le_start_of_scan hscan hmem
    rw [Text.size_append, ← Nat.add_assoc] at hle
    exact hle

theorem lastStop_map (tokens : List Token) :
    lastStop (tokens.map span) = (tokens.getLast?.map (·.range.stop)).getD 0 := by
  rw [lastStop, List.getLast?_map, Option.map_map]
  rfl

/-- Between two tokens there are blanks only. -/
theorem gap_of_scan {done : List Token} (h : scan file 0 position cs = .ok (done ++ tokens)) :
    ∃ gap, Text.slice? (lastStop (done.map span)) (firstStart (Text.size cs) (tokens.map span)) cs = some gap ∧
      ∀ c ∈ gap, c ∈ blanks := by
  obtain ⟨passed, rest, rfl, hlast, hscan⟩ := exists_of_scan_append h
  rw [Nat.zero_add] at hlast hscan
  rw [lastStop_map, hlast]
  cases tokens with
  | nil =>
    refine ⟨rest, Text.slice?_eq_some.2 ⟨passed, [], by simp, rfl, ?_⟩, fun c hc => ?_⟩
    · exact (Text.size_append passed rest).symm
    · exact isGap_iff.1 (isGap_of_scan_nil hscan c hc)
  | cons token tokens =>
    obtain ⟨kind, gap, text, rest, rfl, hgap, -, rfl, -⟩ := exists_of_scan_cons hscan
    refine ⟨gap, Text.slice?_eq_some.2 ⟨passed, text ++ rest, by simp, rfl, rfl⟩, fun c hc => ?_⟩
    exact isGap_iff.1 (hgap c hc)

/-- The tokens that the scanner finds are a tokenization. -/
theorem isTokenization_of_scan (h : scan file 0 position cs = .ok tokens) :
    IsTokenization file cs (tokens.map span) where
  lexemes := by
    intro span hspan
    obtain ⟨token, hmem, rfl⟩ := List.mem_map.1 hspan
    exact @lexemes_of_scan file position [] cs tokens h (divides_nil cs) token hmem
  filled := by
    intro span hspan
    obtain ⟨token, hmem, rfl⟩ := List.mem_map.1 hspan
    obtain ⟨before, text, after, -, hrange, hlexeme⟩ :=
      @lexemes_of_scan file position [] cs tokens h (divides_nil cs) token hmem
    have hsize : 0 < Text.size text := by
      obtain ⟨c, text, rfl⟩ := List.exists_cons_of_ne_nil (ne_nil_of_first hlexeme.first)
      exact Nat.lt_of_lt_of_le c.utf8Size_pos (Nat.le_add_right _ _)
    rw [Token.span, hrange]
    exact Nat.lt_add_of_pos_right hsize
  ordered := List.pairwise_map.2 (ordered_of_scan h)
  gaps := by
    intro done next hspans
    obtain ⟨tokens, tokens', rfl, rfl, rfl⟩ := List.map_eq_append_iff.1 hspans.symm
    exact gap_of_scan h

theorem eq_of_size {before before' after after' : List Char} (happend : before ++ after = before' ++ after')
    (hsize : Text.size before = Text.size before') : before = before' ∧ after = after' := by
  have hcut := Text.cut?_eq_some.2 ⟨happend, hsize⟩
  have hcut' := Text.cut?_eq_some.2 ⟨(rfl : before' ++ after' = before' ++ after'), rfl⟩
  rw [hcut] at hcut'
  cases hcut'
  exact ⟨rfl, rfl⟩

/-- The scanner finds every tokenization: from the end of the ranges that are done on, the tokens are the next
ranges. -/
theorem scan_of_isTokenization {done spans : List (Kind × FileRange)} (h : IsTokenization file cs (done ++ spans))
    {rest : List Char} (hcs : passed ++ rest = cs) (hpassed : Text.size passed = lastStop done) :
    ∃ tokens, scan file (Text.size passed) position rest = .ok tokens ∧ tokens.map span = spans := by
  induction spans generalizing done passed position rest with
  | nil =>
    obtain ⟨gap, hslice, hblank⟩ := h.gaps done [] rfl
    obtain ⟨before, after, happend, hbefore, hstop⟩ := Text.slice?_eq_some.1 hslice
    rw [← hcs, List.append_assoc] at happend
    obtain ⟨rfl, hrest⟩ := eq_of_size happend (hbefore.trans hpassed.symm)
    -- the last gap goes on to the end of the text, so nothing is behind it
    have hgap : Text.size rest = Text.size gap := by
      have hsize : Text.size cs = Text.size before + Text.size rest := by rw [← hcs, Text.size_append]
      change lastStop done + Text.size gap = Text.size cs at hstop
      omega
    obtain ⟨rfl, -⟩ : gap = rest ∧ after = [] := eq_of_size (by rw [hrest, List.append_nil]) hgap.symm
    have hdrop : gap.dropWhile isGap = [] := by
      rw [← List.append_nil gap, List.dropWhile_append_of_pos fun c hc => isGap_iff.2 (hblank c hc)]
      rfl
    refine ⟨[], ?_, rfl⟩
    rw [scan_eq, hdrop]
    rfl
  | cons span spans ih =>
    obtain ⟨gap, hslice, hblank⟩ := h.gaps done (span :: spans) rfl
    obtain ⟨before, text, after, happend, hrange, hlexeme⟩ := h.lexemes span (by simp)
    obtain ⟨front, behind, hfront, hsize, hstop⟩ := Text.slice?_eq_some.1 hslice
    have hstart : firstStart (Text.size cs) (span :: spans) = Text.size before := by
      change span.2.start = _
      rw [hrange]
    obtain ⟨rfl, rfl⟩ : passed = front ∧ rest = gap ++ behind :=
      eq_of_size (by rw [hcs, ← hfront, List.append_assoc]) (hpassed.trans hsize.symm)
    obtain ⟨rfl, rfl⟩ : before = passed ++ gap ∧ text ++ after = behind := by
      refine eq_of_size (by rw [hfront, ← happend, List.append_assoc]) ?_
      rw [Text.size_append, hsize, hstop, hstart]
    have hnext : IsTokenization file cs (done ++ [span] ++ spans) := by rwa [List.append_assoc]
    have hlast : Text.size (passed ++ gap ++ text) = lastStop (done ++ [span]) := by
      rw [lastStop, List.getLast?_concat, Option.map_some, Option.getD_some, hrange]
      exact Text.size_append _ _
    obtain ⟨tokens, hscan, hspans⟩ : ∃ tokens, scan file (Text.size (passed ++ gap ++ text))
        (position.advance (gap ++ text)) after = .ok tokens ∧ tokens.map Token.span = spans := ih hnext happend hlast
    obtain ⟨htake, hdrop⟩ := takeWhile_append_of_head (p := isGap) (fun c hc => isGap_iff.2 (hblank c hc))
      (fun c hc => Bool.eq_false_iff.2 (mt isGap_iff.1 (hlexeme.head_notMem_blanks c hc)))
    refine ⟨cutAt file (Text.size passed) position span.1 gap text :: tokens, ?_, ?_⟩
    · rw [scan_eq, hdrop, htake, hlexeme.first]
      dsimp only
      rw [← Text.size_append, ← List.append_assoc, hscan]
      rfl
    · rw [List.map_cons, hspans]
      congr 1
      refine Prod.ext rfl ?_
      rw [hrange, Text.size_append]
      rfl

end Scan

/-! ## Reading a text and skipping its comments -/

/-- One step of a reader who skips comments: over a character that starts no comment, or over a comment. A place in
the text is given by what is in front of it and what is behind it. -/
inductive Passes : List Char × List Char → List Char × List Char → Prop
  | char {passed rest : List Char} {c : Char} (plain : c = '/' → ∀ d ∈ rest.head?, d ≠ '/' ∧ d ≠ '*') :
      Passes (passed, c :: rest) (passed ++ [c], rest)
  | comment {passed text rest : List Char} {kind : Kind} (isComment : kind.isComment = true)
      (lexeme : Lexeme passed text rest kind) : Passes (passed, text ++ rest) (passed ++ text, rest)

/-- The reader comes to the place in `cs` between `passed` and `rest`, outside of the comments. -/
def Outside (cs passed rest : List Char) : Prop := Relation.ReflTransGen Passes ([], cs) (passed, rest)

/-- The reader meets a block comment that is never closed. -/
structure MeetsUnclosed (cs passed rest : List Char) : Prop where
  outside : Outside cs passed ('/' :: '*' :: rest)
  unclosed : ¬ ['*', '/'] <:+: rest

section Outside

variable {cs passed text rest : List Char} {kind : Kind}

theorem Lexeme.exists_of_isComment {before after : List Char} (h : Lexeme before text after kind)
    (hkind : kind.isComment = true) : ∃ d more, text = '/' :: d :: more ∧ (d = '/' ∨ d = '*') := by
  cases h with
  | word filled inWord left right called => cases called <;> cases hkind
  | line eq inLine ends => exact ⟨_, _, eq, .inl rfl⟩
  | block eq unclosed => exact ⟨_, _, eq, .inr rfl⟩
  | symbol eq listed alone => cases hkind

/-- There is one way to go on at most. -/
theorem rightUnique_passes : Relator.RightUnique Passes := by
  intro place next next' h h'
  generalize hplace : place = place' at h'
  cases h with
  | @char passed rest c plain =>
    cases h' with
    | char => cases hplace; rfl
    | @comment passed' text rest' kind isComment lexeme =>
      obtain ⟨d, more, rfl, hd⟩ := lexeme.exists_of_isComment isComment
      cases hplace
      obtain ⟨hslash, hstar⟩ := plain rfl d rfl
      exact (hd.elim hslash hstar).elim
  | @comment passed text rest kind isComment lexeme =>
    cases h' with
    | @char passed' rest' c plain =>
      obtain ⟨d, more, rfl, hd⟩ := lexeme.exists_of_isComment isComment
      cases hplace
      obtain ⟨hslash, hstar⟩ := plain rfl d rfl
      exact (hd.elim hslash hstar).elim
    | @comment passed' text' rest' kind' isComment' lexeme' =>
      obtain ⟨rfl, happend⟩ := Prod.mk.inj hplace
      have hfirst := lexeme.first
      rw [happend, lexeme'.first] at hfirst
      cases hfirst
      rfl

/-- No comment can be skipped that is never closed. -/
theorem not_passes_unclosed (h : ¬ ['*', '/'] <:+: rest) (next : List Char × List Char) :
    ¬ Passes (passed, '/' :: '*' :: rest) next := by
  intro hpasses
  have hclose := closeComment_eq_none_iff.2 h
  generalize hplace : (passed, '/' :: '*' :: rest) = place at hpasses
  cases hpasses with
  | char plain =>
    cases hplace
    exact (plain rfl '*' rfl).2 rfl
  | comment isComment lexeme =>
    obtain ⟨rfl, happend⟩ := Prod.mk.inj hplace
    have hfirst := lexeme.first
    simp only [← happend, Token.first, hclose] at hfirst
    cases hfirst

/-- A text without slashes is passed character by character. -/
theorem Outside.append (h : Outside cs passed (text ++ rest)) (hslash : '/' ∉ text) :
    Outside cs (passed ++ text) rest := by
  induction text generalizing passed with
  | nil => rwa [List.append_nil]
  | cons c text ih =>
    obtain ⟨hc, htext⟩ := not_or.1 (mt List.mem_cons.2 hslash)
    have hnext : Outside cs (passed ++ [c]) (text ++ rest) := h.tail (.char fun heq => absurd heq.symm hc)
    have hpassed := ih hnext htext
    rwa [List.append_assoc] at hpassed

/-- A token is passed. -/
theorem Outside.lexeme (h : Outside cs passed (text ++ rest)) (hlexeme : Lexeme passed text rest kind) :
    Outside cs (passed ++ text) rest := by
  cases hlexeme with
  | word filled inWord left right called => exact h.append fun hmem => (inWord '/' hmem).2 (by decide)
  | line eq inLine ends => exact h.tail (.comment (by rfl) (.line eq inLine ends))
  | block eq unclosed => exact h.tail (.comment (by rfl) (.block eq unclosed))
  | symbol eq listed alone =>
    subst eq
    exact h.tail (.char alone)

theorem slash_notMem_of_blank (h : ∀ c ∈ text, c ∈ blanks) : '/' ∉ text :=
  fun hmem => absurd (h '/' hmem) (by decide)

/-- The reader comes to the end of a text that is scanned. -/
theorem Outside.scan_ok {file : Nat} {position : Position} {tokens : List Token} (h : Outside cs passed rest)
    (hdivides : Divides passed rest) (hscan : scan file (Text.size passed) position rest = .ok tokens) :
    Outside cs (passed ++ rest) [] := by
  induction tokens generalizing passed position rest with
  | nil =>
    rw [← List.append_nil rest] at h
    exact h.append (slash_notMem_of_blank fun c hc => isGap_iff.1 (isGap_of_scan_nil hscan c hc))
  | cons token tokens ih =>
    obtain ⟨gap, text, rest, rfl, hgap, hlexeme, -, htokens⟩ := exists_lexeme_of_scan hscan hdivides
    rw [List.append_assoc] at h
    have hafter := (h.append (slash_notMem_of_blank hgap)).lexeme hlexeme
    rw [← Text.size_append, ← List.append_assoc] at htokens
    have hend := ih hafter (hlexeme.divides _) htokens
    rwa [List.append_assoc, List.append_assoc, ← List.append_assoc gap] at hend

/-- The reader comes to the place where scanning stops. -/
theorem Outside.scan_error {file offset : Nat} {position : Position} {e : Error} (h : Outside cs passed rest)
    (hdivides : Divides passed rest) (hoffset : offset = Text.size passed)
    (herror : scan file offset position rest = .error e) :
    ∃ passed' rest', MeetsUnclosed cs passed' rest' ∧
      e = .unclosedComment ⟨file, Text.size passed', Text.size passed' + 2⟩ := by
  fun_induction Token.scan file offset position rest generalizing passed with
  | case1 offset position rest => cases herror
  | case2 offset position rest gap start =>
    rename_i hfirst
    cases herror
    obtain ⟨after, hafter⟩ := exists_of_first_unclosed hfirst
    have hclose : closeComment after = none := by
      rw [← hafter, Token.first] at hfirst
      split at hfirst
      · cases hfirst
      · assumption
    refine ⟨passed ++ gap, after, ⟨?_, closeComment_eq_none_iff.1 hclose⟩, ?_⟩
    · rw [hafter]
      refine Outside.append ?_ (slash_notMem_of_blank fun c hc => isGap_iff.1 (isGap_of_mem_takeWhile hc))
      rwa [List.takeWhile_append_dropWhile]
    · rw [Text.size_append, ← hoffset]
  | case3 offset position rest gap start position' kind text after hfirst stop token =>
    rename_i ih
    cases hscan : Token.scan file stop (position'.advance text) after with
    | ok tokens =>
      rw [hscan] at herror
      cases herror
    | error e' =>
      rw [hscan] at herror
      cases herror
      have hlexeme := lexeme_behind_gap hfirst hdivides
      have hrest : gap ++ (text ++ after) = rest := by
        rw [append_of_first hfirst]
        exact List.takeWhile_append_dropWhile
      rw [← hrest] at h
      have hgap : '/' ∉ gap := slash_notMem_of_blank fun c hc => isGap_iff.1 (isGap_of_mem_takeWhile hc)
      refine ih ((h.append hgap).lexeme hlexeme) (hlexeme.divides _) ?_ hscan
      rw [Text.size_append, Text.size_append, ← hoffset]

/-- The reader who meets a comment that is never closed goes no further, and comes to no other end. -/
theorem MeetsUnclosed.eq_of_outside (h : MeetsUnclosed cs passed rest) {passed' rest' : List Char}
    (houtside : Outside cs passed' rest') (hend : ∀ next, ¬ Passes (passed', rest') next) :
    passed' = passed ∧ rest' = '/' :: '*' :: rest := by
  rcases Relation.ReflTransGen.total_of_right_unique rightUnique_passes houtside h.outside with hpasses | hpasses
  · rcases hpasses.cases_head with heq | ⟨next, hnext, -⟩
    · exact Prod.mk.inj heq
    · exact absurd hnext (hend next)
  · rcases hpasses.cases_head with heq | ⟨next, hnext, -⟩
    · exact Prod.mk.inj heq.symm
    · exact absurd hnext (not_passes_unclosed h.unclosed next)

end Outside

/-! ## The scanner and its specification -/

section Source

variable {file : Nat} {source : String}

theorem ofSource_eq_error_iff {e : Error} :
    ofSource file source = .error e ↔ ∃ passed rest, MeetsUnclosed source.toList passed rest ∧
      e = .unclosedComment ⟨file, Text.size passed, Text.size passed + 2⟩ := by
  have houtside : Outside source.toList [] source.toList := Relation.ReflTransGen.refl
  have hdivides := divides_nil source.toList
  constructor
  · exact houtside.scan_error hdivides rfl
  · rintro ⟨passed, rest, hmeets, rfl⟩
    cases hscan : ofSource file source with
    | ok tokens =>
      have hend (next : List Char × List Char) : ¬ Passes ([] ++ source.toList, []) next := by
        intro hnext
        generalize hplace : ([] ++ source.toList, ([] : List Char)) = place at hnext
        cases hnext with
        | char => cases hplace
        | comment isComment lexeme =>
          obtain ⟨-, happend⟩ := Prod.mk.inj hplace
          exact ne_nil_of_first lexeme.first (List.append_eq_nil_iff.1 happend.symm).1
      cases (hmeets.eq_of_outside (houtside.scan_ok hdivides hscan) hend).2
    | error e =>
      obtain ⟨passed', rest', hmeets', rfl⟩ := houtside.scan_error hdivides rfl hscan
      rw [(hmeets.eq_of_outside hmeets'.outside (not_passes_unclosed hmeets'.unclosed)).1]

theorem map_ofSource_eq_ok_iff {spans : List (Kind × FileRange)} :
    (ofSource file source).map (·.map span) = .ok spans ↔ IsTokenization file source.toList spans := by
  constructor
  · intro h
    cases hscan : ofSource file source with
    | ok tokens =>
      rw [hscan] at h
      cases h
      exact isTokenization_of_scan hscan
    | error e =>
      rw [hscan] at h
      cases h
  · intro h
    obtain ⟨tokens, hscan, rfl⟩ : ∃ tokens, scan file (Text.size []) .first source.toList = .ok tokens ∧
        tokens.map span = spans := @scan_of_isTokenization file .first [] source.toList [] spans h source.toList rfl rfl
    rw [ofSource, ← Text.size_nil, hscan]
    rfl

end Source

/-- The tokens of a text are its only tokenization. A text has tokens just if a reader who skips its comments meets
none that is never closed; otherwise scanning fails at the two characters that start this comment. -/
theorem ofSource_is_tokenization (file : Nat) (source : String) :
    (∀ spans, (ofSource file source).map (·.map span) = .ok spans ↔ IsTokenization file source.toList spans) ∧
    ((∃ tokens, ofSource file source = .ok tokens) ↔
      ∀ passed rest, Outside source.toList passed ('/' :: '*' :: rest) → ['*', '/'] <:+: rest) ∧
    ∀ e, ofSource file source = .error e ↔ ∃ passed rest, MeetsUnclosed source.toList passed rest ∧
      e = .unclosedComment ⟨file, Text.size passed, Text.size passed + 2⟩ := by
  refine ⟨fun spans => map_ofSource_eq_ok_iff, ?_, fun e => ofSource_eq_error_iff⟩
  constructor
  · rintro ⟨tokens, hok⟩ passed rest houtside
    refine Decidable.byContradiction fun hunclosed => ?_
    have herror : ofSource file source = .error _ := ofSource_eq_error_iff.2 ⟨passed, rest, ⟨houtside, hunclosed⟩, rfl⟩
    rw [hok] at herror
    cases herror
  · intro hclosed
    cases hscan : ofSource file source with
    | ok tokens => exact ⟨tokens, rfl⟩
    | error e =>
      obtain ⟨passed, rest, hmeets, -⟩ := ofSource_eq_error_iff.1 hscan
      exact absurd (hclosed passed rest hmeets.outside) hmeets.unclosed

end Idl.Token
