import Idl.Proofs.Quotes
import Idl.Proofs.Shifts

/-!
# Files with an include in front

A line with an include can be put in front of a file. The file then has one more item, and its other items are those
that it had, further on.

* `Token.scan_gap`: blanks in front of a text belong to its first token.
* `Token.exists_scan_quote`: a path in which no comment starts is cut off at its quote.
* `Item.readFrom_behind`: what was read before stands in front of what is read.
* `Item.ofTokens_include`: the items of a file with an include in front of it.
-/

namespace Idl

theorem Text.dropBytes_size_add (cs ds : List Char) (n : Nat) :
    dropBytes (size cs + n) (cs ++ ds) = dropBytes n ds := by
  induction cs with
  | nil => simp
  | cons c cs ih =>
    have hc : 0 < c.utf8Size := c.utf8Size_pos
    obtain ⟨k, hk⟩ : ∃ k, size (c :: cs) + n = k + 1 := ⟨size (c :: cs) + n - 1, by simp only [size_cons]; omega⟩
    have hk' : k + 1 - c.utf8Size = size cs + n := by
      rw [size_cons] at hk
      omega
    rw [hk, List.cons_append, dropBytes, hk', ih]

theorem Text.size_pos {cs : List Char} (h : cs ≠ []) : 0 < size cs := by
  cases cs with
  | nil => exact absurd rfl h
  | cons c cs =>
    have hc : 0 < c.utf8Size := c.utf8Size_pos
    rw [size_cons]
    omega

namespace Token

/-! ## Blanks in front of a text -/

/-- Tokens with more blanks in front of the first one. -/
def lead (gap : List Char) : List Token → List Token
  | [] => []
  | token :: tokens => { token with leading := String.ofList gap ++ token.leading } :: tokens

section Scan

variable {file offset : Nat} {position : Position} {gap cs written after : List Char} {tokens more : List Token}

/-- Blanks in front of a text belong to its first token. -/
theorem scan_gap (h : ∀ c ∈ gap, isGap c = true)
    (hscan : scan file (offset + Text.size gap) (position.advance gap) cs = .ok tokens) :
    scan file offset position (gap ++ cs) = .ok (lead gap tokens) := by
  rw [scan_eq, List.dropWhile_append_of_pos h, List.takeWhile_append_of_pos h]
  rw [scan_eq] at hscan
  cases hfirst : first (cs.dropWhile isGap) with
  | nothing =>
    rw [hfirst] at hscan
    cases hscan
    rfl
  | unclosed =>
    rw [hfirst] at hscan
    cases hscan
  | token kind text rest =>
    rw [hfirst] at hscan
    obtain ⟨more, hmore, heq⟩ := Except.bind_eq_ok.1 hscan
    cases heq
    rw [Nat.add_assoc, ← Text.size_append, ← Position.advance_append, ← List.append_assoc] at hmore
    dsimp only
    rw [hmore]
    simp [lead, cutAt, Bind.bind, Except.bind, Pure.pure, Except.pure, Nat.add_assoc, Position.advance_append,
      String.ofList_append]

theorem scan_of_first {c : Char} {text rest : List Char} {kind : Kind} (hgap : ∀ c ∈ gap, isGap c = true)
    (hc : isGap c = false) (hfirst : first (c :: cs) = .token kind text rest)
    (hscan : scan file (offset + Text.size (gap ++ text)) (position.advance (gap ++ text)) rest = .ok tokens) :
    scan file offset position (gap ++ c :: cs) = .ok (cutAt file offset position kind gap text :: tokens) := by
  have htake : (c :: cs).takeWhile isGap = [] := by simp [hc]
  have hdrop : (c :: cs).dropWhile isGap = c :: cs := by simp [hc]
  rw [scan_eq, List.dropWhile_append_of_pos hgap, List.takeWhile_append_of_pos hgap, htake, hdrop, hfirst,
    List.append_nil]
  dsimp only
  rw [hscan]
  rfl

/-! ## Paths between quotes -/

/-- A path in which no comment starts is cut off at its quote. -/
theorem exists_scan_quote (hplain : IsPlain written) (inLine : ∀ c ∈ written, isLineEnd c = false)
    (hscan : scan file (offset + Text.size written + 1) (position.advance (written ++ ['"'])) after = .ok more) :
    ∃ inside, scan file offset position (written ++ '"' :: after) = .ok (inside ++ more) ∧
      ∀ token ∈ inside, token.range.start < offset + Text.size written + 1 ∧
        token.range.stop ≤ offset + Text.size written + 1 := by
  fun_induction openComment written generalizing offset position with
  | case1 written hfirst =>
    have hdrop := eq_nil_of_first hfirst
    have hgap := List.takeWhile_append_dropWhile (p := isGap) (l := written)
    rw [hdrop, List.append_nil] at hgap
    have hquote : first ('"' :: after) = .token (.mark .doubleQuote) ['"'] after := rfl
    rw [scan_eq, dropWhile_append_stop (by decide), takeWhile_append_stop (by decide), hdrop, List.nil_append, hquote,
      hgap]
    have hsize : offset + Text.size (written ++ ['"']) = offset + Text.size written + 1 := by
      simp [Nat.add_assoc, show '"'.utf8Size = 1 from rfl]
    refine ⟨[cutAt file offset position (.mark .doubleQuote) written ['"']], ?_, ?_⟩
    · dsimp only
      rw [hsize, hscan]
      rfl
    · intro token hmem
      obtain rfl := List.mem_singleton.1 hmem
      simp [cutAt, show '"'.utf8Size = 1 from rfl]
  | case2 written hfirst =>
    exact absurd hfirst (hplain.suffix (List.dropWhile_suffix isGap)).first_ne_unclosed
  | case3 written text rest hfirst hlt =>
    cases (hplain.suffix (List.dropWhile_suffix isGap)).isComment_of_first hfirst
  | case4 written kind text rest hfirst hlt hkind ih =>
    have hgap := List.takeWhile_append_dropWhile (p := isGap) (l := written)
    rw [← append_of_first hfirst, ← List.append_assoc] at hgap
    have hsuffix : rest <:+ written := ⟨_, hgap⟩
    have hquote := first_quote (fun c hc => inLine c ((List.dropWhile_sublist isGap).mem hc)) after
    rw [hfirst] at hquote
    simp only [if_neg hkind] at hquote
    have hsize : Text.size (written.takeWhile isGap ++ text) + Text.size rest = Text.size written := by
      rw [← Text.size_append, hgap]
    have hscan' : scan file (offset + Text.size (written.takeWhile isGap ++ text) + Text.size rest + 1)
        ((position.advance (written.takeWhile isGap ++ text)).advance (rest ++ ['"'])) after = .ok more := by
      rw [Nat.add_assoc offset, hsize, ← Position.advance_append, ← List.append_assoc, hgap]
      exact hscan
    obtain ⟨inside, hinside, hbounds⟩ := ih (hplain.suffix hsuffix) (fun c hc => inLine c (hsuffix.subset hc)) hscan'
    refine ⟨cutAt file offset position kind (written.takeWhile isGap) text :: inside, ?_, ?_⟩
    · rw [scan_eq, dropWhile_append_stop (by decide), takeWhile_append_stop (by decide), hquote]
      dsimp only
      rw [hinside]
      rfl
    · rw [Text.size_append] at hsize hbounds
      refine List.forall_mem_cons.2 ⟨?_, fun token hmem => ?_⟩
      · simp only [cutAt]
        omega
      · have hbound := hbounds token hmem
        omega

end Scan

end Token

namespace Item

/-! ## What was read before -/

/-- The open bodies and the items read so far, with items in front of all of them. -/
def behind (front : List Item) : List Frame → List Item → List Frame × List Item
  | [], before => ([], front ++ before)
  | frame :: frames, before =>
    (⟨frame.opener, (behind front frames frame.before).2⟩ :: (behind front frames frame.before).1, before)

section Behind

variable (front : List Item)

theorem behind_append (frames : List Frame) (before items : List Item) :
    behind front frames (before ++ items) =
      ((behind front frames before).1, (behind front frames before).2 ++ items) := by
  cases frames with
  | nil => simp [behind]
  | cons frame frames => rfl

theorem abandon_behind (frames : List Frame) (body : List Item) :
    (behind front frames body).1.foldl Frame.abandon (behind front frames body).2 =
      front ++ frames.foldl Frame.abandon body := by
  induction frames generalizing body with
  | nil => rfl
  | cons frame frames ih =>
    rw [behind, List.foldl_cons, List.foldl_cons, ← ih]
    simp only [Frame.abandon, behind_append]

theorem ended_behind (finish : FileRange) (frames : List Frame) (items : List Item) :
    ended finish (behind front frames items).1 (behind front frames items).2 = front ++ ended finish frames items := by
  cases frames with
  | nil => rfl
  | cons frame frames =>
    have habandon := abandon_behind front (frame :: frames)
      (items ++ [.fault none (.unexpectedEnd finish frame.opener.closerText)])
    rwa [behind_append] at habandon

theorem closing?_behind (head : Token) (frames : List Frame) (items : List Item) :
    closing? head (behind front frames items).1 = (closing? head frames).map fun closed =>
      (⟨closed.1.opener, (behind front closed.2 closed.1.before).2⟩, (behind front closed.2 closed.1.before).1) := by
  cases frames with
  | nil => rfl
  | cons frame frames =>
    simp only [behind, closing?]
    split <;> rfl

/-- What was read before stands in front of what is read. -/
theorem readFrom_behind (source : SourceText) (frames : List Frame) (before : List Item) (c : Cursor) :
    readFrom source (behind front frames before).1 (behind front frames before).2 c =
      front ++ readFrom source frames before c := by
  have hpassed (frames : List Frame) (before items : List Item) :
      (behind front frames before).1 = (behind front frames (before ++ items)).1 ∧
        (behind front frames before).2 ++ items = (behind front frames (before ++ items)).2 := by
    rw [behind_append]
    exact ⟨rfl, rfl⟩
  fun_induction readFrom source frames before c with
  | case1 frames before c items hs =>
    obtain ⟨hframes, hitems⟩ := hpassed frames before (c.skip.comments.map .comment)
    rw [readFrom_eq, hitems, hframes, hs]
    exact ended_behind front source.finish frames items
  | case2 frames before c items head tokens hs hlt frame outer hclosing item rest hclose hle hrest ih =>
    obtain rfl := eq_cons_of_closing hclosing
    rw [readFrom_eq, hs]
    dsimp only
    rw [closing?_behind, hclosing]
    simp only [Option.map_some, behind]
    rw [hclose, ← ih, behind_append]
  | case3 frames before c items head tokens hs hlt frame outer hclosing item hclose =>
    obtain rfl := eq_cons_of_closing hclosing
    rw [readFrom_eq, hs]
    dsimp only
    rw [closing?_behind, hclosing]
    simp only [Option.map_some, behind]
    rw [hclose, ← abandon_behind, behind_append]
  | case4 frames before c items head tokens hs hlt hclosing read rest hstep hle hrest ih =>
    obtain ⟨hframes, hitems⟩ := hpassed frames before (c.skip.comments.map .comment)
    rw [readFrom_eq, hitems, hframes, hs]
    dsimp only
    rw [closing?_behind, hclosing]
    simp only [Option.map_none, hstep]
    rw [← ih, behind_append front frames items]
  | case5 frames before c items head tokens hs hlt hclosing opener rest hstep hle hrest ih =>
    obtain ⟨hframes, hitems⟩ := hpassed frames before (c.skip.comments.map .comment)
    rw [readFrom_eq, hitems, hframes, hs]
    dsimp only
    rw [closing?_behind, hclosing]
    simp only [Option.map_none, hstep]
    rw [← ih]
    rfl
  | case6 frames before c items head tokens hs hlt hclosing item hstep =>
    obtain ⟨hframes, hitems⟩ := hpassed frames before (c.skip.comments.map .comment)
    rw [readFrom_eq, hitems, hframes, hs]
    dsimp only
    rw [closing?_behind, hclosing]
    simp only [Option.map_none, hstep]
    rw [← abandon_behind, behind_append front frames items]

end Behind

/-! ## Includes -/

section Include

variable {source : SourceText} {passed written after : List Char} {quote : Token} {inside more : List Token}

/-- The path of an include, and the quote behind it, are passed over. -/
theorem includeStep_quoted (head : Token) (hsource : source.chars = passed ++ (written ++ '"' :: '\n' :: after))
    (hkind : quote.kind = .mark .doubleQuote) (hstop : quote.range.stop = Text.size passed)
    (inLine : ∀ c ∈ written, c ≠ '"' ∧ Token.isLineEnd c = false)
    (hinside : ∀ token ∈ inside, token.range.start < Text.size passed + Text.size written + 1 ∧
      token.range.stop ≤ Text.size passed + Text.size written + 1)
    (hmore : ∀ token ∈ more, Text.size passed + Text.size written + 1 ≤ token.range.start) :
    includeStep source head (quote :: (inside ++ more)) =
      .items [.include head (String.ofList written)
        ⟨head.range.file, head.range.start, Text.size passed + Text.size written + 1⟩] ⟨more, []⟩ := by
  have hrest : Text.dropBytes (Text.size passed) source.chars = written ++ '"' :: '\n' :: after := by
    rw [hsource]
    exact Text.dropBytes_size_append ..
  have hline : (written ++ '"' :: '\n' :: after).takeWhile (!Token.isLineEnd ·) = written ++ ['"'] := by
    rw [List.takeWhile_append_of_pos fun c hc => by simp [(inLine c hc).2]]
    rfl
  have hwritten : (written ++ ['"']).takeWhile (· ≠ '"') = written := by
    rw [List.takeWhile_append_of_pos fun c hc => by simp [(inLine c hc).1]]
    simp
  have hsize : Text.size (written ++ ['"']) = Text.size written + 1 := by simp [show '"'.utf8Size = 1 from rfl]
  have hlater : ∀ token ∈ more.head?,
      decide (token.range.start < Text.size passed + Text.size written + 1) = false := by
    intro token hmem
    have := hmore token (List.mem_of_mem_head? hmem)
    simp only [decide_eq_false_iff_not]
    omega
  have hpassed := fun token hmem => decide_eq_true (hinside token hmem).1
  have htake : (inside ++ more).takeWhile (·.range.start < Text.size passed + Text.size written + 1) = inside := by
    rw [List.takeWhile_append_of_pos hpassed]
    cases more with
    | nil => simp
    | cons token more =>
      rw [List.takeWhile_cons_of_neg (by rw [hlater token rfl]; exact Bool.false_ne_true), List.append_nil]
  have hdrop : (inside ++ more).dropWhile (·.range.start < Text.size passed + Text.size written + 1) = more := by
    rw [List.dropWhile_append_of_pos hpassed]
    cases more with
    | nil => rfl
    | cons token more => rw [List.dropWhile_cons_of_neg (by rw [hlater token rfl]; exact Bool.false_ne_true)]
  have hfind : inside.find? (Text.size passed + (Text.size written + 1) < ·.range.stop) = none := by
    rw [List.find?_eq_none]
    intro token hmem
    have := (hinside token hmem).2
    simp only [decide_eq_true_eq]
    omega
  unfold includeStep
  dsimp only
  rw [if_neg (by simp [hkind]), hstop, hrest, hline, if_neg (by simp), hwritten, hsize, htake, hfind, hdrop]

end Include

end Item

/-! ## Files further on -/

/-- The file stands below a line, and the token that starts at `start`, if it is no comment, has the end of the line in
front of it. -/
def Shift.below (line : List Char) (start : Nat) : Shift where
  file := id
  injective _ _ h := h
  offset := Text.size line
  leading token :=
    if token.kind.isComment = false ∧ token.range.start = start then "\n" ++ token.leading else token.leading
  leading_eq token h := by simp [h]
  position token := (Position.first.advance line).after token.position

/-- A text below a line. -/
theorem Shift.fits_below (file : Nat) (line text : String) (start : Nat) :
    (below line.toList start).Fits (.ofFile file text) (.ofFile file (line ++ text)) := by
  constructor
  · simp [SourceText.ofFile, FileRange.point, range, below, String.toList_append]
  · intro n
    simp only [SourceText.ofFile, String.toList_append, below]
    exact Text.dropBytes_size_add ..

section Below

variable {file : Nat} {cs line : List Char} {tokens : List Token}

/-- The tokens of a text below a line, if its first token is no comment. -/
theorem Shift.map_below (h : Token.scan file 0 .first cs = .ok tokens)
    (hfirst : ∀ token ∈ tokens.head?, token.kind.isComment = false) :
    Token.lead ['\n'] (tokens.map (Token.move (Text.size line) (Position.first.advance line))) =
      tokens.map (below line ((tokens.head?.map (·.range.start)).getD 0)).token := by
  cases tokens with
  | nil => rfl
  | cons first tokens =>
    obtain ⟨kind, gap, text, rest, -, -, htext, rfl, hrest⟩ := Token.exists_of_scan_cons h
    have hpos := Text.size_pos (Token.ne_nil_of_first htext)
    have hcomment := hfirst _ rfl
    rw [List.map_cons, List.map_cons, Token.lead]
    congr 1
    · simp [token, below, hcomment, Token.move, range]
    · refine List.map_congr_left fun t ht => ?_
      have hle := Token.le_start_of_scan hrest ht
      have hstart : t.range.start ≠ 0 + Text.size gap := by
        rw [Text.size_append] at hle
        omega
      simp only [token, below, List.head?_cons, Option.map_some, Option.getD_some, Token.cutAt, hstart, and_false,
        if_false]
      rfl

end Below

/-- What stands in front of the path of an include. -/
def includeOpening : String := "#include \""

/-- A line with an include. -/
def includeLine (written : String) : String := includeOpening ++ written ++ "\"\n"

theorem toList_includeLine (written : String) :
    (includeLine written).toList = includeOpening.toList ++ (written.toList ++ ['"']) ++ ['\n'] := by
  simp [includeLine, String.toList_append]

/-- The tokens of a text behind another one. -/
theorem Token.scan_behind {file : Nat} {cs : List Char} {tokens : List Token}
    (h : scan file 0 .first cs = .ok tokens) (passed : List Char) :
    scan file (Text.size passed) (Position.first.advance passed) cs =
      .ok (tokens.map (move (Text.size passed) (Position.first.advance passed))) := by
  have hmove := scan_move file 0 Position.counted_first (Text.size passed) (Position.first.advance passed) cs
  rw [Nat.add_zero, Position.after_first, h] at hmove
  exact toOption_eq_some.1 hmove

/-- The item of an include stands in front of the items behind it. -/
theorem Item.readFrom_include {source : SourceText} {head : Token} {tokens : List Token} {read : List Item}
    {more : List Token} (hkind : head.kind = .directive .include)
    (hstep : includeStep source head tokens = .items read ⟨more, []⟩) :
    ofTokens source (head :: tokens) = read ++ ofTokens source more := by
  have hskip : (⟨head :: tokens, []⟩ : Cursor).skip = ⟨head :: tokens, []⟩ := by
    simp [Cursor.skip, hkind, Token.Kind.isComment]
  have hinclude : step source head ⟨tokens, []⟩ = .items read ⟨more, []⟩ := by
    unfold step
    rw [hkind]
    exact hstep
  have hbehind := readFrom_behind read source [] [] ⟨more, []⟩
  rw [ofTokens, readFrom_eq, hskip]
  dsimp only [closing?]
  rw [hinclude]
  simpa [behind, ofTokens] using hbehind

section IncludeLine

variable {file : Nat} {text written : String} {tokens : List Token}

/-- The tokens of a file with an include in front of it: the directive, the quote, those in the path, and those of the
file. -/
theorem Token.ofSource_includeLine (hplain : IsPlain written.toList)
    (inLine : ∀ c ∈ written.toList, c ≠ '"' ∧ isLineEnd c = false) (lexed : ofSource file text = .ok tokens)
    (hfirst : ∀ token ∈ tokens.head?, token.kind.isComment = false) :
    ∃ (head quote : Token) (inside : List Token) (start : Nat),
      ofSource file (includeLine written ++ text) =
        .ok (head :: quote :: (inside ++ tokens.map (Shift.below (includeLine written).toList start).token)) ∧
      head.kind = .directive .include ∧ quote.kind = .mark .doubleQuote ∧
      quote.range.stop = Text.size includeOpening.toList ∧
      ∀ token ∈ inside, token.range.start < Text.size includeOpening.toList + Text.size written.toList + 1 ∧
        token.range.stop ≤ Text.size includeOpening.toList + Text.size written.toList + 1 := by
  have hline := toList_includeLine written
  -- the file below the line, with the end of the line in front of it
  have hbelow := scan_behind lexed (includeLine written).toList
  rw [hline, Text.size_append, Position.advance_append] at hbelow
  have hend := scan_gap (List.forall_mem_singleton.2 rfl) hbelow
  rw [← Text.size_append, ← Position.advance_append, ← hline, Shift.map_below lexed hfirst] at hend
  -- the path, with the opening quote and the directive in front of it
  have hsize : Text.size (includeOpening.toList ++ (written.toList ++ ['"'])) =
      Text.size includeOpening.toList + Text.size written.toList + 1 := by
    simp [Nat.add_assoc, show '"'.utf8Size = 1 from rfl]
  rw [hsize, Position.advance_append] at hend
  obtain ⟨inside, hinside, hbounds⟩ := exists_scan_quote hplain (fun c hc => (inLine c hc).2) hend
  let directive := ['#', 'i', 'n', 'c', 'l', 'u', 'd', 'e']
  let quote := cutAt file (0 + Text.size directive) (Position.first.advance directive) (.mark .doubleQuote) [' '] ['"']
  have hquote : scan file (0 + Text.size directive) (Position.first.advance directive)
      ([' '] ++ '"' :: (written.toList ++ '"' :: (['\n'] ++ text.toList))) = .ok (quote :: _) :=
    scan_of_first (List.forall_mem_singleton.2 rfl) rfl rfl hinside
  have hdirective (rest : List Char) : first (directive ++ ' ' :: rest) =
    .token (.directive .include) directive (' ' :: rest) := rfl
  have hchars : (includeLine written ++ text).toList =
      directive ++ ' ' :: ('"' :: (written.toList ++ '"' :: (['\n'] ++ text.toList))) := by
    simp [String.toList_append, hline, includeOpening, directive]
  refine ⟨cutAt file 0 .first (.directive .include) [] directive, quote, inside,
    (tokens.head?.map (·.range.start)).getD 0, ?_, rfl, rfl, rfl, hbounds⟩
  rw [ofSource, hchars]
  exact scan_of_first (List.forall_mem_nil _) rfl (hdirective _) hquote

/-- A file with an include in front of it has one more item. The others are those of the file, further on. -/
theorem Item.ofTokens_include (hplain : Token.IsPlain written.toList)
    (inLine : ∀ c ∈ written.toList, c ≠ '"' ∧ Token.isLineEnd c = false) (lexed : Token.ofSource file text = .ok tokens)
    (hfirst : ∀ token ∈ tokens.head?, token.kind.isComment = false) :
    ∃ (tokens' : List Token) (head : Token) (range : FileRange) (σ : Shift),
      Token.ofSource file (includeLine written ++ text) = .ok tokens' ∧
        ofTokens (.ofFile file (includeLine written ++ text)) tokens' =
          .include head written range :: σ.items (ofTokens (.ofFile file text) tokens) := by
  obtain ⟨head, quote, inside, start, hlexed, hhead, hquote, hstop, hinside⟩ :=
    Token.ofSource_includeLine hplain inLine lexed hfirst
  have hsource : (SourceText.ofFile file (includeLine written ++ text)).chars =
      includeOpening.toList ++ (written.toList ++ '"' :: '\n' :: text.toList) := by
    simp [SourceText.ofFile, String.toList_append, toList_includeLine]
  have hlater : ∀ token ∈ tokens.map (Shift.below (includeLine written).toList start).token,
      Text.size includeOpening.toList + Text.size written.toList + 1 ≤ token.range.start := by
    intro token hmem
    obtain ⟨token, -, rfl⟩ := List.mem_map.1 hmem
    simp only [Shift.range_token, Shift.range, Shift.below, toList_includeLine, Text.size_append, Text.size_cons,
      Text.size_nil, show '"'.utf8Size = 1 from rfl]
    omega
  have hstep := includeStep_quoted head hsource hquote hstop inLine hinside hlater
  have hitems := readFrom_include hhead hstep
  rw [Shift.ofTokens _ (Shift.fits_below ..), String.ofList_toList] at hitems
  exact ⟨_, head, _, _, hlexed, hitems⟩

end IncludeLine

end Idl
