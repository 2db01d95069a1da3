import Idl.Output.Batch
import Idl.Proofs.Lexing
import Idl.Proofs.Steps

/-!
# Paths between quotes

The path of an include directive is the text between two quotes, whereas the tokens were cut without
regard to quotes. A comment that the path opens can therefore reach over the closing quote.

* `Token.openComment written`: the comment that is open where the path ends.
* `Token.swallowed written after`: the text after the quote that this comment takes in.
* `Token.exists_of_scan_quote`: the tokens behind the quote are those of the text that is left.
* `Item.include_reads_quoted`: an include directive takes the text between its quotes, and reading goes on
  with all tokens behind it just if the swallowed text is blank.
-/

namespace Idl

namespace Token

/-! ## Texts with a quote in them -/

theorem takeWhile_append_stop {α : Type} {p : α → Bool} {stop : α} (h : p stop = false) (cs after : List α) :
    (cs ++ stop :: after).takeWhile p = cs.takeWhile p := by
  induction cs with
  | nil => simp [h]
  | cons c cs ih =>
    cases hc : p c with
    | false => simp [hc]
    | true => simp [hc, ih]

theorem dropWhile_append_stop {α : Type} {p : α → Bool} {stop : α} (h : p stop = false) (cs after : List α) :
    (cs ++ stop :: after).dropWhile p = cs.dropWhile p ++ stop :: after := by
  induction cs with
  | nil => simp [h]
  | cons c cs ih =>
    cases hc : p c with
    | false => simp [hc]
    | true => simp [hc, ih]

/-- A quote closes no comment, so one that is open goes on behind it. -/
theorem closeComment_quote {cs : List Char} (h : closeComment cs = none) (after : List Char) :
    closeComment (cs ++ '"' :: after) =
      (closeComment after).map fun (comment, rest) => (cs ++ '"' :: comment, rest) := by
  fun_induction closeComment cs with
  | case1 => rfl
  | case2 cs => cases h
  | case3 c cs hstar ih =>
    have hnone : closeComment cs = none := Option.map_eq_none_iff.1 h
    have hstar' : ∀ cs', c = '*' → cs ++ '"' :: after = '/' :: cs' → False := by
      intro cs' hc heq
      cases cs with
      | nil => simp at heq
      | cons d cs =>
        obtain ⟨rfl, -⟩ := List.cons.inj heq
        exact hstar cs hc rfl
    rw [List.cons_append, closeComment.eq_3 _ _ hstar', ih hnone, Option.map_map]
    rfl

theorem ofWord_ne_lineComment (word : List Char) : Kind.ofWord word ≠ .lineComment := by
  intro h
  have hword := isComment_ofWord word
  rw [h] at hword
  cases hword

/-- The first token of a text with a quote behind it, by that of the text. -/
theorem first_quote {cs : List Char} (inLine : ∀ c ∈ cs, isLineEnd c = false) (after : List Char) :
    first (cs ++ '"' :: after) = match first cs with
      | .nothing => .token (.mark .doubleQuote) ['"'] after
      | .unclosed => match closeComment after with
        | some (comment, rest) => .token .blockComment (cs ++ '"' :: comment) rest
        | none => .unclosed
      | .token kind text rest =>
        if kind = .lineComment then
          .token .lineComment (cs ++ '"' :: after.takeWhile (!isLineEnd ·)) (after.dropWhile (!isLineEnd ·))
        else .token kind text (rest ++ '"' :: after) := by
  fun_cases first cs with
  | case1 => rfl
  | case2 cs =>
    have hcs : ∀ c ∈ cs, (!isLineEnd c) = true := fun c hc => by
      simp [inLine c (List.mem_cons_of_mem _ (List.mem_cons_of_mem _ hc))]
    simp only [List.cons_append, first, List.takeWhile_append_of_pos hcs, List.dropWhile_append_of_pos hcs, if_true]
    rfl
  | case3 cs comment rest hclose => simp [first, closeComment_append hclose]
  | case4 cs hclose =>
    simp only [List.cons_append, first, closeComment_quote hclose]
    cases closeComment after with
    | none => rfl
    | some closed => rfl
  | case5 c cs hline hblock mark hmark =>
    rw [List.cons_append, first.eq_4 _ _ (behind hline (by decide)) (behind hblock (by decide)), hmark]
    simp
  | case6 c cs hline hblock hmark word =>
    have hstop : isWordChar '"' = false := by decide
    rw [List.cons_append, first.eq_4 _ _ (behind hline (by decide)) (behind hblock (by decide)), hmark]
    simp [takeWhile_append_stop hstop, dropWhile_append_stop hstop, ofWord_ne_lineComment, word]
where
  /-- A quote is no second character of a comment. -/
  behind {c d : Char} {cs : List Char} (h : ∀ cs', c = '/' → cs = d :: cs' → False) (hd : d ≠ '"') :
      ∀ cs', c = '/' → cs ++ '"' :: after = d :: cs' → False := by
    intro cs' hc heq
    cases cs with
    | nil => exact hd (List.cons.inj heq).1.symm
    | cons e cs =>
      obtain ⟨rfl, -⟩ := List.cons.inj heq
      exact h cs hc rfl

/-! ## Comments that reach over a quote -/

/-- The comment that is open at the end of a text without line ends. -/
def openComment (cs : List Char) : Option Kind :=
  match hfirst : first (cs.dropWhile isGap) with
  | .nothing => none
  | .unclosed => some .blockComment
  | .token kind _ rest =>
    have : rest.length < cs.length :=
      Nat.lt_of_lt_of_le (length_lt_of_first hfirst) (List.dropWhile_sublist isGap).length_le
    if kind = .lineComment then some .lineComment else openComment rest
termination_by cs.length

theorem openComment_eq (cs : List Char) :
    openComment cs = match first (cs.dropWhile isGap) with
      | .nothing => none
      | .unclosed => some .blockComment
      | .token kind _ rest => if kind = .lineComment then some .lineComment else openComment rest := by
  rw [openComment]
  split <;> rename_i hfirst <;> simp only [hfirst]

/-- The text after a quote that belongs to a comment that is open in front of it. -/
def swallowed (written after : List Char) : List Char :=
  match openComment written with
  | none => []
  | some .lineComment => after.takeWhile (!isLineEnd ·)
  | some _ => ((closeComment after).map (·.1)).getD after

/-- A text in which no comment starts. -/
structure IsPlain (cs : List Char) : Prop where
  noLine : ¬ ['/', '/'] <:+: cs
  noBlock : ¬ ['/', '*'] <:+: cs

theorem IsPlain.suffix {cs ds : List Char} (h : IsPlain cs) (hsuffix : ds <:+ cs) : IsPlain ds :=
  ⟨fun hpart => h.noLine (hpart.trans hsuffix.isInfix), fun hpart => h.noBlock (hpart.trans hsuffix.isInfix)⟩

theorem IsPlain.first_ne_unclosed {cs : List Char} (h : IsPlain cs) : first cs ≠ .unclosed := by
  intro hfirst
  obtain ⟨after, hafter⟩ := exists_of_first_unclosed hfirst
  exact h.noBlock ⟨[], after, hafter⟩

theorem IsPlain.isComment_of_first {cs text rest : List Char} {kind : Kind} (h : IsPlain cs)
    (hfirst : first cs = .token kind text rest) : kind.isComment = false := by
  cases hkind : kind.isComment with
  | false => rfl
  | true =>
    have hcs := append_of_first hfirst
    cases Token.isComment_of_first hfirst hkind with
    | line inLine => exact absurd ⟨[], _, hcs⟩ h.noLine
    | block closed => exact absurd ⟨[], _, hcs⟩ h.noBlock

section Quote

variable {file offset : Nat} {position : Position} {written after : List Char} {tokens : List Token}

/-- How the tokens of a path with its quote are divided: those that start in front of the end of the quote, and
those of the text that is not swallowed. -/
def DividesAt (file offset : Nat) (position : Position) (written after : List Char) (tokens : List Token) : Prop :=
  ∃ inside more rest, tokens = inside ++ more ∧
    (∀ token ∈ inside, token.range.start < offset + Text.size written + 1) ∧
    (IsPlain written → ∀ token ∈ inside, token.kind.isComment = false) ∧ swallowed written after ++ rest = after ∧
    scan file (offset + Text.size (written ++ '"' :: swallowed written after))
      (position.advance (written ++ '"' :: swallowed written after)) rest = .ok more

/-- The first token may be the one that reaches over the quote. -/
theorem dividesAt_of_first (kind : Kind) (rest : List Char)
    (hfirst : first (written.dropWhile isGap ++ '"' :: after) =
      .token kind (written.dropWhile isGap ++ '"' :: swallowed written after) rest)
    (hkind : IsPlain (written.dropWhile isGap) → kind.isComment = false)
    (h : scan file offset position (written ++ '"' :: after) = .ok tokens) :
    DividesAt file offset position written after tokens := by
  have hgap := List.takeWhile_append_dropWhile (p := isGap) (l := written)
  have hrest := append_of_first hfirst
  simp only [List.append_assoc, List.append_cancel_left_eq, List.cons_append, List.cons.injEq, true_and] at hrest
  rw [scan_eq, dropWhile_append_stop (by decide), takeWhile_append_stop (by decide), hfirst] at h
  obtain ⟨more, hmore, heq⟩ := Except.bind_eq_ok.1 h
  cases heq
  rw [← List.append_assoc, hgap] at hmore
  refine ⟨[_], more, rest, rfl, ?_, ?_, hrest, hmore⟩
  · intro token hmem
    obtain rfl := List.mem_singleton.1 hmem
    have hsize := congrArg Text.size hgap
    rw [Text.size_append] at hsize
    simp only [cutAt]
    omega
  · intro hplain token hmem
    obtain rfl := List.mem_singleton.1 hmem
    exact hkind (hplain.suffix (List.dropWhile_suffix _))

theorem dividesAt_of_scan (inLine : ∀ c ∈ written, isLineEnd c = false)
    (h : scan file offset position (written ++ '"' :: after) = .ok tokens) :
    DividesAt file offset position written after tokens := by
  have inLine' : ∀ c ∈ written.dropWhile isGap, isLineEnd c = false :=
    fun c hc => inLine c ((List.dropWhile_sublist isGap).mem hc)
  have hquote := first_quote inLine' after
  -- the cases are those of the first token of the path
  fun_induction openComment written generalizing offset position tokens with
  | case1 written hfirst =>
    have hopen : openComment written = none := by rw [openComment_eq, hfirst]
    rw [hfirst] at hquote
    refine dividesAt_of_first (.mark .doubleQuote) after ?_ (fun _ => rfl) h
    rw [hquote, swallowed, hopen, eq_nil_of_first hfirst]
    rfl
  | case2 written hfirst =>
    have hopen : openComment written = some .blockComment := by rw [openComment_eq, hfirst]
    rw [hfirst] at hquote
    cases hclose : closeComment after with
    | none =>
      rw [scan_eq, dropWhile_append_stop (by decide), hquote, hclose] at h
      cases h
    | some closed =>
      refine dividesAt_of_first .blockComment closed.2 ?_ (fun hplain => absurd hfirst hplain.first_ne_unclosed) h
      rw [hquote, swallowed, hopen, hclose]
      rfl
  | case3 written text rest hfirst hlt =>
    have hopen : openComment written = some .lineComment := by
      rw [openComment_eq, hfirst]
      exact if_pos rfl
    rw [hfirst] at hquote
    refine dividesAt_of_first .lineComment (after.dropWhile (!isLineEnd ·)) ?_ (·.isComment_of_first hfirst) h
    rw [hquote, swallowed, hopen]
    exact if_pos rfl
  | case4 written kind text rest hfirst hlt hkind ih =>
    have hopen : openComment written = openComment rest := by
      rw [openComment_eq, hfirst]
      exact if_neg hkind
    have hswallowed : swallowed written after = swallowed rest after := by rw [swallowed, hopen, swallowed]
    have hgap := List.takeWhile_append_dropWhile (p := isGap) (l := written)
    rw [← append_of_first hfirst, ← List.append_assoc] at hgap
    rw [hfirst] at hquote
    rw [scan_eq, dropWhile_append_stop (by decide), takeWhile_append_stop (by decide), hquote] at h
    simp only [if_neg hkind] at h
    obtain ⟨tokens', htokens, heq⟩ := Except.bind_eq_ok.1 h
    cases heq
    have hrest : ∀ c ∈ rest, isLineEnd c = false := fun c hc => inLine c (by rw [← hgap]; simp [hc])
    have hrest' : ∀ c ∈ rest.dropWhile isGap, isLineEnd c = false :=
      fun c hc => hrest c ((List.dropWhile_sublist isGap).mem hc)
    obtain ⟨inside, more, left, rfl, hinside, hplain, hleft, hmore⟩ :=
      ih hrest htokens hrest' (first_quote hrest' after)
    have hsize := congrArg Text.size hgap
    rw [Text.size_append] at hsize
    refine ⟨_ :: inside, more, left, rfl, ?_, ?_, hswallowed ▸ hleft, ?_⟩
    · intro token hmem
      cases hmem with
      | head =>
        rw [Text.size_append] at hsize
        simp only [cutAt]
        omega
      | tail _ hmem =>
        have := hinside token hmem
        omega
    · intro hwritten token hmem
      have hdrop := hwritten.suffix (List.dropWhile_suffix isGap)
      cases hmem with
      | head => exact hdrop.isComment_of_first hfirst
      | tail _ hmem => exact hplain (hdrop.suffix ⟨text, append_of_first hfirst⟩) token hmem
    · rw [hswallowed, ← hgap, List.append_assoc, Text.size_append, ← Nat.add_assoc, Position.advance_append]
      exact hmore

/-- The tokens behind the quote are those that do not start in front of its end. -/
theorem DividesAt.dropWhile (h : DividesAt file offset position written after tokens) :
    ∃ inside rest, tokens = inside ++ tokens.dropWhile (·.range.start < offset + Text.size written + 1) ∧
      (IsPlain written → ∀ token ∈ inside, token.kind.isComment = false) ∧ swallowed written after ++ rest = after ∧
      scan file (offset + Text.size (written ++ '"' :: swallowed written after))
        (position.advance (written ++ '"' :: swallowed written after)) rest =
          .ok (tokens.dropWhile (·.range.start < offset + Text.size written + 1)) := by
  obtain ⟨inside, more, rest, rfl, hinside, hplain, hrest, hmore⟩ := h
  have hstart : ∀ token ∈ more, offset + Text.size written + 1 ≤ token.range.start := by
    intro token hmem
    have := le_start_of_scan hmore hmem
    simp only [Text.size_append, Text.size_cons, show '"'.utf8Size = 1 from rfl] at this
    omega
  have hdrop : (inside ++ more).dropWhile (·.range.start < offset + Text.size written + 1) = more := by
    rw [List.dropWhile_append_of_pos (fun token hmem => decide_eq_true (hinside token hmem))]
    cases more with
    | nil => rfl
    | cons token more =>
      refine List.dropWhile_cons_of_neg ?_
      have := hstart token List.mem_cons_self
      simp only [decide_eq_true_eq]
      omega
  rw [hdrop]
  exact ⟨inside, rest, rfl, hplain, hrest, hmore⟩

end Quote

end Token

/-! ## Include directives -/

namespace Item

open Token

section Include

variable {file : Nat} {position : Position} {source : SourceText} {passed cs : List Char} {head quote : Token}
  {tokens : List Token} {read : List Item} {rest : Cursor}

/-- The token of a quote is a quote. -/
theorem eq_quote_of_first {text rest : List Char} (h : first cs = .token (.mark .doubleQuote) text rest) :
    text = ['"'] := by
  fun_cases first cs with
  | case1 => cases h
  | case2 cs => cases h
  | case3 cs comment rest' hclose => simp [first, hclose] at h
  | case4 cs hclose => simp [first, hclose] at h
  | case5 c cs hline hblock mark hmark =>
    rw [first.eq_4 _ _ hline hblock, hmark] at h
    cases h
    have hchar := List.find?_some hmark
    rw [← eq_of_beq hchar]
    rfl
  | case6 c cs hline hblock hmark word =>
    rw [first.eq_4 _ _ hline hblock, hmark] at h
    simp only [First.token.injEq] at h
    obtain ⟨hkind, -, -⟩ := h
    unfold Kind.ofWord at hkind
    split at hkind
    · cases hkind
    · split at hkind <;> cases hkind

/-- A path between quotes, and where reading goes on behind it. -/
structure Quoted (file offset : Nat) (position : Position) (cs : List Char) (tokens : List Token)
    (gap written after : List Char) (more : List Token) : Prop where
  text : gap ++ '"' :: (written ++ '"' :: after) = cs
  blank : ∀ c ∈ gap, isGap c = true
  inLine : ∀ c ∈ written, c ≠ '"' ∧ isLineEnd c = false
  /-- The tokens that are passed over. -/
  inside : ∃ inside, tokens = inside ++ more ∧ (IsPlain written → ∀ token ∈ inside, token.kind.isComment = false)
  /-- The tokens that are left. -/
  outside : ∃ rest, swallowed written after ++ rest = after ∧
    scan file (offset + Text.size (gap ++ '"' :: (written ++ '"' :: swallowed written after)))
      (position.advance (gap ++ '"' :: (written ++ '"' :: swallowed written after))) rest = .ok more

/-- A line with a quote in it is cut at the first one. -/
theorem exists_of_mem_line {line : List Char} (h : '"' ∈ line.takeWhile (!isLineEnd ·)) :
    ∃ after, (line.takeWhile (!isLineEnd ·)).takeWhile (· ≠ '"') ++ '"' :: after = line := by
  induction line with
  | nil => cases h
  | cons c line ih =>
    cases hc : isLineEnd c with
    | true => simp [hc] at h
    | false =>
      by_cases hquote : c = '"'
      · subst hquote
        exact ⟨line, by simp [hc]⟩
      · have hmem : '"' ∈ line.takeWhile (!isLineEnd ·) := by simpa [hc, Ne.symm hquote] using h
        obtain ⟨after, hafter⟩ := ih hmem
        refine ⟨after, ?_⟩
        simp only [List.takeWhile_cons, hc, Bool.not_false, if_true, ne_eq, hquote, not_false_eq_true, decide_true,
          List.cons_append, List.cons.injEq, true_and]
        exact hafter

theorem quoted_of_scan {offset : Nat} {gap written after : List Char} (blank : ∀ c ∈ gap, isGap c = true)
    (inLine : ∀ c ∈ written, c ≠ '"' ∧ isLineEnd c = false) (hkind : quote.kind = .mark .doubleQuote)
    (h : scan file (offset + Text.size (gap ++ ['"'])) (position.advance (gap ++ ['"'])) (written ++ '"' :: after) =
      .ok tokens) :
    Quoted file offset position (gap ++ ['"'] ++ (written ++ '"' :: after)) (quote :: tokens) gap written after
      (tokens.dropWhile (·.range.start < offset + Text.size (gap ++ ['"']) + Text.size written + 1)) := by
  obtain ⟨inside, rest, hinside, hplain, hrest, hmore⟩ :=
    (dividesAt_of_scan (fun c hc => (inLine c hc).2) h).dropWhile
  refine ⟨by simp, blank, inLine, ⟨quote :: inside, ?_, ?_⟩, rest, hrest, ?_⟩
  · rw [List.cons_append, ← hinside]
  · intro hwritten token hmem
    cases hmem with
    | head => rw [hkind]; rfl
    | tail _ hmem => exact hplain hwritten token hmem
  · have happend : gap ++ '"' :: (written ++ '"' :: swallowed written after) =
        gap ++ ['"'] ++ (written ++ '"' :: swallowed written after) := by simp
    rw [happend, Text.size_append, ← Nat.add_assoc, Position.advance_append]
    exact hmore

/-- An include directive is accepted with the text between its quotes as the path. -/
theorem exists_of_includeStep (hsource : source.chars = passed ++ cs)
    (hscan : scan file (Text.size passed) position cs = .ok tokens)
    (h : includeStep source head tokens = .items read rest) :
    ∃ gap written after more, Quoted file (Text.size passed) position cs tokens gap written after more ∧
      read = [.include head (String.ofList written) ⟨head.range.file, head.range.start,
        Text.size passed + Text.size (gap ++ ['"']) + Text.size written + 1⟩] ∧ rest = ⟨more, []⟩ := by
  unfold includeStep at h
  split at h
  · cases h
  · rename_i quote tokens
    simp only at h
    split at h
    · cases h
    · rename_i hkind
      have hkind := Decidable.not_not.1 hkind
      split at h
      · cases h
      · rename_i hmem
        have hmem := Decidable.not_not.1 hmem
        split at h
        · cases h
        · cases h
          obtain ⟨kind, gap, text, line, rfl, hgap, hfirst, rfl, htokens⟩ := exists_of_scan_cons hscan
          obtain rfl : kind = .mark .doubleQuote := hkind
          obtain rfl := eq_quote_of_first hfirst
          -- the line is what follows the opening quote
          have hstop : (cutAt file (Text.size passed) position (.mark .doubleQuote) gap ['"']).range.stop =
              Text.size passed + Text.size (gap ++ ['"']) := by simp [cutAt, Nat.add_assoc]
          have hline : Text.dropBytes (Text.size passed + Text.size (gap ++ ['"'])) source.chars = line := by
            rw [hsource, ← List.append_assoc, ← Text.size_append]
            exact Text.dropBytes_size_append _ _
          rw [hstop, hline] at hmem ⊢
          obtain ⟨after, hafter⟩ := exists_of_mem_line hmem
          have inLine : ∀ c ∈ (line.takeWhile (!isLineEnd ·)).takeWhile (· ≠ '"'), c ≠ '"' ∧ isLineEnd c = false :=
            fun c hc => ⟨by simpa using List.all_eq_true.1 List.all_takeWhile c hc,
              by simpa using List.all_eq_true.1 List.all_takeWhile c ((List.takeWhile_sublist _).mem hc)⟩
          generalize (line.takeWhile (!isLineEnd ·)).takeWhile (· ≠ '"') = written at hafter inLine ⊢
          subst hafter
          exact ⟨gap, written, after, _, quoted_of_scan hgap inLine rfl htokens, rfl, rfl⟩

end Include

end Item

/-! ## What is left behind a quote -/

namespace Token

/-- The tokens of a text that stands behind `passed` in a file. -/
def behind (file : Nat) (passed cs : List Char) : Option (List Token) :=
  (ofSource file (String.ofList cs)).toOption.map (List.map (move (Text.size passed) (Position.first.advance passed)))

/-- A token without the blanks in front of it. -/
def unspaced (token : Token) : Token := { token with leading := "" }

section Behind

variable {file offset : Nat} {position : Position} {passed gap taken cs : List Char} {tokens : List Token}

theorem behind_eq (file : Nat) (passed cs : List Char) :
    behind file passed cs = (scan file (Text.size passed) (Position.first.advance passed) cs).toOption := by
  have hmove := scan_move file 0 Position.counted_first (Text.size passed) (Position.first.advance passed) cs
  rw [Nat.add_zero, Position.after_first] at hmove
  rw [hmove, behind, ofSource, String.toList_ofList]

theorem toOption_eq_some {x : Except Error (List Token)} : x.toOption = some tokens ↔ x = .ok tokens := by
  cases x <;> simp [Except.toOption]

/-- Blanks in front of a text change the blanks in front of its first token only. -/
theorem unspaced_scan_gap (h : ∀ c ∈ gap, isGap c = true) (cs : List Char) :
    (scan file offset position (gap ++ cs)).toOption.map (List.map unspaced) =
      (scan file (offset + Text.size gap) (position.advance gap) cs).toOption.map (List.map unspaced) := by
  rw [scan_eq, scan_eq file (offset + Text.size gap), List.dropWhile_append_of_pos h, List.takeWhile_append_of_pos h]
  cases first (cs.dropWhile isGap) with
  | nothing => rfl
  | unclosed => rfl
  | token kind text rest =>
    simp only [toOption_cons, List.append_assoc, Text.size_append, Position.advance_append, Option.map_map,
      ← Nat.add_assoc]
    congr 1
    funext tokens
    simp only [Function.comp_apply, List.map_cons, unspaced, cutAt, Text.size_append, Position.advance_append,
      ← Nat.add_assoc]

/-- A text that is not blank has a token that starts in it. -/
theorem exists_start_lt (h : scan file offset position (taken ++ cs) = .ok tokens)
    (hblank : ¬ ∀ c ∈ taken, isGap c = true) : ∃ token ∈ tokens, token.range.start < offset + Text.size taken := by
  cases tokens with
  | nil => exact absurd (fun c hc => isGap_of_scan_nil h c (List.mem_append_left cs hc)) hblank
  | cons token tokens =>
    obtain ⟨kind, gap, text, rest, happend, hgap, -, rfl, -⟩ := exists_of_scan_cons h
    refine ⟨_, List.mem_cons_self, ?_⟩
    rw [List.append_assoc] at happend
    rcases List.append_eq_append_iff.1 happend with ⟨more, rfl, -⟩ | ⟨more, rfl, -⟩
    · cases more with
      | nil =>
        rw [List.append_nil] at hblank
        exact absurd hgap hblank
      | cons c more =>
        have := c.utf8Size_pos
        simp only [cutAt, Text.size_append, Text.size_cons]
        omega
    · exact absurd (fun c hc => hgap c (List.mem_append_left more hc)) hblank

/-- The tokens behind a text are those of the text with it just if it is blank. -/
theorem unspaced_behind_iff (h : scan file (Text.size (passed ++ taken)) (Position.first.advance (passed ++ taken)) cs =
      .ok tokens) :
    (behind file passed (taken ++ cs)).map (List.map unspaced) = some (tokens.map unspaced) ↔
      ∀ c ∈ taken, isGap c = true := by
  rw [behind_eq]
  constructor
  · intro heq
    refine Decidable.byContradiction fun hblank => ?_
    obtain ⟨more, hmore, heq⟩ := Option.map_eq_some_iff.1 heq
    obtain ⟨token, hmem, hlt⟩ := exists_start_lt (toOption_eq_some.1 hmore) hblank
    have hunspaced : unspaced token ∈ tokens.map unspaced := heq ▸ List.mem_map_of_mem hmem
    obtain ⟨token', hmem', htoken⟩ := List.mem_map.1 hunspaced
    have hrange : token'.range = token.range := congrArg (·.range) htoken
    have hle := le_start_of_scan h hmem'
    rw [hrange, Text.size_append] at hle
    omega
  · intro hblank
    rw [unspaced_scan_gap hblank, ← Text.size_append, ← Position.advance_append, h]
    rfl

end Behind

end Token

namespace Item

open Token

section Include

variable {file : Nat} {text : String} {before rest : List Token} {head : Token} {read : List Item} {c : Cursor}

/-- An include directive that is accepted has the text between its quotes as its path. Reading goes on with the
tokens of the text behind it that is not swallowed, and these are the tokens behind it just if the swallowed text is
blank. -/
theorem include_reads_quoted (lexed : Token.ofSource file text = .ok (before ++ head :: rest))
    (isInclude : head.kind = .directive .include)
    (accepted : step (.ofFile file text) head ⟨rest, []⟩ = .items read c) :
    ∃ passed gap written after left, text.toList = passed ++ gap ++ '"' :: written ++ '"' :: after ∧
      Text.size passed = head.range.stop ∧ (∀ c ∈ gap, isGap c = true) ∧
      (∀ c ∈ written, c ≠ '"' ∧ isLineEnd c = false) ∧
      read = [.include head (String.ofList written)
        ⟨file, head.range.start, Text.size (passed ++ gap ++ '"' :: written ++ ['"'])⟩] ∧
      c.comments = [] ∧ after = swallowed written after ++ left ∧
      behind file (passed ++ gap ++ '"' :: written ++ '"' :: swallowed written after) left = some c.tokens ∧
      ((behind file (passed ++ gap ++ '"' :: written ++ ['"']) after).map (List.map unspaced) =
        some (c.tokens.map unspaced) ↔ ∀ c ∈ swallowed written after, isGap c = true) := by
  have hfile := (slices_of_scan lexed).1
  obtain ⟨passed, cs, hpassed, hstop, hscan⟩ := exists_of_scan_after lexed
  have hsource : (SourceText.ofFile file text).chars = passed ++ cs := hpassed.symm
  have hstep : step (.ofFile file text) head ⟨rest, []⟩ = includeStep (.ofFile file text) head rest := by
    unfold step
    rw [isInclude]
  rw [hstep] at accepted
  obtain ⟨gap, written, after, more, hquoted, rfl, rfl⟩ := exists_of_includeStep hsource hscan accepted
  obtain ⟨htext, hgap, hwritten, -, left, hleft, hmore⟩ := hquoted
  -- what stands in front of the text that is left
  have hfront : passed ++ (gap ++ '"' :: (written ++ '"' :: swallowed written after)) =
      passed ++ gap ++ '"' :: written ++ ['"'] ++ swallowed written after := by simp
  rw [← Text.size_append, ← Position.advance_append, hfront] at hmore
  refine ⟨passed, gap, written, after, left, ?_, hstop.symm, hgap, hwritten, ?_, rfl, hleft.symm, ?_, ?_⟩
  · rw [← hpassed, ← htext]
    simp
  · rw [hfile]
    simp [Nat.add_assoc, show '"'.utf8Size = 1 from rfl]
  · rw [behind_eq, toOption_eq_some, ← hmore]
    simp
  · have hiff := unspaced_behind_iff hmore
    rwa [hleft] at hiff

/-- A path that opens a comment, with a blank behind it and a declaration on the next line. -/
def slashedLine : String := "#include \"a//b.idl\" \ntypedef long T;\n"

/-- The first token of `slashedLine`. -/
def slashedHead : Token := ⟨.directive .include, "", "#include", ⟨1, 0, 8⟩, .first⟩

/-- The other tokens of `slashedLine`. -/
def slashedRest : List Token := ((Token.ofSource 1 slashedLine).toOption.getD []).tail

/-- Whether a step reads items. -/
def Step.isItems : Step → Bool
  | items _ _ => true
  | enter _ _ | stop _ => false

theorem exists_items {s : Step} (h : s.isItems = true) : ∃ read c, s = .items read c := by
  cases s with
  | items read c => exact ⟨read, c, rfl⟩
  | enter opener c => cases h
  | stop item => cases h

theorem include_reads_quoted_slashed :
    Token.ofSource 1 slashedLine = .ok (slashedHead :: slashedRest) ∧ slashedHead.kind = .directive .include ∧
      ∃ read c, step (.ofFile 1 slashedLine) slashedHead ⟨slashedRest, []⟩ = .items read c ∧
        ∃ passed gap written after, slashedLine.toList = passed ++ gap ++ '"' :: written ++ '"' :: after ∧
          Text.size passed = 8 ∧ read = [.include slashedHead (String.ofList written)
            ⟨1, 0, Text.size (passed ++ gap ++ '"' :: written ++ ['"'])⟩] ∧
          ((behind 1 (passed ++ gap ++ '"' :: written ++ ['"']) after).map (List.map unspaced) =
            some (c.tokens.map unspaced) ↔ ∀ c ∈ swallowed written after, isGap c = true) := by
  have lexed : Token.ofSource 1 slashedLine = .ok ([] ++ slashedHead :: slashedRest) :=
    toOption_eq_some.1 (by decide +kernel)
  obtain ⟨read, c, accepted⟩ := exists_items (s := step (.ofFile 1 slashedLine) slashedHead ⟨slashedRest, []⟩)
    (by decide +kernel)
  obtain ⟨passed, gap, written, after, left, htext, hsize, -, -, hread, -, -, -, hiff⟩ :=
    include_reads_quoted lexed rfl accepted
  exact ⟨lexed, rfl, read, c, accepted, passed, gap, written, after, htext, hsize, hread, hiff⟩

end Include

end Item

namespace Compilation

/-- A path that opens a comment, and a declaration on its line. -/
def slashedPath : Sources where
  texts := [(⟨"a/b.idl"⟩, ""), (⟨"m.idl"⟩, "#include \"a//b.idl\" typedef long T;\n")]
  failure _ := ""

/-- The declaration behind the path is lost. -/
theorem declaration_after_path_is_lost :
    (Token.ofSource 2 " typedef long T;\n").toOption.map (List.map (·.text)) = some ["typedef", "long", "T", ";"] ∧
      (outcome (compileFile slashedPath ⟨"m.idl"⟩) .empty).1.toOption.map List.length = some 0 ∧
      Output.ofEmissions (outcome (compileFile slashedPath ⟨"m.idl"⟩) .empty).2.emissions =
        [⟨⟨"a/b.ts"⟩, none⟩, ⟨⟨"m.ts"⟩, none⟩] := by
  decide +kernel

end Compilation

end Idl
