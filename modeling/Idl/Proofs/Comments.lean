import Idl.Proofs.Items

/-!
# The comments of a text

The comments among the tokens of a text can be found without its other tokens (`comments`): all that
matters outside of comments are slashes. So a text without slashes can be put in front of another one
and changes nothing (`comments_append`), and a comment in front of a text is its first comment,
unless it is a line comment and the text goes on in its line (`IsComment.comments_append`).
-/

namespace Idl

namespace Token

/-! ## Looking for comments only -/

theorem length_le_of_closeComment {cs comment rest : List Char} (h : closeComment cs = some (comment, rest)) :
    rest.length ≤ cs.length := by
  have := congrArg List.length (append_of_closeComment h)
  simp only [List.length_append] at this
  omega

/-- The comments of a text, if none is left unclosed. -/
def comments : List Char → Option (List String)
  | [] => some []
  | '/' :: '/' :: cs =>
    (comments (cs.dropWhile (!isLineEnd ·))).map (String.ofList ('/' :: '/' :: cs.takeWhile (!isLineEnd ·)) :: ·)
  | '/' :: '*' :: cs =>
    match h : closeComment cs with
    | some (comment, rest) =>
      have := length_le_of_closeComment h
      (comments rest).map (String.ofList ('/' :: '*' :: comment) :: ·)
    | none => none
  | _ :: cs => comments cs
termination_by cs => cs.length
decreasing_by
  · have := (List.dropWhile_sublist (l := cs) (!isLineEnd ·)).length_le
    simp only [List.length_cons]
    omega
  · simp only [List.length_cons]
    omega
  · simp

theorem comments_block {cs comment rest : List Char} (h : closeComment cs = some (comment, rest)) :
    comments ('/' :: '*' :: cs) = (comments rest).map (String.ofList ('/' :: '*' :: comment) :: ·) := by
  rw [comments]
  split
  · rename_i hclose
    rw [h] at hclose
    cases hclose
    rfl
  · simp_all

theorem comments_unclosed {cs : List Char} (h : closeComment cs = none) : comments ('/' :: '*' :: cs) = none := by
  rw [comments]
  split
  · simp_all
  · rfl

/-- The comments among some tokens. -/
def commentTexts (tokens : List Token) : List String := (tokens.filter (·.kind.isComment)).map (·.text)

/-- A text without slashes has no comments, and none of those after it change. -/
theorem comments_append {text : List Char} (h : '/' ∉ text) (cs : List Char) : comments (text ++ cs) = comments cs := by
  induction text with
  | nil => rfl
  | cons c text ih =>
    obtain ⟨hc, htext⟩ := not_or.1 (mt List.mem_cons.2 h)
    rw [List.cons_append, comments.eq_4 _ _ (fun _ heq => absurd heq.symm hc) (fun _ heq => absurd heq.symm hc)]
    exact ih htext

/-- No gap and no character of a word is a slash. -/
theorem notMem_takeWhile_slash {p : Char → Bool} (hp : p '/' = false) (cs : List Char) : '/' ∉ cs.takeWhile p := by
  intro hmem
  have hall := List.all_takeWhile (p := p) (l := cs)
  simp [List.all_eq_true.1 hall '/' hmem] at hp

theorem comments_dropWhile {p : Char → Bool} (hp : p '/' = false) (cs : List Char) :
    comments (cs.dropWhile p) = comments cs := by
  have happend := comments_append (notMem_takeWhile_slash hp cs) (cs.dropWhile p)
  rwa [List.takeWhile_append_dropWhile, eq_comm] at happend

theorem isComment_ofWord (text : List Char) : (Kind.ofWord text).isComment = false := by
  unfold Kind.ofWord
  split
  · rfl
  · split <;> rfl

/-- The comments of a text, by its first token. -/
theorem comments_of_first (cs : List Char) :
    comments cs = match first cs with
      | .nothing => some []
      | .unclosed => none
      | .token kind text rest => (comments rest).map ((if kind.isComment then [String.ofList text] else []) ++ ·) := by
  fun_cases first cs with
  | case1 => rw [comments]
  | case2 cs => simp [comments, Kind.isComment]
  | case3 cs comment rest hclose => simp [comments_block hclose, Kind.isComment]
  | case4 cs hclose => rw [comments_unclosed hclose]
  | case5 c cs hline hblock mark hmark =>
    rw [comments.eq_4 _ _ hline hblock]
    simp [Kind.isComment]
  | case6 c cs hline hblock hmark word =>
    rw [comments.eq_4 _ _ hline hblock]
    simp [isComment_ofWord, comments_dropWhile (show isWordChar '/' = false by decide)]

/-- The comments of a text are those among its tokens. -/
theorem comments_eq_scan (file offset : Nat) (position : Position) (cs : List Char) :
    comments cs = (scan file offset position cs).toOption.map commentTexts := by
  fun_induction scan file offset position cs with
  | case1 offset position cs =>
    rename_i hfirst
    rw [← comments_dropWhile (show isGap '/' = false by decide), comments_of_first, hfirst]
    rfl
  | case2 offset position cs =>
    rename_i hfirst
    rw [← comments_dropWhile (show isGap '/' = false by decide), comments_of_first, hfirst]
    rfl
  | case3 offset position cs gap start position' kind text rest hfirst stop token ih =>
    rw [← comments_dropWhile (show isGap '/' = false by decide), comments_of_first, hfirst]
    dsimp only
    rw [ih]
    cases hscan : scan file stop (position'.advance text) rest with
    | error e => rfl
    | ok tokens =>
      cases hkind : kind.isComment with
      | false => simp [bind, Except.bind, pure, Except.pure, Except.toOption, commentTexts, token, hkind]
      | true => simp [bind, Except.bind, pure, Except.pure, Except.toOption, commentTexts, token, hkind]

/-! ## Comments as they are written -/

/-- What a comment looks like. -/
inductive IsComment : List Char → Prop
  | line {text : List Char} (inLine : ∀ c ∈ text, isLineEnd c = false) : IsComment ('/' :: '/' :: text)
  | block {text : List Char} (closed : closeComment text = some (text, [])) : IsComment ('/' :: '*' :: text)

/-- Whether a comment is a line comment. -/
def isLineComment (text : List Char) : Bool := ['/', '/'].isPrefixOf text

/-- Whether a text ends the line that it starts on, or is empty. -/
def breaksLine (cs : List Char) : Bool := cs.head?.all isLineEnd

theorem closeComment_append {text comment rest : List Char} (h : closeComment text = some (comment, rest))
    (cs : List Char) : closeComment (text ++ cs) = some (comment, rest ++ cs) := by
  fun_induction closeComment text generalizing comment with
  | case1 => simp at h
  | case2 text =>
    cases h
    rfl
  | case3 c text hne ih =>
    obtain ⟨⟨comment', rest'⟩, hclose, heq⟩ := Option.map_eq_some_iff.1 h
    cases heq
    -- the star and the slash do not come together here: there is more text after `c`
    have hne' (more : List Char) (hstar : c = '*') (hslash : text ++ cs = '/' :: more) : False := by
      cases text with
      | nil => simp [closeComment] at hclose
      | cons d text => exact hne text hstar (by rw [(List.cons.inj hslash).1])
    rw [List.cons_append, closeComment.eq_3 _ _ hne', ih hclose]
    rfl

/-- A comment is closed by itself. -/
theorem closeComment_self {text comment rest : List Char} (h : closeComment text = some (comment, rest)) :
    closeComment comment = some (comment, []) := by
  fun_induction closeComment text generalizing comment with
  | case1 => simp at h
  | case2 text =>
    cases h
    rfl
  | case3 c text hne ih =>
    obtain ⟨⟨comment', rest'⟩, hclose, heq⟩ := Option.map_eq_some_iff.1 h
    cases heq
    have hne' (more : List Char) (hstar : c = '*') (hslash : comment' = '/' :: more) : False := by
      have happend := append_of_closeComment hclose
      rw [hslash] at happend
      exact hne _ hstar happend.symm
    rw [closeComment.eq_3 _ _ hne', ih hclose]
    rfl

/-- A text without slashes is closed by a star and a slash after it. -/
theorem closeComment_plain {text : List Char} (h : '/' ∉ text) :
    closeComment (text ++ ['*', '/']) = some (text ++ ['*', '/'], []) := by
  induction text with
  | nil => rfl
  | cons c text ih =>
    obtain ⟨-, htext⟩ := not_or.1 (mt List.mem_cons.2 h)
    have hne (more : List Char) (_ : c = '*') (hslash : text ++ ['*', '/'] = '/' :: more) : False := by
      cases text with
      | nil => simp at hslash
      | cons d text => exact htext (by simp [(List.cons.inj hslash).1])
    rw [List.cons_append, closeComment.eq_3 _ _ hne, ih htext]
    rfl

section Comments

variable {text : List Char}

/-- A comment in front of a text is its first comment, unless it is a line comment and the text goes
on in its line. -/
theorem IsComment.comments_append (h : IsComment text) (cs : List Char) (ts : List String) :
    comments (text ++ cs) = some (String.ofList text :: ts) ↔
      (isLineComment text = true → breaksLine cs = true) ∧ comments cs = some ts := by
  cases h with
  | @line text inLine =>
    have hall : ∀ c ∈ text, (!isLineEnd c) = true := fun c hc => by simp [inLine c hc]
    rw [List.cons_append, List.cons_append, comments, List.takeWhile_append_of_pos hall,
      List.dropWhile_append_of_pos hall]
    cases cs with
    | nil => simp [breaksLine]
    | cons c cs =>
      cases hend : isLineEnd c with
      | true => simp [breaksLine, hend]
      | false =>
        -- the comment takes in at least one more character
        simp [breaksLine, isLineComment, hend]
  | @block text closed =>
    rw [List.cons_append, List.cons_append, comments_block (closeComment_append closed cs)]
    simp [isLineComment]

theorem IsComment.exists_cons (h : IsComment text) : ∃ rest, text = '/' :: rest := by
  cases h with
  | line => exact ⟨_, rfl⟩
  | block => exact ⟨_, rfl⟩

theorem isComment_of_first {kind : Kind} {cs rest : List Char} (h : first cs = .token kind text rest)
    (hkind : kind.isComment = true) : IsComment text := by
  fun_cases first cs with
  | case1 => simp [first] at h
  | case2 cs =>
    simp only [first, First.token.injEq] at h
    obtain ⟨-, rfl, -⟩ := h
    refine .line fun c hc => ?_
    have hall := List.all_takeWhile (p := (!isLineEnd ·)) (l := cs)
    simpa using List.all_eq_true.1 hall c hc
  | case3 cs comment rest' hclose =>
    simp only [first, hclose, First.token.injEq] at h
    obtain ⟨-, rfl, -⟩ := h
    exact .block (closeComment_self hclose)
  | case4 cs hclose => simp [first, hclose] at h
  | case5 c cs hline hblock mark hmark =>
    rw [first.eq_4 _ _ hline hblock, hmark] at h
    cases h
    cases hkind
  | case6 c cs hline hblock hmark word =>
    rw [first.eq_4 _ _ hline hblock, hmark] at h
    cases h
    simp [isComment_ofWord] at hkind

end Comments

end Token

/-! ## Comments of tokens -/

/-- A comment, with blanks in front of it. -/
structure Comment.Sound (c : Comment) : Prop where
  leading : ∀ ch ∈ c.leading.toList, Token.isGap ch = true
  text : Token.IsComment c.text.toList

theorem Comment.Sound.detach {c : Comment} (h : c.Sound) : c.detach.Sound := by
  unfold Comment.detach
  split
  · exact h
  · exact ⟨by simp [Token.isGap], h.text⟩

/-- The comments among the tokens of a text are sound. -/
theorem Comment.sound_ofToken {file offset : Nat} {position : Position} {cs : List Char} {tokens : List Token}
    (h : Token.scan file offset position cs = .ok tokens) :
    ∀ token ∈ tokens, token.kind.isComment = true → (Comment.ofToken token).Sound := by
  fun_induction Token.scan file offset position cs generalizing tokens with
  | case1 =>
    cases h
    simp
  | case2 => cases h
  | case3 offset position cs gap start position' kind text rest hfirst stop token =>
    rename_i ih
    obtain ⟨tokens', hscan, heq⟩ := Except.bind_eq_ok.1 h
    cases heq
    refine List.forall_mem_cons.2 ⟨fun hkind => ⟨fun ch hch => ?_, ?_⟩, ih hscan⟩
    · have hall := List.all_takeWhile (p := Token.isGap) (l := cs)
      refine List.all_eq_true.1 hall ch ?_
      simpa [ofToken, token] using hch
    · simpa [ofToken, token] using Token.isComment_of_first hfirst hkind

end Idl
