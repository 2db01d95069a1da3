import Idl.Proofs.Following
import Idl.Proofs.Meanings
import Idl.Proofs.Tokenization
import Idl.Proofs.Unrelated

/-!
# Include guards

A text can be put into a guard: a block that is left out if a name is defined, and that defines this
name first of all. As long as nothing else is about the name, the guard changes nothing.

* `Token.Lexeme.before_line`: a token does not depend on what stands behind the end of its text.
* `Token.ofSource_inGuard`: the tokens of a text in a guard.
* `Item.ofTokens_inGuard`: the items of a text in a guard are its own ones, in a block.
* `Compilation.include_guard_transparent`: a file in a guard compiles to what it compiles to without.
-/

namespace Idl

namespace Token

/-! ## Texts with a line behind them -/

section Scan

variable {file offset : Nat} {position : Position} {before text after cs gap : List Char} {kind : Kind}
  {tokens : List Token}

/-- A token is still one when the text that it stands in ends with its line and goes on. -/
theorem Lexeme.before_line (h : Lexeme before text after kind) (more : List Char) :
    Lexeme before text (after ++ '\n' :: more) kind := by
  have hhead {P : Char → Prop} (hafter : ∀ c ∈ after.head?, P c) (hline : P '\n') :
      ∀ c ∈ (after ++ '\n' :: more).head?, P c := by
    cases after with
    | nil =>
      intro c hc
      obtain rfl := Option.some.inj hc
      exact hline
    | cons d after => exact hafter
  cases h with
  | word filled inWord left right called =>
    exact .word filled inWord left (hhead right fun hword => hword.1 (by decide)) called
  | line eq inLine ends => exact .line eq inLine (hhead ends (.inr rfl))
  | block eq unclosed => exact .block eq unclosed
  | symbol eq listed alone => exact .symbol eq listed fun hslash => hhead (alone hslash) (by decide)

/-- A lexeme behind blanks is the next token of a text. -/
theorem scan_lexeme (hgap : ∀ c ∈ gap, isGap c = true) (h : Lexeme before text after kind)
    (hscan : scan file (offset + Text.size (gap ++ text)) (position.advance (gap ++ text)) after = .ok tokens) :
    scan file offset position (gap ++ (text ++ after)) =
      .ok (cutAt file offset position kind gap text :: tokens) := by
  have hfirst := h.first
  have hblank := h.head_notMem_blanks
  obtain ⟨c, text, rfl⟩ := List.exists_cons_of_ne_nil (ne_nil_of_first hfirst)
  have hc : isGap c = false := Bool.eq_false_iff.2 (mt isGap_iff.1 (hblank c rfl))
  exact scan_of_first hgap hc hfirst hscan

/-- The same, where it is known which text was passed. -/
theorem scan_lexeme_behind (passed : List Char) (hgap : ∀ c ∈ gap, isGap c = true)
    (h : Lexeme before text after kind)
    (hscan : scan file (Text.size (passed ++ (gap ++ text))) (Position.first.advance (passed ++ (gap ++ text))) after =
      .ok tokens) :
    scan file (Text.size passed) (Position.first.advance passed) (gap ++ (text ++ after)) =
      .ok (cutAt file (Text.size passed) (Position.first.advance passed) kind gap text :: tokens) := by
  rw [Text.size_append, Position.advance_append] at hscan
  exact scan_lexeme hgap h hscan

theorem scan_nil (file offset : Nat) (position : Position) : scan file offset position [] = .ok [] := by
  rw [scan_eq]
  rfl

/-- Where a directive ends, it is a token. -/
theorem lexeme_directive (d : Directive) (hafter : ∀ c ∈ after.head?, ¬InWord c) :
    Lexeme [] d.text.toList after (.directive d) := by
  have hall : ∀ d ∈ Directive.all, d.text.toList ≠ [] ∧ d.text.toList.all isWordChar = true := by decide +kernel
  obtain ⟨hne, hword⟩ := hall d (mem_directives d)
  refine .word hne (fun c hc => ?_) (fun c hc => by cases hc) hafter (.directive rfl)
  exact isWordChar_iff.1 (List.all_eq_true.1 hword c hc)

/-- Where a name that is no keyword ends, it is a word. -/
theorem lexeme_name {name : String} (h : IsName name) (noKeyword : ∀ k : Keyword, k.text ≠ name)
    (hafter : ∀ c ∈ after.head?, ¬InWord c) : Lexeme [] name.toList after .word := by
  have hapart : (blanks ++ symbols).all (!Text.continuesName ·) = true := by decide +kernel
  have hnot {c : Char} (hc : c ∈ blanks ++ symbols) : Text.continuesName c = false := by
    simpa using List.all_eq_true.1 hapart c hc
  have hdirectives : ∀ d ∈ Directive.all, '#' ∈ d.text.toList := by decide +kernel
  refine .word h.ne_nil (fun c hc => ⟨fun hblank => ?_, fun hsymbol => ?_⟩) (fun c hc => by cases hc) hafter
    (.word (fun k whole => ?_) fun d whole => ?_)
  · exact h.notMem (hnot (List.mem_append_left _ hblank)) hc
  · exact h.notMem (hnot (List.mem_append_right _ hsymbol)) hc
  · exact noKeyword k (String.toList_inj.1 whole.symm)
  · have hmem := hdirectives d (mem_directives d)
    rw [← whole] at hmem
    exact h.notMem (by decide +kernel) hmem

/-- A word ends in front of a blank. -/
theorem not_inWord_blank {c : Char} (hc : c ∈ blanks) : ∀ d ∈ ([c] ++ after).head?, ¬InWord d := by
  intro d hd hword
  obtain rfl := Option.some.inj hd
  exact hword.1 hc

/-- The line that ends a guard. -/
def endifLine : List Char := ['\n'] ++ Directive.endif.text.toList

/-- The tokens of a text stay as they are when an `#endif` follows it. -/
theorem exists_scan_endifLine (h : scan file offset position cs = .ok tokens) :
    ∃ closing, closing.kind = .directive .endif ∧
      scan file offset position (cs ++ endifLine) = .ok (tokens ++ [closing]) := by
  have hsplit : cs.takeWhile isGap ++ cs.dropWhile isGap = cs := List.takeWhile_append_dropWhile
  have hgap : ∀ c ∈ cs.takeWhile isGap, isGap c = true := List.all_eq_true.1 List.all_takeWhile
  -- by induction on the tokens: each one is cut off as before, and behind the last one there are blanks
  induction tokens generalizing offset position cs with
  | nil =>
    have hdrop : cs.dropWhile isGap = [] := by
      rw [scan_eq] at h
      split at h
      · rename_i hfirst
        exact eq_nil_of_first hfirst
      · cases h
      · obtain ⟨_, -, heq⟩ := Except.bind_eq_ok.1 h
        cases heq
    rw [hdrop, List.append_nil] at hsplit
    have hblanks : ∀ c ∈ cs ++ ['\n'], isGap c = true := by
      rw [← hsplit]
      exact List.forall_mem_append.2 ⟨hgap, List.forall_mem_singleton.2 rfl⟩
    have hlexeme : Lexeme [] Directive.endif.text.toList [] (.directive .endif) :=
      lexeme_directive .endif fun c hc => by cases hc
    have hscan := scan_lexeme hblanks hlexeme (scan_nil file (offset + _) (position.advance _))
    rw [List.append_nil, List.append_assoc] at hscan
    exact ⟨_, rfl, hscan⟩
  | cons token tokens ih =>
    rw [scan_eq] at h
    split at h
    · cases h
    · cases h
    · rename_i kind text rest hfirst
      obtain ⟨_, hrest, heq⟩ := Except.bind_eq_ok.1 h
      cases heq
      obtain ⟨closing, hclosing, hscan⟩ := ih hrest List.takeWhile_append_dropWhile
        (List.all_eq_true.1 List.all_takeWhile)
      have hblank : ∀ c ∈ (cs.dropWhile isGap).head?, c ∉ blanks := fun c hc =>
        mt isGap_iff.2 (Bool.eq_false_iff.1 (head_dropWhile c hc))
      have hlexeme := (lexeme_of_first hfirst hblank (divides_nil _)).before_line Directive.endif.text.toList
      refine ⟨closing, hclosing, ?_⟩
      rw [← append_of_first hfirst] at hsplit
      have hcs : cs ++ endifLine = cs.takeWhile isGap ++ (text ++ (rest ++ endifLine)) := by
        rw [← List.append_assoc text, ← List.append_assoc, hsplit]
      rw [hcs]
      exact scan_lexeme hgap hlexeme hscan

end Scan

theorem name_cutAt {name : String} (h : IsName name) (file offset : Nat) (position : Position) (gap : List Char) :
    (cutAt file offset position .word gap name.toList).name =
      .ok ⟨name, (cutAt file offset position .word gap name.toList).range⟩ := by
  have hname : Text.isName name.toList = true := h
  simp [Token.name, cutAt, hname]

end Token

/-! ## Texts in guards -/

/-- The lines that start a guard: the block is left out if the name is defined, and it defines the name. -/
def guardOpening (name : String) : String := "#ifndef " ++ name ++ "\n#define " ++ name ++ "\n"

/-- A text in a guard. -/
def inGuard (name text : String) : String := guardOpening name ++ (text ++ "\n#endif")

example : inGuard "G" "typedef long X;" = "#ifndef G\n#define G\ntypedef long X;\n#endif" := by decide

theorem toList_guardOpening (name : String) :
    (guardOpening name).toList = [] ++ ([] ++ Directive.ifndef.text.toList) ++ ([' '] ++ name.toList) ++
      (['\n'] ++ Directive.define.text.toList) ++ ([' '] ++ name.toList) ++ ['\n'] := by
  simp [guardOpening, String.toList_append, Directive.text]

section InGuard

variable {file : Nat} {name text : String} {tokens : List Token}

/-- The tokens of a text in a guard: those of the two lines in front, those of the text, and the one behind it. -/
theorem Token.ofSource_inGuard (isName : IsName name) (noKeyword : ∀ k : Keyword, k.text ≠ name)
    (lexed : ofSource file text = .ok tokens) (hfirst : ∀ token ∈ tokens.head?, token.kind.isComment = false) :
    ∃ (head guard head' guard' closing : Token) (start : Nat),
      ofSource file (inGuard name text) = .ok (head :: guard :: head' :: guard' ::
        (tokens ++ [closing]).map (Shift.below (guardOpening name).toList start).token) ∧
      head.kind = .directive .ifndef ∧ guard.name = .ok ⟨name, guard.range⟩ ∧
      head'.kind = .directive .define ∧ guard'.name = .ok ⟨name, guard'.range⟩ ∧ closing.kind = .directive .endif := by
  obtain ⟨closing, hclosing, hscan⟩ := exists_scan_endifLine lexed
  have hline := toList_guardOpening name
  have hfirst' : ∀ token ∈ (tokens ++ [closing]).head?, token.kind.isComment = false := by
    cases tokens with
    | nil =>
      intro token htoken
      obtain rfl := Option.some.inj htoken
      rw [hclosing]
      rfl
    | cons token tokens => exact hfirst
  -- the text below the two lines, with the end of the second one in front of it
  have hbelow := scan_behind hscan (guardOpening name).toList
  rw [hline, Text.size_append _ ['\n'], Position.advance_append _ _ ['\n']] at hbelow
  have hend := scan_gap (List.forall_mem_singleton.2 rfl) hbelow
  rw [← Text.size_append, ← Position.advance_append, ← hline, Shift.map_below hscan hfirst'] at hend
  -- the two lines, from the back
  have hspace : ' ' ∈ blanks := by decide
  have hnewline : '\n' ∈ blanks := by decide
  have hguard' := scan_lexeme_behind _ (List.forall_mem_singleton.2 rfl)
    (lexeme_name isName noKeyword (not_inWord_blank hnewline)) hend
  have hdefine := scan_lexeme_behind _ (List.forall_mem_singleton.2 rfl)
    (lexeme_directive .define (not_inWord_blank hspace)) hguard'
  have hguard := scan_lexeme_behind _ (List.forall_mem_singleton.2 rfl)
    (lexeme_name isName noKeyword (not_inWord_blank hnewline)) hdefine
  have hifndef := scan_lexeme_behind _ (List.forall_mem_nil _)
    (lexeme_directive .ifndef (not_inWord_blank hspace)) hguard
  have hchars : (inGuard name text).toList = [] ++ (Directive.ifndef.text.toList ++ ([' '] ++ (name.toList ++ (['\n'] ++
      (Directive.define.text.toList ++ ([' '] ++ (name.toList ++ (['\n'] ++ (text.toList ++ endifLine))))))))) := by
    simp [inGuard, guardOpening, endifLine, String.toList_append, Directive.text]
  rw [ofSource, hchars]
  exact ⟨_, _, _, _, closing, _, hifndef, rfl, name_cutAt isName .., rfl, name_cutAt isName .., hclosing⟩

/-- Where a name stands, it is read. -/
theorem Cursor.name_of_token {token : Token} {name : Name} (h : token.name = .ok name) (finish : FileRange)
    (rest : List Token) : (⟨token :: rest, []⟩ : Cursor).name finish = .ok (name, ⟨rest, []⟩) := by
  have hkind : token.kind = .word := by
    unfold Token.name at h
    split at h
    · rename_i hword
      exact hword.1
    · cases h
  have hskip : (⟨token :: rest, []⟩ : Cursor).skip = ⟨token :: rest, []⟩ := by
    simp [skip, hkind, Token.Kind.isComment]
  unfold Cursor.name next
  rw [hskip]
  simp only [Except.bind_eq_ok]
  exact ⟨_, rfl, name, h, rfl⟩

/-- Moving the tokens of a file changes none of its terminals. -/
theorem Shift.terminals_map (σ : Shift) (tokens : List Token) : terminals (tokens.map σ.token) = terminals tokens := by
  rw [terminals, List.filterMap_map]
  rfl

theorem Shift.noInclude_map (σ : Shift) (h : Item.NoInclude tokens) : Item.NoInclude (tokens.map σ.token) := by
  rw [Item.noInclude_iff, σ.terminals_map]
  exact Item.noInclude_iff.1 h

namespace Item

/-- The first two lines of a guard open a block and define a name in it. -/
theorem ofTokens_guardOpening {source : SourceText} {head guard head' guard' : Token} {name name' : Name}
    (hhead : head.kind = .directive .ifndef) (hguard : guard.name = .ok name)
    (hhead' : head'.kind = .directive .define) (hguard' : guard'.name = .ok name') (rest : List Token) :
    ofTokens source (head :: guard :: head' :: guard' :: rest) =
      readFrom source [⟨.guarded head name, []⟩] [.define head' name'] ⟨rest, []⟩ := by
  have hopen : step source head ⟨guard :: head' :: guard' :: rest, []⟩ =
      .enter (.guarded head name) ⟨head' :: guard' :: rest, []⟩ := by
    unfold step
    rw [hhead]
    dsimp only
    rw [Cursor.name_of_token hguard]
    rfl
  have hdefine : step source head' ⟨guard' :: rest, []⟩ = .items [.define head' name'] ⟨rest, []⟩ := by
    unfold step
    rw [hhead']
    dsimp only
    rw [Cursor.name_of_token hguard']
    rfl
  have hskip : (⟨head :: guard :: head' :: guard' :: rest, []⟩ : Cursor).skip =
      ⟨head :: guard :: head' :: guard' :: rest, []⟩ := by
    simp [Cursor.skip, hhead, Token.Kind.isComment]
  have hskip' : (⟨head' :: guard' :: rest, []⟩ : Cursor).skip = ⟨head' :: guard' :: rest, []⟩ := by
    simp [Cursor.skip, hhead', Token.Kind.isComment]
  have hinside (before : List Item) : closing? head' [⟨.guarded head name, before⟩] = none := by
    apply if_neg
    intro hends
    rw [hhead'] at hends
    cases hends
  rw [ofTokens, readFrom_eq, hskip]
  dsimp only [closing?, List.map_nil, List.append_nil]
  rw [hopen]
  dsimp only
  rw [readFrom_eq, hskip']
  dsimp only [List.map_nil, List.append_nil]
  rw [hinside]
  dsimp only
  rw [hdefine]
  rfl

/-- The items of a text in a guard are those of the text, further on, in a block that defines a name. -/
theorem ofTokens_inGuard {phrases : List Phrase} (isName : IsName name) (noKeyword : ∀ k : Keyword, k.text ≠ name)
    (lexed : Token.ofSource file text = .ok tokens) (hfirst : ∀ token ∈ tokens.head?, token.kind.isComment = false)
    (noInclude : NoInclude tokens) (derives : Grammar.Derives (terminals tokens) phrases) :
    ∃ (tokens' : List Token) (head head' : Token) (range range' : FileRange) (σ : Shift),
      Token.ofSource file (inGuard name text) = .ok tokens' ∧
        ofTokens (.ofFile file (inGuard name text)) tokens' = [.guarded head ⟨name, range⟩
          (.define head' ⟨name, range'⟩ :: σ.items (ofTokens (.ofFile file text) tokens))] := by
  obtain ⟨head, guard, head', guard', closing, start, hlexed, hhead, hguard, hhead', hguard', hclosing⟩ :=
    Token.ofSource_inGuard isName noKeyword lexed hfirst
  let σ := Shift.below (guardOpening name).toList start
  refine ⟨_, head, head', guard.range, guard'.range, σ, hlexed, ?_⟩
  -- what is read of the text does not depend on what stands behind it
  let source := SourceText.ofFile file (guardOpening name ++ text)
  have hitems : ofTokens source (tokens.map σ.token) = σ.items (ofTokens (.ofFile file text) tokens) :=
    σ.ofTokens (Shift.fits_below ..) tokens
  have hbehind := readFrom_behind [.define head' ⟨name, guard'.range⟩] source [] [] ⟨tokens.map σ.token, []⟩
  have hphrases : phrases? (ofTokens source (tokens.map σ.token)) = some phrases := by
    rw [Grammar.phrases?_ofTokens source (σ.noInclude_map noInclude), σ.terminals_map]
    exact derives
  rw [behind, List.append_nil, ← ofTokens, hitems] at hbehind
  rw [hitems] at hphrases
  have hfile : (phrases? (readFrom source [] [.define head' ⟨name, guard'.range⟩] ⟨tokens.map σ.token, []⟩)).isSome =
      true := by
    rw [hbehind, List.singleton_append, phrases?_cons, hphrases]
    rfl
  have hread : readFrom (.ofFile file (inGuard name text)) [⟨.guarded head ⟨name, guard.range⟩, []⟩]
      [.define head' ⟨name, guard'.range⟩] ⟨tokens.map σ.token ++ [σ.token closing], []⟩ =
        readFrom (.ofFile file (inGuard name text)) [] [.guarded head ⟨name, guard.range⟩
          (readFrom source [] [.define head' ⟨name, guard'.range⟩] ⟨tokens.map σ.token, []⟩)] ⟨[], []⟩ :=
    readFrom_followed (σ.noInclude_map noInclude) hfile hclosing
  rw [ofTokens_guardOpening hhead hguard hhead' hguard', List.map_append, List.map_singleton, hread, hbehind,
    readFrom_eq]
  rfl

end Item

end InGuard

/-! ## Compiling -/

namespace Compilation

variable {sources : Sources} {root target : Path} {name text : String} {tokens : List Token} {s s₁ t : Compilation}
  {body : List Event}

/-- The state in which nothing happened but that a name was defined. -/
def defining (name : String) : Compilation := { empty with defines := ⟨[(name, .nowhere)]⟩ }

/-- What a file without includes is compiled from derives from the grammar. -/
theorem Traced.derives {file : Nat} {library : Library}
    (h : Traced sources root target (Item.ofTokens (.ofFile file text) tokens) s body s₁)
    (hquiet : Quiet { starting [root] with library } s) (hopen : ∀ p ∈ s.compiling, p ∉ s.compiled)
    (hsound : ∀ item ∈ Item.ofTokens (.ofFile file text) tokens, item.Sound fun _ => True)
    (noInclude : Item.NoInclude tokens) : ∃ phrases, Grammar.Derives (terminals tokens) phrases := by
  let σ := Shift.renumbering file file
  have hclear : Clear .identity empty sources sources s₁ := by
    refine ⟨?_, ?_, fun _ _ => trivial, fun p hp => ⟨List.not_mem_nil, List.not_mem_nil⟩, fun _ _ => rfl,
      fun _ _ => trivial⟩
    · intro name hname
      exact List.not_mem_nil
    · intro name hname
      exact List.not_mem_nil
  have hmirrors : Mirrors .identity empty s s := (mirrors_empty [root] hquiet).exchange rfl hquiet
  obtain ⟨t, hgives, -⟩ := h.carried trivial (fun _ _ => trivial) trivial hsound (fun _ _ => trivial) hopen hclear
    (fun _ _ => List.not_mem_nil) σ hmirrors
  have hitems := σ.ofTokens (Shift.fits_renumbering file file text) tokens
  rw [← hitems] at hgives
  have hincludes := Item.allIncludes_ofTokens (.ofFile file text) (σ.noInclude_map noInclude)
  obtain ⟨phrases, hphrases⟩ := exists_phrases hincludes hgives
  rw [Grammar.phrases?_ofTokens _ (σ.noInclude_map noInclude), σ.terminals_map] at hphrases
  exact ⟨phrases, hphrases⟩

section Block

variable {ctx : Context} {head head' : Token} {range range' : FileRange} {items : List Item}
  {ds : List Declaration} {P : Compilation → Prop} {stack : List Path}

/-- After nothing, a name can be defined. -/
theorem attains_define_first (ht : Mirrors .identity (starting stack) .empty t) :
    Attains (declare ctx target (.define head ⟨name, range⟩)) t []
      (Mirrors .identity (starting stack) (defining name)) := by
  let named : Name := ⟨name, .nowhere⟩
  have hnew : (empty : Compilation).defines.define named.text named.range = .ok ⟨[(name, .nowhere)]⟩ :=
    Defines.define_eq_ok_iff.2 ⟨List.not_mem_nil, rfl⟩
  rw [declare]
  refine (ht.note ..).bind fun t₁ h₁ => ?_
  have hdefine : Attains (define ⟨name, range⟩) t₁ () (Mirrors .identity (starting stack) (defining name)) :=
    h₁.define hnew rfl List.not_mem_nil
  exact hdefine.bind fun t₂ h₂ => attains_pure h₂

/-- After nothing, a block that is left out if a name is defined is not left out, although it defines the name. -/
theorem attains_guarded_first (ht : Mirrors .identity (starting stack) .empty t)
    (hitems : ∀ t, Mirrors .identity (starting stack) (defining name) t →
      Attains (declareAll ctx target items) t ds P) :
    Attains (declareAll ctx target [.guarded head ⟨name, range⟩ (.define head' ⟨name, range'⟩ :: items)]) t ds P := by
  have hbody {t : Compilation} (ht : Mirrors .identity (starting stack) .empty t) :
      Attains (declareAll ctx target (.define head' ⟨name, range'⟩ :: items)) t ds P := by
    rw [declareAll]
    exact (attains_define_first ht).bind fun t₁ h₁ => (hitems t₁ h₁).bind fun t₂ h₂ => attains_pure h₂
  have hblock : Attains (declare ctx target (.guarded head ⟨name, range⟩ (.define head' ⟨name, range'⟩ :: items)))
      t ds P := by
    rw [declare]
    refine (ht.note ..).bind fun t₁ h₁ => attains_get ?_
    have hundefined : t₁.defines.isDefined name = false := h₁.isDefined_eq List.not_mem_nil
    dsimp only
    rw [hundefined]
    exact (hbody h₁).bind fun t₂ h₂ => attains_pure h₂
  rw [declareAll, declareAll, ← List.append_nil ds]
  exact hblock.bind fun t₁ h₁ => attains_pure h₁

end Block

/-- A file is compiled in a guard as it is compiled without. -/
theorem FileTraced.carried_inGuard (hroot : FileTraced sources root .empty body s)
    (read : sources.texts.lookup root = some text) (bare : ∀ kind ∈ Token.firstKind? text, kind.isComment = false)
    (lexed : Token.ofSource Compilation.empty.library.nextId text = .ok tokens) (noInclude : Item.NoInclude tokens)
    (isName : IsName name) (noKeyword : ∀ k : Keyword, k.text ≠ name) (undefined : name ∉ s.defines.names)
    (untested : name ∉ Event.testedAll body) (ht : Quiet .empty t) :
    Attains (compile (sources.put root (inGuard name text)) none root) t (Event.declarations body)
      (Mirrors .identity (defining name) s) := by
  have apart : Unrelated (defining name) s body := by
    refine ⟨fun p hp => List.not_mem_nil, fun n hn => List.not_mem_nil, fun n hn hname => ?_, fun n hn hname => ?_⟩
    · obtain rfl : n = name := List.mem_singleton.1 hname
      exact undefined hn
    · obtain rfl : n = name := List.mem_singleton.1 hname
      exact untested hn
  obtain ⟨items, s₁, s₂, opens, within, closes⟩ := hroot
  have hstack : s₁.compiling = [root] := opens.compiling_eq
  have hopen := opens.open_of_fresh (List.forall_mem_nil _)
  have hlast : root ∉ s₂.compiled := within.notMem_compiled (by simp [hstack]) (hopen root (by simp [hstack]))
  have hsound := opens.items_sound
  obtain @⟨text', tokens', _, -, hapart, hread, hlexed, hquiet⟩ := opens
  obtain rfl : text' = text := Option.some.inj (hread.symm.trans read)
  obtain rfl : tokens' = tokens := Except.ok.inj (hlexed.symm.trans lexed)
  obtain ⟨log, rfl⟩ := ht
  obtain ⟨phrases, derives⟩ := within.derives hquiet hopen hsound noInclude
  obtain ⟨tokens, head, head', range, range', σ, hlexed', hitems⟩ :=
    Item.ofTokens_inGuard isName noKeyword lexed (Token.isComment_head lexed bare) noInclude derives
  refine (attains_compile_of_notMem (s := { Compilation.empty with log }) (P := Mirrors .identity (defining name) s₂)
    none List.not_mem_nil List.not_mem_nil hapart (sources.lookup_put_self ..) hlexed' fun t ht => ?_).mono ?_
  · rw [hitems]
    refine attains_guarded_first (mirrors_empty [root] ht) fun t₁ h₁ => ?_
    exact within.carried trivial (fun _ _ => trivial) trivial hsound (fun _ _ => trivial) hopen
      (apart.clear rfl closes.continues hlast _) apart.tested σ (h₁.exchange rfl hquiet)
  · rintro t ⟨t₁, h₁, ht⟩
    exact h₁.closed trivial (by simp [within.compiling_eq, hstack]) closes ht

/-- A file that has no includes, does not start with a comment and compiles after nothing can be put into a guard, if
the name of the guard is neither defined nor tested in it: it still compiles, to the same declarations and with the same
outputs, and nothing else is defined than before and the name of the guard. -/
theorem include_guard_transparent {path : Path} {ds : List Declaration}
    (run : Gives (compileFile sources path) .empty ds s) (read : sources.texts.lookup path.normalize = some text)
    (bare : ∀ kind ∈ Token.firstKind? text, kind.isComment = false)
    (lexed : Token.ofSource Compilation.empty.library.nextId text = .ok tokens) (noInclude : Item.NoInclude tokens)
    (isName : IsName name) (noKeyword : ∀ k : Keyword, k.text ≠ name) (undefined : name ∉ s.defines.names)
    (untested : name ∉ Event.testedAll (history sources path)) :
    ∃ s', Gives (compileFile (sources.put path.normalize (inGuard name text)) path) .empty ds s' ∧
      s'.finish.1 = s.finish.1 ∧
      ∀ n, s'.defines.isDefined n = true ↔ s.defines.isDefined n = true ∨ n = name := by
  obtain ⟨rfl, hroot⟩ := fileTraced_of_compileFile run
  obtain ⟨s', hgives, hs'⟩ := attains_compileFile rfl fun t ht =>
    hroot.carried_inGuard read bare lexed noInclude isName noKeyword undefined untested ht
  have hemissions : s'.emissions = s.emissions := by simpa [defining, empty] using hs'.emissions
  refine ⟨s', hgives, ?_, fun n => ?_⟩
  · rw [finish, finish, hemissions]
  · rw [Defines.isDefined_iff, Defines.isDefined_iff, hs'.defines, List.mem_append]
    apply or_congr_right
    exact List.mem_singleton

/-- A module with a block that is guarded in it, and a comment. -/
def guardedModule : String := "module M\x7b\n#ifndef A\n#define A\ntypedef long X;//x\n#endif\n\x7d;"

def moduleSources : Sources where
  texts := [(⟨"m.idl"⟩, guardedModule)]
  failure _ := "not found"

/-- The module is compiled in one more guard. -/
theorem include_guard_transparent_module :
    ∃ ds s', Gives (compileFile moduleSources ⟨"m.idl"⟩) .empty ds
        (outcome (compileFile moduleSources ⟨"m.idl"⟩) .empty).2 ∧
      Gives (compileFile (moduleSources.put ⟨"m.idl"⟩ (inGuard "G" guardedModule)) ⟨"m.idl"⟩) .empty ds s' ∧
      s'.finish.1 = (outcome (compileFile moduleSources ⟨"m.idl"⟩) .empty).2.finish.1 ∧
      s'.defines.isDefined "A" = true ∧ s'.defines.isDefined "G" = true := by
  obtain ⟨ds, run⟩ := exists_gives (m := compileFile moduleSources ⟨"m.idl"⟩) (s := .empty) (by decide +kernel)
  have hroot : (⟨"m.idl"⟩ : Path).normalize = ⟨"m.idl"⟩ := by decide +kernel
  let tokens := (Token.ofSource 1 guardedModule).toOption.getD []
  obtain ⟨lexed, noInclude⟩ : (Token.ofSource 1 guardedModule).toOption = some tokens ∧
      ∀ token ∈ tokens, token.kind ≠ .directive .include := by decide +kernel
  have isName : Text.isName "G".toList = true := by decide +kernel
  have hkeywords : ∀ k ∈ Keyword.all, k.text ≠ "G" := by decide
  have happly := @include_guard_transparent moduleSources "G" guardedModule tokens _ ⟨"m.idl"⟩ ds run
  rw [hroot] at happly
  obtain ⟨s', hgives, houtputs, hdefined⟩ := happly (by decide +kernel) (by decide +kernel)
    (Token.toOption_eq_some.1 lexed) noInclude isName (fun k => hkeywords k (Token.mem_keywords k))
    (by decide +kernel) (by decide +kernel)
  exact ⟨ds, s', run, hgives, houtputs, (hdefined "A").2 (.inl (by decide +kernel)), (hdefined "G").2 (.inr rfl)⟩

end Compilation

end Idl
