import Idl.Proofs.Erasure

/-!
# Files at other places

A text can be read under another file number, and behind another text. Its tokens are then the same,
apart from their ranges and positions, and the blanks in front of a token that is no comment may differ.
Such a change is a `Shift`. Every reader does the same with shifted tokens as with the tokens
themselves, and what it finds is shifted: this is said for each of them, from single tokens to
`Shift.ofTokens`, the items of a file.
-/

namespace Idl

/-- A change of the places of tokens: the file gets another number, the text stands `offset` bytes further on, and
blanks that belong to no comment are others. -/
structure Shift where
  file : Nat → Nat
  injective : ∀ m n, file m = file n → m = n
  offset : Nat
  leading : Token → String
  leading_eq : ∀ token : Token, token.kind.isComment = true → leading token = token.leading
  position : Token → Position

namespace Shift

variable (σ : Shift)

/-! ## Shifted data -/

def range (r : FileRange) : FileRange := ⟨σ.file r.file, σ.offset + r.start, σ.offset + r.stop⟩

def token (t : Token) : Token := ⟨t.kind, σ.leading t, t.text, σ.range t.range, σ.position t⟩

/-- An error that is about the shifted places. -/
def error : Error → Error
  | .unclosedComment r => .unclosedComment (σ.range r)
  | .unexpectedCharacter r => .unexpectedCharacter (σ.range r)
  | .unexpectedToken r found expected => .unexpectedToken (σ.range r) found expected
  | .unexpectedEnd r expected => .unexpectedEnd (σ.range r) expected
  | .invalidDirection r found => .invalidDirection (σ.range r) found
  | .malformedInclude r => .malformedInclude (σ.range r)
  | .duplicateDefine name r previous => .duplicateDefine name (σ.range r) (σ.range previous)
  | .duplicateSymbol name r previous => .duplicateSymbol name (σ.range r) (σ.range previous)
  | .reservedName name r => .reservedName name (σ.range r)
  | .unknownType type r suggestion => .unknownType type (σ.range r) suggestion
  | .notException name r kind => .notException name (σ.range r) kind
  | .includeCycle path r => .includeCycle path (σ.range r)
  | .unreadable path r reason => .unreadable path (r.map σ.range) reason
  | .overwritesSource path r => .overwritesSource path (r.map σ.range)

/-- A result that is about the shifted places, where `f` shifts what was found. -/
def result {α β : Type} (f : α → β) : Except Error α → Except Error β
  | .error e => .error (σ.error e)
  | .ok a => .ok (f a)

def name (n : Name) : Name := ⟨n.text, σ.range n.range⟩

def type (t : TypeExpr) : TypeExpr := ⟨t.text, σ.range t.range⟩

def typed (t : TypedName) : TypedName := ⟨σ.type t.type, σ.name t.name⟩

def field (f : Field TypeExpr) : Field TypeExpr := ⟨f.name, σ.type f.type⟩

def parameter (p : Parameter TypeExpr) : Parameter TypeExpr := ⟨p.direction, p.name, σ.type p.type⟩

def method (m : Method TypeExpr Name) : Method TypeExpr Name :=
  ⟨m.name, σ.type m.returns, m.parameters.map σ.parameter, m.raises.map σ.name⟩

def methodItem (m : MethodItem) : MethodItem := ⟨σ.method m.method, m.fault.map σ.error⟩

/-- Members with their items shifted. The comments among them stay as they are. -/
def members {α β : Type} (f : α → β) (ms : List (Member α)) : List (Member β) :=
  ms.map fun
    | .item a => .item (f a)
    | .comment c => .comment c

def block {α β : Type} (f : List (Member α) → List (Member β)) (b : Block α) : Block β :=
  ⟨f b.members, b.trailing, b.fault.map σ.error⟩

mutual

@[simp]
def item : Item → Item
  | .comment c => .comment c
  | .define head name => .define (σ.token head) (σ.name name)
  | .include head written r => .include (σ.token head) written (σ.range r)
  | .guarded head name body => .guarded (σ.token head) (σ.name name) (items body)
  | .module head name body trailing fault =>
    .module (σ.token head) (σ.name name) (items body) trailing (fault.map σ.error)
  | .typedef head typed comments => .typedef (σ.token head) (σ.typed typed) comments
  | .record head kind name block => .record (σ.token head) kind (σ.name name) (σ.block (members σ.field) block)
  | .enum head name block => .enum (σ.token head) (σ.name name) (σ.block id block)
  | .interface head name block => .interface (σ.token head) (σ.name name) (σ.block (members σ.methodItem) block)
  | .fault head error => .fault (head.map σ.token) (σ.error error)

def items : List Item → List Item
  | [] => []
  | i :: is => item i :: items is

end

def cursor (c : Cursor) : Cursor := ⟨c.tokens.map σ.token, c.comments⟩

def reading {α β : Type} (f : List α → List β) (r : Cursor.Reading α) : Cursor.Reading β :=
  (f r.1, σ.result σ.cursor r.2)

def opener : Item.Opener → Item.Opener
  | .guarded head name => .guarded (σ.token head) (σ.name name)
  | .module head name => .module (σ.token head) (σ.name name)

def frame (f : Item.Frame) : Item.Frame := ⟨σ.opener f.opener, σ.items f.before⟩

def step : Item.Step → Item.Step
  | .items read rest => .items (σ.items read) (σ.cursor rest)
  | .enter opener rest => .enter (σ.opener opener) (σ.cursor rest)
  | .stop item => .stop (σ.item item)

/-- A text that has the shifted tokens of another one, from the offset on. -/
structure Fits (source source' : SourceText) : Prop where
  finish : source'.finish = σ.range source.finish
  chars : ∀ n, Text.dropBytes (σ.offset + n) source'.chars = Text.dropBytes n source.chars

/-! ## Results -/

section Results

variable {α β γ δ : Type} {σ} {f : α → γ} {g : β → δ}

@[simp]
theorem result_ok (f : α → γ) (a : α) : σ.result f (.ok a) = .ok (f a) := rfl

@[simp]
theorem result_error (f : α → γ) (e : Error) : σ.result f (.error e) = .error (σ.error e) := rfl

theorem result_bind {x : Except Error α} {x' : Except Error γ} {k : α → Except Error β} {k' : γ → Except Error δ}
    (hx : x' = σ.result f x) (hk : ∀ a, k' (f a) = σ.result g (k a)) : x' >>= k' = σ.result g (x >>= k) := by
  subst hx
  cases x with
  | error e => rfl
  | ok a => exact hk a

theorem result_ite {p : Prop} [Decidable p] {x y : Except Error α} :
    σ.result f (if p then x else y) = if p then σ.result f x else σ.result f y := apply_ite ..

end Results

/-! ## Tokens -/

theorem range_extend (r s : FileRange) : σ.range (r.extend s) = (σ.range r).extend (σ.range s) := by
  by_cases h : r.file = s.file
  · simp only [FileRange.extend, FileRange.merge?, range, h, if_true, Option.getD_some, FileRange.mk.injEq, true_and]
    omega
  · have h' : σ.file r.file ≠ σ.file s.file := fun heq => h (σ.injective _ _ heq)
    simp [FileRange.extend, FileRange.merge?, range, h, h']

@[simp]
theorem kind_token (t : Token) : (σ.token t).kind = t.kind := rfl

@[simp]
theorem text_token (t : Token) : (σ.token t).text = t.text := rfl

@[simp]
theorem range_token (t : Token) : (σ.token t).range = σ.range t.range := rfl

theorem comment_token {t : Token} (h : t.kind.isComment = true) : Comment.ofToken (σ.token t) = .ofToken t := by
  simp [Comment.ofToken, token, σ.leading_eq t h]

/-- The comments among shifted tokens are the same. -/
theorem comments_tokens {ts : List Token} (h : ∀ t ∈ ts, t.kind.isComment = true) :
    (ts.map σ.token).map Comment.ofToken = ts.map Comment.ofToken := by
  rw [List.map_map]
  exact List.map_congr_left fun t ht => σ.comment_token (h t ht)

theorem unexpected_token (t : Token) (expected : String) :
    (σ.token t).unexpected expected = σ.error (t.unexpected expected) := rfl

theorem name_token (t : Token) : (σ.token t).name = σ.result σ.name t.name := by
  unfold Token.name
  rw [result_ite]
  rfl

theorem spell_tokens (ts : List Token) : Cursor.spell (ts.map σ.token) = Cursor.spell ts := by
  fun_induction Cursor.spell ts with
  | case1 => rfl
  | case2 t => rfl
  | case3 t next rest ih => simp [Cursor.spell, ← ih]

theorem typeExpr_tokens (first : Token) (rest : List Token) :
    Cursor.typeExpr (σ.token first) (rest.map σ.token) = σ.type (Cursor.typeExpr first rest) := by
  have hspell := σ.spell_tokens (first :: rest)
  rw [List.map_cons] at hspell
  have hlast : (rest.map σ.token).getLastD (σ.token first) = σ.token (rest.getLastD first) := List.getLastD_map ..
  simp only [Cursor.typeExpr, hspell, hlast, type, range_token, range_extend]

/-! ## Cursors -/

section Cursors

variable (c : Cursor) (finish : FileRange)

@[simp]
theorem tokens_cursor : (σ.cursor c).tokens = c.tokens.map σ.token := rfl

@[simp]
theorem skip_cursor : (σ.cursor c).skip = σ.cursor c.skip := by
  have hdrop : (c.tokens.map σ.token).dropWhile (·.kind.isComment) =
      (c.tokens.dropWhile (·.kind.isComment)).map σ.token := List.dropWhile_map ..
  have htake : (c.tokens.map σ.token).takeWhile (·.kind.isComment) =
      (c.tokens.takeWhile (·.kind.isComment)).map σ.token := List.takeWhile_map ..
  have hcomments : ∀ t ∈ c.tokens.takeWhile (·.kind.isComment), t.kind.isComment = true :=
    fun t ht => List.all_eq_true.1 List.all_takeWhile t ht
  simp only [Cursor.skip, cursor, hdrop, htake, σ.comments_tokens hcomments]

@[simp]
theorem fresh_cursor : (σ.cursor c).fresh = σ.cursor c.fresh := by
  rw [Cursor.fresh, skip_cursor]
  rfl

@[simp]
theorem kind?_cursor : (σ.cursor c).kind? = c.kind? := by
  rw [Cursor.kind?, skip_cursor]
  simp only [cursor, List.head?_map, Option.map_map, Cursor.kind?]
  rfl

theorem drop_cursor : (⟨(σ.cursor c).skip.tokens.drop 1, (σ.cursor c).skip.comments⟩ : Cursor) =
    σ.cursor ⟨c.skip.tokens.drop 1, c.skip.comments⟩ := by
  rw [skip_cursor]
  simp only [cursor, List.map_drop]

@[simp]
theorem passedMembers_cursor {α : Type} :
    ((σ.cursor c).passedMembers : List (Member α)) = c.passedMembers := by
  rw [Cursor.passedMembers, skip_cursor]
  rfl

@[simp]
theorem hoistedMembers_cursor {α : Type} :
    ((σ.cursor c).hoistedMembers : List (Member α)) = c.hoistedMembers := rfl

@[simp]
theorem cursor_tokens (ts : List Token) : (⟨ts.map σ.token, []⟩ : Cursor) = σ.cursor ⟨ts, []⟩ := rfl

theorem next_cursor (expected : String) : (σ.cursor c).next (σ.range finish) expected =
    σ.result (Prod.map σ.token σ.cursor) (c.next finish expected) := by
  unfold Cursor.next
  rw [skip_cursor]
  simp only [cursor]
  cases c.skip.tokens with
  | nil => rfl
  | cons t rest => rfl

theorem expect_cursor (kind : Token.Kind) (expected : String) :
    (σ.cursor c).expect (σ.range finish) kind expected = σ.result σ.cursor (c.expect finish kind expected) := by
  refine result_bind (σ.next_cursor c finish expected) ?_
  rintro ⟨t, d⟩
  rw [result_ite]
  rfl

theorem name_cursor :
    (σ.cursor c).name (σ.range finish) = σ.result (Prod.map σ.name σ.cursor) (c.name finish) := by
  refine result_bind (σ.next_cursor c finish "a name") ?_
  rintro ⟨t, d⟩
  exact result_bind (σ.name_token t) fun name => rfl

theorem typedName_cursor (stops : List Mark) : (σ.cursor c).typedName (σ.range finish) stops =
    σ.result (Prod.map σ.typed σ.cursor) (c.typedName finish stops) := by
  have htake : (c.tokens.map σ.token).takeWhile (!Cursor.endsType stops ·) =
      (c.tokens.takeWhile (!Cursor.endsType stops ·)).map σ.token := List.takeWhile_map ..
  have hdrop : (c.tokens.map σ.token).dropWhile (!Cursor.endsType stops ·) =
      (c.tokens.dropWhile (!Cursor.endsType stops ·)).map σ.token := List.dropWhile_map ..
  have hcomments : (((c.tokens.takeWhile (!Cursor.endsType stops ·)).map σ.token).filter (·.kind.isComment)).map
      Comment.ofToken = ((c.tokens.takeWhile (!Cursor.endsType stops ·)).filter (·.kind.isComment)).map
        Comment.ofToken := by
    rw [List.filter_map]
    exact σ.comments_tokens fun t ht => (List.mem_filter.1 ht).2
  have hwords : ((c.tokens.takeWhile (!Cursor.endsType stops ·)).map σ.token).filter (!·.kind.isComment) =
      ((c.tokens.takeWhile (!Cursor.endsType stops ·)).filter (!·.kind.isComment)).map σ.token := List.filter_map ..
  simp only [Cursor.typedName, cursor, htake, hdrop, hcomments, hwords, ← List.map_dropLast, List.getLast?_map]
  cases c.tokens.dropWhile (!Cursor.endsType stops ·) with
  | nil => rfl
  | cons stop rest =>
    generalize (c.tokens.takeWhile (!Cursor.endsType stops ·)).filter (!·.kind.isComment) = words
    rcases words.dropLast with _ | ⟨first, more⟩
    · rfl
    · rcases words.getLast? with _ | last
      · rfl
      · refine result_bind (σ.name_token last) fun name => ?_
        simp only [typeExpr_tokens]
        rfl

end Cursors

/-! ## Members -/

section Members

variable {α β : Type} {finish : FileRange}

@[simp]
theorem members_append (f : α → β) (ms ms' : List (Member α)) :
    members f (ms ++ ms') = members f ms ++ members f ms' := List.map_append

@[simp]
theorem members_cons_item (f : α → β) (a : α) (ms : List (Member α)) :
    members f (.item a :: ms) = .item (f a) :: members f ms := rfl

@[simp]
theorem members_nil (f : α → β) : members f [] = [] := rfl

@[simp]
theorem members_passedMembers (f : α → β) (c : Cursor) : members f c.passedMembers = c.passedMembers := by
  simp [members, Cursor.passedMembers]

@[simp]
theorem members_hoistedMembers (f : α → β) (c : Cursor) : members f c.hoistedMembers = c.hoistedMembers := by
  simp [members, Cursor.hoistedMembers]

@[simp]
theorem reading_mk (f : List α → List β) (as : List α) (last : Except Error Cursor) :
    σ.reading f (as, last) = (f as, σ.result σ.cursor last) := rfl

theorem reading_readAfter {f : List α → List β} {before before' : Except Error Cursor}
    {k : Cursor → Cursor.Reading α} {k' : Cursor → Cursor.Reading β} (hnil : f [] = [])
    (hbefore : before' = σ.result σ.cursor before) (hk : ∀ c, k' (σ.cursor c) = σ.reading f (k c)) :
    Cursor.readAfter before' k' = σ.reading f (Cursor.readAfter before k) := by
  subst hbefore
  cases before with
  | error e => simp only [Cursor.readAfter, reading, result_error, hnil]
  | ok c => exact hk c

theorem field_cursor (c : Cursor) :
    (σ.cursor c).field (σ.range finish) = σ.result (Prod.map σ.field σ.cursor) (c.field finish) := by
  refine result_bind (σ.typedName_cursor c finish Cursor.fieldStops) ?_
  rintro ⟨typed, d⟩
  refine result_bind (σ.next_cursor d finish "`;`") ?_
  rintro ⟨t, d⟩
  rw [result_ite]
  rfl

theorem fields_cursor (c : Cursor) :
    (σ.cursor c).fields (σ.range finish) = σ.reading (members σ.field) (c.fields finish) := by
  fun_induction Cursor.fields finish c with
  | case1 c h =>
    rw [Cursor.fields_eq, if_pos (by rwa [kind?_cursor])]
    simp
  | case2 c h e he =>
    rw [Cursor.fields_eq, if_neg (by rwa [kind?_cursor]), fresh_cursor, field_cursor, he]
    simp
  | case3 c h f after hf hlt rest last heq ih =>
    rw [Cursor.fields_eq, if_neg (by rwa [kind?_cursor]), fresh_cursor, field_cursor, hf]
    rw [heq] at ih
    simp [ih]

theorem values_cursor (c : Cursor) : (σ.cursor c).values (σ.range finish) = σ.reading id (c.values finish) := by
  fun_induction Cursor.values finish c with
  | case1 c e he =>
    rw [Cursor.values_eq, fresh_cursor, name_cursor, he]
    simp
  | case2 c name after hname head hs =>
    rw [Cursor.values_eq, fresh_cursor, name_cursor, hname]
    simp [head, Shift.name, hs]
  | case3 c name after hname head t ts hs hcomma hlt rest last heq ih =>
    rw [Cursor.values_eq, fresh_cursor, name_cursor, hname]
    rw [heq] at ih
    simp [head, Shift.name, hs, hcomma, ih]
  | case4 c name after hname head t ts hs hcomma =>
    rw [Cursor.values_eq, fresh_cursor, name_cursor, hname]
    simp [head, Shift.name, hs, hcomma]

theorem enumMembers_cursor (c : Cursor) :
    (σ.cursor c).enumMembers (σ.range finish) = σ.reading id (c.enumMembers finish) := by
  unfold Cursor.enumMembers
  rw [kind?_cursor]
  split
  · simp
  · exact σ.values_cursor c

/-! ## Methods -/

theorem separated_cursor {f : α → β} {item : Cursor → Except Error (α × Cursor)}
    {forward : ∀ c d a, item c = .ok (a, d) → d.size ≤ c.size} {item' : Cursor → Except Error (β × Cursor)}
    {forward' : ∀ c d a, item' c = .ok (a, d) → d.size ≤ c.size}
    (hitem : ∀ c, item' (σ.cursor c) = σ.result (Prod.map f σ.cursor) (item c)) (c : Cursor) :
    (σ.cursor c).separated (σ.range finish) item' forward' =
      σ.reading (List.map f) (c.separated finish item forward) := by
  fun_induction Cursor.separated finish item forward c with
  | case1 c e he =>
    rw [Cursor.separated_eq, hitem, he]
    simp
  | case2 c a after ha e he =>
    rw [Cursor.separated_eq, hitem, ha]
    simp [next_cursor, he]
  | case3 c a after ha t rest hn hcomma hlt more last heq ih =>
    rw [Cursor.separated_eq, hitem, ha]
    rw [heq] at ih
    simp [next_cursor, hn, hcomma, ih]
  | case4 c a after ha t rest hn hcomma hclose =>
    rw [Cursor.separated_eq, hitem, ha]
    simp [next_cursor, hn, hclose]
  | case5 c a after ha t rest hn hcomma hclose =>
    rw [Cursor.separated_eq, hitem, ha]
    simp [next_cursor, hn, hcomma, hclose, unexpected_token]

theorem parameter_cursor (c : Cursor) :
    (σ.cursor c).parameter (σ.range finish) = σ.result (Prod.map σ.parameter σ.cursor) (c.parameter finish) := by
  refine result_bind (σ.next_cursor c finish "a parameter direction") ?_
  rintro ⟨t, d⟩
  simp only [Prod.map_apply, kind_token]
  split
  · refine result_bind (σ.typedName_cursor d finish Cursor.fieldStops) ?_
    rintro ⟨typed, d⟩
    rfl
  · rfl

theorem parameters_cursor (c : Cursor) :
    (σ.cursor c).parameters (σ.range finish) = σ.reading (List.map σ.parameter) (c.parameters finish) := by
  unfold Cursor.parameters
  rw [kind?_cursor]
  split
  · rw [drop_cursor]
    rfl
  · exact σ.separated_cursor σ.parameter_cursor c

theorem raised_cursor (c : Cursor) :
    (σ.cursor c).raised (σ.range finish) = σ.reading (List.map σ.name) (c.raised finish) := by
  unfold Cursor.raised
  rw [kind?_cursor]
  split
  · refine σ.reading_readAfter rfl ?_ fun d => σ.separated_cursor (fun c => σ.name_cursor c finish) d
    rw [drop_cursor, expect_cursor]
  · rfl

/-- What was read of a method, shifted. -/
def readMethod (r : Method TypeExpr Name × Except Error Cursor) : Method TypeExpr Name × Except Error Cursor :=
  (σ.method r.1, σ.result σ.cursor r.2)

theorem methodRest_cursor (typed : TypedName) (c : Cursor) :
    (σ.cursor c).methodRest (σ.range finish) (σ.typed typed) = σ.readMethod (c.methodRest finish typed) := by
  have hlisted : Cursor.readAfter ((σ.cursor c).expect (σ.range finish) (.mark .openParen) "`(`")
        (·.parameters (σ.range finish)) =
      σ.reading (List.map σ.parameter) (Cursor.readAfter (c.expect finish (.mark .openParen) "`(`")
        (·.parameters finish)) :=
    σ.reading_readAfter rfl (σ.expect_cursor ..) σ.parameters_cursor
  have hraised : Cursor.readAfter (Cursor.readAfter ((σ.cursor c).expect (σ.range finish) (.mark .openParen) "`(`")
        (·.parameters (σ.range finish))).2 (·.raised (σ.range finish)) =
      σ.reading (List.map σ.name) (Cursor.readAfter (Cursor.readAfter (c.expect finish (.mark .openParen) "`(`")
        (·.parameters finish)).2 (·.raised finish)) :=
    σ.reading_readAfter rfl (congrArg Prod.snd hlisted) σ.raised_cursor
  simp only [Cursor.methodRest, hraised]
  simp only [hlisted, readMethod, method, reading, Shift.typed, Shift.name, Prod.mk.injEq, true_and]
  exact result_bind rfl fun d => σ.expect_cursor ..

theorem method_cursor (c : Cursor) :
    (σ.cursor c).method (σ.range finish) = σ.result σ.readMethod (c.method finish) := by
  refine result_bind (σ.typedName_cursor c finish [.openParen]) ?_
  rintro ⟨typed, d⟩
  exact congrArg Except.ok (σ.methodRest_cursor typed d)

theorem methods_cursor (c : Cursor) :
    (σ.cursor c).methods (σ.range finish) = σ.reading (members σ.methodItem) (c.methods finish) := by
  fun_induction Cursor.methods finish c with
  | case1 c h =>
    rw [Cursor.methods_eq, if_pos (by rwa [kind?_cursor])]
    simp
  | case2 c h e he =>
    rw [Cursor.methods_eq, if_neg (by rwa [kind?_cursor]), fresh_cursor, method_cursor, he]
    simp
  | case3 c h m e he =>
    rw [Cursor.methods_eq, if_neg (by rwa [kind?_cursor]), fresh_cursor, method_cursor, he]
    simp [readMethod, methodItem]
  | case4 c h m after hm hlt rest last heq ih =>
    rw [Cursor.methods_eq, if_neg (by rwa [kind?_cursor]), fresh_cursor, method_cursor, hm]
    rw [heq] at ih
    simp [readMethod, methodItem, ih]

/-! ## Blocks -/

/-- What was read of a block, shifted. -/
def readBlock (f : List (Member α) → List (Member β)) (r : Block α × Option Cursor) : Block β × Option Cursor :=
  (σ.block f r.1, r.2.map σ.cursor)

theorem block_cursor {f : List (Member α) → List (Member β)} {members : Cursor → Cursor.Reading (Member α)}
    {members' : Cursor → Cursor.Reading (Member β)} (hnil : f [] = [])
    (hmembers : ∀ c, members' (σ.cursor c) = σ.reading f (members c)) (closer : String) (c : Cursor) :
    (σ.cursor c).block (σ.range finish) members' closer = σ.readBlock f (c.block finish members closer) := by
  have hread : Cursor.readAfter ((σ.cursor c).expect (σ.range finish) (.mark .openBrace) "`\x7b`") members' =
      σ.reading f (Cursor.readAfter (c.expect finish (.mark .openBrace) "`\x7b`") members) :=
    σ.reading_readAfter hnil (σ.expect_cursor ..) hmembers
  have hended : ((Cursor.readAfter ((σ.cursor c).expect (σ.range finish) (.mark .openBrace) "`\x7b`") members').2.bind
        (·.expect (σ.range finish) (.mark .closeBrace) closer)).bind
          (·.expect (σ.range finish) (.mark .semicolon) "`;`") =
      σ.result σ.cursor (((Cursor.readAfter (c.expect finish (.mark .openBrace) "`\x7b`") members).2.bind
        (·.expect finish (.mark .closeBrace) closer)).bind (·.expect finish (.mark .semicolon) "`;`")) :=
    result_bind (result_bind (congrArg Prod.snd hread) fun d => σ.expect_cursor ..) fun d => σ.expect_cursor ..
  simp only [Cursor.block, hended]
  simp only [hread]
  cases ((Cursor.readAfter (c.expect finish (.mark .openBrace) "`\x7b`") members).2.bind
      (·.expect finish (.mark .closeBrace) closer)).bind (·.expect finish (.mark .semicolon) "`;`") with
  | error e => rfl
  | ok d => rfl

end Members

/-! ## Items -/

@[simp]
theorem items_nil : σ.items [] = [] := by rw [items]

@[simp]
theorem items_cons (i : Item) (is : List Item) : σ.items (i :: is) = σ.item i :: σ.items is := by rw [items]

@[simp]
theorem items_append (is is' : List Item) : σ.items (is ++ is') = σ.items is ++ σ.items is' := by
  induction is with
  | nil => simp
  | cons i is ih => simp [ih]

@[simp]
theorem items_comments (comments : List Comment) : σ.items (comments.map .comment) = comments.map .comment := by
  induction comments with
  | nil => simp
  | cons comment comments ih => simp [ih, item]

section Step

variable (head : Token) (c : Cursor) {finish : FileRange} {source source' : SourceText}

theorem step_after {α β : Type} {f : α → β} {r : Except Error (α × Cursor)} {r' : Except Error (β × Cursor)}
    {k : α → Cursor → Item.Step} {k' : β → Cursor → Item.Step} (hr : r' = σ.result (Prod.map f σ.cursor) r)
    (hk : ∀ a c, k' (f a) (σ.cursor c) = σ.step (k a c)) :
    Item.Step.after (σ.token head) r' k' = σ.step (Item.Step.after head r k) := by
  subst hr
  rcases r with e | ⟨a, c⟩
  · simp [Item.Step.after, step, item]
  · exact hk a c

theorem step_ofItem {α β : Type} {f : List (Member α) → List (Member β)} {r : Block α × Option Cursor}
    {entry : Block α → Item} {entry' : Block β → Item} (hentry : ∀ b, entry' (σ.block f b) = σ.item (entry b)) :
    Item.Step.ofItem ((σ.readBlock f r).map entry' id) = σ.step (Item.Step.ofItem (r.map entry id)) := by
  rcases r with ⟨b, _ | rest⟩
  · simp [Item.Step.ofItem, step, readBlock, hentry]
  · simp [Item.Step.ofItem, step, readBlock, hentry]

theorem typedefStep_cursor : Item.typedefStep (σ.range finish) (σ.token head) (σ.cursor c) =
    σ.step (Item.typedefStep finish head c) := by
  refine σ.step_after head (σ.typedName_cursor c finish [.semicolon]) fun typed d => ?_
  rw [expect_cursor]
  cases d.expect finish (.mark .semicolon) "`;`" with
  | error e => simp [step, item]
  | ok d =>
    simp [step, item]
    rfl

/-- The path of an include directive is found behind the same quote. -/
theorem includeStep_tokens (fits : σ.Fits source source') (tokens : List Token) :
    Item.includeStep source' (σ.token head) (tokens.map σ.token) = σ.step (Item.includeStep source head tokens) := by
  have hmalformed (r : FileRange) : Item.Step.stop (.fault (some (σ.token head))
        (.malformedInclude ((σ.token head).range.extend (σ.range r)))) =
      σ.step (.stop (.fault (some head) (.malformedInclude (head.range.extend r)))) := by
    simp [step, item, error, range_extend]
  cases tokens with
  | nil => exact hmalformed head.range
  | cons quote rest =>
    have hstop : (σ.range quote.range).stop = σ.offset + quote.range.stop := rfl
    -- a token starts or ends in front of an offset just if the shifted one does
    have hstart (n : Nat) : (fun t : Token => decide (t.range.start < σ.offset + n)) ∘ σ.token =
        fun t : Token => decide (t.range.start < n) := by
      funext t
      simp [range]
    have hend (n : Nat) : (fun t : Token => decide (σ.offset + n < t.range.stop)) ∘ σ.token =
        fun t : Token => decide (n < t.range.stop) := by
      funext t
      simp [range]
    unfold Item.includeStep
    simp only [List.map_cons, kind_token, range_token, hstop, fits.chars, Nat.add_assoc, List.takeWhile_map,
      List.dropWhile_map, List.find?_map, hstart, hend]
    split
    · exact hmalformed quote.range
    · split
      · exact hmalformed quote.range
      · split
        · rename_i t htoken
          obtain ⟨t', ht', rfl⟩ := Option.map_eq_some_iff.1 htoken
          rw [ht']
          exact hmalformed t'.range
        · rename_i htoken
          rw [Option.map_eq_none_iff.1 htoken]
          simp [step, item, range]

theorem step_cursor (fits : σ.Fits source source') :
    Item.step source' (σ.token head) (σ.cursor c) = σ.step (Item.step source head c) := by
  unfold Item.step
  simp only [kind_token, fits.finish]
  split
  · refine σ.step_after head (σ.name_cursor ..) fun name d => ?_
    simp [step, item]
    rfl
  · exact σ.step_after head (σ.name_cursor ..) fun name d => rfl
  · exact σ.includeStep_tokens head fits c.tokens
  · refine σ.step_after head (σ.name_cursor ..) fun name d => ?_
    rw [expect_cursor]
    cases d.expect source.finish (.mark .openBrace) "`\x7b`" with
    | error e => simp [step, item]
    | ok d => rfl
  · exact σ.typedefStep_cursor head c
  · refine σ.step_after head (σ.name_cursor ..) fun name d => ?_
    rw [σ.block_cursor (members_nil _) σ.fields_cursor]
    exact σ.step_ofItem fun b => by rw [item]
  · refine σ.step_after head (σ.name_cursor ..) fun name d => ?_
    rw [σ.block_cursor (members_nil _) σ.fields_cursor]
    exact σ.step_ofItem fun b => by rw [item]
  · refine σ.step_after head (σ.name_cursor ..) fun name d => ?_
    rw [σ.block_cursor rfl σ.enumMembers_cursor]
    exact σ.step_ofItem fun b => by rw [item]
  · refine σ.step_after head (σ.name_cursor ..) fun name d => ?_
    rw [σ.block_cursor (members_nil _) σ.methods_cursor]
    exact σ.step_ofItem fun b => by rw [item]
  · simp [step, item, unexpected_token]

end Step

/-! ## Files -/

@[simp]
theorem closer_opener (opener : Item.Opener) : (σ.opener opener).closer = opener.closer := by cases opener <;> rfl

@[simp]
theorem closerText_opener (opener : Item.Opener) : (σ.opener opener).closerText = opener.closerText := by
  cases opener <;> rfl

theorem close_opener (opener : Item.Opener) (finish : FileRange) (body : List Item) (c : Cursor) :
    (σ.opener opener).close (σ.range finish) (σ.items body) (σ.cursor c) =
      (opener.close finish body c).map σ.item (Option.map σ.cursor) := by
  cases opener with
  | guarded head name => simp [Item.Opener.close, opener, item]
  | module head name =>
    simp only [Item.Opener.close, opener]
    rw [expect_cursor]
    cases c.expect finish (.mark .semicolon) "`;`" with
    | error e => simp [item]
    | ok d =>
      simp [item]
      rfl

theorem abandon_frame (body : List Item) (f : Item.Frame) :
    (σ.frame f).abandon (σ.items body) = σ.items (f.abandon body) := by
  rcases f with ⟨opener, before⟩
  cases opener with
  | guarded head name => simp [Item.Frame.abandon, frame, Shift.opener, item]
  | module head name => simp [Item.Frame.abandon, frame, Shift.opener, item]

theorem abandon_frames (frames : List Item.Frame) (body : List Item) :
    (frames.map σ.frame).foldl Item.Frame.abandon (σ.items body) =
      σ.items (frames.foldl Item.Frame.abandon body) := by
  induction frames generalizing body with
  | nil => rfl
  | cons f frames ih => rw [List.map_cons, List.foldl_cons, abandon_frame, ih, List.foldl_cons]

theorem ended_frames (finish : FileRange) (frames : List Item.Frame) (is : List Item) :
    Item.ended (σ.range finish) (frames.map σ.frame) (σ.items is) = σ.items (Item.ended finish frames is) := by
  cases frames with
  | nil => rfl
  | cons f frames =>
    have hfault : σ.items is ++ [.fault none (.unexpectedEnd (σ.range finish) f.opener.closerText)] =
        σ.items (is ++ [.fault none (.unexpectedEnd finish f.opener.closerText)]) := by
      simp [item, error]
    have habandon := σ.abandon_frames (f :: frames)
      (is ++ [.fault none (.unexpectedEnd finish f.opener.closerText)])
    rw [← hfault] at habandon
    simpa [Item.ended, frame] using habandon

theorem closing?_frames (head : Token) (frames : List Item.Frame) :
    Item.closing? (σ.token head) (frames.map σ.frame) =
      (Item.closing? head frames).map (Prod.map σ.frame (List.map σ.frame)) := by
  cases frames with
  | nil => rfl
  | cons f frames =>
    simp only [Item.closing?, List.map_cons, frame, closer_opener, kind_token]
    split <;> rfl

/-- Reading on from shifted tokens. -/
theorem readFrom_cons {source source' : SourceText} (fits : σ.Fits source source') {c : Cursor} {head : Token}
    {tokens : List Token} (hs : c.skip.tokens = head :: tokens) (frames : List Item.Frame) (before : List Item) :
    Item.readFrom source' frames (σ.items before) (σ.cursor c) =
      match Item.closing? (σ.token head) frames with
      | some (f, outer) =>
        match f.opener.close (σ.range source.finish) (σ.items (before ++ c.skip.comments.map .comment))
            (σ.cursor ⟨tokens, []⟩) with
        | (i, some rest) => Item.readFrom source' outer (f.before ++ [i]) rest
        | (i, none) => outer.foldl Item.Frame.abandon (f.before ++ [i])
      | none =>
        match σ.step (Item.step source head ⟨tokens, []⟩) with
        | .items read rest =>
          Item.readFrom source' frames (σ.items (before ++ c.skip.comments.map .comment) ++ read) rest
        | .enter opener rest =>
          Item.readFrom source' (⟨opener, σ.items (before ++ c.skip.comments.map .comment)⟩ :: frames) [] rest
        | .stop i =>
          frames.foldl Item.Frame.abandon (σ.items (before ++ c.skip.comments.map .comment) ++ [i]) := by
  rw [Item.readFrom_eq, skip_cursor, tokens_cursor, hs, List.map_cons, ← fits.finish, ← σ.step_cursor head _ fits,
    items_append, items_comments]
  rfl

theorem readFrom_cursor {source source' : SourceText} (fits : σ.Fits source source') (frames : List Item.Frame)
    (before : List Item) (c : Cursor) : Item.readFrom source' (frames.map σ.frame) (σ.items before) (σ.cursor c) =
      σ.items (Item.readFrom source frames before c) := by
  fun_induction Item.readFrom source frames before c with
  | case1 frames before c is hs =>
    have hpassed : σ.items before ++ (σ.cursor c).skip.comments.map .comment = σ.items is := by
      rw [skip_cursor, items_append, items_comments]
      rfl
    rw [Item.readFrom_eq, hpassed, skip_cursor, tokens_cursor, hs, fits.finish]
    exact σ.ended_frames ..
  | case2 frames before c is head tokens hs hlt f outer hclosing i rest hclose hle hrest ih =>
    have hclose' := σ.close_opener f.opener source.finish is ⟨tokens, []⟩
    rw [hclose] at hclose'
    rw [σ.readFrom_cons fits hs, closing?_frames, hclosing]
    simp only [Option.map_some, Prod.map_apply, frame]
    rw [hclose', ← ih, items_append, items_cons, items_nil]
    rfl
  | case3 frames before c is head tokens hs hlt f outer hclosing i hclose =>
    have hclose' := σ.close_opener f.opener source.finish is ⟨tokens, []⟩
    rw [hclose] at hclose'
    rw [σ.readFrom_cons fits hs, closing?_frames, hclosing]
    simp only [Option.map_some, Prod.map_apply, frame]
    rw [hclose', ← abandon_frames, items_append, items_cons, items_nil]
    rfl
  | case4 frames before c is head tokens hs hlt hclosing read rest hstep hle hrest ih =>
    rw [σ.readFrom_cons fits hs, closing?_frames, hclosing, hstep, ← ih, σ.items_append is]
    rfl
  | case5 frames before c is head tokens hs hlt hclosing opener rest hstep hle hrest ih =>
    rw [σ.readFrom_cons fits hs, closing?_frames, hclosing, hstep, ← ih, items_nil]
    rfl
  | case6 frames before c is head tokens hs hlt hclosing i hstep =>
    rw [σ.readFrom_cons fits hs, closing?_frames, hclosing, hstep, ← abandon_frames, σ.items_append is,
      items_cons, items_nil]
    rfl

/-- The items of a file at another place. -/
theorem ofTokens {source source' : SourceText} (fits : σ.Fits source source') (tokens : List Token) :
    Item.ofTokens source' (tokens.map σ.token) = σ.items (Item.ofTokens source tokens) := by
  have hread := σ.readFrom_cursor fits [] [] ⟨tokens, []⟩
  rwa [items_nil] at hread

end Shift

end Idl
