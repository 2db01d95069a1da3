import Idl.Proofs.Readers

/-!
# Reading without blanks, comments and places

The grammar sees of a token only what it is and how it is written, and it sees no comments. So each
reader can be run on bare tokens: what it finds there is what it finds in the file, without
comments and with no places.

* `terminals tokens`: what the grammar sees of some tokens.
* `Error.bare`, `Name.bare`, …, `Item.bare`: the same thing without comments and places.
* `Item.bareAll_ofTokens`: a file without includes has the same bare items as its terminals.
-/

namespace Idl

/-! ## Bare data -/

/-- What the grammar sees of a token: what it is and how it is written. Comments are not seen. -/
structure Terminal where
  kind : Token.Kind
  text : String
  seen : kind.isComment = false
deriving DecidableEq, Repr

/-- What the grammar sees of a token, if it sees the token. -/
def Token.terminal? (token : Token) : Option Terminal :=
  if seen : token.kind.isComment = false then some ⟨token.kind, token.text, seen⟩ else none

/-- What the grammar sees of some tokens. -/
def terminals (tokens : List Token) : List Terminal := tokens.filterMap Token.terminal?

/-- A range that stands for any other. -/
def FileRange.nowhere : FileRange := .point 0 0

/-- A token without blanks and place. -/
def Token.bare (token : Token) : Token := ⟨token.kind, "", token.text, .nowhere, .first⟩

/-- A token that is seen so. -/
def Terminal.token (l : Terminal) : Token := ⟨l.kind, "", l.text, .nowhere, .first⟩

/-- An error without its places. -/
def Error.bare : Error → Error
  | unclosedComment _ => unclosedComment .nowhere
  | unexpectedCharacter _ => unexpectedCharacter .nowhere
  | unexpectedToken _ found expected => unexpectedToken .nowhere found expected
  | unexpectedEnd _ expected => unexpectedEnd .nowhere expected
  | invalidDirection _ found => invalidDirection .nowhere found
  | malformedInclude _ => malformedInclude .nowhere
  | duplicateDefine name _ _ => duplicateDefine name .nowhere .nowhere
  | duplicateSymbol name _ _ => duplicateSymbol name .nowhere .nowhere
  | reservedName name _ => reservedName name .nowhere
  | unknownType type _ suggestion => unknownType type .nowhere suggestion
  | notException name _ kind => notException name .nowhere kind
  | includeCycle path _ => includeCycle path .nowhere
  | unreadable path range reason => unreadable path (range.map fun _ => .nowhere) reason
  | overwritesSource path range => overwritesSource path (range.map fun _ => .nowhere)

/-- A result whose error has lost its places. -/
def erased {α β : Type} (f : α → β) : Except Error α → Except Error β
  | .error e => .error e.bare
  | .ok a => .ok (f a)

def Name.bare (name : Name) : Name := ⟨name.text, .nowhere⟩

def TypeExpr.bare (type : TypeExpr) : TypeExpr := ⟨type.text, .nowhere⟩

def TypedName.bare (typed : TypedName) : TypedName := ⟨typed.type.bare, typed.name.bare⟩

def Field.bare (f : Field TypeExpr) : Field TypeExpr := ⟨f.name, f.type.bare⟩

def Parameter.bare (p : Parameter TypeExpr) : Parameter TypeExpr := ⟨p.direction, p.name, p.type.bare⟩

def Method.bare (m : Method TypeExpr Name) : Method TypeExpr Name :=
  ⟨m.name, m.returns.bare, m.parameters.map Parameter.bare, m.raises.map Name.bare⟩

def MethodItem.bare (m : MethodItem) : MethodItem := ⟨m.method.bare, m.fault.map Error.bare⟩

/-- Members without the comments among them. -/
def Member.bareAll {α β : Type} (f : α → β) (members : List (Member α)) : List (Member β) :=
  (Member.items members).map fun a => .item (f a)

def Block.bare {α β : Type} (f : α → β) (b : Block α) : Block β :=
  ⟨Member.bareAll f b.members, [], b.fault.map Error.bare⟩

namespace Item

def isComment : Item → Bool
  | .comment _ => true
  | _ => false

mutual

/-- An item without comments and places. -/
def bare : Item → Item
  | .comment _ => .comment ⟨"", ""⟩
  | .define head name => .define head.bare name.bare
  | .include head written _ => .include head.bare written .nowhere
  | .guarded head name body => .guarded head.bare name.bare (bareAll body)
  | .module head name body _ stopped => .module head.bare name.bare (bareAll body) [] (stopped.map Error.bare)
  | .typedef head typed _ => .typedef head.bare typed.bare []
  | .record head kind name block => .record head.bare kind name.bare (block.bare Field.bare)
  | .enum head name block => .enum head.bare name.bare (block.bare id)
  | .interface head name block => .interface head.bare name.bare (block.bare MethodItem.bare)
  | .fault head error => .fault (head.map Token.bare) error.bare

/-- Items without comments and places. -/
def bareAll : List Item → List Item
  | [] => []
  | item :: items => if item.isComment then bareAll items else item.bare :: bareAll items

end

end Item

/-! ## Results -/

section erased

variable {α β γ δ : Type} {f : α → γ} {g : β → δ}

@[simp]
theorem erased_ok (f : α → γ) (a : α) : erased f (.ok a) = .ok (f a) := rfl

@[simp]
theorem erased_error (f : α → γ) (e : Error) : erased f (.error e) = .error e.bare := rfl

theorem erased_bind {x : Except Error α} {x' : Except Error γ} {k : α → Except Error β} {k' : γ → Except Error δ}
    (hx : erased f x = x') (hk : ∀ a, erased g (k a) = k' (f a)) : erased g (x >>= k) = x' >>= k' := by
  subst hx
  cases x with
  | error e => rfl
  | ok a => exact hk a

theorem erased_ite {p : Prop} [Decidable p] {x y : Except Error α} :
    erased f (if p then x else y) = if p then erased f x else erased f y := apply_ite ..

end erased

/-! ## Tokens -/

namespace Member

variable {α β : Type} (f : α → β)

@[simp]
theorem bareAll_nil : bareAll f [] = [] := rfl

@[simp]
theorem bareAll_append (ms ms' : List (Member α)) : bareAll f (ms ++ ms') = bareAll f ms ++ bareAll f ms' := by
  simp [bareAll]

@[simp]
theorem bareAll_cons_item (a : α) (ms : List (Member α)) : bareAll f (.item a :: ms) =
    .item (f a) :: bareAll f ms := rfl

@[simp]
theorem items_bareAll (ms : List (Member α)) : items (bareAll f ms) = (items ms).map f := by
  unfold bareAll
  induction items ms with
  | nil => rfl
  | cons a as ih => rw [List.map_cons, items_cons_item, ih, List.map_cons]

end Member

namespace Token

/-- Tokens without blanks, comments and places. -/
def bareAll (tokens : List Token) : List Token := (terminals tokens).map Terminal.token

@[simp]
theorem kind_bare (token : Token) : token.bare.kind = token.kind := rfl

@[simp]
theorem text_bare (token : Token) : token.bare.text = token.text := rfl

@[simp]
theorem bareAll_nil : bareAll [] = [] := rfl

theorem bareAll_cons_comment {token : Token} (h : token.kind.isComment = true) (tokens : List Token) :
    bareAll (token :: tokens) = bareAll tokens := by simp [bareAll, terminals, terminal?, h]

theorem bareAll_cons {token : Token} (h : token.kind.isComment = false) (tokens : List Token) :
    bareAll (token :: tokens) = token.bare :: bareAll tokens := by
  simp [bareAll, terminals, terminal?, h, Terminal.token, bare]

theorem bareAll_eq_map (tokens : List Token) : bareAll tokens = (tokens.filter (!·.kind.isComment)).map bare := by
  induction tokens with
  | nil => rfl
  | cons token tokens ih =>
    cases h : token.kind.isComment with
    | true => simp [bareAll_cons_comment h, h, ih]
    | false => simp [bareAll_cons h, h, ih]

theorem kind_of_mem_bareAll {token : Token} {tokens : List Token} (h : token ∈ bareAll tokens) :
    token.kind.isComment = false := by
  obtain ⟨l, -, rfl⟩ := List.mem_map.1 h
  exact l.seen

section While

variable {p : Token → Bool} (hbare : ∀ token, p token.bare = p token)
  (hcomment : ∀ t, t.kind.isComment = true → p t = true)

include hbare hcomment

/-- Comments do not end a run of tokens. -/
theorem bareAll_takeWhile (tokens : List Token) : bareAll (tokens.takeWhile p) = (bareAll tokens).takeWhile p := by
  induction tokens with
  | nil => rfl
  | cons token tokens ih =>
    cases hc : token.kind.isComment with
    | true => rw [List.takeWhile_cons_of_pos (hcomment _ hc), bareAll_cons_comment hc, bareAll_cons_comment hc, ih]
    | false =>
      by_cases hp : p token = true
      · rw [List.takeWhile_cons_of_pos hp, bareAll_cons hc, bareAll_cons hc, ih,
          List.takeWhile_cons_of_pos (by rwa [hbare])]
      · rw [List.takeWhile_cons_of_neg hp, bareAll_cons hc, List.takeWhile_cons_of_neg (by rwa [hbare])]
        rfl

theorem bareAll_dropWhile (tokens : List Token) : bareAll (tokens.dropWhile p) = (bareAll tokens).dropWhile p := by
  induction tokens with
  | nil => rfl
  | cons token tokens ih =>
    cases hc : token.kind.isComment with
    | true => rw [List.dropWhile_cons_of_pos (hcomment _ hc), bareAll_cons_comment hc, ih]
    | false =>
      by_cases hp : p token = true
      · rw [List.dropWhile_cons_of_pos hp, bareAll_cons hc, ih, List.dropWhile_cons_of_pos (by rwa [hbare])]
      · rw [List.dropWhile_cons_of_neg hp, bareAll_cons hc, List.dropWhile_cons_of_neg (by rwa [hbare])]

end While

theorem erased_name (token : Token) : erased Name.bare token.name = token.bare.name := by
  simp only [name, kind_bare, text_bare, erased_ite]
  rfl

end Token

namespace Cursor

variable {finish : FileRange}

/-- A place among bare tokens. -/
def bare (c : Cursor) : Cursor := ⟨Token.bareAll c.tokens, []⟩

/-! ## Passing over comments -/

@[simp]
theorem bare_skip (c : Cursor) : c.skip.bare = c.bare := by
  have hdrop : ∀ tokens : List Token, Token.bareAll (tokens.dropWhile (·.kind.isComment)) = Token.bareAll tokens := by
    intro tokens
    induction tokens with
    | nil => rfl
    | cons token tokens ih =>
      cases hc : token.kind.isComment with
      | true => rw [List.dropWhile_cons_of_pos (by simpa using hc), Token.bareAll_cons_comment hc, ih]
      | false => rw [List.dropWhile_cons_of_neg (by simp [hc])]
  simp only [bare, skip, hdrop]

@[simp]
theorem bare_fresh (c : Cursor) : c.fresh.bare = c.bare := c.bare_skip

/-- There are no comments to pass over. -/
@[simp]
theorem skip_bare (c : Cursor) : c.bare.skip = c.bare := by
  have hkinds : ∀ token ∈ Token.bareAll c.tokens, token.kind.isComment = false := fun _ => Token.kind_of_mem_bareAll
  simp only [skip, bare]
  revert hkinds
  rcases Token.bareAll c.tokens with _ | ⟨token, tokens⟩
  · exact fun _ => rfl
  · intro hkinds
    simp [hkinds token (List.mem_cons_self ..)]

@[simp]
theorem fresh_bare (c : Cursor) : c.bare.fresh = c.bare := by
  rw [fresh, skip_bare]
  rfl

/-- The token that comes next is no comment. -/
theorem isComment_of_skip {c : Cursor} {token : Token} {rest : List Token} (h : c.skip.tokens = token :: rest) :
    token.kind.isComment = false := by
  have hhead := List.head?_dropWhile_not (·.kind.isComment) c.tokens
  simp only [skip] at h
  rw [h] at hhead
  simpa using hhead

theorem bareAll_of_skip {c : Cursor} {token : Token} {rest : List Token} (h : c.skip.tokens = token :: rest) :
    c.bare.tokens = token.bare :: Token.bareAll rest := by
  rw [← bare_skip, bare, h, Token.bareAll_cons (isComment_of_skip h)]

theorem bareAll_of_skip_nil {c : Cursor} (h : c.skip.tokens = []) : c.bare.tokens = [] := by
  rw [← bare_skip, bare, h]
  rfl

@[simp]
theorem kind?_bare (c : Cursor) : c.bare.kind? = c.kind? := by
  simp only [kind?, skip_bare]
  rcases hs : c.skip.tokens with _ | ⟨token, rest⟩
  · rw [bareAll_of_skip_nil hs]
  · rw [bareAll_of_skip hs]
    rfl

theorem bare_drop (c : Cursor) :
    bare ⟨c.skip.tokens.drop 1, c.skip.comments⟩ = ⟨c.bare.skip.tokens.drop 1, c.bare.skip.comments⟩ := by
  rw [skip_bare]
  rcases hs : c.skip.tokens with _ | ⟨token, rest⟩
  · rw [bareAll_of_skip_nil hs]
    rfl
  · rw [bareAll_of_skip hs]
    rfl

/-! ## Tokens, names and types -/

theorem erased_next (expected : String) (c : Cursor) :
    erased (Prod.map Token.bare bare) (c.next finish expected) = c.bare.next .nowhere expected := by
  unfold next
  rw [skip_bare]
  rcases hs : c.skip.tokens with _ | ⟨token, rest⟩
  · rw [bareAll_of_skip_nil hs]
    rfl
  · rw [bareAll_of_skip hs]
    rfl

theorem erased_expect (finish : FileRange) (kind : Token.Kind) (expected : String) (c : Cursor) :
    erased bare (c.expect finish kind expected) = c.bare.expect .nowhere kind expected := by
  refine erased_bind (c.erased_next expected) ?_
  rintro ⟨token, d⟩
  rw [erased_ite]
  rfl

theorem erased_name (c : Cursor) : erased (Prod.map Name.bare bare) (c.name finish) = c.bare.name .nowhere := by
  refine erased_bind (c.erased_next "a name") ?_
  rintro ⟨token, d⟩
  exact erased_bind token.erased_name fun name => rfl

@[simp]
theorem spell_map_bare (tokens : List Token) : spell (tokens.map Token.bare) = spell tokens := by
  fun_induction spell tokens with
  | case1 => rfl
  | case2 token => rfl
  | case3 token next rest ih => simp [spell, ← ih]

theorem typeExpr_bare (first : Token) (rest : List Token) :
    typeExpr first.bare (rest.map Token.bare) = (typeExpr first rest).bare := by
  have hrange : ((rest.map Token.bare).getLastD first.bare).range = .nowhere := by
    rw [List.getLastD_map]
    rfl
  have hspell := spell_map_bare (first :: rest)
  rw [List.map_cons] at hspell
  simp only [typeExpr, hspell, hrange]
  rfl

theorem endsType_comment (stops : List Mark) {token : Token} (h : token.kind.isComment = true) :
    endsType stops token = false := by
  unfold endsType
  cases hk : token.kind <;> simp_all [Token.Kind.isComment]

theorem erased_typedName (stops : List Mark) (c : Cursor) :
    erased (Prod.map TypedName.bare bare) (c.typedName finish stops) = c.bare.typedName .nowhere stops := by
  have hcomment : ∀ t : Token, t.kind.isComment = true → (!endsType stops t) = true :=
    fun t ht => by simp [endsType_comment stops ht]
  have htake := Token.bareAll_takeWhile (p := (!endsType stops ·)) (fun _ => rfl) hcomment c.tokens
  have hdrop := Token.bareAll_dropWhile (p := (!endsType stops ·)) (fun _ => rfl) hcomment c.tokens
  have hwords : (Token.bareAll (c.tokens.takeWhile (!endsType stops ·))).filter (!·.kind.isComment) =
      ((c.tokens.takeWhile (!endsType stops ·)).filter (!·.kind.isComment)).map Token.bare := by
    rw [← Token.bareAll_eq_map, List.filter_eq_self]
    intro token htoken
    simp [Token.kind_of_mem_bareAll htoken]
  have hcomments : (Token.bareAll (c.tokens.takeWhile (!endsType stops ·))).filter (·.kind.isComment) = [] := by
    rw [List.filter_eq_nil_iff]
    intro token htoken
    simp [Token.kind_of_mem_bareAll htoken]
  simp only [typedName, bare, ← htake, ← hdrop, hwords]
  rcases hrest : c.tokens.dropWhile (!endsType stops ·) with _ | ⟨stop, rest⟩
  · rfl
  · have hstop : stop.kind.isComment = false := by
      have hends := List.head?_dropWhile_not (!endsType stops ·) c.tokens
      rw [hrest] at hends
      rw [Bool.eq_false_iff]
      intro hc
      simp [endsType_comment stops hc] at hends
    rw [Token.bareAll_cons hstop]
    simp only [← List.map_dropLast, List.getLast?_map]
    generalize (c.tokens.takeWhile (!endsType stops ·)).filter (!·.kind.isComment) = words
    rcases words.dropLast with _ | ⟨first, more⟩
    · rfl
    · rcases words.getLast? with _ | last
      · rfl
      · refine erased_bind last.erased_name fun name => ?_
        simp only [typeExpr_bare, hcomments, List.map_nil, List.append_nil, ← Token.bareAll_cons hstop]
        rfl

/-! ## Readings -/

/-- A reading without comments and places, where `f` says how what was read loses its own. -/
def Reading.bare {α β : Type} (f : List α → List β) (r : Reading α) : Reading β := (f r.1, erased Cursor.bare r.2)

theorem bare_readAfter {α β : Type} {f : List α → List β} {before before' : Except Error Cursor}
    {k : Cursor → Reading α}
    {k' : Cursor → Reading β} (hnil : f [] = []) (hbefore : erased bare before = before')
    (hk : ∀ c, (k c).bare f = k' c.bare) : (readAfter before k).bare f = readAfter before' k' := by
  subst hbefore
  cases before with
  | error e =>
    simp only [readAfter, Reading.bare, hnil, erased_error]
  | ok c => exact hk c

@[simp]
theorem bare_mk {α β : Type} (f : List α → List β) (as : List α) (last : Except Error Cursor) :
    Reading.bare f (as, last) = (f as, erased bare last) := rfl

@[simp]
theorem passedMembers_bare {α : Type} (c : Cursor) : (c.bare.passedMembers : List (Member α)) = [] := by
  rw [passedMembers, skip_bare]
  rfl

@[simp]
theorem hoistedMembers_bare {α : Type} (c : Cursor) : (c.bare.hoistedMembers : List (Member α)) = [] := rfl

@[simp]
theorem bareAll_passedMembers {α β : Type} (f : α → β) (c : Cursor) : Member.bareAll f c.passedMembers = [] := by
  simp [Member.bareAll]

@[simp]
theorem bareAll_hoistedMembers {α β : Type} (f : α → β) (c : Cursor) : Member.bareAll f c.hoistedMembers = [] := by
  simp [Member.bareAll]

/-! ## Fields -/

theorem erased_field (c : Cursor) : erased (Prod.map Field.bare bare) (c.field finish) = c.bare.field .nowhere := by
  refine erased_bind (c.erased_typedName fieldStops) ?_
  rintro ⟨typed, d⟩
  refine erased_bind (d.erased_next "`;`") ?_
  rintro ⟨token, d⟩
  rw [erased_ite]
  rfl

/-- The fields of a block, without the dependence of the recursion on the size. -/
theorem fields_eq (c : Cursor) : c.fields finish =
    if c.kind? = some (.mark .closeBrace) then (c.passedMembers, .ok c.fresh)
    else match c.fresh.field finish with
      | .error e => (c.passedMembers, .error e)
      | .ok (f, after) =>
        let (rest, last) := fields finish ⟨after.tokens, []⟩
        (c.passedMembers ++ after.hoistedMembers ++ .item f :: rest, last) := by
  rw [fields]
  split
  · rfl
  · split <;> rename_i h <;> simp only [h]

theorem bare_fields (c : Cursor) : (c.fields finish).bare (Member.bareAll Field.bare) = c.bare.fields .nowhere := by
  fun_induction fields finish c with
  | case1 c h =>
    rw [fields_eq, if_pos (by rwa [kind?_bare])]
    simp
  | case2 c h e he =>
    rw [fields_eq, if_neg (by rwa [kind?_bare]), fresh_bare, ← bare_fresh, ← erased_field, he]
    simp
  | case3 c h f after hf hlt rest last heq ih =>
    rw [fields_eq, if_neg (by rwa [kind?_bare]), fresh_bare, ← bare_fresh, ← erased_field, hf]
    have hrest : fields .nowhere ⟨after.bare.tokens, []⟩ = (Member.bareAll Field.bare rest, erased bare last) := by
      rw [heq] at ih
      exact ih.symm
    simp [hrest]

/-! ## Enum values -/

theorem values_eq (c : Cursor) : c.values finish =
    match c.fresh.name finish with
    | .error e => (c.passedMembers, .error e)
    | .ok (name, after) =>
      let head := c.passedMembers ++ .item name.text :: after.passedMembers
      match after.skip.tokens with
      | [] => (head, .ok after.fresh)
      | token :: tokens =>
        if token.kind = .mark .comma then
          let (rest, last) := values finish ⟨tokens, []⟩
          (head ++ rest, last)
        else (head, .ok after.fresh) := by
  rw [values]
  split <;> rename_i h <;> simp only [h]
  split <;> rename_i hs <;> simp only [hs]

theorem bare_values (c : Cursor) : (c.values finish).bare (Member.bareAll id) = c.bare.values .nowhere := by
  fun_induction values finish c with
  | case1 c e he =>
    rw [values_eq, fresh_bare, ← bare_fresh, ← erased_name, he]
    simp
  | case2 c name after hname head hs =>
    rw [values_eq, fresh_bare, ← bare_fresh, ← erased_name, hname]
    simp [head, bareAll_of_skip_nil hs, Name.bare]
  | case3 c name after hname head token tokens hs hcomma hlt rest last heq ih =>
    rw [values_eq, fresh_bare, ← bare_fresh, ← erased_name, hname]
    have hrest : values .nowhere ⟨Token.bareAll tokens, []⟩ = (Member.bareAll id rest, erased bare last) := by
      rw [heq] at ih
      exact ih.symm
    simp [head, bareAll_of_skip hs, hcomma, hrest, Name.bare]
  | case4 c name after hname head token tokens hs hcomma =>
    rw [values_eq, fresh_bare, ← bare_fresh, ← erased_name, hname]
    simp [head, bareAll_of_skip hs, hcomma, Name.bare]

theorem bare_enumMembers (c : Cursor) :
    (c.enumMembers finish).bare (Member.bareAll id) = c.bare.enumMembers .nowhere := by
  unfold enumMembers
  rw [kind?_bare]
  split
  · simp
  · exact c.bare_values

/-! ## Methods -/

section separated

variable {α : Type} {item : Cursor → Except Error (α × Cursor)}
  {forward : ∀ c d a, item c = .ok (a, d) → d.size ≤ c.size}

theorem separated_eq (c : Cursor) : c.separated finish item forward =
    match item c with
    | .error e => ([], .error e)
    | .ok (a, after) =>
      match after.next finish separatorText with
      | .error e => ([a], .error e)
      | .ok (token, rest) =>
        if token.kind = .mark .comma then
          let (more, last) := separated finish item forward rest
          (a :: more, last)
        else if token.kind = .mark .closeParen then ([a], .ok rest)
        else ([a], .error (token.unexpected separatorText)) := by
  rw [separated]
  split <;> rename_i h <;> simp only [h]
  split <;> rename_i hn <;> simp only [hn]

theorem bare_separated {β : Type} {f : α → β} {item' : Cursor → Except Error (β × Cursor)}
    {forward' : ∀ c d a, item' c = .ok (a, d) → d.size ≤ c.size}
    (hitem : ∀ c, erased (Prod.map f bare) (item c) = item' c.bare) (c : Cursor) :
    (c.separated finish item forward).bare (List.map f) = c.bare.separated .nowhere item' forward' := by
  fun_induction separated finish item forward c with
  | case1 c e he =>
    rw [separated_eq, ← hitem, he]
    simp
  | case2 c a after ha e he =>
    rw [separated_eq, ← hitem, ha]
    simp only [erased_ok, Prod.map_apply]
    rw [← erased_next, he]
    simp
  | case3 c a after ha token rest hn hcomma hlt more last heq ih =>
    rw [separated_eq, ← hitem, ha]
    simp only [erased_ok, Prod.map_apply]
    rw [← erased_next, hn]
    rw [heq] at ih
    simp [hcomma, ← ih]
  | case4 c a after ha token rest hn hcomma hclose =>
    rw [separated_eq, ← hitem, ha]
    simp only [erased_ok, Prod.map_apply]
    rw [← erased_next, hn]
    simp [hclose]
  | case5 c a after ha token rest hn hcomma hclose =>
    rw [separated_eq, ← hitem, ha]
    simp only [erased_ok, Prod.map_apply]
    rw [← erased_next, hn]
    simp [hcomma, hclose, Token.unexpected, Error.bare]
    rfl

end separated

theorem erased_parameter (c : Cursor) :
    erased (Prod.map Parameter.bare bare) (c.parameter finish) = c.bare.parameter .nowhere := by
  refine erased_bind (c.erased_next "a parameter direction") ?_
  rintro ⟨token, d⟩
  simp only [Prod.map_apply, Token.kind_bare]
  split
  · refine erased_bind (d.erased_typedName fieldStops) ?_
    rintro ⟨typed, d⟩
    rfl
  · rfl

theorem bare_parameters (c : Cursor) :
    (c.parameters finish).bare (List.map Parameter.bare) = c.bare.parameters .nowhere := by
  unfold parameters
  rw [kind?_bare]
  split
  · rw [bare_mk, erased_ok, bare_drop]
    rfl
  · exact bare_separated erased_parameter c

theorem bare_raised (c : Cursor) : (c.raised finish).bare (List.map Name.bare) = c.bare.raised .nowhere := by
  unfold raised
  rw [kind?_bare]
  split
  · refine bare_readAfter rfl ?_ (bare_separated erased_name)
    rw [erased_expect, bare_drop]
  · simp

/-- What was read of a method, without comments and places. -/
def bareMethod (r : Method TypeExpr Name × Except Error Cursor) : Method TypeExpr Name × Except Error Cursor :=
  (r.1.bare, erased bare r.2)

theorem bare_methodRest (typed : TypedName) (c : Cursor) :
    bareMethod (c.methodRest finish typed) = c.bare.methodRest .nowhere typed.bare := by
  have hlisted : (readAfter (c.expect finish (.mark .openParen) "`(`") (·.parameters finish)).bare
        (List.map Parameter.bare) =
      readAfter (c.bare.expect .nowhere (.mark .openParen) "`(`") (·.parameters .nowhere) :=
    bare_readAfter rfl (c.erased_expect ..) bare_parameters
  have hraised : (readAfter (readAfter (c.expect finish (.mark .openParen) "`(`") (·.parameters finish)).2
        (·.raised finish)).bare (List.map Name.bare) =
      readAfter (readAfter (c.bare.expect .nowhere (.mark .openParen) "`(`") (·.parameters .nowhere)).2
        (·.raised .nowhere) :=
    bare_readAfter rfl (congrArg Prod.snd hlisted) bare_raised
  simp only [methodRest, ← hraised]
  simp only [← hlisted, bareMethod, Method.bare, Reading.bare, TypedName.bare, Name.bare, Prod.mk.injEq, true_and]
  exact erased_bind rfl fun d => d.erased_expect ..

theorem erased_method (c : Cursor) : erased bareMethod (c.method finish) = c.bare.method .nowhere := by
  refine erased_bind (c.erased_typedName [.openParen]) ?_
  rintro ⟨typed, d⟩
  exact congrArg Except.ok (d.bare_methodRest typed)

theorem methods_eq (c : Cursor) : c.methods finish =
    if c.kind? = some (.mark .closeBrace) then (c.passedMembers, .ok c.fresh)
    else match c.fresh.method finish with
      | .error e => (c.passedMembers, .error e)
      | .ok (m, .error e) => (c.passedMembers ++ [.item ⟨m, some e⟩], .error e)
      | .ok (m, .ok after) =>
        let (rest, last) := methods finish ⟨after.tokens, []⟩
        (c.passedMembers ++ after.hoistedMembers ++ .item ⟨m, none⟩ :: rest, last) := by
  rw [methods]
  split
  · rfl
  · split <;> rename_i h <;> simp only [h]

theorem bare_methods (c : Cursor) :
    (c.methods finish).bare (Member.bareAll MethodItem.bare) = c.bare.methods .nowhere := by
  fun_induction methods finish c with
  | case1 c h =>
    rw [methods_eq, if_pos (by rwa [kind?_bare])]
    simp
  | case2 c h e he =>
    rw [methods_eq, if_neg (by rwa [kind?_bare]), fresh_bare, ← bare_fresh, ← erased_method, he]
    simp
  | case3 c h m e he =>
    rw [methods_eq, if_neg (by rwa [kind?_bare]), fresh_bare, ← bare_fresh, ← erased_method, he]
    simp [bareMethod, MethodItem.bare]
  | case4 c h m after hm hlt rest last heq ih =>
    rw [methods_eq, if_neg (by rwa [kind?_bare]), fresh_bare, ← bare_fresh, ← erased_method, hm]
    have hrest : methods .nowhere ⟨after.bare.tokens, []⟩ =
        (Member.bareAll MethodItem.bare rest, erased bare last) := by
      rw [heq] at ih
      exact ih.symm
    simp [bareMethod, hrest, MethodItem.bare]

/-! ## Blocks -/

/-- What was read of a block, without comments and places. -/
def bareBlock {α β : Type} (f : α → β) (r : Block α × Option Cursor) : Block β × Option Cursor :=
  (r.1.bare f, r.2.map bare)

theorem bare_block {α β : Type} {f : α → β} {members : Cursor → Reading (Member α)}
    {members' : Cursor → Reading (Member β)}
    (hmembers : ∀ c, (members c).bare (Member.bareAll f) = members' c.bare) (closer : String) (c : Cursor) :
    bareBlock f (c.block finish members closer) = c.bare.block .nowhere members' closer := by
  have hread : (readAfter (c.expect finish (.mark .openBrace) "`\x7b`") members).bare (Member.bareAll f) =
      readAfter (c.bare.expect .nowhere (.mark .openBrace) "`\x7b`") members' :=
    bare_readAfter rfl (c.erased_expect ..) hmembers
  have hended : erased bare (((readAfter (c.expect finish (.mark .openBrace) "`\x7b`") members).2.bind
        (·.expect finish (.mark .closeBrace) closer)).bind (·.expect finish (.mark .semicolon) "`;`")) =
      (((readAfter (c.bare.expect .nowhere (.mark .openBrace) "`\x7b`") members').2.bind
        (·.expect .nowhere (.mark .closeBrace) closer)).bind (·.expect .nowhere (.mark .semicolon) "`;`")) :=
    erased_bind (erased_bind (congrArg Prod.snd hread) fun d => d.erased_expect ..) fun d => d.erased_expect ..
  simp only [block, ← hended]
  simp only [← hread]
  cases ((readAfter (c.expect finish (.mark .openBrace) "`\x7b`") members).2.bind
      (·.expect finish (.mark .closeBrace) closer)).bind (·.expect finish (.mark .semicolon) "`;`") with
  | error e => rfl
  | ok d => rfl

end Cursor

/-! ## Items -/

/-- A text that stands for any other. -/
def SourceText.blank : SourceText := ⟨[], .nowhere⟩

namespace Item

def Opener.bare : Opener → Opener
  | guarded head name => .guarded head.bare name.bare
  | module head name => .module head.bare name.bare

def Frame.bare (frame : Frame) : Frame := ⟨frame.opener.bare, bareAll frame.before⟩

def Step.bare : Step → Step
  | items read rest => .items (bareAll read) rest.bare
  | enter opener rest => .enter opener.bare rest.bare
  | stop item => .stop item.bare

@[simp]
theorem bareAll_nil : bareAll [] = [] := by rw [bareAll]

theorem bareAll_cons (item : Item) (items : List Item) :
    bareAll (item :: items) = if item.isComment then bareAll items else item.bare :: bareAll items := by rw [bareAll]

@[simp]
theorem bareAll_append (items items' : List Item) : bareAll (items ++ items') = bareAll items ++ bareAll items' := by
  induction items with
  | nil => simp
  | cons item items ih =>
    simp only [List.cons_append, bareAll_cons, ih]
    split <;> rfl

@[simp]
theorem bareAll_comments (comments : List Comment) : bareAll (comments.map .comment) = [] := by
  induction comments with
  | nil => simp
  | cons comment comments ih =>
    rw [List.map_cons, bareAll_cons, ih]
    rfl

theorem bareAll_snoc {item : Item} (h : item.isComment = false) (items : List Item) :
    bareAll (items ++ [item]) = bareAll items ++ [item.bare] := by simp [bareAll_cons, h]

section step

variable {finish : FileRange} (head : Token) (c : Cursor)

theorem bare_after {α β : Type} {f : α → β} {r : Except Error (α × Cursor)} {r' : Except Error (β × Cursor)}
    {k : α → Cursor → Step} {k' : β → Cursor → Step} (hr : erased (Prod.map f Cursor.bare) r = r')
    (hk : ∀ a c, (k a c).bare = k' (f a) c.bare) : (Step.after head r k).bare = Step.after head.bare r' k' := by
  subst hr
  rcases r with e | ⟨a, c⟩
  · simp [Step.after, Step.bare, bare]
  · exact hk a c

theorem bare_ofItem {α β : Type} {f : α → β} {r : Block α × Option Cursor} {item : Block α → Item}
    {item' : Block β → Item} (hcomment : ∀ b, (item b).isComment = false)
    (hitem : ∀ b, (item b).bare = item' (b.bare f)) :
    (Step.ofItem (r.map item id)).bare = Step.ofItem ((Cursor.bareBlock f r).map item' id) := by
  rcases r with ⟨b, _ | rest⟩
  · simp [Step.ofItem, Step.bare, Cursor.bareBlock, hitem]
  · simp [Step.ofItem, Step.bare, Cursor.bareBlock, hitem, bareAll_cons, hcomment]

theorem bare_typedefStep : (typedefStep finish head c).bare = typedefStep .nowhere head.bare c.bare := by
  refine bare_after head (c.erased_typedName _) fun typed d => ?_
  rw [← Cursor.erased_expect finish]
  cases d.expect finish (.mark .semicolon) "`;`" with
  | error e => simp [Step.bare, bare]
  | ok d =>
    simp [Step.bare, bareAll_cons, isComment, bare, Cursor.bare]

/-- What follows the first token of an item other than an include. -/
theorem bare_step (source : SourceText) (h : head.kind ≠ .directive .include) :
    (step source head c).bare = step .blank head.bare c.bare := by
  unfold step
  simp only [Token.kind_bare]
  split
  · refine bare_after head c.erased_name fun name d => ?_
    simp [Step.bare, bareAll_cons, isComment, bare, Cursor.bare]
  · exact bare_after head c.erased_name fun name d => rfl
  · contradiction
  · refine bare_after head c.erased_name fun name d => ?_
    simp only [SourceText.blank]
    rw [← Cursor.erased_expect source.finish]
    cases d.expect source.finish (.mark .openBrace) "`\x7b`" with
    | error e => simp [Step.bare, bare]
    | ok d => rfl
  · exact bare_typedefStep head c
  · refine bare_after head c.erased_name fun name d => ?_
    simp only [SourceText.blank]
    rw [← Cursor.bare_block Cursor.bare_fields]
    exact bare_ofItem (fun _ => rfl) fun _ => by rw [bare]
  · refine bare_after head c.erased_name fun name d => ?_
    simp only [SourceText.blank]
    rw [← Cursor.bare_block Cursor.bare_fields]
    exact bare_ofItem (fun _ => rfl) fun _ => by rw [bare]
  · refine bare_after head c.erased_name fun name d => ?_
    simp only [SourceText.blank]
    rw [← Cursor.bare_block Cursor.bare_enumMembers]
    exact bare_ofItem (fun _ => rfl) fun _ => by rw [bare]
  · refine bare_after head c.erased_name fun name d => ?_
    simp only [SourceText.blank]
    rw [← Cursor.bare_block Cursor.bare_methods]
    exact bare_ofItem (fun _ => rfl) fun _ => by rw [bare]
  · simp [Step.bare, bare]
    rfl

/-- An item in which reading stops. -/
inductive Stopped : Item → Prop
  | fault {head : Option Token} {error : Error} : Stopped (.fault head error)
  | record {head : Token} {kind : RecordKind} {name : Name} {block : Block (Field TypeExpr)}
      (stopped : block.fault.isSome = true) : Stopped (.record head kind name block)
  | enum {head : Token} {name : Name} {block : Block String} (stopped : block.fault.isSome = true) :
      Stopped (.enum head name block)
  | interface {head : Token} {name : Name} {block : Block MethodItem} (stopped : block.fault.isSome = true) :
      Stopped (.interface head name block)

theorem Stopped.isComment {item : Item} (h : Stopped item) : item.isComment = false := by cases h <;> rfl

/-- A block after which reading does not go on has a fault. -/
theorem fault_of_block {α : Type} {members : Cursor → Cursor.Reading (Member α)} {closer : String} {b : Block α}
    (h : c.block finish members closer = (b, none)) : b.fault.isSome = true := by
  rw [Cursor.block] at h
  dsimp only at h
  split at h <;> cases h
  rfl

theorem stopped_of_step {source : SourceText} {item : Item} (h : step source head c = .stop item) : Stopped item := by
  have hafter {α : Type} {r : Except Error (α × Cursor)} {k : α → Cursor → Step}
      (hk : ∀ a d, k a d = .stop item → Stopped item) (h : Step.after head r k = .stop item) : Stopped item := by
    rcases r with e | ⟨a, d⟩
    · cases h
      exact .fault
    · exact hk a d h
  have hblock {α : Type} {d : Cursor} {members : Cursor → Cursor.Reading (Member α)} {closer : String}
      {f : Block α → Item} (hf : ∀ b, b.fault.isSome = true → Stopped (f b))
      (h : Step.ofItem ((d.block source.finish members closer).map f id) = .stop item) : Stopped item := by
    rcases hb : d.block source.finish members closer with ⟨b, _ | rest⟩ <;> rw [hb] at h <;> cases h
    exact hf b (fault_of_block d hb)
  unfold step at h
  dsimp only at h
  split at h
  · exact hafter (by simp) h
  · exact hafter (by simp) h
  · obtain ⟨e, rfl⟩ := exists_fault_of_includeStep h
    exact .fault
  · refine hafter (fun _ _ h => ?_) h
    split at h <;> cases h
    exact .fault
  · refine hafter (fun _ _ h => ?_) h
    split at h <;> cases h
    exact .fault
  · exact hafter (fun _ _ => hblock fun _ => .record) h
  · exact hafter (fun _ _ => hblock fun _ => .record) h
  · exact hafter (fun _ _ => hblock fun _ => .enum) h
  · exact hafter (fun _ _ => hblock fun _ => .interface) h
  · cases h
    exact .fault

end step

/-! ## Files -/

@[simp]
theorem closer_bare (opener : Opener) : opener.bare.closer = opener.closer := by cases opener <;> rfl

@[simp]
theorem closerText_bare (opener : Opener) : opener.bare.closerText = opener.closerText := by cases opener <;> rfl

theorem isComment_close (opener : Opener) (finish : FileRange) (body : List Item) (c : Cursor) :
    (opener.close finish body c).1.isComment = false := by
  cases opener with
  | guarded head name => rfl
  | module head name =>
    rw [Opener.close]
    split <;> rfl

theorem bare_close (opener : Opener) (finish : FileRange) (body : List Item) (c : Cursor) :
    (opener.close finish body c).map bare (Option.map Cursor.bare) =
      opener.bare.close .nowhere (bareAll body) c.bare := by
  cases opener with
  | guarded head name => simp [Opener.close, Opener.bare, bare]
  | module head name =>
    simp only [Opener.close, Opener.bare]
    rw [← Cursor.erased_expect finish]
    cases c.expect finish (.mark .semicolon) "`;`" with
    | error e => simp [bare]
    | ok d => simp [bare, Cursor.bare]

theorem bareAll_abandon (body : List Item) (frame : Frame) :
    bareAll (frame.abandon body) = frame.bare.abandon (bareAll body) := by
  rcases frame with ⟨opener, before⟩
  cases opener with
  | guarded head name =>
    rw [Frame.abandon, bareAll_snoc rfl]
    simp [Frame.abandon, Frame.bare, Opener.bare, bare]
  | module head name =>
    rw [Frame.abandon, bareAll_snoc rfl]
    simp [Frame.abandon, Frame.bare, Opener.bare, bare]

theorem bareAll_abandonAll (frames : List Frame) (body : List Item) :
    bareAll (frames.foldl Frame.abandon body) = (frames.map Frame.bare).foldl Frame.abandon (bareAll body) := by
  induction frames generalizing body with
  | nil => rfl
  | cons frame frames ih => rw [List.foldl_cons, ih, bareAll_abandon, List.map_cons, List.foldl_cons]

theorem bareAll_ended (finish : FileRange) (frames : List Frame) (items : List Item) :
    bareAll (ended finish frames items) = ended .nowhere (frames.map Frame.bare) (bareAll items) := by
  cases frames with
  | nil => rfl
  | cons frame frames =>
    simp only [ended, bareAll_abandonAll, bareAll_snoc (show (Item.fault none _).isComment = false from rfl)]
    simp [bare, Frame.bare, Error.bare]

theorem closing?_bare (head : Token) (frames : List Frame) :
    closing? head.bare (frames.map Frame.bare) =
      (closing? head frames).map (Prod.map Frame.bare (List.map Frame.bare)) := by
  cases frames with
  | nil => rfl
  | cons frame frames =>
    simp only [closing?, List.map_cons, Frame.bare, closer_bare, Token.kind_bare]
    split <;> rfl

/-- Reading a file, without the dependence of the recursion on the size. -/
theorem readFrom_eq (source : SourceText) (frames : List Frame) (before : List Item) (c : Cursor) :
    readFrom source frames before c =
      let items := before ++ c.skip.comments.map .comment
      match c.skip.tokens with
      | [] => ended source.finish frames items
      | head :: tokens =>
        match closing? head frames with
        | some (frame, outer) =>
          match frame.opener.close source.finish items ⟨tokens, []⟩ with
          | (item, some rest) => readFrom source outer (frame.before ++ [item]) rest
          | (item, none) => outer.foldl Frame.abandon (frame.before ++ [item])
        | none =>
          match step source head ⟨tokens, []⟩ with
          | .items read rest => readFrom source frames (items ++ read) rest
          | .enter opener rest => readFrom source (⟨opener, items⟩ :: frames) [] rest
          | .stop item => frames.foldl Frame.abandon (items ++ [item]) := by
  rw [readFrom]
  split <;> rename_i hs <;> simp only [hs]
  rename_i head tokens
  cases closing? head frames with
  | none =>
    dsimp only
    split <;> rename_i h <;> simp only [h]
  | some closed =>
    dsimp only
    split <;> rename_i h <;> simp only [h]

/-- There is no include among some tokens. -/
def NoInclude (tokens : List Token) : Prop := ∀ token ∈ tokens, token.kind ≠ .directive .include

theorem noInclude_iff {tokens : List Token} :
    NoInclude tokens ↔ ∀ l ∈ terminals tokens, l.kind ≠ .directive .include := by
  simp only [NoInclude, terminals, List.mem_filterMap, Token.terminal?, forall_exists_index, and_imp]
  constructor
  · intro h l token htoken hl
    split at hl
    · cases hl
      exact h token htoken
    · cases hl
  · intro h token htoken hkind
    have hseen : token.kind.isComment = false := by rw [hkind]; rfl
    exact h ⟨token.kind, token.text, hseen⟩ token htoken (dif_pos hseen) hkind

section NoInclude

variable {c : Cursor} {head : Token} {tokens rest : List Token}

theorem NoInclude.kind_ne (h : NoInclude c.tokens) (hs : c.skip.tokens = head :: tokens) :
    head.kind ≠ .directive .include := h head (c.skip_suffix.subset (hs ▸ List.mem_cons_self ..))

theorem NoInclude.onward (h : NoInclude c.tokens) (hs : c.skip.tokens = head :: tokens) (hrest : rest <:+ tokens) :
    NoInclude rest := by
  have hsuffix : rest <:+ c.skip.tokens := hs ▸ hrest.trans (List.suffix_cons ..)
  exact fun token htoken => h token ((hsuffix.trans c.skip_suffix).subset htoken)

end NoInclude

/-- Reading on from bare tokens. -/
theorem readFrom_bare {c : Cursor} {head : Token} {tokens : List Token} (hs : c.skip.tokens = head :: tokens)
    (frames : List Frame) (before : List Item) : readFrom .blank frames before c.bare =
      match closing? head.bare frames with
      | some (frame, outer) =>
        match frame.opener.close .nowhere before (.bare ⟨tokens, []⟩) with
        | (item, some rest) => readFrom .blank outer (frame.before ++ [item]) rest
        | (item, none) => outer.foldl Frame.abandon (frame.before ++ [item])
      | none =>
        match step .blank head.bare (.bare ⟨tokens, []⟩) with
        | .items read rest => readFrom .blank frames (before ++ read) rest
        | .enter opener rest => readFrom .blank (⟨opener, before⟩ :: frames) [] rest
        | .stop item => frames.foldl Frame.abandon (before ++ [item]) := by
  rw [readFrom_eq, Cursor.skip_bare, Cursor.bareAll_of_skip hs]
  simp only [Cursor.bare, List.map_nil, List.append_nil]
  rfl

theorem bareAll_readFrom {source : SourceText} {frames : List Frame} {before : List Item} {c : Cursor}
    (h : NoInclude c.tokens) :
    bareAll (readFrom source frames before c) = readFrom .blank (frames.map Frame.bare) (bareAll before) c.bare := by
  have hpassed (before : List Item) (c : Cursor) :
      bareAll (before ++ c.skip.comments.map .comment) = bareAll before := by
    simp
  fun_induction readFrom source frames before c with
  | case1 frames before c items hs =>
    rw [readFrom_eq, Cursor.skip_bare, Cursor.bareAll_of_skip_nil hs, bareAll_ended, hpassed]
    simp [Cursor.bare, SourceText.blank]
  | case2 frames before c items head tokens hs hlt frame outer hclosing item rest hclose hle hrest ih =>
    have hcomment := isComment_close frame.opener source.finish items ⟨tokens, []⟩
    have hbare := bare_close frame.opener source.finish items ⟨tokens, []⟩
    rw [hclose] at hbare hcomment
    rw [hpassed] at hbare
    rw [ih (h.onward hs (suffix_of_close (congrArg Prod.snd hclose))), bareAll_snoc hcomment, readFrom_bare hs,
      closing?_bare, hclosing]
    simp [Frame.bare, ← hbare]
  | case3 frames before c items head tokens hs hlt frame outer hclosing item hclose =>
    have hcomment := isComment_close frame.opener source.finish items ⟨tokens, []⟩
    have hbare := bare_close frame.opener source.finish items ⟨tokens, []⟩
    rw [hclose] at hbare hcomment
    rw [hpassed] at hbare
    rw [bareAll_abandonAll, bareAll_snoc hcomment, readFrom_bare hs, closing?_bare, hclosing]
    simp [Frame.bare, ← hbare]
  | case4 frames before c items head tokens hs hlt hclosing read rest hstep hle hrest ih =>
    have hbare := bare_step head ⟨tokens, []⟩ source (h.kind_ne hs)
    rw [hstep] at hbare
    rw [ih (h.onward hs (suffix_of_step (congrArg Step.rest? hstep))), bareAll_append, hpassed, readFrom_bare hs,
      closing?_bare, hclosing]
    simp [← hbare, Step.bare]
  | case5 frames before c items head tokens hs hlt hclosing opener rest hstep hle hrest ih =>
    have hbare := bare_step head ⟨tokens, []⟩ source (h.kind_ne hs)
    rw [hstep] at hbare
    rw [ih (h.onward hs (suffix_of_step (congrArg Step.rest? hstep))), readFrom_bare hs, closing?_bare, hclosing]
    simp [← hbare, Step.bare, Frame.bare, items]
  | case6 frames before c items head tokens hs hlt hclosing item hstep =>
    have hbare := bare_step head ⟨tokens, []⟩ source (h.kind_ne hs)
    have hcomment := (stopped_of_step head _ hstep).isComment
    rw [hstep] at hbare
    rw [bareAll_abandonAll, bareAll_snoc hcomment, hpassed, readFrom_bare hs, closing?_bare, hclosing]
    simp [← hbare, Step.bare]

/-- A file without includes has the same bare items as its terminals. -/
theorem bareAll_ofTokens (source : SourceText) {tokens : List Token} (h : NoInclude tokens) :
    bareAll (ofTokens source tokens) = ofTokens .blank ((terminals tokens).map Terminal.token) := bareAll_readFrom h

end Item

end Idl
