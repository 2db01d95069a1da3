import Idl.Proofs.Items

/-!
# What reading leaves and where it fails

However far reading gets, what it leaves are the last ones of the tokens that it had, and a fault is
about one of the tokens or about the end of the file.

* `IsFault finish tokens e`: reading the tokens of a file that ends at `finish` can fail with `e`.
* `Cursor.Onward finish c r`: reading from `c` leaves the last ones of its tokens, or fails with a
  fault.
* `Item.faultsIn_ofTokens`: all faults among the items of a file are of this kind.
-/

namespace Idl

/-- An error that reading some tokens can end in. -/
inductive IsFault (finish : FileRange) (tokens : List Token) : Error → Prop
  | ended (expected : String) : IsFault finish tokens (.unexpectedEnd finish expected)
  | unexpected {token : Token} (mem : token ∈ tokens) (expected : String) :
      IsFault finish tokens (token.unexpected expected)
  | direction {token : Token} (mem : token ∈ tokens) : IsFault finish tokens (.invalidDirection token.range token.text)
  | malformed {head token : Token} (mem : head ∈ tokens) (mem' : token ∈ tokens) :
      IsFault finish tokens (.malformedInclude (head.range.extend token.range))

theorem IsFault.mono {finish : FileRange} {tokens more : List Token} {e : Error} (h : IsFault finish tokens e)
    (hsub : tokens ⊆ more) : IsFault finish more e := by
  cases h with
  | ended expected => exact .ended expected
  | unexpected mem expected => exact .unexpected (hsub mem) expected
  | direction mem => exact .direction (hsub mem)
  | malformed mem mem' => exact .malformed (hsub mem) (hsub mem')

namespace Member

variable {α : Type}

@[simp]
theorem items_append (ms ms' : List (Member α)) : items (ms ++ ms') = items ms ++ items ms' := List.filterMap_append

@[simp]
theorem items_cons_item (a : α) (ms : List (Member α)) : items (.item a :: ms) = a :: items ms := rfl

@[simp]
theorem items_cons_comment (c : Comment) (ms : List (Member α)) : items (.comment c :: ms) = items ms := rfl

@[simp]
theorem items_nil : items ([] : List (Member α)) = [] := rfl

/-- Comments are no items. -/
@[simp]
theorem items_map_comment (f : Comment → Comment) (cs : List Comment) :
    items (cs.map fun c => (.comment (f c) : Member α)) = [] := by
  induction cs with
  | nil => rfl
  | cons c cs ih => exact ih

end Member

namespace Cursor

@[simp]
theorem items_passedMembers {α : Type} (c : Cursor) : Member.items (c.passedMembers : List (Member α)) = [] :=
  Member.items_map_comment id _

@[simp]
theorem items_hoistedMembers {α : Type} (c : Cursor) : Member.items (c.hoistedMembers : List (Member α)) = [] :=
  Member.items_map_comment Comment.detach _

/-- What is left are the last ones of the tokens, and a failure is a fault. -/
structure Onward (finish : FileRange) (tokens : List Token) (r : Except Error Cursor) : Prop where
  rest : ∀ d, r = .ok d → d.tokens <:+ tokens
  fault : ∀ e, r = .error e → IsFault finish tokens e

/-- The cursor after what was read, without what was read. -/
def leaves {α : Type} (r : Except Error (α × Cursor)) : Except Error Cursor := r.map Prod.snd

section Onward

variable {α β : Type} {finish : FileRange} {tokens rest : List Token} {c d : Cursor}

theorem onward_ok (h : d.tokens <:+ tokens) : Onward finish tokens (.ok d) :=
  ⟨fun _ heq => by cases heq; exact h, by simp⟩

theorem onward_error {e : Error} (h : IsFault finish tokens e) : Onward finish tokens (.error e) :=
  ⟨by simp, fun _ heq => by cases heq; exact h⟩

/-- Reading on from what is left. -/
theorem Onward.trans {r : Except Error Cursor} (hsuffix : rest <:+ tokens) (h : Onward finish rest r) :
    Onward finish tokens r :=
  ⟨fun d heq => (h.rest d heq).trans hsuffix, fun e heq => (h.fault e heq).mono hsuffix.subset⟩

theorem Onward.bind {r : Except Error Cursor} {f : Cursor → Except Error Cursor} (h : Onward finish tokens r)
    (hf : ∀ d, Onward finish d.tokens (f d)) : Onward finish tokens (r.bind f) := by
  cases r with
  | error e => exact onward_error (h.fault e rfl)
  | ok d => exact .trans (h.rest d rfl) (hf d)

/-- Reading on after something was read. -/
theorem Onward.then {r : Except Error (α × Cursor)} {f : α × Cursor → Except Error (β × Cursor)}
    (h : Onward finish tokens (leaves r))
    (hf : ∀ a d, r = .ok (a, d) → d.tokens <:+ tokens → Onward finish tokens (leaves (f (a, d)))) :
    Onward finish tokens (leaves (r >>= f)) := by
  rcases r with e | ⟨a, d⟩
  · exact onward_error (h.fault e rfl)
  · exact hf a d rfl (h.rest d rfl)

theorem Onward.readAfter {before : Except Error Cursor} {f : Cursor → Reading α} (h : Onward finish tokens before)
    (hf : ∀ d, Onward finish d.tokens (f d).2) : Onward finish tokens (Cursor.readAfter before f).2 := by
  cases before with
  | error e => exact onward_error (h.fault e rfl)
  | ok d => exact .trans (h.rest d rfl) (hf d)

theorem Onward.suffix {r : Except Error (α × Cursor)} {a : α} (h : Onward finish tokens (leaves r))
    (hr : r = .ok (a, d)) : d.tokens <:+ tokens := h.rest d (by rw [hr]; rfl)

theorem Onward.isFault {r : Except Error (α × Cursor)} {e : Error} (h : Onward finish tokens (leaves r))
    (hr : r = .error e) : IsFault finish tokens e := h.fault e (by rw [hr]; rfl)

/-! ## Tokens, names and types -/

theorem skip_suffix (c : Cursor) : c.skip.tokens <:+ c.tokens := List.dropWhile_suffix _

theorem drop_skip_suffix (c : Cursor) : c.skip.tokens.drop 1 <:+ c.tokens := (List.drop_suffix ..).trans c.skip_suffix

theorem onward_next (finish : FileRange) (expected : String) (c : Cursor) :
    Onward finish c.tokens (leaves (c.next finish expected)) := by
  unfold next
  split
  · exact onward_error (.ended expected)
  · rename_i token rest hs
    refine onward_ok (.trans ?_ c.skip_suffix)
    rw [hs]
    exact List.suffix_cons ..

theorem mem_of_next {expected : String} {token : Token} (h : c.next finish expected = .ok (token, d)) :
    token ∈ c.tokens := by
  unfold next at h
  split at h
  · cases h
  · rename_i token' rest hs
    cases h
    exact c.skip_suffix.subset (by simp [hs])

theorem onward_expect (finish : FileRange) (kind : Token.Kind) (expected : String) (c : Cursor) :
    Onward finish c.tokens (c.expect finish kind expected) := by
  unfold expect
  rcases hn : c.next finish expected with e | ⟨token, d⟩
  · exact onward_error ((onward_next finish expected c).isFault hn)
  · change Onward finish c.tokens (if token.kind = kind then .ok d else .error (token.unexpected expected))
    split
    · exact onward_ok ((onward_next finish expected c).suffix hn)
    · exact onward_error (.unexpected (mem_of_next hn) expected)

theorem name_error {token : Token} {e : Error} (h : token.name = .error e) : e = token.unexpected "a name" := by
  unfold Token.name at h
  split at h
  · cases h
  · exact (Except.error.inj h).symm

theorem onward_name (finish : FileRange) (c : Cursor) : Onward finish c.tokens (leaves (c.name finish)) := by
  refine (onward_next finish "a name" c).then fun token d hn hsuffix => ?_
  dsimp only
  rcases ht : token.name with e | name
  · rw [name_error ht]
    exact onward_error (.unexpected (mem_of_next hn) _)
  · exact onward_ok hsuffix

theorem onward_typedName (finish : FileRange) (stops : List Mark) (c : Cursor) :
    Onward finish c.tokens (leaves (c.typedName finish stops)) := by
  have hsuffix : c.tokens.dropWhile (!endsType stops ·) <:+ c.tokens := List.dropWhile_suffix _
  unfold typedName
  dsimp only
  split
  · exact onward_error (.ended typedNameText)
  · rename_i stop rest hrest
    rw [hrest] at hsuffix
    split
    · rename_i first more last hwords hlast
      have hmem : last ∈ c.tokens := by
        have hmem := List.mem_of_getLast? hlast
        exact (List.takeWhile_sublist _).subset (List.mem_filter.1 hmem).1
      rcases ht : last.name with e | name
      · rw [name_error ht]
        exact onward_error (.unexpected hmem _)
      · exact onward_ok hsuffix
    · exact onward_error (.unexpected (hsuffix.subset (by simp)) _)

/-! ## Members -/

theorem onward_field (finish : FileRange) (c : Cursor) : Onward finish c.tokens (leaves (c.field finish)) := by
  refine (onward_typedName finish fieldStops c).then fun typed c₁ _ h₁ => ?_
  refine .trans h₁ ((onward_next finish "`;`" c₁).then fun token c₂ hn hsuffix => ?_)
  dsimp only
  split
  · exact onward_ok hsuffix
  · exact onward_error (.unexpected (mem_of_next hn) _)

theorem onward_fresh (c : Cursor) : Onward finish c.tokens (.ok c.fresh) := onward_ok c.skip_suffix

theorem onward_fields (finish : FileRange) (c : Cursor) : Onward finish c.tokens (c.fields finish).2 := by
  fun_induction fields finish c with
  | case1 c => exact onward_fresh c
  | case2 c hc e hf => exact .trans c.skip_suffix (onward_error ((onward_field finish c.fresh).isFault hf))
  | case3 c hc f after hf hlt rest last heq ih =>
    rw [heq] at ih
    exact .trans (((onward_field finish c.fresh).suffix hf).trans c.skip_suffix) ih

theorem onward_values (finish : FileRange) (c : Cursor) : Onward finish c.tokens (c.values finish).2 := by
  have hname {c after : Cursor} {name : Name} (h : c.fresh.name finish = .ok (name, after)) :
      after.skip.tokens <:+ c.tokens :=
    (after.skip_suffix.trans ((onward_name finish c.fresh).suffix h)).trans c.skip_suffix
  fun_induction values finish c with
  | case1 c e h => exact .trans c.skip_suffix (onward_error ((onward_name finish c.fresh).isFault h))
  | case2 c name after h head hs => exact onward_ok (hname h)
  | case3 c name after h head token tokens hs hcomma hlt rest last heq ih =>
    rw [heq] at ih
    have hsuffix := hname h
    rw [hs] at hsuffix
    exact .trans ((List.suffix_cons ..).trans hsuffix) ih
  | case4 c name after h head token tokens hs hcomma => exact onward_ok (hname h)

theorem onward_enumMembers (finish : FileRange) (c : Cursor) : Onward finish c.tokens (c.enumMembers finish).2 := by
  unfold enumMembers
  split
  · exact onward_fresh c
  · exact onward_values finish c

/-! ## Methods -/

theorem onward_separated {item : Cursor → Except Error (α × Cursor)}
    {forward : ∀ c d a, item c = .ok (a, d) → d.size ≤ c.size} (hitem : ∀ c, Onward finish c.tokens (leaves (item c)))
    (c : Cursor) : Onward finish c.tokens (c.separated finish item forward).2 := by
  fun_induction separated finish item forward c with
  | case1 c e hi => exact onward_error ((hitem c).isFault hi)
  | case2 c a after hi e hn =>
    exact .trans ((hitem c).suffix hi) (onward_error ((onward_next finish separatorText after).isFault hn))
  | case3 c a after hi token rest hn hcomma hlt more last heq ih =>
    rw [heq] at ih
    exact .trans (((onward_next finish separatorText after).suffix hn).trans ((hitem c).suffix hi)) ih
  | case4 c a after hi token rest hn =>
    exact onward_ok (((onward_next finish separatorText after).suffix hn).trans ((hitem c).suffix hi))
  | case5 c a after hi token rest hn =>
    exact .trans ((hitem c).suffix hi) (onward_error (.unexpected (mem_of_next hn) _))

theorem onward_parameter (finish : FileRange) (c : Cursor) : Onward finish c.tokens (leaves (c.parameter finish)) := by
  refine (onward_next finish "a parameter direction" c).then fun token c₁ hn hsuffix => ?_
  dsimp only
  split
  · exact .trans hsuffix ((onward_typedName finish fieldStops c₁).then fun typed c₂ _ h₂ => onward_ok h₂)
  · exact onward_error (.direction (mem_of_next hn))

theorem onward_parameters (finish : FileRange) (c : Cursor) : Onward finish c.tokens (c.parameters finish).2 := by
  unfold parameters
  split
  · exact onward_ok c.drop_skip_suffix
  · exact onward_separated (onward_parameter finish) c

theorem onward_raised (finish : FileRange) (c : Cursor) : Onward finish c.tokens (c.raised finish).2 := by
  unfold raised
  split
  · refine .trans c.drop_skip_suffix (.readAfter (onward_expect finish _ _ ⟨_, _⟩) fun d => ?_)
    exact onward_separated (onward_name finish) d
  · exact onward_ok List.suffix_rfl

theorem onward_methodRest (finish : FileRange) (typed : TypedName) (c : Cursor) :
    Onward finish c.tokens (c.methodRest finish typed).2 := by
  have hlisted : Onward finish c.tokens
      (readAfter (c.expect finish (.mark .openParen) "`(`") (·.parameters finish)).2 :=
    .readAfter (onward_expect ..) (onward_parameters finish)
  exact (Onward.readAfter hlisted (onward_raised finish)).bind (onward_expect finish _ _)

theorem onward_of_method {m : Method TypeExpr Name} {last : Except Error Cursor}
    (h : c.method finish = .ok (m, last)) : Onward finish c.tokens last := by
  obtain ⟨⟨typed, c₁⟩, ht, hm⟩ := Except.bind_eq_ok.1 h
  have hrest := onward_methodRest finish typed c₁
  rw [Except.ok.inj hm] at hrest
  exact .trans ((onward_typedName finish [.openParen] c).suffix ht) hrest

theorem isFault_of_method {e : Error} (h : c.method finish = .error e) : IsFault finish c.tokens e := by
  unfold method at h
  rcases ht : c.typedName finish [.openParen] with e' | ⟨typed, c₁⟩
  · rw [ht] at h
    cases h
    exact (onward_typedName finish [.openParen] c).isFault ht
  · rw [ht] at h
    cases h

theorem onward_methods (finish : FileRange) (c : Cursor) : Onward finish c.tokens (c.methods finish).2 := by
  fun_induction methods finish c with
  | case1 c => exact onward_fresh c
  | case2 c hc e hm => exact .trans c.skip_suffix (onward_error (isFault_of_method (c := c.fresh) hm))
  | case3 c hc m e hm => exact .trans c.skip_suffix (onward_of_method (c := c.fresh) hm)
  | case4 c hc m after hm hlt rest last heq ih =>
    rw [heq] at ih
    exact .trans (((onward_of_method hm).rest after rfl).trans c.skip_suffix) ih

/-- What ends a method is a fault too. -/
theorem isFault_of_methods {m : MethodItem} {e : Error} (hm : m ∈ Member.items (c.methods finish).1)
    (he : m.fault = some e) : IsFault finish c.tokens e := by
  fun_induction methods finish c with
  | case1 c => simp at hm
  | case2 c => simp at hm
  | case3 c hc m' e' hm' =>
    obtain rfl : m = ⟨m', some e'⟩ := by simpa using hm
    obtain rfl := Option.some.inj he
    exact ((onward_of_method hm').fault e' rfl).mono c.skip_suffix.subset
  | case4 c hc m' after hm' hlt rest last heq ih =>
    have hm : m = ⟨m', none⟩ ∨ m ∈ Member.items rest := by simpa using hm
    rcases hm with rfl | hm
    · cases he
    · rw [heq] at ih
      exact (ih hm).mono (((onward_of_method hm').rest after rfl).trans c.skip_suffix).subset

/-! ## Blocks -/

theorem onward_block {members : Cursor → Reading (Member α)}
    (hmembers : ∀ c, Onward finish c.tokens (members c).2) (closer : String) (c : Cursor) :
    (∀ e, (c.block finish members closer).1.fault = some e → IsFault finish c.tokens e) ∧
      ∀ d, (c.block finish members closer).2 = some d → d.tokens <:+ c.tokens := by
  have hread : Onward finish c.tokens (readAfter (c.expect finish (.mark .openBrace) "`\x7b`") members).2 :=
    .readAfter (onward_expect ..) hmembers
  have hend := (hread.bind (onward_expect finish (.mark .closeBrace) closer)).bind
    (onward_expect finish (.mark .semicolon) "`;`")
  unfold block
  dsimp only
  split
  · rename_i e he
    refine ⟨fun e' he' => ?_, by simp⟩
    cases he'
    exact hend.fault e he
  · rename_i d hd
    refine ⟨by simp, fun d' hd' => ?_⟩
    cases hd'
    exact hend.rest d hd

/-- The members of a block are read from somewhere among the tokens. -/
theorem exists_members_of_block {members : Cursor → Reading (Member α)} {closer : String} {a : α}
    (ha : a ∈ Member.items (c.block finish members closer).1.members) :
    ∃ d, d.tokens <:+ c.tokens ∧ a ∈ Member.items (members d).1 := by
  have hread : (c.block finish members closer).1.members =
      (readAfter (c.expect finish (.mark .openBrace) "`\x7b`") members).1 := by
    unfold block
    dsimp only
    split <;> rfl
  rw [hread] at ha
  rcases he : c.expect finish (.mark .openBrace) "`\x7b`" with e | d
  · rw [he] at ha
    cases ha
  · rw [he] at ha
    exact ⟨d, (onward_expect ..).rest d he, ha⟩

end Onward

end Cursor

namespace Item

/-! ## Items -/

/-- Every fault of an item satisfies `Q`. -/
inductive FaultsIn (Q : Error → Prop) : Item → Prop
  | comment {c : Comment} : FaultsIn Q (.comment c)
  | define {head : Token} {name : Name} : FaultsIn Q (.define head name)
  | included {head : Token} {written : String} {range : FileRange} : FaultsIn Q (.include head written range)
  | guarded {head : Token} {name : Name} {body : List Item} (within : ∀ item ∈ body, FaultsIn Q item) :
      FaultsIn Q (.guarded head name body)
  | module {head : Token} {name : Name} {body : List Item} {trailing : List Comment} {fault : Option Error}
      (within : ∀ item ∈ body, FaultsIn Q item) (own : ∀ e, fault = some e → Q e) :
      FaultsIn Q (.module head name body trailing fault)
  | typedef {head : Token} {typed : TypedName} {comments : List Comment} : FaultsIn Q (.typedef head typed comments)
  | record {head : Token} {kind : RecordKind} {name : Name} {block : Block (Field TypeExpr)}
      (own : ∀ e, block.fault = some e → Q e) : FaultsIn Q (.record head kind name block)
  | enum {head : Token} {name : Name} {block : Block String} (own : ∀ e, block.fault = some e → Q e) :
      FaultsIn Q (.enum head name block)
  | interface {head : Token} {name : Name} {block : Block MethodItem}
      (methods : ∀ m ∈ Member.items block.members, ∀ e, m.fault = some e → Q e)
      (own : ∀ e, block.fault = some e → Q e) : FaultsIn Q (.interface head name block)
  | fault {head : Option Token} {error : Error} (own : Q error) : FaultsIn Q (.fault head error)

/-- What follows the first token of an item leaves the last ones of the tokens, and has faults in `Q`
only. -/
structure Step.Onward (Q : Error → Prop) (tokens : List Token) (step : Step) : Prop where
  items : ∀ read rest, step = .items read rest → ∀ item ∈ read, item.FaultsIn Q
  stop : ∀ item, step = .stop item → item.FaultsIn Q
  rest : ∀ d, step.rest? = some d → d.tokens <:+ tokens

section Steps

variable {Q : Error → Prop} {finish : FileRange} {head : Token} {tokens rest : List Token} {c d : Cursor}

theorem Step.onward_items {read : List Item} (hread : ∀ item ∈ read, item.FaultsIn Q) (h : c.tokens <:+ tokens) :
    (Step.items read c).Onward Q tokens :=
  ⟨fun _ _ heq => by cases heq; exact hread, by simp, fun d hd => by cases hd; exact h⟩

theorem Step.onward_enter {opener : Opener} (h : c.tokens <:+ tokens) : (Step.enter opener c).Onward Q tokens :=
  ⟨by simp, by simp, fun d hd => by cases hd; exact h⟩

theorem Step.onward_stop {item : Item} (h : item.FaultsIn Q) : (Step.stop item).Onward Q tokens :=
  ⟨by simp, fun _ heq => by cases heq; exact h, by simp [Step.rest?]⟩

theorem Step.onward_after {α : Type} {r : Except Error (α × Cursor)} {f : α → Cursor → Step}
    (hQ : ∀ e, IsFault finish tokens e → Q e) (h : Cursor.Onward finish tokens (Cursor.leaves r))
    (hf : ∀ a c, c.tokens <:+ tokens → (f a c).Onward Q tokens) : (Step.after head r f).Onward Q tokens := by
  rcases r with e | ⟨a, c⟩
  · exact onward_stop (.fault (hQ e (h.fault e rfl)))
  · exact hf a c (h.rest c rfl)

/-- A reading that is followed by a step. -/
theorem Step.onward_match {r : Except Error Cursor} {f : Cursor → Step} (hQ : ∀ e, IsFault finish tokens e → Q e)
    (h : Cursor.Onward finish tokens r) (hf : ∀ c, c.tokens <:+ tokens → (f c).Onward Q tokens) :
    Step.Onward Q tokens (match r with
      | .error e => .stop (.fault (some head) e)
      | .ok c => f c) := by
  cases r with
  | error e => exact onward_stop (.fault (hQ e (h.fault e rfl)))
  | ok c => exact hf c (h.rest c rfl)

theorem Step.onward_block {α : Type} {members : Cursor → Cursor.Reading (Member α)} {closer : String}
    {f : Block α → Item} (hsuffix : c.tokens <:+ tokens) (hmembers : ∀ c, Cursor.Onward finish c.tokens (members c).2)
    (hf : (∀ e, (c.block finish members closer).1.fault = some e → IsFault finish tokens e) →
      (f (c.block finish members closer).1).FaultsIn Q) :
    (Step.ofItem ((c.block finish members closer).map f id)).Onward Q tokens := by
  obtain ⟨hfault, hrest⟩ := Cursor.onward_block hmembers closer c
  have hitem := hf fun e he => (hfault e he).mono hsuffix.subset
  rcases hb : c.block finish members closer with ⟨block, _ | rest⟩
  · rw [hb] at hitem
    exact onward_stop hitem
  · rw [hb] at hitem hrest
    exact onward_items (by simpa using hitem) ((hrest rest rfl).trans hsuffix)

theorem onward_includeStep (source : SourceText) (head : Token)
    (hQ : ∀ e, IsFault finish (head :: tokens) e → Q e) : (includeStep source head tokens).Onward Q tokens := by
  have hmalformed {token : Token} (mem : token ∈ head :: tokens) :
      (Step.stop (.fault (some head) (.malformedInclude (head.range.extend token.range)))).Onward Q tokens :=
    Step.onward_stop (.fault (hQ _ (.malformed List.mem_cons_self mem)))
  unfold includeStep
  dsimp only
  split
  · exact hmalformed (by simp)
  · rename_i quote rest
    split
    · exact hmalformed (by simp)
    · split
      · exact hmalformed (by simp)
      · split
        · rename_i token hfind
          have hmem := (List.takeWhile_sublist _).subset (List.mem_of_find?_eq_some hfind)
          exact hmalformed (by simp [hmem])
        · refine Step.onward_items (by simpa using .included) ?_
          exact (List.dropWhile_suffix _).trans (List.suffix_cons ..)

/-- An include at which reading stops is a fault. -/
theorem exists_fault_of_includeStep {source : SourceText} {item : Item}
    (h : includeStep source head tokens = .stop item) : ∃ e, item = .fault (some head) e := by
  unfold includeStep at h
  dsimp only at h
  split at h
  · cases h
    exact ⟨_, rfl⟩
  · split at h
    · cases h
      exact ⟨_, rfl⟩
    · split at h
      · cases h
        exact ⟨_, rfl⟩
      · split at h
        · cases h
          exact ⟨_, rfl⟩
        · cases h

theorem onward_typedefStep (head : Token) (c : Cursor) (hQ : ∀ e, IsFault finish c.tokens e → Q e) :
    (typedefStep finish head c).Onward Q c.tokens := by
  refine Step.onward_after hQ (Cursor.onward_typedName ..) fun typed d hd => ?_
  refine Step.onward_match hQ (.trans hd (Cursor.onward_expect ..)) fun d' hd' => ?_
  exact Step.onward_items (by simpa using .typedef) hd'

theorem onward_step (source : SourceText) (head : Token) (c : Cursor)
    (hQ : ∀ e, IsFault source.finish (head :: c.tokens) e → Q e) : (step source head c).Onward Q c.tokens := by
  have hQ' : ∀ e, IsFault source.finish c.tokens e → Q e := fun e he => hQ e (he.mono (List.subset_cons_self ..))
  have hname := Cursor.onward_name source.finish c
  unfold step
  dsimp only
  split
  · refine Step.onward_after hQ' hname fun name d hd => Step.onward_items (fun item hitem => ?_) hd
    rcases List.mem_append.1 hitem with hitem | hitem
    · obtain ⟨comment, -, rfl⟩ := List.mem_map.1 hitem
      exact .comment
    · rw [List.mem_singleton.1 hitem]
      exact .define
  · exact Step.onward_after hQ' hname fun name d hd => Step.onward_enter hd
  · exact onward_includeStep source head hQ
  · refine Step.onward_after hQ' hname fun name d hd => ?_
    exact Step.onward_match hQ' (.trans hd (Cursor.onward_expect ..)) fun d' hd' => Step.onward_enter hd'
  · exact onward_typedefStep head c hQ'
  · exact Step.onward_after hQ' hname fun name d hd => Step.onward_block hd (Cursor.onward_fields source.finish)
      fun h => .record fun e he => hQ' e (h e he)
  · exact Step.onward_after hQ' hname fun name d hd => Step.onward_block hd (Cursor.onward_fields source.finish)
      fun h => .record fun e he => hQ' e (h e he)
  · exact Step.onward_after hQ' hname fun name d hd => Step.onward_block hd (Cursor.onward_enumMembers source.finish)
      fun h => .enum fun e he => hQ' e (h e he)
  · refine Step.onward_after hQ' hname fun name d hd => Step.onward_block hd (Cursor.onward_methods source.finish)
      fun h => .interface (fun m hm e he => hQ' e ?_) fun e he => hQ' e (h e he)
    obtain ⟨d', hd', hm⟩ := Cursor.exists_members_of_block hm
    exact (Cursor.isFault_of_methods hm he).mono (hd'.trans hd).subset
  · exact Step.onward_stop (.fault (hQ _ (.unexpected (by simp) _)))

/-! ## Files -/

theorem suffix_of_step {source : SourceText} (h : (step source head c).rest? = some d) : d.tokens <:+ c.tokens :=
  (onward_step source head c (Q := fun _ => True) fun _ _ => trivial).rest d h

theorem suffix_of_close {opener : Opener} {body : List Item} (h : (opener.close finish body c).2 = some d) :
    d.tokens <:+ c.tokens := by
  unfold Opener.close at h
  split at h
  · cases h
    exact List.suffix_rfl
  · split at h
    · cases h
    · rename_i d' hd'
      cases h
      exact (Cursor.onward_expect ..).rest d' hd'

theorem eq_cons_of_closing {frame : Frame} {frames outer : List Frame}
    (h : closing? head frames = some (frame, outer)) : frames = frame :: outer := by
  unfold closing? at h
  split at h
  · cases h
  · split at h
    · cases h
      rfl
    · cases h

/-- A property that all items of a file with the tokens `all` have: the items that a step reads have it, and a body
has it if the items in it do. -/
structure Inherited (source : SourceText) (all : List Token) (P : Item → Prop) : Prop where
  comment : ∀ c, P (.comment c)
  guarded : ∀ {head name body}, (∀ item ∈ body, P item) → P (.guarded head name body)
  module : ∀ {head name body trailing fault}, (∀ item ∈ body, P item) →
    (∀ e, fault = some e → IsFault source.finish all e) → P (.module head name body trailing fault)
  ended : ∀ expected, P (.fault none (.unexpectedEnd source.finish expected))
  items : ∀ {head tokens read rest}, head :: tokens <:+ all → step source head ⟨tokens, []⟩ = .items read rest →
    ∀ item ∈ read, P item
  stop : ∀ {head tokens item}, head :: tokens <:+ all → step source head ⟨tokens, []⟩ = .stop item → P item

namespace Inherited

variable {source : SourceText} {all : List Token} {P : Item → Prop} {frames : List Frame} {before body : List Item}

theorem passed (h : Inherited source all P) (hbody : ∀ item ∈ body, P item) (comments : List Comment) :
    ∀ item ∈ body ++ comments.map .comment, P item := by
  refine List.forall_mem_append.2 ⟨hbody, fun item hitem => ?_⟩
  obtain ⟨comment, -, rfl⟩ := List.mem_map.1 hitem
  exact h.comment comment

theorem snoc {last : Item} (hbody : ∀ item ∈ body, P item) (hlast : P last) : ∀ item ∈ body ++ [last], P item :=
  List.forall_mem_append.2 ⟨hbody, by simpa using hlast⟩

theorem close (h : Inherited source all P) (opener : Opener) (hsuffix : c.tokens <:+ all)
    (hbody : ∀ item ∈ body, P item) : P (opener.close source.finish body c).1 := by
  unfold Opener.close
  split
  · exact h.guarded hbody
  · split
    · rename_i e he
      refine h.module hbody fun e' he' => ?_
      cases he'
      exact ((Cursor.onward_expect ..).fault e he).mono hsuffix.subset
    · exact h.module hbody (by simp)

theorem abandonAll (h : Inherited source all P) (hframes : ∀ frame ∈ frames, ∀ item ∈ frame.before, P item)
    (hbody : ∀ item ∈ body, P item) : ∀ item ∈ frames.foldl Frame.abandon body, P item := by
  induction frames generalizing body with
  | nil => exact hbody
  | cons frame frames ih =>
    obtain ⟨hframe, hframes⟩ := List.forall_mem_cons.1 hframes
    refine ih hframes (snoc hframe ?_)
    split
    · exact h.guarded hbody
    · exact h.module hbody (by simp)

theorem readFrom (h : Inherited source all P) (hsuffix : c.tokens <:+ all)
    (hframes : ∀ frame ∈ frames, ∀ item ∈ frame.before, P item) (hbefore : ∀ item ∈ before, P item) :
    ∀ item ∈ Item.readFrom source frames before c, P item := by
  have hskip {c : Cursor} {head : Token} {tokens : List Token} (hs : c.skip.tokens = head :: tokens)
      (hsuffix : c.tokens <:+ all) : head :: tokens <:+ all := (hs ▸ c.skip_suffix).trans hsuffix
  fun_induction Item.readFrom source frames before c with
  | case1 frames before c items hs =>
    unfold Item.ended
    split
    · exact h.passed hbefore _
    · exact h.abandonAll hframes (snoc (h.passed hbefore _) (h.ended _))
  | case2 frames before c items head tokens hs hlt frame outer hclosing item rest hclose hle hlt' ih =>
    obtain rfl := eq_cons_of_closing hclosing
    obtain ⟨hframe, houter⟩ := List.forall_mem_cons.1 hframes
    have htokens := (List.suffix_cons ..).trans (hskip hs hsuffix)
    have hitem := h.close frame.opener (c := ⟨tokens, []⟩) htokens (h.passed hbefore c.skip.comments)
    have hrest := suffix_of_close (congrArg (·.2) hclose)
    rw [hclose] at hitem
    exact ih (hrest.trans htokens) houter (snoc hframe hitem)
  | case3 frames before c items head tokens hs hlt frame outer hclosing item hclose =>
    obtain rfl := eq_cons_of_closing hclosing
    obtain ⟨hframe, houter⟩ := List.forall_mem_cons.1 hframes
    have htokens := (List.suffix_cons ..).trans (hskip hs hsuffix)
    have hitem := h.close frame.opener (c := ⟨tokens, []⟩) htokens (h.passed hbefore c.skip.comments)
    rw [hclose] at hitem
    exact h.abandonAll houter (snoc hframe hitem)
  | case4 frames before c items head tokens hs hlt hclosing read rest hstep hle hlt' ih =>
    have htokens := hskip hs hsuffix
    have hrest := suffix_of_step (congrArg Step.rest? hstep)
    refine ih (hrest.trans ((List.suffix_cons ..).trans htokens)) hframes ?_
    exact List.forall_mem_append.2 ⟨h.passed hbefore _, h.items htokens hstep⟩
  | case5 frames before c items head tokens hs hlt hclosing opener rest hstep hle hlt' ih =>
    have hrest := suffix_of_step (congrArg Step.rest? hstep)
    refine ih (hrest.trans ((List.suffix_cons ..).trans (hskip hs hsuffix))) ?_ (by simp)
    exact List.forall_mem_cons.2 ⟨h.passed hbefore _, hframes⟩
  | case6 frames before c items head tokens hs hlt hclosing item hstep =>
    exact h.abandonAll hframes (snoc (h.passed hbefore _) (h.stop (hskip hs hsuffix) hstep))

theorem ofTokens (h : Inherited source all P) : ∀ item ∈ Item.ofTokens source all, P item :=
  h.readFrom List.suffix_rfl (by simp) (by simp)

end Inherited

/-- The faults among the items of a file are faults in its tokens or at its end. -/
theorem faultsIn_ofTokens {source : SourceText} {tokens : List Token} {P : Error → Prop}
    (hP : ∀ e, IsFault source.finish tokens e → P e) : ∀ item ∈ ofTokens source tokens, item.FaultsIn P := by
  have hstep {head : Token} {rest : List Token} (h : head :: rest <:+ tokens) :
      (step source head ⟨rest, []⟩).Onward P rest :=
    onward_step source head ⟨rest, []⟩ fun e he => hP e (he.mono h.subset)
  refine Inherited.ofTokens
    { comment := fun _ => .comment
      guarded := .guarded
      module := fun hbody hfault => .module hbody fun e he => hP e (hfault e he)
      ended := fun expected => .fault (hP _ (.ended expected))
      items := fun hsuffix hread => (hstep hsuffix).items _ _ hread
      stop := fun hsuffix hstop => (hstep hsuffix).stop _ hstop }

end Steps

end Item

end Idl
