import Idl.Item.Reader

/-!
# What the items of a file are made of

Every comment of an item is the comment of a token, or one that was put on a line of its own, and
every declared name is a name. Both hold of what is read of a faulty file too.

* `Cursor.Holds P c`: the comments that the cursor passed or has before it satisfy `P`.
* `Item.Sound P item`: the comments of the item satisfy `P`, and its names are names.
* `sound_ofTokens`: if the comments of the tokens satisfy `P`, and `P` does not depend on the blanks
  that a detached comment loses, then the items of the tokens are sound.
-/

namespace Idl

theorem Except.bind_eq_ok {ε α β : Type} {x : Except ε α} {f : α → Except ε β} {b : β} :
    x >>= f = .ok b ↔ ∃ a, x = .ok a ∧ f a = .ok b := by
  cases x with
  | error e => simp [bind, Except.bind]
  | ok a => simp [bind, Except.bind]

/-- A text is a name. -/
def IsName (text : String) : Prop := Text.isName text.toList = true

theorem isName_of_token {token : Token} {name : Name} (h : token.name = .ok name) : IsName name.text := by
  unfold Token.name at h
  split at h
  · rename_i hname
    cases h
    exact hname.2
  · cases h

/-! ## Sound items -/

/-- Comments satisfy `P`, and items satisfy `Q`. -/
def Member.Holds {α : Type} (P : Comment → Prop) (Q : α → Prop) : Member α → Prop
  | .comment c => P c
  | .item a => Q a

def Field.Named {τ : Type} (f : Field τ) : Prop := IsName f.name

def Parameter.Named {τ : Type} (p : Parameter τ) : Prop := IsName p.name

/-- A method, its parameters and what it raises have names. `text` gives the name of an exception. -/
structure Method.Named {τ ρ : Type} (text : ρ → String) (m : Method τ ρ) : Prop where
  name : IsName m.name
  parameters : ∀ p ∈ m.parameters, p.Named
  raises : ∀ r ∈ m.raises, IsName (text r)

def MethodItem.Named (m : MethodItem) : Prop := m.method.Named Name.text

/-- The comments of a block satisfy `P`, and its items satisfy `Q`. -/
structure Block.Holds {α : Type} (P : Comment → Prop) (Q : α → Prop) (b : Block α) : Prop where
  members : ∀ m ∈ b.members, m.Holds P Q
  trailing : ∀ c ∈ b.trailing, P c

/-- The comments of an item satisfy `P`, and what it declares has names. -/
inductive Item.Sound (P : Comment → Prop) : Item → Prop
  | comment {c : Comment} (holds : P c) : Sound P (.comment c)
  | define {head : Token} {name : Name} : Sound P (.define head name)
  | included {head : Token} {written : String} {range : FileRange} : Sound P (.include head written range)
  | guarded {head : Token} {name : Name} {body : List Item} (within : ∀ item ∈ body, Sound P item) :
      Sound P (.guarded head name body)
  | module {head : Token} {name : Name} {body : List Item} {trailing : List Comment} {fault : Option Error}
      (named : IsName name.text) (within : ∀ item ∈ body, Sound P item) (after : ∀ c ∈ trailing, P c) :
      Sound P (.module head name body trailing fault)
  | typedef {head : Token} {typed : TypedName} {comments : List Comment} (named : IsName typed.name.text)
      (before : ∀ c ∈ comments, P c) : Sound P (.typedef head typed comments)
  | record {head : Token} {kind : RecordKind} {name : Name} {block : Block (Field TypeExpr)} (named : IsName name.text)
      (holds : block.Holds P Field.Named) : Sound P (.record head kind name block)
  | enum {head : Token} {name : Name} {block : Block String} (named : IsName name.text)
      (holds : block.Holds P IsName) : Sound P (.enum head name block)
  | interface {head : Token} {name : Name} {block : Block MethodItem} (named : IsName name.text)
      (holds : block.Holds P MethodItem.Named) : Sound P (.interface head name block)
  | fault {head : Option Token} {error : Error} : Sound P (.fault head error)

/-! ## Cursors -/

namespace Cursor

/-- The comments that were passed, and those among the tokens to be read, satisfy `P`. -/
structure Holds (P : Comment → Prop) (c : Cursor) : Prop where
  tokens : ∀ token ∈ c.tokens, token.kind.isComment = true → P (.ofToken token)
  comments : ∀ comment ∈ c.comments, P comment

/-- What was read satisfies `Q`, and the comments of the cursor after it satisfy `P`. -/
structure Reading.Holds {α : Type} (P : Comment → Prop) (Q : α → Prop) (r : Reading α) : Prop where
  read : ∀ a ∈ r.1, Q a
  rest : ∀ d, r.2 = .ok d → Cursor.Holds P d

section Readers

variable {P : Comment → Prop} {finish : FileRange} {c d : Cursor}

/-- The cursor before some of the tokens, without the comments that were passed. -/
theorem Holds.onward {tokens : List Token} (h : c.Holds P) (hsub : tokens ⊆ c.tokens) : Holds P ⟨tokens, []⟩ :=
  ⟨fun token ht => h.tokens token (hsub ht), by simp⟩

theorem Holds.skip (h : c.Holds P) : c.skip.Holds P := by
  refine ⟨fun token ht => h.tokens token ((List.dropWhile_sublist _).subset ht), fun comment hc => ?_⟩
  rcases List.mem_append.1 hc with hc | hc
  · exact h.comments comment hc
  · obtain ⟨token, ht, rfl⟩ := List.mem_map.1 hc
    have hall := List.all_takeWhile (p := fun t : Token => t.kind.isComment) (l := c.tokens)
    exact h.tokens token ((List.takeWhile_sublist _).subset ht) (List.all_eq_true.1 hall token ht)

theorem Holds.fresh (h : c.Holds P) : c.fresh.Holds P := ⟨h.skip.tokens, by simp [Cursor.fresh]⟩

theorem Holds.tail {token : Token} {rest : List Token} (h : c.Holds P) (hs : c.skip.tokens = token :: rest) :
    Holds P ⟨rest, []⟩ := h.skip.onward (by simp [hs])

/-- The cursor after the next token that is not a comment. -/
theorem Holds.drop (h : c.Holds P) : Holds P ⟨c.skip.tokens.drop 1, c.skip.comments⟩ :=
  ⟨fun token ht => h.skip.tokens token ((List.drop_sublist ..).subset ht), h.skip.comments⟩

theorem Holds.next {expected : String} {token : Token} (h : c.Holds P) (hn : c.next finish expected = .ok (token, d)) :
    d.Holds P := by
  unfold Cursor.next at hn
  split at hn
  · cases hn
  · rename_i token' rest htokens
    cases hn
    exact ⟨fun t ht => h.skip.tokens t (by simp [htokens, ht]), h.skip.comments⟩

theorem Holds.expect {kind : Token.Kind} {expected : String} (h : c.Holds P)
    (he : c.expect finish kind expected = .ok d) : d.Holds P := by
  obtain ⟨⟨token, d'⟩, hn, he⟩ := Except.bind_eq_ok.1 he
  dsimp only at he
  split at he
  · cases he
    exact h.next hn
  · cases he

theorem Holds.name {name : Name} (h : c.Holds P) (hn : c.name finish = .ok (name, d)) :
    IsName name.text ∧ d.Holds P := by
  obtain ⟨⟨token, d'⟩, hnext, hn⟩ := Except.bind_eq_ok.1 hn
  obtain ⟨name', htoken, hn⟩ := Except.bind_eq_ok.1 hn
  cases hn
  exact ⟨isName_of_token htoken, h.next hnext⟩

theorem Holds.typedName {stops : List Mark} {typed : TypedName} (h : c.Holds P)
    (ht : c.typedName finish stops = .ok (typed, d)) : IsName typed.name.text ∧ d.Holds P := by
  unfold Cursor.typedName at ht
  split at ht
  · cases ht
  · rename_i stop rest hrest
    dsimp only at ht
    split at ht
    · obtain ⟨name, hname, ht⟩ := Except.bind_eq_ok.1 ht
      cases ht
      refine ⟨isName_of_token hname, fun token hmem => h.tokens token ?_, fun comment hc => ?_⟩
      · exact (List.dropWhile_sublist _).subset (hrest ▸ hmem)
      · rcases List.mem_append.1 hc with hc | hc
        · exact h.comments comment hc
        · obtain ⟨token, hmem, rfl⟩ := List.mem_map.1 hc
          obtain ⟨hmem, hkind⟩ := List.mem_filter.1 hmem
          exact h.tokens token ((List.takeWhile_sublist _).subset hmem) hkind
    · cases ht

theorem Reading.Holds.readAfter {α : Type} {Q : α → Prop} {before : Except Error Cursor} {f : Cursor → Reading α}
    (hbefore : ∀ c, before = .ok c → c.Holds P) (hf : ∀ c, c.Holds P → (f c).Holds P Q) :
    (Cursor.readAfter before f).Holds P Q := by
  cases before with
  | error e => exact ⟨by simp [Cursor.readAfter], by simp [Cursor.readAfter]⟩
  | ok c => exact hf c (hbefore c rfl)

/-! ## Members -/

theorem Holds.passedMembers {α : Type} {Q : α → Prop} (h : c.Holds P) :
    ∀ m ∈ (c.passedMembers : List (Member α)), m.Holds P Q := by
  intro m hm
  obtain ⟨comment, hc, rfl⟩ := List.mem_map.1 hm
  exact h.skip.comments comment hc

theorem Holds.hoistedMembers {α : Type} {Q : α → Prop} (hdetach : ∀ c, P c → P c.detach) (h : c.Holds P) :
    ∀ m ∈ (c.hoistedMembers : List (Member α)), m.Holds P Q := by
  intro m hm
  obtain ⟨comment, hc, rfl⟩ := List.mem_map.1 hm
  exact hdetach comment (h.comments comment hc)

theorem Holds.field {f : Field TypeExpr} (h : c.Holds P) (hf : c.field finish = .ok (f, d)) :
    f.Named ∧ d.Holds P := by
  obtain ⟨⟨typed, c₁⟩, ht, hf⟩ := Except.bind_eq_ok.1 hf
  obtain ⟨⟨token, c₂⟩, hn, hf⟩ := Except.bind_eq_ok.1 hf
  dsimp only at hf
  obtain ⟨hname, h₁⟩ := h.typedName ht
  split at hf
  · cases hf
    exact ⟨hname, h₁.next hn⟩
  · cases hf

theorem Holds.fields (hdetach : ∀ c, P c → P c.detach) (h : c.Holds P) :
    (c.fields finish).Holds P (Member.Holds P Field.Named) := by
  fun_induction Cursor.fields finish c with
  | case1 c => exact ⟨h.passedMembers, fun d hd => by cases hd; exact h.fresh⟩
  | case2 c => exact ⟨h.passedMembers, by simp⟩
  | case3 c hc f after hf hlt rest last heq ih =>
    obtain ⟨hnamed, hafter⟩ := h.fresh.field hf
    rw [heq] at ih
    obtain ⟨hread, hrest⟩ := ih (hafter.onward (List.Subset.refl _))
    refine ⟨fun m hm => ?_, hrest⟩
    simp only [List.mem_append, List.mem_cons] at hm
    rcases hm with (hm | hm) | rfl | hm
    · exact h.passedMembers m hm
    · exact hafter.hoistedMembers hdetach m hm
    · exact hnamed
    · exact hread m hm

theorem Holds.values (h : c.Holds P) : (c.values finish).Holds P (Member.Holds P IsName) := by
  have hhead {c after : Cursor} {name : Name} (h : c.Holds P) (hname : IsName name.text) (hafter : after.Holds P) :
      ∀ m ∈ c.passedMembers ++ .item name.text :: after.passedMembers, m.Holds P IsName := by
    intro m hm
    simp only [List.mem_append, List.mem_cons] at hm
    rcases hm with hm | rfl | hm
    · exact h.passedMembers m hm
    · exact hname
    · exact hafter.passedMembers m hm
  fun_induction Cursor.values finish c with
  | case1 c => exact ⟨h.passedMembers, by simp⟩
  | case2 c name after hname head hs =>
    obtain ⟨hnamed, hafter⟩ := h.fresh.name hname
    exact ⟨hhead h hnamed hafter, fun d hd => by cases hd; exact hafter.fresh⟩
  | case3 c name after hname head token tokens hs hcomma hlt rest last heq ih =>
    obtain ⟨hnamed, hafter⟩ := h.fresh.name hname
    rw [heq] at ih
    obtain ⟨hread, hrest⟩ := ih (hafter.tail hs)
    refine ⟨fun m hm => ?_, hrest⟩
    rcases List.mem_append.1 hm with hm | hm
    · exact hhead h hnamed hafter m hm
    · exact hread m hm
  | case4 c name after hname head token tokens hs hcomma =>
    obtain ⟨hnamed, hafter⟩ := h.fresh.name hname
    exact ⟨hhead h hnamed hafter, fun d hd => by cases hd; exact hafter.fresh⟩

theorem Holds.enumMembers (h : c.Holds P) : (c.enumMembers finish).Holds P (Member.Holds P IsName) := by
  unfold Cursor.enumMembers
  split
  · exact ⟨h.passedMembers, fun d hd => by cases hd; exact h.fresh⟩
  · exact h.values

/-! ## Methods -/

theorem Holds.separated {α : Type} {Q : α → Prop} {item : Cursor → Except Error (α × Cursor)}
    {forward : ∀ c d a, item c = .ok (a, d) → d.size ≤ c.size}
    (hitem : ∀ {c d a}, c.Holds P → item c = .ok (a, d) → Q a ∧ d.Holds P) (h : c.Holds P) :
    (c.separated finish item forward).Holds P Q := by
  fun_induction Cursor.separated finish item forward c with
  | case1 => exact ⟨by simp, by simp⟩
  | case2 c a after hi e hn =>
    obtain ⟨hread, -⟩ := hitem h hi
    exact ⟨by simpa using hread, by simp⟩
  | case3 c a after hi token rest hn hcomma hlt more last heq ih =>
    obtain ⟨hread, hafter⟩ := hitem h hi
    rw [heq] at ih
    obtain ⟨hmore, hrest⟩ := ih (hafter.next hn)
    exact ⟨List.forall_mem_cons.2 ⟨hread, hmore⟩, hrest⟩
  | case4 c a after hi token rest hn =>
    obtain ⟨hread, hafter⟩ := hitem h hi
    exact ⟨by simpa using hread, fun d hd => by cases hd; exact hafter.next hn⟩
  | case5 c a after hi =>
    obtain ⟨hread, -⟩ := hitem h hi
    exact ⟨by simpa using hread, by simp⟩

theorem Holds.parameter {p : Parameter TypeExpr} (h : c.Holds P) (hp : c.parameter finish = .ok (p, d)) :
    p.Named ∧ d.Holds P := by
  obtain ⟨⟨token, c₁⟩, hn, hp⟩ := Except.bind_eq_ok.1 hp
  dsimp only at hp
  split at hp
  · obtain ⟨⟨typed, c₂⟩, ht, hp⟩ := Except.bind_eq_ok.1 hp
    cases hp
    exact (h.next hn).typedName ht
  · cases hp

theorem Holds.parameters (h : c.Holds P) : (c.parameters finish).Holds P Parameter.Named := by
  unfold Cursor.parameters
  split
  · exact ⟨by simp, fun d hd => by cases hd; exact h.drop⟩
  · exact h.separated Holds.parameter

theorem Holds.raised (h : c.Holds P) : (c.raised finish).Holds P fun name => IsName name.text := by
  unfold Cursor.raised
  split
  · exact .readAfter (fun _ he => h.drop.expect he) fun _ h => h.separated Holds.name
  · exact ⟨by simp, fun d hd => by cases hd; exact h⟩

theorem Holds.methodRest {typed : TypedName} {m : Method TypeExpr Name} {last : Except Error Cursor}
    (hname : IsName typed.name.text) (h : c.Holds P) (hm : c.methodRest finish typed = (m, last)) :
    m.Named Name.text ∧ ∀ d, last = .ok d → d.Holds P := by
  have hparameters : (Cursor.readAfter (c.expect finish (.mark .openParen) "`(`") (·.parameters finish)).Holds P
      Parameter.Named := .readAfter (fun _ he => h.expect he) fun _ h => h.parameters
  have hraised := Reading.Holds.readAfter (f := (·.raised finish)) hparameters.rest fun _ h => h.raised
  cases hm
  refine ⟨⟨hname, hparameters.read, hraised.read⟩, fun d hd => ?_⟩
  obtain ⟨c', hc', hd⟩ := Except.bind_eq_ok.1 hd
  exact (hraised.rest c' hc').expect hd

theorem Holds.method {m : Method TypeExpr Name} {last : Except Error Cursor} (h : c.Holds P)
    (hm : c.method finish = .ok (m, last)) : m.Named Name.text ∧ ∀ d, last = .ok d → d.Holds P := by
  obtain ⟨⟨typed, c₁⟩, ht, hm⟩ := Except.bind_eq_ok.1 hm
  obtain ⟨hname, h₁⟩ := h.typedName ht
  exact h₁.methodRest hname (Except.ok.inj hm)

theorem Holds.methods (hdetach : ∀ c, P c → P c.detach) (h : c.Holds P) :
    (c.methods finish).Holds P (Member.Holds P MethodItem.Named) := by
  fun_induction Cursor.methods finish c with
  | case1 c => exact ⟨h.passedMembers, fun d hd => by cases hd; exact h.fresh⟩
  | case2 c => exact ⟨h.passedMembers, by simp⟩
  | case3 c hc m e hm =>
    obtain ⟨hnamed, -⟩ := h.fresh.method hm
    refine ⟨fun m' hm' => ?_, by simp⟩
    rcases List.mem_append.1 hm' with hm' | hm'
    · exact h.passedMembers m' hm'
    · rw [List.mem_singleton.1 hm']
      exact hnamed
  | case4 c hc m after hm hlt rest last heq ih =>
    obtain ⟨hnamed, hafter⟩ := h.fresh.method hm
    have hafter := hafter after rfl
    rw [heq] at ih
    obtain ⟨hread, hrest⟩ := ih (hafter.onward (List.Subset.refl _))
    refine ⟨fun m' hm' => ?_, hrest⟩
    simp only [List.mem_append, List.mem_cons] at hm'
    rcases hm' with (hm' | hm') | rfl | hm'
    · exact h.passedMembers m' hm'
    · exact hafter.hoistedMembers hdetach m' hm'
    · exact hnamed
    · exact hread m' hm'

/-! ## Blocks -/

theorem Holds.block {α : Type} {Q : α → Prop} {members : Cursor → Reading (Member α)} {closer : String} {b : Block α}
    {rest? : Option Cursor} (hdetach : ∀ c, P c → P c.detach)
    (hmembers : ∀ c, c.Holds P → (members c).Holds P (Member.Holds P Q)) (h : c.Holds P)
    (hb : c.block finish members closer = (b, rest?)) : b.Holds P Q ∧ ∀ d, rest? = some d → d.Holds P := by
  have hread : (Cursor.readAfter (c.expect finish (.mark .openBrace) "`\x7b`") members).Holds P (Member.Holds P Q) :=
    .readAfter (fun _ he => h.expect he) hmembers
  unfold Cursor.block at hb
  dsimp only at hb
  split at hb
  · cases hb
    exact ⟨⟨hread.read, by simp⟩, by simp⟩
  · rename_i d hd
    cases hb
    obtain ⟨d₂, hd₂, hd₃⟩ := Except.bind_eq_ok.1 hd
    obtain ⟨d₁, hd₁, hd₂⟩ := Except.bind_eq_ok.1 hd₂
    have hd := ((hread.rest d₁ hd₁).expect hd₂).expect hd₃
    refine ⟨⟨hread.read, fun comment hc => ?_⟩, fun d' hd' => ?_⟩
    · obtain ⟨comment', hc', rfl⟩ := List.mem_map.1 hc
      exact hdetach comment' (hd.comments comment' hc')
    · cases hd'
      exact hd.onward (List.Subset.refl _)

end Readers

end Cursor

namespace Item

/-! ## Items -/

/-- The items of a step are sound, its name is one, and the comments after it satisfy `P`. -/
structure Step.Sound (P : Comment → Prop) (step : Step) : Prop where
  items : ∀ read rest, step = .items read rest → ∀ item ∈ read, item.Sound P
  opener : ∀ head name rest, step = .enter (.module head name) rest → IsName name.text
  stop : ∀ item, step = .stop item → item.Sound P
  rest : ∀ d, step.rest? = some d → d.Holds P

section Steps

variable {P : Comment → Prop} {finish : FileRange} {head : Token} {c d : Cursor}

theorem Step.Sound.of_items {read : List Item} (hread : ∀ item ∈ read, item.Sound P) (h : c.Holds P) :
    (Step.items read c).Sound P :=
  ⟨fun _ _ heq => by cases heq; exact hread, by simp, by simp, fun d hd => by cases hd; exact h⟩

theorem Step.Sound.of_stop {item : Item} (h : item.Sound P) : (Step.stop item).Sound P :=
  ⟨by simp, by simp, fun _ heq => by cases heq; exact h, by simp [Step.rest?]⟩

theorem Step.Sound.of_fault {error : Error} : (Step.stop (.fault (some head) error)).Sound P := .of_stop .fault

theorem Step.Sound.after {α : Type} {Q : α → Prop} {r : Except Error (α × Cursor)} {f : α → Cursor → Step}
    (hr : ∀ a c, r = .ok (a, c) → Q a ∧ c.Holds P) (hf : ∀ a c, Q a → c.Holds P → (f a c).Sound P) :
    (Step.after head r f).Sound P := by
  rcases r with e | ⟨a, c⟩
  · exact .of_fault
  · obtain ⟨ha, hc⟩ := hr a c rfl
    exact hf a c ha hc

theorem Step.Sound.block {α : Type} {Q : α → Prop} {members : Cursor → Cursor.Reading (Member α)} {closer : String}
    {f : Block α → Item} (hdetach : ∀ c, P c → P c.detach)
    (hmembers : ∀ c, c.Holds P → (members c).Holds P (Member.Holds P Q))
    (hf : ∀ block : Block α, block.Holds P Q → (f block).Sound P) (h : c.Holds P) :
    (Step.ofItem ((c.block finish members closer).map f id)).Sound P := by
  rcases hb : c.block finish members closer with ⟨block, rest?⟩
  obtain ⟨hblock, hrest⟩ := h.block hdetach hmembers hb
  rcases rest? with _ | rest
  · exact .of_stop (hf block hblock)
  · exact .of_items (by simpa using hf block hblock) (hrest rest rfl)

theorem sound_includeStep {source : SourceText} {tokens : List Token} (h : Cursor.Holds P ⟨tokens, []⟩) :
    (includeStep source head tokens).Sound P := by
  unfold includeStep
  dsimp only
  split
  · exact .of_fault
  · rename_i quote rest
    split
    · exact .of_fault
    · split
      · exact .of_fault
      · split
        · exact .of_fault
        · refine .of_items (by simpa using .included) (h.onward ?_)
          exact List.Subset.trans (List.dropWhile_sublist _).subset (by simp)

theorem sound_typedefStep (hdetach : ∀ c, P c → P c.detach) (h : c.Holds P) : (typedefStep finish head c).Sound P := by
  refine .after (fun typed c' ht => h.typedName ht) fun typed c' hname hc' => ?_
  split
  · exact .of_fault
  · rename_i d hd
    have hd := hc'.expect hd
    refine .of_items ?_ (hd.onward (List.Subset.refl _))
    simp only [List.mem_singleton, forall_eq]
    refine .typedef hname fun comment hc => ?_
    obtain ⟨comment', hc', rfl⟩ := List.mem_map.1 hc
    exact hdetach comment' (hd.comments comment' hc')

theorem sound_step (source : SourceText) (head : Token) (hdetach : ∀ c, P c → P c.detach) (h : c.Holds P) :
    (step source head c).Sound P := by
  have hname : ∀ name d, c.name source.finish = .ok (name, d) → IsName name.text ∧ d.Holds P :=
    fun name d hn => h.name hn
  unfold step
  dsimp only
  split
  · refine .after hname fun name d _ hd => .of_items ?_ (hd.onward (List.Subset.refl _))
    intro item hitem
    rcases List.mem_append.1 hitem with hitem | hitem
    · obtain ⟨comment, hc, rfl⟩ := List.mem_map.1 hitem
      exact .comment (hd.comments comment hc)
    · rw [List.mem_singleton.1 hitem]
      exact .define
  · exact .after hname fun name d _ hd => ⟨by simp, by simp, by simp, fun d' hd' => by cases hd'; exact hd⟩
  · exact sound_includeStep ⟨h.tokens, by simp⟩
  · refine .after hname fun name d hnamed hd => ?_
    split
    · exact .of_fault
    · rename_i d' hd'
      refine ⟨by simp, fun _ _ _ heq => ?_, by simp, fun d'' hd'' => ?_⟩
      · cases heq
        exact hnamed
      · cases hd''
        exact hd.expect hd'
  · exact sound_typedefStep hdetach h
  · exact .after hname fun name d hnamed hd =>
      .block hdetach (fun _ h => h.fields hdetach) (fun _ hb => .record hnamed hb) hd
  · exact .after hname fun name d hnamed hd =>
      .block hdetach (fun _ h => h.fields hdetach) (fun _ hb => .record hnamed hb) hd
  · exact .after hname fun name d hnamed hd =>
      .block hdetach (fun _ h => h.enumMembers) (fun _ hb => .enum hnamed hb) hd
  · exact .after hname fun name d hnamed hd =>
      .block hdetach (fun _ h => h.methods hdetach) (fun _ hb => .interface hnamed hb) hd
  · exact .of_fault

/-! ## Files -/

/-- The items before an open body are sound, and if the body is one of a module, then it has a name. -/
structure Frame.Sound (P : Comment → Prop) (frame : Frame) : Prop where
  before : ∀ item ∈ frame.before, item.Sound P
  opener : ∀ head name, frame.opener = .module head name → IsName name.text

/-- Items with a sound one after them. -/
theorem sound_snoc {items : List Item} {last : Item} (h : ∀ item ∈ items, item.Sound P) (hlast : last.Sound P) :
    ∀ item ∈ items ++ [last], item.Sound P := by
  intro item hitem
  rcases List.mem_append.1 hitem with hitem | hitem
  · exact h item hitem
  · rw [List.mem_singleton.1 hitem]
    exact hlast

theorem sound_close {frame : Frame} {body : List Item} {item : Item} {rest? : Option Cursor}
    (hdetach : ∀ c, P c → P c.detach) (hframe : frame.Sound P) (hbody : ∀ item ∈ body, item.Sound P) (h : c.Holds P)
    (hclose : frame.opener.close finish body c = (item, rest?)) : item.Sound P ∧ ∀ d, rest? = some d → d.Holds P := by
  unfold Opener.close at hclose
  split at hclose
  · cases hclose
    exact ⟨.guarded hbody, fun d hd => by cases hd; exact h⟩
  · rename_i head name hopener
    have hnamed := hframe.opener head name hopener
    split at hclose
    · cases hclose
      exact ⟨.module hnamed hbody (by simp), by simp⟩
    · rename_i c' hc'
      cases hclose
      have hc' := h.expect hc'
      refine ⟨.module hnamed hbody fun comment hc => ?_, fun d hd => ?_⟩
      · obtain ⟨comment', hmem, rfl⟩ := List.mem_map.1 hc
        exact hdetach comment' (hc'.comments comment' hmem)
      · cases hd
        exact hc'.onward (List.Subset.refl _)

theorem sound_of_closing {frame : Frame} {frames outer : List Frame} (hframes : ∀ frame ∈ frames, frame.Sound P)
    (h : closing? head frames = some (frame, outer)) : frame.Sound P ∧ ∀ frame ∈ outer, frame.Sound P := by
  unfold closing? at h
  split at h
  · cases h
  · split at h
    · cases h
      exact List.forall_mem_cons.1 hframes
    · cases h

theorem sound_abandon {frame : Frame} {body : List Item} (hframe : frame.Sound P)
    (hbody : ∀ item ∈ body, item.Sound P) : ∀ item ∈ frame.abandon body, item.Sound P := by
  refine sound_snoc hframe.before ?_
  split
  · exact .guarded hbody
  · rename_i head name hopener
    exact .module (hframe.opener head name hopener) hbody (by simp)

theorem sound_abandonAll {frames : List Frame} {body : List Item} (hframes : ∀ frame ∈ frames, frame.Sound P)
    (hbody : ∀ item ∈ body, item.Sound P) : ∀ item ∈ frames.foldl Frame.abandon body, item.Sound P := by
  induction frames generalizing body with
  | nil => exact hbody
  | cons frame frames ih =>
    obtain ⟨hframe, hframes⟩ := List.forall_mem_cons.1 hframes
    exact ih hframes (sound_abandon hframe hbody)

theorem sound_ended {frames : List Frame} {items : List Item} (hframes : ∀ frame ∈ frames, frame.Sound P)
    (hitems : ∀ item ∈ items, item.Sound P) : ∀ item ∈ ended finish frames items, item.Sound P := by
  unfold ended
  split
  · exact hitems
  · exact sound_abandonAll hframes (sound_snoc hitems .fault)

theorem sound_readFrom {source : SourceText} {frames : List Frame} {before : List Item}
    (hdetach : ∀ c, P c → P c.detach) (hframes : ∀ frame ∈ frames, frame.Sound P)
    (hbefore : ∀ item ∈ before, item.Sound P) (h : c.Holds P) :
    ∀ item ∈ readFrom source frames before c, item.Sound P := by
  have hpassed {before : List Item} {c : Cursor} (hbefore : ∀ item ∈ before, item.Sound P) (h : c.Holds P) :
      ∀ item ∈ before ++ c.skip.comments.map .comment, item.Sound P := by
    intro item hitem
    rcases List.mem_append.1 hitem with hitem | hitem
    · exact hbefore item hitem
    · obtain ⟨comment, hc, rfl⟩ := List.mem_map.1 hitem
      exact .comment (h.skip.comments comment hc)
  fun_induction readFrom source frames before c with
  | case1 frames before c items hs => exact sound_ended hframes (hpassed hbefore h)
  | case2 frames before c items head tokens hs hlt frame outer hclosing item rest hclose hle hlt' ih =>
    obtain ⟨hframe, houter⟩ := sound_of_closing hframes hclosing
    obtain ⟨hitem, hrest⟩ := sound_close hdetach hframe (hpassed hbefore h) (h.tail hs) hclose
    exact ih houter (sound_snoc hframe.before hitem) (hrest rest rfl)
  | case3 frames before c items head tokens hs hlt frame outer hclosing item hclose =>
    obtain ⟨hframe, houter⟩ := sound_of_closing hframes hclosing
    obtain ⟨hitem, -⟩ := sound_close hdetach hframe (hpassed hbefore h) (h.tail hs) hclose
    exact sound_abandonAll houter (sound_snoc hframe.before hitem)
  | case4 frames before c items head tokens hs hlt hclosing read rest hstep hle hlt' ih =>
    have hsound := sound_step source head hdetach (h.tail hs)
    refine ih hframes (fun item hitem => ?_) (hsound.rest rest (by rw [hstep]; rfl))
    rcases List.mem_append.1 hitem with hitem | hitem
    · exact hpassed hbefore h item hitem
    · exact hsound.items read rest hstep item hitem
  | case5 frames before c items head tokens hs hlt hclosing opener rest hstep hle hlt' ih =>
    have hsound := sound_step source head hdetach (h.tail hs)
    have hframe : Frame.Sound P ⟨opener, items⟩ := by
      refine ⟨hpassed hbefore h, ?_⟩
      rintro head' name rfl
      exact hsound.opener head' name rest hstep
    exact ih (List.forall_mem_cons.2 ⟨hframe, hframes⟩) (by simp) (hsound.rest rest (by rw [hstep]; rfl))
  | case6 frames before c items head tokens hs hlt hclosing item hstep =>
    have hsound := sound_step source head hdetach (h.tail hs)
    exact sound_abandonAll hframes (sound_snoc (hpassed hbefore h) (hsound.stop item hstep))

/-- The items of sound tokens are sound. -/
theorem sound_ofTokens {source : SourceText} {tokens : List Token} (hdetach : ∀ c, P c → P c.detach)
    (h : ∀ token ∈ tokens, token.kind.isComment = true → P (.ofToken token)) :
    ∀ item ∈ ofTokens source tokens, item.Sound P :=
  sound_readFrom hdetach (by simp) (by simp) ⟨h, by simp⟩

end Steps

end Item

end Idl
