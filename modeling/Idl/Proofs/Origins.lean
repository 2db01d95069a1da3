import Idl.Proofs.Quotes
import Idl.Proofs.Readers

/-!
# Where names and types come from

A name in an item is a token, with the token's text and range, and a type reaches from one token to
another. So what is to be known of the names, types and includes of a file follows from what is known
of its tokens.

* `Draws N T tokens`: names that are tokens satisfy `N`, ranges between two tokens satisfy `T`.
* `Item.Drawn N T item`: the names that an item declares or raises satisfy `N`, the ranges of its types
  and of its includes satisfy `T`.
* `Item.drawn_ofTokens`: all items of a file are drawn from its tokens.
-/

namespace Idl

/-- Names that are tokens satisfy `N`, and ranges between two tokens satisfy `T`. -/
structure Draws (N : Name → Prop) (T : FileRange → Prop) (tokens : List Token) : Prop where
  names : ∀ token ∈ tokens, N ⟨token.text, token.range⟩
  ranges : ∀ first ∈ tokens, ∀ last ∈ tokens, T (first.range.extend last.range)

/-- The types of a method satisfy `T`, and the exceptions that it raises satisfy `N`. -/
structure Method.Drawn (N : Name → Prop) (T : FileRange → Prop) (m : Method TypeExpr Name) : Prop where
  returns : T m.returns.range
  parameters : ∀ p ∈ m.parameters, T p.type.range
  raises : ∀ name ∈ m.raises, N name

namespace Draws

open Cursor

section Readers

variable {α : Type} {N : Name → Prop} {T : FileRange → Prop} {finish : FileRange} {c d : Cursor} {rest tokens : List Token}

theorem suffix (h : Draws N T tokens) (hsuffix : rest <:+ tokens) : Draws N T rest :=
  ⟨fun token hmem => h.names token (hsuffix.subset hmem),
    fun first hfirst last hlast => h.ranges first (hsuffix.subset hfirst) last (hsuffix.subset hlast)⟩

theorem ofToken {token : Token} {name : Name} (h : Draws N T tokens) (hmem : token ∈ tokens)
    (hname : token.name = .ok name) : N name := by
  unfold Token.name at hname
  split at hname
  · cases hname
    exact h.names token hmem
  · cases hname

theorem name {name : Name} (h : Draws N T c.tokens) (hname : c.name finish = .ok (name, d)) : N name := by
  obtain ⟨⟨token, c₁⟩, hnext, hname⟩ := Except.bind_eq_ok.1 hname
  obtain ⟨name', htoken, heq⟩ := Except.bind_eq_ok.1 hname
  cases heq
  exact h.ofToken (mem_of_next hnext) htoken

theorem typedName {stops : List Mark} {typed : TypedName} (h : Draws N T c.tokens)
    (htyped : c.typedName finish stops = .ok (typed, d)) : N typed.name ∧ T typed.type.range := by
  unfold Cursor.typedName at htyped
  split at htyped
  · cases htyped
  · dsimp only at htyped
    split at htyped
    · rename_i first more last hwords hlast
      obtain ⟨name, hname, heq⟩ := Except.bind_eq_ok.1 htyped
      cases heq
      have hmem {token : Token} (hword : token ∈ (c.tokens.takeWhile (!endsType stops ·)).filter (!·.kind.isComment)) :
          token ∈ c.tokens := (List.takeWhile_sublist _).subset (List.mem_filter.1 hword).1
      have hwordsMem {token : Token} (hword : token ∈ first :: more) : token ∈ c.tokens :=
        hmem ((List.dropLast_sublist _).subset (hwords ▸ hword))
      refine ⟨h.ofToken (hmem (List.mem_of_getLast? hlast)) hname, h.ranges _ (hwordsMem (by simp)) _ (hwordsMem ?_)⟩
      cases hmore : more.getLast? with
      | none => simp [List.getLastD_eq_getLast?, hmore]
      | some last' => simp [List.getLastD_eq_getLast?, hmore, List.mem_of_getLast? hmore]
    · cases htyped

/-! ## Members -/

theorem field {f : Field TypeExpr} (h : Draws N T c.tokens) (hfield : c.field finish = .ok (f, d)) : T f.type.range := by
  obtain ⟨⟨typed, c₁⟩, htyped, hfield⟩ := Except.bind_eq_ok.1 hfield
  obtain ⟨⟨token, c₂⟩, -, hfield⟩ := Except.bind_eq_ok.1 hfield
  dsimp only at hfield
  split at hfield
  · cases hfield
    exact (h.typedName htyped).2
  · cases hfield

theorem fields (h : Draws N T c.tokens) : ∀ f ∈ Member.items (c.fields finish).1, T f.type.range := by
  fun_induction Cursor.fields finish c with
  | case1 c => simp
  | case2 c => simp
  | case3 c hc f after hfield hlt rest last heq ih =>
    have hfresh : Draws N T c.fresh.tokens := h.suffix c.skip_suffix
    have hafter := (onward_field finish c.fresh).suffix hfield
    rw [heq] at ih
    have hrest := ih (hfresh.suffix hafter)
    simpa using ⟨hfresh.field hfield, hrest⟩

/-- What is in a list in parentheses was read somewhere among the tokens. -/
theorem exists_item_of_separated {item : Cursor → Except Error (α × Cursor)}
    {forward : ∀ c d a, item c = .ok (a, d) → d.size ≤ c.size} (hitem : ∀ c, Onward finish c.tokens (leaves (item c)))
    {a : α} (ha : a ∈ (c.separated finish item forward).1) :
    ∃ d e, d.tokens <:+ c.tokens ∧ item d = .ok (a, e) := by
  fun_induction separated finish item forward c with
  | case1 c e hi => cases ha
  | case2 c a' after hi e hn =>
    obtain rfl := List.mem_singleton.1 ha
    exact ⟨c, after, List.suffix_rfl, hi⟩
  | case3 c a' after hi token rest hn hcomma hlt more last heq ih =>
    rw [heq] at ih
    rcases List.mem_cons.1 ha with rfl | ha
    · exact ⟨c, after, List.suffix_rfl, hi⟩
    · obtain ⟨d, e, hd, hde⟩ := ih ha
      exact ⟨d, e, hd.trans (((onward_next finish separatorText after).suffix hn).trans ((hitem c).suffix hi)), hde⟩
  | case4 c a' after hi token rest hn =>
    obtain rfl := List.mem_singleton.1 ha
    exact ⟨c, after, List.suffix_rfl, hi⟩
  | case5 c a' after hi token rest hn =>
    obtain rfl := List.mem_singleton.1 ha
    exact ⟨c, after, List.suffix_rfl, hi⟩

theorem parameter {p : Parameter TypeExpr} (h : Draws N T c.tokens) (hp : c.parameter finish = .ok (p, d)) :
    T p.type.range := by
  obtain ⟨⟨token, c₁⟩, hnext, hp⟩ := Except.bind_eq_ok.1 hp
  dsimp only at hp
  split at hp
  · obtain ⟨⟨typed, c₂⟩, htyped, heq⟩ := Except.bind_eq_ok.1 hp
    cases heq
    exact ((h.suffix ((onward_next ..).suffix hnext)).typedName htyped).2
  · cases hp

theorem parameters (h : Draws N T c.tokens) : ∀ p ∈ (c.parameters finish).1, T p.type.range := by
  unfold Cursor.parameters
  split
  · simp
  · intro p hp
    obtain ⟨d, e, hd, hde⟩ := exists_item_of_separated (onward_parameter finish) hp
    exact (h.suffix hd).parameter hde

theorem raised (h : Draws N T c.tokens) : ∀ name ∈ (c.raised finish).1, N name := by
  unfold Cursor.raised
  split
  · intro name hname
    rcases hexpect : (⟨c.skip.tokens.drop 1, c.skip.comments⟩ : Cursor).expect finish (.mark .openParen) "`(`" with e | d
    · rw [hexpect] at hname
      cases hname
    · rw [hexpect] at hname
      obtain ⟨d', e, hd', hde⟩ := exists_item_of_separated (onward_name finish) hname
      have hd : d.tokens <:+ c.tokens := ((onward_expect ..).rest d hexpect).trans c.drop_skip_suffix
      exact (h.suffix (hd'.trans hd)).name hde
  · simp

theorem readAfter {P : α → Prop} {before : Except Error Cursor} {f : Cursor → Reading α} (h : Draws N T tokens)
    (hbefore : Onward finish tokens before) (hf : ∀ d, Draws N T d.tokens → ∀ a ∈ (f d).1, P a) :
    ∀ a ∈ (Cursor.readAfter before f).1, P a := by
  cases before with
  | error e => simp [Cursor.readAfter]
  | ok d => exact hf d (h.suffix (hbefore.rest d rfl))

theorem method {m : Method TypeExpr Name} {last : Except Error Cursor} (h : Draws N T c.tokens)
    (hm : c.method finish = .ok (m, last)) : m.Drawn N T := by
  obtain ⟨⟨typed, c₁⟩, htyped, hm⟩ := Except.bind_eq_ok.1 hm
  cases hm
  have hopen := onward_expect finish (.mark .openParen) "`(`" c₁
  have h₁ := h.suffix ((onward_typedName ..).suffix htyped)
  refine ⟨(h.typedName htyped).2, h₁.readAfter hopen fun d hd => hd.parameters, ?_⟩
  exact h₁.readAfter (.readAfter hopen (onward_parameters finish)) fun d hd => hd.raised

theorem methods (h : Draws N T c.tokens) : ∀ m ∈ Member.items (c.methods finish).1, m.method.Drawn N T := by
  have hfresh {c : Cursor} (h : Draws N T c.tokens) : Draws N T c.fresh.tokens := h.suffix c.skip_suffix
  fun_induction Cursor.methods finish c with
  | case1 c => simp
  | case2 c => simp
  | case3 c hc m e hm => simpa using (hfresh h).method hm
  | case4 c hc m after hm hlt rest last heq ih =>
    rw [heq] at ih
    have hrest := ih ((hfresh h).suffix ((onward_of_method hm).rest after rfl))
    simpa using ⟨(hfresh h).method hm, hrest⟩

end Readers

end Draws

/-! ## Items -/

namespace Item

/-- The names that an item declares or raises satisfy `N`, and the ranges of its types and includes satisfy `T`. -/
inductive Drawn (N : Name → Prop) (T : FileRange → Prop) : Item → Prop
  | comment {c : Comment} : Drawn N T (.comment c)
  | define {head : Token} {name : Name} (named : N name) : Drawn N T (.define head name)
  | included {head : Token} {written : String} {range : FileRange} (placed : T range) :
      Drawn N T (.include head written range)
  | guarded {head : Token} {name : Name} {body : List Item} (within : ∀ item ∈ body, Drawn N T item) :
      Drawn N T (.guarded head name body)
  | module {head : Token} {name : Name} {body : List Item} {trailing : List Comment} {fault : Option Error}
      (within : ∀ item ∈ body, Drawn N T item) : Drawn N T (.module head name body trailing fault)
  | typedef {head : Token} {typed : TypedName} {comments : List Comment} (named : N typed.name)
      (type : T typed.type.range) : Drawn N T (.typedef head typed comments)
  | record {head : Token} {kind : RecordKind} {name : Name} {block : Block (Field TypeExpr)} (named : N name)
      (fields : ∀ f ∈ Member.items block.members, T f.type.range) : Drawn N T (.record head kind name block)
  | enum {head : Token} {name : Name} {block : Block String} (named : N name) : Drawn N T (.enum head name block)
  | interface {head : Token} {name : Name} {block : Block MethodItem} (named : N name)
      (methods : ∀ m ∈ Member.items block.members, m.method.Drawn N T) : Drawn N T (.interface head name block)
  | fault {head : Option Token} {error : Error} : Drawn N T (.fault head error)

/-- What a step reads is drawn. -/
structure Step.Drawn (N : Name → Prop) (T : FileRange → Prop) (step : Step) : Prop where
  items : ∀ read rest, step = .items read rest → ∀ item ∈ read, item.Drawn N T
  stop : ∀ item, step = .stop item → item.Drawn N T

section Steps

variable {N : Name → Prop} {T : FileRange → Prop} {finish : FileRange} {head : Token} {c d : Cursor}

theorem Step.drawn_items {read : List Item} (h : ∀ item ∈ read, item.Drawn N T) : (Step.items read c).Drawn N T :=
  ⟨fun _ _ heq => by cases heq; exact h, by simp⟩

theorem Step.drawn_enter {opener : Opener} : (Step.enter opener c).Drawn N T := ⟨by simp, by simp⟩

theorem Step.drawn_stop {item : Item} (h : item.Drawn N T) : (Step.stop item).Drawn N T :=
  ⟨by simp, fun _ heq => by cases heq; exact h⟩

theorem Step.drawn_after {α : Type} {r : Except Error (α × Cursor)} {f : α → Cursor → Step}
    (h : ∀ a c, r = .ok (a, c) → (f a c).Drawn N T) : (Step.after head r f).Drawn N T := by
  rcases r with e | ⟨a, c⟩
  · exact drawn_stop .fault
  · exact h a c rfl

theorem Step.drawn_block {α : Type} {members : Cursor → Cursor.Reading (Member α)} {closer : String}
    {f : Block α → Item} (h : (f (c.block finish members closer).1).Drawn N T) :
    (Step.ofItem ((c.block finish members closer).map f id)).Drawn N T := by
  rcases hb : c.block finish members closer with ⟨block, _ | rest⟩
  · rw [hb] at h
    exact drawn_stop h
  · rw [hb] at h
    exact drawn_items (by simpa using h)

theorem drawn_includeStep {source : SourceText} {tokens : List Token}
    (h : ∀ read rest, includeStep source head tokens = .items read rest → ∀ item ∈ read, item.Drawn N T) :
    (includeStep source head tokens).Drawn N T := by
  refine ⟨h, fun item hitem => ?_⟩
  obtain ⟨e, rfl⟩ := exists_fault_of_includeStep hitem
  exact .fault

theorem drawn_typedefStep (h : Draws N T c.tokens) : (typedefStep finish head c).Drawn N T := by
  refine Step.drawn_after fun typed d htyped => ?_
  split
  · exact Step.drawn_stop .fault
  · obtain ⟨hname, htype⟩ := h.typedName htyped
    exact Step.drawn_items (by simpa using .typedef hname htype)

theorem drawn_step (source : SourceText) (h : Draws N T c.tokens)
    (hinclude : ∀ read rest, includeStep source head c.tokens = .items read rest → ∀ item ∈ read, item.Drawn N T) :
    (step source head c).Drawn N T := by
  have hmembers {α : Type} {members : Cursor → Cursor.Reading (Member α)} {closer : String} {P : α → Prop} {name : Name}
      {d : Cursor} (hname : c.name source.finish = .ok (name, d))
      (hP : ∀ d, Draws N T d.tokens → ∀ a ∈ Member.items (members d).1, P a) :
      ∀ a ∈ Member.items (d.block source.finish members closer).1.members, P a := by
    intro a ha
    obtain ⟨d', hd', ha⟩ := Cursor.exists_members_of_block ha
    exact hP d' (h.suffix (hd'.trans ((Cursor.onward_name ..).suffix hname))) a ha
  unfold step
  dsimp only
  split
  · refine Step.drawn_after fun name d hname => Step.drawn_items (List.forall_mem_append.2 ⟨fun item hitem => ?_, ?_⟩)
    · obtain ⟨comment, -, rfl⟩ := List.mem_map.1 hitem
      exact .comment
    · simpa using .define (h.name hname)
  · exact Step.drawn_after fun name d hname => Step.drawn_enter
  · exact drawn_includeStep hinclude
  · refine Step.drawn_after fun name d hname => ?_
    split
    · exact Step.drawn_stop .fault
    · exact Step.drawn_enter
  · exact drawn_typedefStep h
  · refine Step.drawn_after fun name d hname => Step.drawn_block ?_
    exact .record (h.name hname) (hmembers hname fun _ hd => hd.fields)
  · refine Step.drawn_after fun name d hname => Step.drawn_block ?_
    exact .record (h.name hname) (hmembers hname fun _ hd => hd.fields)
  · exact Step.drawn_after fun name d hname => Step.drawn_block (.enum (h.name hname))
  · refine Step.drawn_after fun name d hname => Step.drawn_block ?_
    exact .interface (h.name hname) (hmembers hname fun _ hd => hd.methods)
  · exact Step.drawn_stop .fault

/-- All items of a file are drawn from its tokens. -/
theorem drawn_ofTokens {source : SourceText} {all : List Token} (h : Draws N T all)
    (hinclude : ∀ {head tokens}, head :: tokens <:+ all → ∀ read rest,
      includeStep source head tokens = .items read rest → ∀ item ∈ read, item.Drawn N T) :
    ∀ item ∈ ofTokens source all, item.Drawn N T := by
  have hstep {head : Token} {tokens : List Token} (hsuffix : head :: tokens <:+ all) :
      (step source head ⟨tokens, []⟩).Drawn N T :=
    drawn_step source (h.suffix ((List.suffix_cons ..).trans hsuffix)) (hinclude hsuffix)
  exact Inherited.ofTokens
    { comment := fun _ => .comment
      guarded := .guarded
      module := fun hbody _ => .module hbody
      ended := fun _ => .fault
      items := fun hsuffix hread => (hstep hsuffix).items _ _ hread
      stop := fun hsuffix hstop => (hstep hsuffix).stop _ hstop }

end Steps

end Item

end Idl
