import Idl.Proofs.Accepting
import Idl.Proofs.Quotes

/-!
# Texts with an end of a block behind them

A reader that finds what it looks for has not looked behind it. So a text without faults is read as
before when an `#endif` follows it, and whatever stands behind that. This is said for each reader,
from single tokens to the items of a file: inside of a guarded block the text has the items that it
has as a file (`Item.readFrom_followed`).
-/

namespace Idl

namespace Cursor

/-- The cursor with more tokens behind those that are still to be read. -/
def followed (c : Cursor) (more : List Token) : Cursor := ⟨c.tokens ++ more, c.comments⟩

/-- The first one of some tokens is an `#endif`. -/
def EndsBlock (more : List Token) : Prop := ∃ closing rest, more = closing :: rest ∧ closing.kind = .directive .endif

variable {c d : Cursor} {more : List Token} {finish finish' : FileRange}

section Tokens

variable (hmore : EndsBlock more)

include hmore

theorem skip_followed (c : Cursor) : (c.followed more).skip = c.skip.followed more := by
  obtain ⟨closing, rest, rfl, hclosing⟩ := hmore
  have hstop : closing.kind.isComment = false := by rw [hclosing]; rfl
  have hdrop : (c.tokens ++ closing :: rest).dropWhile (·.kind.isComment) =
      c.tokens.dropWhile (·.kind.isComment) ++ closing :: rest := by
    apply Token.dropWhile_append_stop
    exact hstop
  have htake : (c.tokens ++ closing :: rest).takeWhile (·.kind.isComment) =
      c.tokens.takeWhile (·.kind.isComment) := by
    apply Token.takeWhile_append_stop
    exact hstop
  simp only [skip, followed, hdrop, htake]

theorem fresh_followed (c : Cursor) : (c.followed more).fresh = c.fresh.followed more := by
  rw [fresh, skip_followed hmore]
  rfl

theorem passedMembers_followed {α : Type} (c : Cursor) :
    ((c.followed more).passedMembers : List (Member α)) = c.passedMembers := by
  rw [passedMembers, skip_followed hmore]
  rfl

/-- What follows is told apart from every kind of token but an `#endif`. -/
theorem kind?_followed (c : Cursor) {kind : Token.Kind} (hkind : kind ≠ .directive .endif) :
    (c.followed more).kind? = some kind ↔ c.kind? = some kind := by
  rw [kind?, kind?, skip_followed hmore]
  obtain ⟨closing, rest, rfl, hclosing⟩ := hmore
  cases htokens : c.skip.tokens with
  | nil => simp [followed, htokens, hclosing, hkind.symm]
  | cons token tokens => simp [followed, htokens]

theorem next_followed {expected : String} {token : Token} (h : c.next finish expected = .ok (token, d)) :
    (c.followed more).next finish' expected = .ok (token, d.followed more) := by
  unfold next at h ⊢
  rw [skip_followed hmore]
  cases htokens : c.skip.tokens with
  | nil =>
    rw [htokens] at h
    cases h
  | cons token tokens =>
    rw [htokens] at h
    cases h
    rw [followed, htokens]
    rfl

theorem expect_followed {kind : Token.Kind} {expected : String} (h : c.expect finish kind expected = .ok d) :
    (c.followed more).expect finish' kind expected = .ok (d.followed more) := by
  obtain ⟨⟨token, c₁⟩, hnext, hkind⟩ := Except.bind_eq_ok.1 h
  apply Except.bind_eq_ok.2
  refine ⟨_, next_followed hmore hnext, ?_⟩
  dsimp only at hkind ⊢
  split at hkind
  · rename_i hexpected
    cases hkind
    rw [if_pos hexpected]
  · cases hkind

theorem name_followed {name : Name} (h : c.name finish = .ok (name, d)) :
    (c.followed more).name finish' = .ok (name, d.followed more) := by
  obtain ⟨⟨token, c₁⟩, hnext, hname⟩ := Except.bind_eq_ok.1 h
  obtain ⟨name, htoken, heq⟩ := Except.bind_eq_ok.1 hname
  cases heq
  apply Except.bind_eq_ok.2
  refine ⟨_, next_followed hmore hnext, ?_⟩
  exact Except.bind_eq_ok.2 ⟨name, htoken, rfl⟩

end Tokens

/-- A type and its name end at a mark, so it makes no difference what follows. -/
theorem typedName_followed {stops : List Mark} {typed : TypedName} (h : c.typedName finish stops = .ok (typed, d)) :
    (c.followed more).typedName finish' stops = .ok (typed, d.followed more) := by
  unfold typedName at h ⊢
  cases hdrop : c.tokens.dropWhile (!endsType stops ·) with
  | nil =>
    rw [hdrop] at h
    cases h
  | cons stop rest =>
    have hcut := List.takeWhile_append_dropWhile (p := (!endsType stops ·)) (l := c.tokens)
    have hstop : (!endsType stops stop) = false := by
      have hhead := List.head?_dropWhile_not (p := (!endsType stops ·)) (l := c.tokens)
      rw [hdrop] at hhead
      simpa using hhead
    have htokens : (c.followed more).tokens = c.tokens.takeWhile (!endsType stops ·) ++ stop :: (rest ++ more) := by
      rw [← List.cons_append, ← hdrop, ← List.append_assoc, hcut]
      rfl
    have hpassed : ∀ token ∈ c.tokens.takeWhile (!endsType stops ·), (!endsType stops token) = true :=
      fun token hmem => List.all_eq_true.1 List.all_takeWhile token hmem
    have htake' : (c.followed more).tokens.takeWhile (!endsType stops ·) = c.tokens.takeWhile (!endsType stops ·) := by
      rw [htokens, List.takeWhile_append_of_pos hpassed, List.takeWhile_cons_of_neg (by simp [hstop]), List.append_nil]
    have hdrop' : (c.followed more).tokens.dropWhile (!endsType stops ·) = stop :: (rest ++ more) := by
      rw [htokens, List.dropWhile_append_of_pos hpassed, List.dropWhile_cons_of_neg (by simp [hstop])]
    rw [hdrop] at h
    dsimp only at h ⊢
    rw [htake', hdrop']
    dsimp only
    split at h
    · rename_i hlast
      obtain ⟨name, hname, heq⟩ := Except.bind_eq_ok.1 h
      cases heq
      exact Except.bind_eq_ok.2 ⟨name, hname, rfl⟩
    · cases h

/-- Reading that went well goes on in front of what follows. -/
theorem readAfter_followed {α : Type} {before before' : Except Error Cursor} {f f' : Cursor → Reading α}
    (hbefore : ∀ c, before = .ok c → before' = .ok (c.followed more))
    (hf : ∀ c, (f c).2 = .ok d → f' (c.followed more) = ((f c).1, .ok (d.followed more)))
    (h : (readAfter before f).2 = .ok d) :
    readAfter before' f' = ((readAfter before f).1, .ok (d.followed more)) := by
  cases before with
  | error e => cases h
  | ok c =>
    rw [hbefore c rfl]
    exact hf c h

theorem exists_of_readAfter {α : Type} {before : Except Error Cursor} {f : Cursor → Reading α}
    (h : (readAfter before f).2 = .ok d) : ∃ c, before = .ok c := by
  cases before with
  | error e => cases h
  | ok c => exact ⟨c, rfl⟩

/-! ## Fields -/

section Members

variable {α : Type} (hmore : EndsBlock more)

include hmore

theorem field_followed {f : Field TypeExpr} (h : c.field finish = .ok (f, d)) :
    (c.followed more).field finish' = .ok (f, d.followed more) := by
  obtain ⟨⟨typed, c₁⟩, htyped, h⟩ := Except.bind_eq_ok.1 h
  obtain ⟨⟨token, c₂⟩, hnext, hmark⟩ := Except.bind_eq_ok.1 h
  apply Except.bind_eq_ok.2
  refine ⟨_, typedName_followed htyped, Except.bind_eq_ok.2 ⟨_, next_followed hmore hnext, ?_⟩⟩
  dsimp only at hmark ⊢
  split at hmark
  · rename_i hkind
    cases hmark
    rw [if_pos hkind]
  · cases hmark

theorem fields_followed (h : (c.fields finish).2 = .ok d) :
    (c.followed more).fields finish' = ((c.fields finish).1, .ok (d.followed more)) := by
  fun_induction fields finish c with
  | case1 c hkind =>
    cases h
    rw [fields_eq, if_pos ((kind?_followed hmore c (by simp)).2 hkind), passedMembers_followed hmore,
      fresh_followed hmore]
  | case2 c hkind e he => cases h
  | case3 c hkind f after hf hlt rest last heq ih =>
    rw [heq] at ih
    have hrest := ih h
    rw [fields_eq, if_neg (mt (kind?_followed hmore c (by simp)).1 hkind), fresh_followed hmore,
      field_followed hmore hf, passedMembers_followed hmore]
    dsimp only
    rw [show (⟨(after.followed more).tokens, []⟩ : Cursor) = followed ⟨after.tokens, []⟩ more from rfl, hrest]
    rfl

/-! ## Enum values -/

theorem values_followed (h : (c.values finish).2 = .ok d) :
    (c.followed more).values finish' = ((c.values finish).1, .ok (d.followed more)) := by
  fun_induction values finish c with
  | case1 c e he => cases h
  | case2 c name after hname head hs =>
    cases h
    obtain ⟨closing, rest, rfl, hclosing⟩ := id hmore
    rw [values_eq, fresh_followed hmore, name_followed hmore hname]
    dsimp only
    rw [skip_followed hmore, followed, hs]
    dsimp only [List.nil_append]
    rw [if_neg (by simp [hclosing]), passedMembers_followed hmore, passedMembers_followed hmore, fresh_followed hmore]
  | case3 c name after hname head token tokens hs hcomma hlt rest last heq ih =>
    rw [heq] at ih
    have hrest := ih h
    rw [values_eq, fresh_followed hmore, name_followed hmore hname]
    dsimp only
    rw [skip_followed hmore, followed, hs]
    dsimp only [List.cons_append]
    rw [if_pos hcomma, passedMembers_followed hmore, passedMembers_followed hmore,
      show (⟨tokens ++ more, []⟩ : Cursor) = followed ⟨tokens, []⟩ more from rfl, hrest]
  | case4 c name after hname head token tokens hs hcomma =>
    cases h
    rw [values_eq, fresh_followed hmore, name_followed hmore hname]
    dsimp only
    rw [skip_followed hmore, followed, hs]
    dsimp only [List.cons_append]
    rw [if_neg hcomma, passedMembers_followed hmore, passedMembers_followed hmore, fresh_followed hmore]

theorem enumMembers_followed (h : (c.enumMembers finish).2 = .ok d) :
    (c.followed more).enumMembers finish' = ((c.enumMembers finish).1, .ok (d.followed more)) := by
  unfold enumMembers at h ⊢
  by_cases hkind : c.kind? = some (.mark .closeBrace)
  · rw [if_pos hkind] at h ⊢
    cases h
    rw [if_pos ((kind?_followed hmore c (by simp)).2 hkind), passedMembers_followed hmore, fresh_followed hmore]
  · rw [if_neg hkind] at h ⊢
    rw [if_neg (mt (kind?_followed hmore c (by simp)).1 hkind)]
    exact values_followed hmore h

/-! ## Methods -/

theorem separated_followed {item item' : Cursor → Except Error (α × Cursor)}
    {forward : ∀ c d a, item c = .ok (a, d) → d.size ≤ c.size}
    {forward' : ∀ c d a, item' c = .ok (a, d) → d.size ≤ c.size}
    (hitem : ∀ c d a, item c = .ok (a, d) → item' (c.followed more) = .ok (a, d.followed more))
    (h : (c.separated finish item forward).2 = .ok d) :
    (c.followed more).separated finish' item' forward' =
      ((c.separated finish item forward).1, .ok (d.followed more)) := by
  fun_induction separated finish item forward c with
  | case1 c e he => cases h
  | case2 c a after ha e he => cases h
  | case3 c a after ha token rest hn hcomma hlt more' last heq ih =>
    rw [heq] at ih
    have hrest := ih h
    rw [separated_eq, hitem c after a ha]
    dsimp only
    rw [next_followed hmore hn]
    dsimp only
    rw [if_pos hcomma, hrest]
  | case4 c a after ha token rest hn hcomma hclose =>
    cases h
    rw [separated_eq, hitem c after a ha]
    dsimp only
    rw [next_followed hmore hn]
    dsimp only
    rw [if_neg hcomma, if_pos hclose]
  | case5 c a after ha token rest hn hcomma hclose => cases h

theorem parameter_followed {p : Parameter TypeExpr} (h : c.parameter finish = .ok (p, d)) :
    (c.followed more).parameter finish' = .ok (p, d.followed more) := by
  obtain ⟨⟨token, c₁⟩, hnext, h⟩ := Except.bind_eq_ok.1 h
  apply Except.bind_eq_ok.2
  refine ⟨_, next_followed hmore hnext, ?_⟩
  dsimp only at h ⊢
  split at h
  · obtain ⟨⟨typed, c₂⟩, htyped, heq⟩ := Except.bind_eq_ok.1 h
    cases heq
    exact Except.bind_eq_ok.2 ⟨_, typedName_followed htyped, rfl⟩
  · cases h

theorem drop_skip_followed {kind : Token.Kind} (hkind : c.kind? = some kind) :
    (⟨(c.followed more).skip.tokens.drop 1, (c.followed more).skip.comments⟩ : Cursor) =
      followed ⟨c.skip.tokens.drop 1, c.skip.comments⟩ more := by
  rw [skip_followed hmore]
  unfold kind? at hkind
  cases htokens : c.skip.tokens with
  | nil =>
    rw [htokens] at hkind
    cases hkind
  | cons token tokens => simp [followed, htokens]

theorem parameters_followed (h : (c.parameters finish).2 = .ok d) :
    (c.followed more).parameters finish' = ((c.parameters finish).1, .ok (d.followed more)) := by
  unfold parameters at h ⊢
  by_cases hkind : c.kind? = some (.mark .closeParen)
  · rw [if_pos hkind] at h ⊢
    cases h
    rw [if_pos ((kind?_followed hmore c (by simp)).2 hkind), drop_skip_followed hmore hkind]
  · rw [if_neg hkind] at h ⊢
    rw [if_neg (mt (kind?_followed hmore c (by simp)).1 hkind)]
    exact separated_followed hmore (fun _ _ _ => parameter_followed hmore) h

theorem names_followed (h : (c.names finish).2 = .ok d) :
    (c.followed more).names finish' = ((c.names finish).1, .ok (d.followed more)) :=
  separated_followed hmore (fun _ _ _ => name_followed hmore) h

theorem raised_followed (h : (c.raised finish).2 = .ok d) :
    (c.followed more).raised finish' = ((c.raised finish).1, .ok (d.followed more)) := by
  unfold raised at h ⊢
  by_cases hkind : c.kind? = some (.keyword .raises)
  · rw [if_pos hkind] at h ⊢
    rw [if_pos ((kind?_followed hmore c (by simp)).2 hkind), drop_skip_followed hmore hkind]
    exact readAfter_followed (fun _ => expect_followed hmore) (fun _ => names_followed hmore) h
  · rw [if_neg hkind] at h ⊢
    cases h
    rw [if_neg (mt (kind?_followed hmore c (by simp)).1 hkind)]

theorem methodRest_followed {typed : TypedName} (h : (c.methodRest finish typed).2 = .ok d) :
    (c.followed more).methodRest finish' typed = ((c.methodRest finish typed).1, .ok (d.followed more)) := by
  have hlist (c₁ : Cursor) (hc₁ : (readAfter (c.expect finish (.mark .openParen) "`(`") (·.parameters finish)).2 =
      .ok c₁) : readAfter ((c.followed more).expect finish' (.mark .openParen) "`(`") (·.parameters finish') =
        ((readAfter (c.expect finish (.mark .openParen) "`(`") (·.parameters finish)).1, .ok (c₁.followed more)) :=
    readAfter_followed (fun _ => expect_followed hmore) (fun _ => parameters_followed hmore) hc₁
  simp only [methodRest] at h ⊢
  generalize readAfter (c.expect finish (.mark .openParen) "`(`") (·.parameters finish) = listed at h hlist ⊢
  generalize readAfter ((c.followed more).expect finish' (.mark .openParen) "`(`") (·.parameters finish') = listed'
    at hlist ⊢
  obtain ⟨c₂, hraised, hsemicolon⟩ := Except.bind_eq_ok.1 h
  obtain ⟨c₁, hlisted⟩ := exists_of_readAfter hraised
  obtain rfl := hlist c₁ hlisted
  have hsame (c : Cursor) (hc : listed.2 = .ok c) :
      (Except.ok (c₁.followed more) : Except Error Cursor) = .ok (c.followed more) := by
    rw [hlisted] at hc
    cases hc
    rfl
  have hraised' : readAfter (.ok (c₁.followed more)) (·.raised finish') =
      ((readAfter listed.2 (·.raised finish)).1, .ok (c₂.followed more)) :=
    readAfter_followed hsame (fun _ => raised_followed hmore) hraised
  rw [hraised']
  exact congrArg _ (expect_followed hmore hsemicolon)

theorem method_followed {m : Method TypeExpr Name} (h : c.method finish = .ok (m, .ok d)) :
    (c.followed more).method finish' = .ok (m, .ok (d.followed more)) := by
  obtain ⟨⟨typed, c₁⟩, htyped, heq⟩ := Except.bind_eq_ok.1 h
  have hrest : c₁.methodRest finish typed = (m, .ok d) := Except.ok.inj heq
  have hrest' : (c₁.followed more).methodRest finish' typed = ((c₁.methodRest finish typed).1, .ok (d.followed more)) :=
    methodRest_followed hmore (congrArg Prod.snd hrest)
  rw [hrest] at hrest'
  apply Except.bind_eq_ok.2
  exact ⟨_, typedName_followed htyped, congrArg Except.ok hrest'⟩

theorem methods_followed (h : (c.methods finish).2 = .ok d) :
    (c.followed more).methods finish' = ((c.methods finish).1, .ok (d.followed more)) := by
  fun_induction methods finish c with
  | case1 c hkind =>
    cases h
    rw [methods_eq, if_pos ((kind?_followed hmore c (by simp)).2 hkind), passedMembers_followed hmore,
      fresh_followed hmore]
  | case2 c hkind e he => cases h
  | case3 c hkind m e he => cases h
  | case4 c hkind m after hm hlt rest last heq ih =>
    rw [heq] at ih
    have hrest := ih h
    rw [methods_eq, if_neg (mt (kind?_followed hmore c (by simp)).1 hkind), fresh_followed hmore,
      method_followed hmore hm, passedMembers_followed hmore]
    dsimp only
    rw [show (⟨(after.followed more).tokens, []⟩ : Cursor) = followed ⟨after.tokens, []⟩ more from rfl, hrest]
    rfl

/-! ## Blocks -/

theorem block_followed {members members' : Cursor → Reading (Member α)} {closer : String} {b : Block α}
    (hmembers : ∀ c d, (members c).2 = .ok d → members' (c.followed more) = ((members c).1, .ok (d.followed more)))
    (h : c.block finish members closer = (b, some d)) :
    (c.followed more).block finish' members' closer = (b, some (d.followed more)) := by
  have hread (c₁ : Cursor) (hc₁ : (readAfter (c.expect finish (.mark .openBrace) "`\x7b`") members).2 = .ok c₁) :
      readAfter ((c.followed more).expect finish' (.mark .openBrace) "`\x7b`") members' =
        ((readAfter (c.expect finish (.mark .openBrace) "`\x7b`") members).1, .ok (c₁.followed more)) :=
    readAfter_followed (fun _ => expect_followed hmore) (fun c => hmembers c c₁) hc₁
  simp only [block] at h ⊢
  generalize readAfter (c.expect finish (.mark .openBrace) "`\x7b`") members = read at h hread
  generalize readAfter ((c.followed more).expect finish' (.mark .openBrace) "`\x7b`") members' = read' at hread ⊢
  split at h
  · cases h
  · rename_i c₃ hended
    cases h
    obtain ⟨c₂, hclosed, hsemicolon⟩ := Except.bind_eq_ok.1 hended
    obtain ⟨c₁, hlast, hbrace⟩ := Except.bind_eq_ok.1 hclosed
    obtain rfl := hread c₁ hlast
    have hended' : ((Except.ok (c₁.followed more)).bind (·.expect finish' (.mark .closeBrace) closer)).bind
        (·.expect finish' (.mark .semicolon) "`;`") = .ok (c₃.followed more) :=
      Except.bind_eq_ok.2 ⟨_, expect_followed hmore hbrace, expect_followed hmore hsemicolon⟩
    rw [hended']
    rfl

end Members

end Cursor

namespace Item

open Cursor (EndsBlock)

/-! ## Items -/

/-- A step with more behind what it leaves. -/
def Step.followed (more : List Token) : Step → Step
  | items read rest => .items read (rest.followed more)
  | enter opener rest => .enter opener (rest.followed more)
  | stop item => .stop item

section Step

variable {more : List Token} {head : Token} {c : Cursor} {finish finish' : FileRange} {source source' : SourceText}

theorem after_followed {α : Type} {r r' : Except Error (α × Cursor)} {f f' : α → Cursor → Step}
    (hr : ∀ a d, r = .ok (a, d) → r' = .ok (a, d.followed more))
    (hf : ∀ a d, (f a d).rest?.isSome = true → f' a (d.followed more) = (f a d).followed more)
    (h : (Step.after head r f).rest?.isSome = true) :
    Step.after head r' f' = (Step.after head r f).followed more := by
  rcases r with e | ⟨a, d⟩
  · cases h
  · rw [hr a d rfl]
    exact hf a d h

variable (hmore : EndsBlock more)

include hmore

theorem block_step_followed {α : Type} {members members' : Cursor → Cursor.Reading (Member α)} {closer : String}
    {f : Block α → Item}
    (hmembers : ∀ c d, (members c).2 = .ok d → members' (c.followed more) = ((members c).1, .ok (d.followed more)))
    (h : (Step.ofItem ((c.block finish members closer).map f id)).rest?.isSome = true) :
    Step.ofItem (((c.followed more).block finish' members' closer).map f id) =
      (Step.ofItem ((c.block finish members closer).map f id)).followed more := by
  rcases hblock : c.block finish members closer with ⟨b, _ | d⟩
  · rw [hblock] at h
    cases h
  · rw [Cursor.block_followed hmore hmembers hblock]
    rfl

theorem typedefStep_followed (h : (typedefStep finish head c).rest?.isSome = true) :
    typedefStep finish' head (c.followed more) = (typedefStep finish head c).followed more := by
  apply after_followed (fun _ _ => Cursor.typedName_followed) _ h
  intro typed d hd
  cases hended : d.expect finish (.mark .semicolon) "`;`" with
  | error e =>
    rw [hended] at hd
    cases hd
  | ok d₁ =>
    rw [Cursor.expect_followed hmore hended]
    rfl

/-- A step that goes on, apart from an include, goes on in the same way when more follows. -/
theorem step_followed (hinclude : head.kind ≠ .directive .include) (h : (step source head c).rest?.isSome = true) :
    step source' head (c.followed more) = (step source head c).followed more := by
  unfold step at h ⊢
  dsimp only at h ⊢
  generalize head.kind = kind at hinclude h ⊢
  split at h
  · exact after_followed (fun _ _ => Cursor.name_followed hmore) (fun _ _ _ => rfl) h
  · exact after_followed (fun _ _ => Cursor.name_followed hmore) (fun _ _ _ => rfl) h
  · exact absurd rfl hinclude
  · apply after_followed (fun _ _ => Cursor.name_followed hmore) _ h
    intro name d hd
    cases hopened : d.expect source.finish (.mark .openBrace) "`\x7b`" with
    | error e =>
      rw [hopened] at hd
      cases hd
    | ok d₁ =>
      rw [Cursor.expect_followed hmore hopened]
      rfl
  · exact typedefStep_followed hmore h
  · exact after_followed (fun _ _ => Cursor.name_followed hmore)
      (fun _ _ => block_step_followed hmore fun _ _ => Cursor.fields_followed hmore) h
  · exact after_followed (fun _ _ => Cursor.name_followed hmore)
      (fun _ _ => block_step_followed hmore fun _ _ => Cursor.fields_followed hmore) h
  · exact after_followed (fun _ _ => Cursor.name_followed hmore)
      (fun _ _ => block_step_followed hmore fun _ _ => Cursor.enumMembers_followed hmore) h
  · exact after_followed (fun _ _ => Cursor.name_followed hmore)
      (fun _ _ => block_step_followed hmore fun _ _ => Cursor.methods_followed hmore) h
  · cases h

theorem close_followed {opener : Opener} {body : List Item} {item : Item} {d : Cursor}
    (h : opener.close finish body c = (item, some d)) :
    opener.close finish' body (c.followed more) = (item, some (d.followed more)) := by
  cases opener with
  | guarded head name =>
    cases h
    rfl
  | module head name =>
    simp only [Opener.close] at h ⊢
    cases hended : c.expect finish (.mark .semicolon) "`;`" with
    | error e =>
      rw [hended] at h
      cases h
    | ok c₁ =>
      rw [hended] at h
      cases h
      rw [Cursor.expect_followed hmore hended]
      rfl

end Step

/-- An `#endif` starts no item. -/
theorem kind_ne_endif {source : SourceText} {head : Token} {c : Cursor} (h : (step source head c).rest?.isSome = true) :
    head.kind ≠ .directive .endif := by
  intro hkind
  unfold step at h
  rw [hkind] at h
  cases h

/-- In a guarded block around the open bodies, what ends none of these ends nothing, unless it is an `#endif`. -/
theorem closing?_append {head : Token} {frames : List Frame} (frame : Frame) (outer : List Frame)
    (hframe : frame.opener.closer = .directive .endif) (hhead : head.kind ≠ .directive .endif)
    (h : closing? head frames = none) : closing? head (frames ++ frame :: outer) = none := by
  cases frames with
  | nil => exact if_neg (by rw [hframe]; exact hhead)
  | cons first frames =>
    simp only [closing?] at h
    split at h
    · cases h
    · rename_i hkind
      exact if_neg hkind

section Read

variable {source source' : SourceText} {frames outer : List Frame} {before outside : List Item} {c : Cursor}
  {head closing : Token} {name : Name} {rest : List Token}

theorem skip_followed_of {tokens : List Token} (hclosing : closing.kind = .directive .endif)
    (hs : c.skip.tokens = tokens) :
    (c.followed (closing :: rest)).skip = ⟨tokens ++ closing :: rest, c.skip.comments⟩ := by
  rw [Cursor.skip_followed ⟨closing, rest, rfl, hclosing⟩, Cursor.followed, hs]

/-- A step that goes on is taken in a guarded block as it is taken in a file. -/
theorem readFrom_step_followed {first : Token} {tokens : List Token} (hclosing : closing.kind = .directive .endif)
    (hs : c.skip.tokens = first :: tokens) (hends : closing? first frames = none)
    (hinclude : first.kind ≠ .directive .include) (hgoes : (step source first ⟨tokens, []⟩).rest?.isSome = true) :
    readFrom source' (frames ++ ⟨.guarded head name, outside⟩ :: outer) before (c.followed (closing :: rest)) =
      match step source first ⟨tokens, []⟩ with
      | .items read left => readFrom source' (frames ++ ⟨.guarded head name, outside⟩ :: outer)
          (before ++ c.skip.comments.map .comment ++ read) (left.followed (closing :: rest))
      | .enter opener left => readFrom source'
          (⟨opener, before ++ c.skip.comments.map .comment⟩ :: frames ++ ⟨.guarded head name, outside⟩ :: outer) []
          (left.followed (closing :: rest))
      | .stop item => (frames ++ ⟨.guarded head name, outside⟩ :: outer).foldl Frame.abandon
          (before ++ c.skip.comments.map .comment ++ [item]) := by
  have hends' := closing?_append ⟨.guarded head name, outside⟩ outer rfl (kind_ne_endif hgoes) hends
  have hstep' : step source' first ⟨tokens ++ closing :: rest, []⟩ =
      (step source first ⟨tokens, []⟩).followed (closing :: rest) :=
    step_followed ⟨closing, rest, rfl, hclosing⟩ hinclude hgoes
  rw [readFrom_eq, skip_followed_of hclosing hs]
  dsimp only [List.cons_append]
  rw [hends']
  dsimp only
  rw [hstep']
  cases step source first ⟨tokens, []⟩ <;> rfl

/-- A module that ends in a fault says nothing. -/
theorem phrase?_of_close {finish : FileRange} {opener : Opener} {body : List Item} {item : Item}
    (h : opener.close finish body c = (item, none)) : item.isComment = false ∧ item.phrase? = none := by
  cases opener with
  | guarded head name => cases h
  | module head name =>
    simp only [Opener.close] at h
    split at h
    · cases h
      exact ⟨rfl, by rw [phrase?]; rfl⟩
    · cases h

/-- A text without faults and includes is read in a guarded block as it is read as a file. -/
theorem readFrom_followed (hinclude : NoInclude c.tokens)
    (hfile : (phrases? (readFrom source frames before c)).isSome = true) (hclosing : closing.kind = .directive .endif) :
    readFrom source' (frames ++ ⟨.guarded head name, outside⟩ :: outer) before (c.followed (closing :: rest)) =
      readFrom source' outer (outside ++ [.guarded head name (readFrom source frames before c)]) ⟨rest, []⟩ := by
  have hmore : EndsBlock (closing :: rest) := ⟨closing, rest, rfl, hclosing⟩
  have hstopped {body : List Item} (hbody : phrases? body = none) (frames : List Frame) :
      ¬(phrases? (frames.foldl Frame.abandon body)).isSome = true := by
    rw [Grammar.phrases?_abandonAll hbody]
    exact Bool.false_ne_true
  fun_induction readFrom source frames before c with
  | case1 frames before c items hs =>
    cases frames with
    | nil =>
      have hends : closing? closing (⟨.guarded head name, outside⟩ :: outer) =
          some (⟨.guarded head name, outside⟩, outer) := if_pos hclosing
      rw [List.nil_append, readFrom_eq, skip_followed_of hclosing hs]
      dsimp only [List.nil_append]
      rw [hends]
      rfl
    | cons frame frames =>
      exact absurd hfile (hstopped (Grammar.phrases?_stopped rfl (Grammar.phrase?_of_stopped .fault) _) _)
  | case2 frames before c items first tokens hs hlt frame inner hends item left hclose hle hleft ih =>
    obtain rfl := eq_cons_of_closing hends
    have hkind : first.kind = frame.opener.closer := by
      simp only [closing?] at hends
      split at hends
      · assumption
      · cases hends
    have hends' : closing? first (frame :: (inner ++ ⟨.guarded head name, outside⟩ :: outer)) =
        some (frame, inner ++ ⟨.guarded head name, outside⟩ :: outer) := if_pos hkind
    have hclose' : frame.opener.close source'.finish items ⟨tokens ++ closing :: rest, []⟩ =
        (item, some (left.followed (closing :: rest))) := close_followed hmore hclose
    rw [List.cons_append, readFrom_eq, skip_followed_of hclosing hs]
    dsimp only [List.cons_append]
    rw [hends']
    dsimp only
    rw [hclose']
    exact ih (hinclude.onward hs (suffix_of_close (congrArg Prod.snd hclose))) hfile
  | case3 frames before c items first tokens hs hlt frame inner hends item hclose =>
    obtain ⟨hcomment, hitem⟩ := phrase?_of_close hclose
    exact absurd hfile (hstopped (Grammar.phrases?_stopped hcomment hitem _) _)
  | case4 frames before c items first tokens hs hlt hends read left hstep hle hleft ih =>
    have hgoes : (step source first ⟨tokens, []⟩).rest?.isSome = true := by rw [hstep]; rfl
    rw [readFrom_step_followed hclosing hs hends (hinclude.kind_ne hs) hgoes, hstep]
    exact ih (hinclude.onward hs (suffix_of_step (congrArg Step.rest? hstep))) hfile
  | case5 frames before c items first tokens hs hlt hends opener left hstep hle hleft ih =>
    have hgoes : (step source first ⟨tokens, []⟩).rest?.isSome = true := by rw [hstep]; rfl
    rw [readFrom_step_followed hclosing hs hends (hinclude.kind_ne hs) hgoes, hstep]
    exact ih (hinclude.onward hs (suffix_of_step (congrArg Step.rest? hstep))) hfile
  | case6 frames before c items first tokens hs hlt hends item hstep =>
    have hitem := stopped_of_step first _ hstep
    exact absurd hfile (hstopped (Grammar.phrases?_stopped hitem.isComment (Grammar.phrase?_of_stopped hitem) _) _)

end Read

end Item

end Idl
