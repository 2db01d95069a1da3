import Idl.Proofs.Alike
import Idl.Proofs.Declaring
import Idl.Proofs.Hoisting
import Idl.Proofs.Quotes

/-!
# No comment is lost

A file that is compiled without a fault, in which no guarded block is dropped, declares each of its
comments once.

* `Item.heldComments`, `Declaration.heldComments`: the comments in an item and in a declaration.
* `Item.Whole P item`: an item without a fault, with paths between quotes that satisfy `P`.
* `Item.hands_readFrom`: the items of a file hold the comments among its tokens, in their order.
* `Traced.comments_perm`: the declarations of a body hold the comments of its items.
-/

namespace Idl

mutual

/-- The comments in an item, as they are written. -/
def Item.heldComments : Item → List Comment
  | .comment c => [c]
  | .guarded _ _ body => Item.allComments body
  | .module _ _ body trailing _ => Item.allComments body ++ trailing
  | .typedef _ _ comments => comments
  | .record _ _ _ block => Member.heldComments block.members ++ block.trailing
  | .enum _ _ block => Member.heldComments block.members ++ block.trailing
  | .interface _ _ block => Member.heldComments block.members ++ block.trailing
  | .define .. | .include .. | .fault .. => []

/-- The comments in a body. -/
def Item.allComments : List Item → List Comment
  | [] => []
  | item :: items => item.heldComments ++ Item.allComments items

end

mutual

/-- The comments in a declaration. -/
def Declaration.heldComments : Declaration → List Comment
  | .comment c => [c]
  | .module _ body => Declaration.allComments body
  | .record _ _ members => Member.heldComments members
  | .enum _ members => Member.heldComments members
  | .interface _ members => Member.heldComments members
  | .typedef _ _ | .imported _ => []

/-- The comments in some declarations. -/
def Declaration.allComments : List Declaration → List Comment
  | [] => []
  | d :: ds => d.heldComments ++ Declaration.allComments ds

end

namespace Item

@[simp]
theorem allComments_nil : allComments [] = [] := by rw [allComments]

@[simp]
theorem allComments_cons (item : Item) (items : List Item) :
    allComments (item :: items) = item.heldComments ++ allComments items := by rw [allComments]

@[simp]
theorem allComments_append (items items' : List Item) :
    allComments (items ++ items') = allComments items ++ allComments items' := by
  induction items with
  | nil => simp
  | cons item items ih => simp [ih]

@[simp]
theorem allComments_comments (cs : List Comment) : allComments (cs.map .comment) = cs := by
  induction cs with
  | nil => simp
  | cons c cs ih => simp [heldComments, ih]

/-! ## Items without faults -/

/-- An item without a fault, whose paths between quotes satisfy `P`. -/
inductive Whole (P : String → Prop) : Item → Prop
  | comment {c : Comment} : Whole P (.comment c)
  | define {head : Token} {name : Name} : Whole P (.define head name)
  | included {head : Token} {written : String} {range : FileRange} (path : P written) :
      Whole P (.include head written range)
  | guarded {head : Token} {name : Name} {body : List Item} (within : ∀ item ∈ body, Whole P item) :
      Whole P (.guarded head name body)
  | module {head : Token} {name : Name} {body : List Item} {trailing : List Comment}
      (within : ∀ item ∈ body, Whole P item) : Whole P (.module head name body trailing none)
  | typedef {head : Token} {typed : TypedName} {comments : List Comment} : Whole P (.typedef head typed comments)
  | record {head : Token} {kind : RecordKind} {name : Name} {block : Block (Field TypeExpr)}
      (ended : block.fault = none) : Whole P (.record head kind name block)
  | enum {head : Token} {name : Name} {block : Block String} (ended : block.fault = none) :
      Whole P (.enum head name block)
  | interface {head : Token} {name : Name} {block : Block MethodItem} (ended : block.fault = none) :
      Whole P (.interface head name block)

section Whole

variable {P : String → Prop} {item : Item} {body before : List Item} {frames : List Frame} {source : SourceText}
  {c : Cursor}

theorem Stopped.not_whole (h : Stopped item) : ¬ item.Whole P := by
  intro hwhole
  cases h with
  | fault => cases hwhole
  | record stopped =>
    cases hwhole with
    | record ended => simp [ended] at stopped
  | enum stopped =>
    cases hwhole with
    | enum ended => simp [ended] at stopped
  | interface stopped =>
    cases hwhole with
    | interface ended => simp [ended] at stopped

/-- If what is left of a file with open bodies has no fault, neither has any of them. -/
theorem whole_of_abandonAll (h : ∀ item ∈ frames.foldl Frame.abandon body, item.Whole P) :
    (∀ item ∈ body, item.Whole P) ∧ ∀ frame ∈ frames, ∀ item ∈ frame.before, item.Whole P := by
  induction frames generalizing body with
  | nil => exact ⟨h, by simp⟩
  | cons frame frames ih =>
    obtain ⟨hframe, hframes⟩ := ih h
    obtain ⟨hbefore, hlast⟩ := List.forall_mem_append.1 hframe
    refine ⟨?_, List.forall_mem_cons.2 ⟨hbefore, hframes⟩⟩
    have hlast := hlast _ (List.mem_singleton_self _)
    split at hlast
    · cases hlast with
      | guarded within => exact within
    · cases hlast with
      | module within => exact within

theorem whole_of_close {opener : Opener} {finish : FileRange} (h : (opener.close finish body c).1.Whole P) :
    (∀ item ∈ body, item.Whole P) ∧ (opener.close finish body c).2.isSome = true := by
  unfold Opener.close at h ⊢
  split at h
  · cases h with
    | guarded within => exact ⟨within, rfl⟩
  · split at h
    · cases h
    · cases h with
      | module within => exact ⟨within, by simp_all⟩

/-- What was read before is among what is read in all. -/
theorem whole_of_readFrom (h : ∀ item ∈ readFrom source frames before c, item.Whole P) :
    (∀ item ∈ before, item.Whole P) ∧ ∀ frame ∈ frames, ∀ item ∈ frame.before, item.Whole P := by
  fun_induction readFrom source frames before c with
  | case1 frames before c items hs =>
    unfold ended at h
    split at h
    · exact ⟨(List.forall_mem_append.1 h).1, by simp⟩
    · obtain ⟨hbody, hframes⟩ := whole_of_abandonAll h
      exact ⟨(List.forall_mem_append.1 (List.forall_mem_append.1 hbody).1).1, hframes⟩
  | case2 frames before c items head tokens hs hlt frame outer hclosing item rest hclose hle hlt' ih =>
    obtain rfl := eq_cons_of_closing hclosing
    obtain ⟨hitems, houter⟩ := ih h
    obtain ⟨hframe, hitem⟩ := List.forall_mem_append.1 hitems
    have hclosed := whole_of_close (by rw [hclose]; exact hitem item (by simp))
    exact ⟨(List.forall_mem_append.1 hclosed.1).1, List.forall_mem_cons.2 ⟨hframe, houter⟩⟩
  | case3 frames before c items head tokens hs hlt frame outer hclosing item hclose =>
    obtain rfl := eq_cons_of_closing hclosing
    obtain ⟨hitems, houter⟩ := whole_of_abandonAll h
    obtain ⟨hframe, hitem⟩ := List.forall_mem_append.1 hitems
    have hclosed := whole_of_close (by rw [hclose]; exact hitem item (by simp))
    exact ⟨(List.forall_mem_append.1 hclosed.1).1, List.forall_mem_cons.2 ⟨hframe, houter⟩⟩
  | case4 frames before c items head tokens hs hlt hclosing read rest hstep hle hlt' ih =>
    obtain ⟨hitems, hframes⟩ := ih h
    exact ⟨(List.forall_mem_append.1 (List.forall_mem_append.1 hitems).1).1, hframes⟩
  | case5 frames before c items head tokens hs hlt hclosing opener rest hstep hle hlt' ih =>
    obtain ⟨-, hframes⟩ := ih h
    obtain ⟨hitems, hframes⟩ := List.forall_mem_cons.1 hframes
    exact ⟨(List.forall_mem_append.1 hitems).1, hframes⟩
  | case6 frames before c items head tokens hs hlt hclosing item hstep =>
    obtain ⟨hbody, hframes⟩ := whole_of_abandonAll h
    exact ⟨(List.forall_mem_append.1 (List.forall_mem_append.1 hbody).1).1, hframes⟩

end Whole

/-! ## Reading -/

/-- The comments of the items that a step reads are those that it passes. -/
structure Step.Hands (c : Cursor) (step : Step) : Prop where
  items : ∀ read rest, step = .items read rest → c.Hands rest (allComments read)
  enter : ∀ opener rest, step = .enter opener rest → rest.all = c.all

section Steps

variable {α : Type} {source : SourceText} {finish : FileRange} {head : Token} {c d : Cursor} {step : Step}

theorem Step.hands_items {read : List Item} (h : c.Hands d (allComments read)) : (Step.items read d).Hands c :=
  ⟨fun _ _ heq => by cases heq; exact h, by simp⟩

theorem Step.hands_enter {opener : Opener} (h : d.all = c.all) : (Step.enter opener d).Hands c :=
  ⟨by simp, fun _ _ heq => by cases heq; exact h⟩

theorem Step.hands_stop (item : Item) (c : Cursor) : (Step.stop item).Hands c := ⟨by simp, by simp⟩

theorem Step.hands_after {r : Except Error (α × Cursor)} {f : α → Cursor → Step}
    (hf : ∀ a d, r = .ok (a, d) → (f a d).Hands c) : (Step.after head r f).Hands c := by
  rcases r with e | ⟨a, d⟩
  · exact hands_stop _ c
  · exact hf a d rfl

theorem Step.hands_block {members : Cursor → Cursor.Reading (Member α)} {closer : String} {f : Block α → Item}
    (hf : ∀ b, (f b).heldComments = Member.heldComments b.members ++ b.trailing)
    (hmembers : ∀ {c d}, (members c).2 = .ok d → c.Hands d (Member.heldComments (members c).1)) (hd : d.all = c.all) :
    (Step.ofItem ((d.block finish members closer).map f id)).Hands c := by
  rcases hb : d.block finish members closer with ⟨b, _ | rest⟩
  · exact hands_stop _ c
  · have hblock := (Cursor.hands_of_eq hd).trans (Cursor.hands_block hmembers hb)
    exact hands_items (by simpa [hf] using hblock)

theorem hands_typedefStep : (typedefStep finish head c).Hands c := by
  refine Step.hands_after fun typed c₁ htyped => ?_
  split
  · exact Step.hands_stop _ c
  · rename_i c₂ hend
    have hall : c₂.all = c.all := by rw [Cursor.all_expect hend, Cursor.all_typedName htyped]
    have htaken := (Cursor.hands_of_eq hall).trans c₂.hands_detached
    exact Step.hands_items (by simpa [heldComments] using htaken)

/-- Every item but an include passes the comments that it holds, and so does an include that passes
none. -/
theorem hands_step
    (hinclude : head.kind = .directive .include → (includeStep source head c.tokens).Hands c) :
    (Item.step source head c).Hands c := by
  unfold Item.step
  dsimp only
  split
  · refine Step.hands_after fun name c₁ hname => Step.hands_items ?_
    have htaken := (Cursor.hands_of_eq (Cursor.all_name hname)).trans c₁.hands_taken
    simpa [heldComments] using htaken
  · exact Step.hands_after fun name c₁ hname => Step.hands_enter (Cursor.all_name hname)
  · rename_i hkind
    exact hinclude hkind
  · refine Step.hands_after fun name c₁ hname => ?_
    split
    · exact Step.hands_stop _ c
    · rename_i c₂ hopen
      exact Step.hands_enter (by rw [Cursor.all_expect hopen, Cursor.all_name hname])
  · exact hands_typedefStep
  · exact Step.hands_after fun name c₁ hname =>
      Step.hands_block (fun _ => by rw [heldComments]) Cursor.hands_fields (Cursor.all_name hname)
  · exact Step.hands_after fun name c₁ hname =>
      Step.hands_block (fun _ => by rw [heldComments]) Cursor.hands_fields (Cursor.all_name hname)
  · exact Step.hands_after fun name c₁ hname =>
      Step.hands_block (fun _ => by rw [heldComments]) Cursor.hands_enumMembers (Cursor.all_name hname)
  · exact Step.hands_after fun name c₁ hname =>
      Step.hands_block (fun _ => by rw [heldComments]) Cursor.hands_methods (Cursor.all_name hname)
  · exact Step.hands_stop _ c

theorem includeStep_ne_enter (source : SourceText) (head : Token) (tokens : List Token) (opener : Opener)
    (rest : Cursor) : includeStep source head tokens ≠ .enter opener rest := by
  intro h
  unfold includeStep at h
  split at h
  · cases h
  · simp only at h
    split at h
    · cases h
    · split at h
      · cases h
      · split at h <;> cases h

/-- The comments behind the end of a module are put in front of it. -/
theorem hands_close {opener : Opener} {body : List Item} {item : Item}
    (h : opener.close finish body c = (item, some d)) :
    ∃ trailing, item.heldComments = allComments body ++ trailing ∧ c.Hands d trailing := by
  unfold Opener.close at h
  split at h
  · cases h
    exact ⟨[], by simp [heldComments], Cursor.hands_of_eq rfl⟩
  · split at h
    · cases h
    · rename_i c₁ hend
      cases h
      exact ⟨c₁.comments.map Comment.detach, by rw [heldComments],
        by simpa using (Cursor.hands_of_eq (Cursor.all_expect hend)).trans c₁.hands_detached⟩

end Steps

/-! ## Files -/

/-- The comments in front of the open bodies. -/
def Frame.passed : List Frame → List Comment
  | [] => []
  | frame :: outer => passed outer ++ allComments frame.before

/-- No include whose path satisfies `P` passes a comment. -/
def SparesComments (source : SourceText) (all : List Token) (P : String → Prop) : Prop :=
  ∀ ⦃head tokens read rest⦄, head :: tokens <:+ all → includeStep source head tokens = .items read rest →
    (∀ item ∈ read, item.Whole P) → Cursor.Hands ⟨tokens, []⟩ rest (allComments read)

section Files

variable {P : String → Prop} {source : SourceText} {all : List Token} {frames : List Frame} {before : List Item}
  {c : Cursor}

/-- The items of a file without a fault hold the comments among its tokens, in their order. -/
theorem hands_readFrom (hspares : SparesComments source all P) (hsuffix : c.tokens <:+ all)
    (h : ∀ item ∈ readFrom source frames before c, item.Whole P) :
    ∃ placed, allComments (readFrom source frames before c) = Frame.passed frames ++ allComments before ++ placed ∧
      List.Forall₂ Comment.Moved c.all placed := by
  fun_induction readFrom source frames before c with
  | case1 frames before c items hs =>
    unfold ended at h ⊢
    split at h
    · have hall : c.all = c.skip.comments := by
        rw [← Cursor.all_skip, Cursor.all, hs]
        simp
      refine ⟨c.skip.comments, by simp [items, Frame.passed], ?_⟩
      rw [hall]
      exact Comment.forall₂_moved_refl _
    · obtain ⟨hbody, -⟩ := whole_of_abandonAll h
      exact absurd (hbody _ (List.mem_append_right _ (List.mem_singleton_self _))) Stopped.fault.not_whole
  | case2 frames before c items head tokens hs hlt frame outer hclosing item rest hclose hle hlt' ih =>
    obtain rfl := eq_cons_of_closing hclosing
    have htokens : tokens <:+ c.tokens := (List.suffix_cons head tokens).trans (hs ▸ c.skip_suffix)
    have hrest : rest.tokens <:+ tokens := suffix_of_close (congrArg Prod.snd hclose)
    obtain ⟨placed, hcomments, hmoved⟩ := ih ((hrest.trans htokens).trans hsuffix) h
    obtain ⟨trailing, hitem, hands⟩ := hands_close hclose
    refine ⟨_, ?_, ((c.hands_head hs).trans hands).forall₂ hmoved⟩
    rw [hcomments]
    simp [hitem, items, Frame.passed]
  | case3 frames before c items head tokens hs hlt frame outer hclosing item hclose =>
    obtain ⟨hitems, -⟩ := whole_of_abandonAll h
    have hitem := hitems item (List.mem_append_right _ (List.mem_singleton_self _))
    have hclosed := whole_of_close (by rw [hclose]; exact hitem)
    simp [hclose] at hclosed
  | case4 frames before c items head tokens hs hlt hclosing read rest hstep hle hlt' ih =>
    have hhead : head :: tokens <:+ c.tokens := hs ▸ c.skip_suffix
    have hrest : rest.tokens <:+ c.tokens :=
      (suffix_of_step (congrArg Step.rest? hstep)).trans ((List.suffix_cons head tokens).trans hhead)
    have hread : ∀ item ∈ read, item.Whole P := (List.forall_mem_append.1 (whole_of_readFrom h).1).2
    have hinclude : head.kind = .directive .include → (includeStep source head tokens).Hands ⟨tokens, []⟩ := by
      intro hkind
      have hincluded : includeStep source head tokens = .items read rest := by rw [← hstep, step, hkind]
      rw [hincluded]
      exact Step.hands_items (hspares (hhead.trans hsuffix) hincluded hread)
    obtain ⟨placed, hcomments, hmoved⟩ := ih (hrest.trans hsuffix) h
    have hands := (hands_step hinclude).items read rest hstep
    refine ⟨_, ?_, ((c.hands_head hs).trans hands).forall₂ hmoved⟩
    rw [hcomments]
    simp [items]
  | case5 frames before c items head tokens hs hlt hclosing opener rest hstep hle hlt' ih =>
    have hhead : head :: tokens <:+ c.tokens := hs ▸ c.skip_suffix
    have hrest : rest.tokens <:+ c.tokens :=
      (suffix_of_step (congrArg Step.rest? hstep)).trans ((List.suffix_cons head tokens).trans hhead)
    have hinclude : head.kind = .directive .include → (includeStep source head tokens).Hands ⟨tokens, []⟩ := by
      intro hkind
      have hincluded : includeStep source head tokens = .enter opener rest := by rw [← hstep, step, hkind]
      exact absurd hincluded (includeStep_ne_enter source head tokens opener rest)
    obtain ⟨placed, hcomments, hmoved⟩ := ih (hrest.trans hsuffix) h
    have hall := (hands_step hinclude).enter opener rest hstep
    refine ⟨_, ?_, ((c.hands_head hs).trans (Cursor.hands_of_eq hall)).forall₂ hmoved⟩
    rw [hcomments]
    simp [items, Frame.passed]
  | case6 frames before c items head tokens hs hlt hclosing item hstep =>
    obtain ⟨hbody, -⟩ := whole_of_abandonAll h
    have hitem := hbody item (List.mem_append_right _ (List.mem_singleton_self _))
    exact absurd hitem (stopped_of_step head _ hstep).not_whole

/-- What a path that opens no comment is made of holds none. -/
theorem sparesComments_isPlain {file : Nat} {text : String} {tokens : List Token}
    (lexed : Token.ofSource file text = .ok tokens) :
    SparesComments (.ofFile file text) tokens fun written => Token.IsPlain written.toList := by
  intro head inner read rest hsuffix h hread
  obtain ⟨before, rfl⟩ := hsuffix
  obtain ⟨passed, cs, hpassed, -, hscan⟩ := Token.exists_of_scan_after lexed
  obtain ⟨gap, written, after, more, hquoted, rfl, rfl⟩ := exists_of_includeStep hpassed.symm hscan h
  obtain ⟨inside, rfl, hinside⟩ := hquoted.inside
  have hplain : Token.IsPlain written := by
    cases hread _ (List.mem_singleton_self _) with
    | included path => simpa using path
  have hnone : inside.filter (·.kind.isComment) = [] :=
    List.filter_eq_nil_iff.2 fun token hmem => by simp [hinside hplain token hmem]
  have hall : Cursor.all ⟨more, []⟩ = Cursor.all ⟨inside ++ more, []⟩ := by simp [Cursor.all, hnone]
  simpa [heldComments] using Cursor.hands_of_eq hall

/-- The items of a file without a fault hold its comments, in their order. -/
theorem hands_ofTokens {file : Nat} {text : String} {tokens : List Token}
    (lexed : Token.ofSource file text = .ok tokens)
    (h : ∀ item ∈ ofTokens (.ofFile file text) tokens, item.Whole fun written => Token.IsPlain written.toList) :
    List.Forall₂ Comment.Moved ((tokens.filter (·.kind.isComment)).map .ofToken)
      (allComments (ofTokens (.ofFile file text) tokens)) := by
  obtain ⟨placed, hcomments, hmoved⟩ := hands_readFrom (sparesComments_isPlain lexed) (List.suffix_refl _) h
  rw [Frame.passed, allComments_nil] at hcomments
  rw [ofTokens, hcomments]
  exact hmoved

end Files

end Item

/-! ## Declaring -/

namespace Declaration

@[simp]
theorem allComments_nil : allComments [] = [] := by rw [allComments]

@[simp]
theorem allComments_cons (d : Declaration) (ds : List Declaration) :
    allComments (d :: ds) = d.heldComments ++ allComments ds := by rw [allComments]

@[simp]
theorem allComments_append (ds ds' : List Declaration) :
    allComments (ds ++ ds') = allComments ds ++ allComments ds' := by
  induction ds with
  | nil => simp
  | cons d ds ih => simp [ih]

@[simp]
theorem allComments_comments (cs : List Comment) : allComments (cs.map .comment) = cs := by
  induction cs with
  | nil => simp
  | cons c cs ih => simp [heldComments, ih]

@[simp]
theorem allComments_imported (imports : List Import) : allComments (imports.map .imported) = [] := by
  induction imports with
  | nil => simp
  | cons i imports ih => simp [heldComments, ih]

end Declaration

theorem MembersDeclared.comments_eq {α β : Type} {R : α → β → List Import → Prop} {members : List (Member α)}
    {declared : List (Member β)} {imports : List Import} (h : MembersDeclared R members declared imports) :
    Member.heldComments declared = Member.heldComments members := by
  induction h with
  | nil => rfl
  | comment rest ih => simp [ih]
  | item first rest ih => simp [ih]

namespace Compilation

section Declaring

variable {sources : Sources} {path target : Path} {item : Item} {items : List Item}
  {ds : List Declaration} {events : List Event} {s s' : Compilation} {P : String → Prop}

/-- The comments behind a block are put in front of those that are in it. -/
theorem Declares.comments_perm (h : Declares path target s item ds s') :
    (Declaration.allComments ds).Perm item.heldComments := by
  cases h with
  | typedef resolves registers => simp [Declaration.heldComments, Item.heldComments]
  | record registers declared =>
    simpa [Declaration.heldComments, Item.heldComments, declared.comments_eq] using List.perm_append_comm
  | enum registers => simpa [Declaration.heldComments, Item.heldComments] using List.perm_append_comm
  | interface registers declared =>
    simpa [Declaration.heldComments, Item.heldComments, declared.comments_eq] using List.perm_append_comm

/-- An item that is declared has no fault. -/
theorem whole_of_declare {ctx : Context} :
    ∀ {item : Item}, item.declares = true → Gives (declare ctx target item) s ds s' → item.Whole P
  | .typedef .., _, _ => .typedef
  | .record .., _, h => by
    simp only [declare, gives_bind, gives_stopAt] at h
    obtain ⟨_, _, _, _, _, _, _, _, _, _, _, ⟨hfault, -⟩, -⟩ := h
    exact .record hfault
  | .enum .., _, h => by
    simp only [declare, gives_bind, gives_stopAt] at h
    obtain ⟨_, _, _, _, _, _, _, _, ⟨hfault, -⟩, -⟩ := h
    exact .enum hfault
  | .interface .., _, h => by
    simp only [declare, gives_bind, gives_stopAt] at h
    obtain ⟨_, _, _, _, _, _, _, _, _, _, _, ⟨hfault, -⟩, -⟩ := h
    exact .interface hfault
  | .comment .., hnames, _ | .define .., hnames, _ | .include .., hnames, _ | .guarded .., hnames, _
  | .module .., hnames, _ | .fault .., hnames, _ => by cases hnames

/-- The items of a body that is compiled to its end have no fault. -/
theorem Traced.whole (h : Traced sources path target items s events s')
    (hpaths : ∀ written ∈ Item.allIncludes items, P written) : ∀ item ∈ items, item.Whole P := by
  induction h with
  | nil => simp
  | comment rest ih =>
    exact List.forall_mem_cons.2 ⟨.comment, ih fun w hw => hpaths w (by simp [hw])⟩
  | define new quiet rest ih =>
    exact List.forall_mem_cons.2 ⟨.define, ih fun w hw => hpaths w (by simp [hw])⟩
  | skip named old quiet rest ih =>
    exact List.forall_mem_cons.2 ⟨.included (hpaths _ (by simp [Item.includes])),
      ih fun w hw => hpaths w (by simp [hw])⟩
  | file named fresh opens within closes rest _ ih =>
    exact List.forall_mem_cons.2 ⟨.included (hpaths _ (by simp [Item.includes])),
      ih fun w hw => hpaths w (by simp [hw])⟩
  | guarded quiet within rest ihbody ih =>
    exact List.forall_mem_cons.2 ⟨.guarded (ihbody fun w hw => hpaths w (by simp [Item.includes, hw])),
      ih fun w hw => hpaths w (by simp [hw])⟩
  | module quiet within emits rest ihbody ih =>
    exact List.forall_mem_cons.2 ⟨.module (ihbody fun w hw => hpaths w (by simp [Item.includes, hw])),
      ih fun w hw => hpaths w (by simp [hw])⟩
  | declared at_path names gives rest ih =>
    exact List.forall_mem_cons.2 ⟨whole_of_declare names gives, ih fun w hw => hpaths w (by simp [hw])⟩

/-- The declarations of a body in which no block is dropped hold the comments of its items. -/
theorem Traced.comments_perm (h : Traced sources path target items s events s')
    (kept : Event.keepsAllOwn events = true) :
    (Declaration.allComments (Event.declarations events)).Perm (Item.allComments items) := by
  induction h with
  | nil => simp [Event.declarations]
  | comment rest ih =>
    simp only [Event.keepsAllOwn, Event.keepsAllIn, Event.keepsIn, Bool.true_and] at kept
    simpa [Event.declarations, Declaration.heldComments, Item.heldComments] using ih kept
  | define new quiet rest ih =>
    simp only [Event.keepsAllOwn, Event.keepsAllIn, Event.keepsIn, Bool.true_and] at kept
    simpa [Event.declarations, Item.heldComments] using ih kept
  | skip named old quiet rest ih =>
    simp only [Event.keepsAllOwn, Event.keepsAllIn, Event.keepsIn, Bool.true_and] at kept
    simpa [Event.declarations, Item.heldComments] using ih kept
  | file named fresh opens within closes rest _ ih =>
    simp only [Event.keepsAllOwn, Event.keepsAllIn, Event.keepsIn, Bool.not_false, Bool.true_or, Bool.true_and] at kept
    simpa [Event.declarations, Item.heldComments] using ih kept
  | guarded quiet within rest ihbody ih =>
    simp only [Event.keepsAllOwn, Event.keepsAllIn, Event.keepsIn, Bool.and_eq_true, Bool.not_eq_true'] at kept
    obtain ⟨⟨hundefined, hbody⟩, hrest⟩ := kept
    simpa [Event.declarations, Item.heldComments, hundefined] using (ihbody hbody).append (ih hrest)
  | module quiet within emits rest ihbody ih =>
    simp only [Event.keepsAllOwn, Event.keepsAllIn, Event.keepsIn, Bool.and_eq_true] at kept
    obtain ⟨hbody, hrest⟩ := kept
    -- the comments behind the module are declared in front of it
    have hmodule (trailing : List Comment) := List.perm_append_comm.trans ((ihbody hbody).append_right trailing)
    simpa [Event.declarations, Declaration.heldComments, Item.heldComments] using (hmodule _).append (ih hrest)
  | declared at_path names gives rest ih =>
    simp only [Event.keepsAllOwn, Event.keepsAllIn, Event.keepsIn, Bool.true_and] at kept
    simpa [Event.declarations] using (declares_of_gives names gives).comments_perm.append (ih kept)

/-- No comment is lost, and none is written twice: in a file that is compiled, whose paths open no comment and
none of whose guarded blocks is dropped, the comments that are declared are those of the text. Each one keeps
what stands between it and the token in front of it, or is put on a line of its own. -/
theorem comments_conserved {text : String} {tokens : List Token} (run : Gives (compileFile sources path) s ds s')
    (fresh : path.normalize ∉ s.compiled) (read : sources.texts.lookup path.normalize = some text)
    (lexed : Token.ofSource s.library.nextId text = .ok tokens)
    (plain : ∀ written ∈ Item.allIncludes (Item.ofTokens (.ofFile s.library.nextId text) tokens),
      Token.IsPlain written.toList)
    (kept : Event.keepsAllOwn (historyIn sources path s) = true) :
    ((Declaration.allComments ds).map (·.text)).Perm (Token.commentTexts tokens) ∧
    (∃ placed, (Declaration.allComments ds).Perm placed ∧
      List.Forall₂ (fun token c => c.text = token.text ∧ (c.leading = token.leading ∨ c.leading = "\n"))
        (tokens.filter (·.kind.isComment)) placed) ∧
    ∀ before token after, tokens = before ++ token :: after →
      Text.slice? token.range.start token.range.stop text.toList = some token.text.toList ∧
      Text.slice? ((before.getLast?.map (·.range.stop)).getD 0) token.range.start text.toList =
        some token.leading.toList := by
  obtain ⟨rfl, items, s₁, s₂, opens, traced, -⟩ := fileTraced_of_fresh fresh run
  obtain @⟨text', tokens', _, -, -, read', lexed', -⟩ := opens
  obtain rfl : text' = text := Option.some.inj (read'.symm.trans read)
  obtain rfl : tokens' = tokens := Except.ok.inj (lexed'.symm.trans lexed)
  have hperm := traced.comments_perm kept
  have hmoved := Item.hands_ofTokens lexed (traced.whole plain)
  have htexts : (Item.allComments (Item.ofTokens (.ofFile s.library.nextId text') tokens')).map (·.text) =
      Token.commentTexts tokens' := by
    rw [Comment.map_text_of_moved hmoved, List.map_map]
    rfl
  refine ⟨htexts ▸ hperm.map _, ⟨_, hperm, ?_⟩, ?_⟩
  · exact (List.forall₂_map_left_iff.1 hmoved).imp fun token c h => ⟨h.text, h.leading⟩
  · rintro before token after rfl
    exact (Token.slices_of_scan lexed).2

/-- Comments behind an include, in a guarded block, in front of a module and behind it, in a type and in front of
the end of a block. -/
def commentedText : String :=
  "#include \"a.idl\"//b\n#ifndef/*c*/G\nmodule M/*d*/\x7bstruct S\x7bA/*e*/x;//f\n\x7d;\x7d/*g*/;\n#endif//h"

def commentedSources : Sources where
  texts := [(⟨"m.idl"⟩, commentedText), (⟨"a.idl"⟩, "typedef long A;//a")]
  failure _ := ""

theorem comments_conserved_everywhere : ∃ ds s, Gives (compileFile commentedSources ⟨"m.idl"⟩) .empty ds s ∧
    ((Declaration.allComments ds).map (·.text)).Perm ["//b", "/*c*/", "/*d*/", "/*e*/", "//f", "/*g*/", "//h"] := by
  obtain ⟨ds, run⟩ : ∃ ds, Gives (compileFile commentedSources ⟨"m.idl"⟩) .empty ds
      (outcome (compileFile commentedSources ⟨"m.idl"⟩) .empty).2 := exists_gives (by decide +kernel)
  have kept : Event.keepsAllOwn (historyIn commentedSources ⟨"m.idl"⟩ .empty) = true := by decide +kernel
  let tokens := (Token.ofSource 1 commentedText).toOption.getD []
  obtain ⟨lexed, htexts, hpaths⟩ : (Token.ofSource 1 commentedText).toOption = some tokens ∧
      Token.commentTexts tokens = ["//b", "/*c*/", "/*d*/", "/*e*/", "//f", "/*g*/", "//h"] ∧
      Item.allIncludes (Item.ofTokens (.ofFile 1 commentedText) tokens) = ["a.idl"] := by decide +kernel
  have plain : ∀ written ∈ Item.allIncludes (Item.ofTokens (.ofFile 1 commentedText) tokens),
      Token.IsPlain written.toList := by
    rw [hpaths]
    intro written hmem
    cases List.mem_singleton.1 hmem
    exact ⟨by decide +kernel, by decide +kernel⟩
  refine ⟨ds, _, run, ?_⟩
  rw [← htexts]
  exact (comments_conserved run (by decide +kernel) (by decide +kernel) (Token.toOption_eq_some.1 lexed) plain kept).1

end Declaring

end Compilation

end Idl
