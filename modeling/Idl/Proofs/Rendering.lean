import Idl.Declaration.Rendering
import Idl.Proofs.Comments
import Idl.Proofs.Declaring
import Idl.Proofs.Targets

/-!
# The comments of what is written

What is written of a body holds the comments of the body, and the notes about what methods raise, in
this order, if and only if no line comment takes in the comment after it. That happens where both
stand next to each other in the body, and the second one was not on a new line in the source.

* `Shows ok text notes`: if `ok`, then `text` shows the comments `notes` and leaves those after it
  alone; if not, then it does not.
* `swallows comment? as`: there is a line comment among `as` that takes in the next one.
* `Declaration.comments_bodyText`: the comments that the text of a body shows.
-/

namespace Idl

open Token

/-! ## Texts of ropes -/

namespace Rope

/-- The characters of a rope. -/
def chars (r : Rope) : List Char := r.flatten.toList

@[simp]
theorem chars_leaf (text : String) : (leaf text).chars = text.toList := by simp [chars]

@[simp]
theorem chars_nil : (seq []).chars = [] := by simp [chars]

@[simp]
theorem chars_cons (part : Rope) (parts : List Rope) :
    (seq (part :: parts)).chars = part.chars ++ (seq parts).chars := by
  simp [chars]

@[simp]
theorem chars_append (parts more : List Rope) :
    (seq (parts ++ more)).chars = (seq parts).chars ++ (seq more).chars := by simp [chars]

end Rope

@[simp]
theorem chars_newline (level : Nat) : (newline level).chars = '\n' :: List.replicate (4 * level) ' ' := by
  simp [newline, Rope.chars]

/-! ## Texts that show comments -/

theorem breaksLine_append {text : List Char} (h : text.head? = some '\n') (cs : List Char) :
    breaksLine (text ++ cs) = true := by
  simp [breaksLine, List.head?_append, h, isLineEnd]

/-- If `ok`, then the text shows the comments `notes` in front of those that come after it, and if not,
then it does not. -/
def Shows (ok : Bool) (text : List Char) (notes : List String) : Prop :=
  ∀ cs ts, comments (text ++ cs) = some (notes ++ ts) ↔ ok = true ∧ comments cs = some ts

section Shows

variable {ok ok' : Bool} {text text' : List Char} {notes notes' : List String}

/-- A text without slashes shows nothing. -/
theorem Shows.of_plain (h : '/' ∉ text) : Shows true text [] := by
  intro cs ts
  simp [comments_append h]

theorem Shows.append (h : Shows ok text notes) (h' : Shows ok' text' notes') :
    Shows (ok && ok') (text ++ text') (notes ++ notes') := by
  intro cs ts
  rw [List.append_assoc, List.append_assoc, h, h', Bool.and_eq_true, and_assoc]

/-- A plain text and what is shown after it. -/
theorem Shows.plain_append (h : '/' ∉ text) (h' : Shows ok text' notes) : Shows ok (text ++ text') notes := by
  simpa using (Shows.of_plain h).append h'

theorem Shows.append_plain (h : Shows ok text notes) (h' : '/' ∉ text') : Shows ok (text ++ text') notes := by
  simpa using h.append (Shows.of_plain h')

/-- A block comment shows itself. -/
theorem Shows.of_block {note : String} (h : IsComment note.toList) (hblock : isLineComment note.toList = false) :
    Shows true note.toList [note] := by
  intro cs ts
  have hcomments := h.comments_append cs ts
  simpa [hblock] using hcomments

end Shows

/-! ## Comments -/

namespace Comment

/-- Whether a comment goes on to the end of its line. -/
def isLine (c : Comment) : Bool := isLineComment c.text.toList

/-- Whether a comment is written on the line of what comes before it. -/
def staysOnLine (c : Comment) : Bool := !c.leading.toList.contains '\n' && c.leading.toList.head?.all (· != '\r')

section Render

variable {c : Comment} {level : Nat} {fresh : Bool}

/-- What is written in front of a comment is free of slashes, and it starts a new line unless the
comment stays on its line. -/
theorem exists_lead (h : c.Sound) (level : Nat) (fresh : Bool) :
    ∃ lead, (c.render level fresh).chars = lead ++ c.text.toList ∧ '/' ∉ lead ∧
      ∀ cs, breaksLine (lead ++ c.text.toList ++ cs) = (fresh || !c.staysOnLine) := by
  have hgap : '/' ∉ c.leading.toList := fun hmem => absurd (h.leading '/' hmem) (by decide)
  unfold Comment.render
  split
  · rename_i hcount
    have hnone : '\n' ∉ c.leading.toList := List.count_eq_zero.1 hcount
    cases fresh with
    | true => exact ⟨'\n' :: List.replicate (4 * level) ' ', by simp, by simp, by simp [breaksLine, isLineEnd]⟩
    | false =>
      refine ⟨c.leading.toList, by simp, hgap, fun cs => ?_⟩
      obtain ⟨rest, htext⟩ := h.text.exists_cons
      cases hleading : c.leading.toList with
      | nil => simp [breaksLine, staysOnLine, hleading, htext, isLineEnd]
      | cons ch leading =>
        obtain ⟨hne, hrest⟩ : '\n' ≠ ch ∧ '\n' ∉ leading := by simpa [hleading] using hnone
        have hend : isLineEnd ch = (ch == '\r') := by
          rw [isLineEnd, beq_eq_false_iff_ne.2 hne.symm, Bool.or_false]
        simp [breaksLine, staysOnLine, hleading, hend, hne, hrest, bne]
  · rename_i blank hcount
    have hmem : '\n' ∈ c.leading.toList := List.count_pos_iff.1 (by omega)
    refine ⟨List.replicate blank '\n' ++ '\n' :: List.replicate (4 * level) ' ', by simp, by simp, fun cs => ?_⟩
    have hstays : c.staysOnLine = false := by simp [staysOnLine, hmem]
    cases blank with
    | zero => simp [breaksLine, isLineEnd, hstays]
    | succ blank => simp [breaksLine, isLineEnd, hstays, List.replicate_succ]

theorem breaksLine_render (h : c.Sound) (cs : List Char) :
    breaksLine ((c.render level fresh).chars ++ cs) = (fresh || !c.staysOnLine) := by
  obtain ⟨lead, hrender, -, hbreaks⟩ := exists_lead h level fresh
  rw [hrender, hbreaks]

/-- A comment that is written shows itself, unless it is a line comment and its line goes on. -/
theorem comments_render (h : c.Sound) {cs : List Char} {ts : List String} :
    comments ((c.render level fresh).chars ++ cs) = some (c.text :: ts) ↔
      (c.isLine = true → breaksLine cs = true) ∧ comments cs = some ts := by
  obtain ⟨lead, hrender, hplain, -⟩ := exists_lead h level fresh
  have hcomments := h.text.comments_append cs ts
  rw [String.ofList_toList] at hcomments
  rw [hrender, List.append_assoc, comments_append hplain, hcomments, isLine]

end Render

end Comment

/-- Whether there is a line comment, directly in front of a comment that stays on its line. -/
def swallows {α : Type} (comment? : α → Option Comment) : List α → Bool
  | [] => false
  | a :: as =>
    ((comment? a).any (·.isLine) && (as.head?.bind comment?).any (·.staysOnLine)) || swallows comment? as

/-! ## Members -/

namespace Member

variable {α : Type}

def comment? : Member α → Option Comment
  | comment c => some c
  | item _ => none

/-- The comments of members, where an item has the comments `notes`. -/
def commentTexts (notes : α → List String) : Member α → List String
  | comment c => [c.text]
  | item a => notes a

/-- A member of a block. -/
def render (level : Nat) (item : α → Rope) : Member α → Rope
  | .item a => item a
  | .comment c => c.render (level + 1) false

theorem chars_renderBlock (level : Nat) (item : α → Rope) {members : List (Member α)} (h : members ≠ []) :
    (renderBlock level item members).chars =
      " \x7b".toList ++ ((Rope.seq (members.map (render level item))).chars ++
        ('\n' :: List.replicate (4 * level) ' ' ++ "\x7d".toList)) := by
  unfold renderBlock
  split
  · exact absurd rfl h
  · simp only [Rope.chars_cons, Rope.chars_leaf, List.cons_append, Rope.chars_append, chars_newline, Rope.chars_nil,
      List.append_nil]
    congr 3

section Block

variable {P : α → Prop} {item : α → Rope} {notes : α → List String} {level : Nat} {members : List (Member α)}

/-- What starts with an item or with the end of the block starts a new line. -/
theorem breaksLine_render (level : Nat) (cs : List Char) (hbreaks : ∀ a, P a → (item a).chars.head? = some '\n')
    (hmembers : ∀ m ∈ members, m.Holds Comment.Sound P) :
    breaksLine ((Rope.seq (members.map (render level item))).chars ++ '\n' :: cs) =
      !(members.head?.bind comment?).any (·.staysOnLine) := by
  cases members with
  | nil => rfl
  | cons m members =>
    have hm := hmembers m List.mem_cons_self
    rw [List.map_cons, Rope.chars_cons, List.append_assoc]
    cases m with
    | comment c => exact Comment.breaksLine_render hm _
    | item a => exact breaksLine_append (hbreaks a hm) _

/-- Members up to the end of their block show their comments. -/
theorem comments_members (hbreaks : ∀ a, P a → (item a).chars.head? = some '\n')
    (hshows : ∀ a, P a → Shows true (item a).chars (notes a)) (hmembers : ∀ m ∈ members, m.Holds Comment.Sound P)
    {cs : List Char} {ts : List String} :
    comments ((Rope.seq (members.map (render level item))).chars ++ '\n' :: cs) =
        some (members.flatMap (commentTexts notes) ++ ts) ↔
      swallows comment? members = false ∧ comments cs = some ts := by
  induction members with
  | nil =>
    have hskip : comments ('\n' :: cs) = comments cs := comments_append (show '/' ∉ ['\n'] by decide) cs
    simp [swallows, hskip]
  | cons m members ih =>
    obtain ⟨hm, hrest⟩ := List.forall_mem_cons.1 hmembers
    have ih := ih hrest
    rw [List.map_cons, Rope.chars_cons, List.append_assoc, List.flatMap_cons, List.append_assoc]
    cases m with
    | comment c =>
      have hnext := breaksLine_render level cs hbreaks hrest
      rw [render, commentTexts, List.singleton_append, Comment.comments_render hm, hnext, ih, swallows, comment?]
      cases hline : c.isLine with
      | false => simp [hline]
      | true => simp [hline, and_assoc]
    | item a =>
      rw [render, commentTexts, hshows a hm, ih, swallows, comment?]
      simp

/-- A block shows the comments of its members. -/
theorem shows_renderBlock (hbreaks : ∀ a, P a → (item a).chars.head? = some '\n')
    (hshows : ∀ a, P a → Shows true (item a).chars (notes a)) (hmembers : ∀ m ∈ members, m.Holds Comment.Sound P) :
    Shows (!swallows comment? members) (renderBlock level item members).chars
      (members.flatMap (commentTexts notes)) := by
  by_cases hnil : members = []
  · subst hnil
    exact Shows.of_plain (by simp [renderBlock])
  · rw [chars_renderBlock level item hnil]
    refine Shows.plain_append (by decide) fun cs ts => ?_
    have htail : '/' ∉ List.replicate (4 * level) ' ' ++ "\x7d".toList := by simp
    rw [List.append_assoc, List.cons_append, List.cons_append, comments_members hbreaks hshows hmembers,
      comments_append htail, Bool.not_eq_true']

end Block

end Member

/-! ## Items of declarations -/

/-- The declared names in a type are names. -/
def ScriptType.Named (type : ScriptType) : Prop := ∀ n ∈ type.names, IsName n

theorem ScriptType.Named.notMem_slash {type : ScriptType} (h : type.Named) : '/' ∉ type.text.toList := by
  induction type with
  | array element ih => simpa [ScriptType.text] using ih h
  | named name => exact (h name (List.mem_singleton.2 rfl)).notMem_slash
  | number | string | boolean | buffer | any | void => simp [ScriptType.text]

structure Field.Sound (f : Field ScriptType) : Prop where
  name : IsName f.name
  type : f.type.Named

structure Parameter.Sound (p : Parameter ScriptType) : Prop where
  name : IsName p.name
  type : p.type.Named

structure Method.Sound (m : Method ScriptType String) : Prop where
  name : IsName m.name
  returns : m.returns.Named
  parameters : ∀ p ∈ m.parameters, p.Sound
  raises : ∀ r ∈ m.raises, IsName r

section Items

variable {level : Nat}

theorem Field.shows_render {f : Field ScriptType} (h : f.Sound) : Shows true (f.render level).chars [] :=
  .of_plain (by simp [Field.render, h.name.notMem_slash, h.type.notMem_slash])

theorem Parameter.Sound.notMem_slash {p : Parameter ScriptType} (h : p.Sound) : '/' ∉ p.render.toList := by
  unfold Parameter.render
  split <;> simp [h.name.notMem_slash, h.type.notMem_slash]

theorem notMem_slash_intercalate {texts : List String} (h : ∀ text ∈ texts, '/' ∉ text.toList) :
    '/' ∉ (", ".intercalate texts).toList := by
  induction texts with
  | nil => simp
  | cons text texts ih =>
    obtain ⟨htext, htexts⟩ := List.forall_mem_cons.1 h
    cases texts with
    | nil => simpa using htext
    | cons next texts =>
      rw [String.intercalate_cons_cons]
      simp [-String.toList_intercalate, htext, ih htexts]

/-- A note about an exception is a block comment. -/
theorem shows_throwsNote {exception : String} (h : IsName exception) :
    Shows true (throwsNote exception).toList [throwsNote exception] := by
  have hplain : '/' ∉ "* @throws \x7b".toList ++ exception.toList ++ "\x7d ".toList := by simp [h.notMem_slash]
  have htext : (throwsNote exception).toList =
      '/' :: '*' :: ("* @throws \x7b".toList ++ exception.toList ++ "\x7d ".toList ++ ['*', '/']) := by
    simp [throwsNote]
  refine .of_block ?_ ?_
  · rw [htext]
    exact .block (closeComment_plain hplain)
  · rw [htext]
    rfl

/-- The notes in front of a method show themselves. -/
theorem shows_throwsNotes {raises : List String} (h : ∀ r ∈ raises, IsName r) :
    Shows true (Rope.seq (raises.flatMap fun r => [newline level, .leaf (throwsNote r)])).chars
      (raises.map throwsNote) := by
  induction raises with
  | nil => exact .of_plain (by simp)
  | cons r raises ih =>
    obtain ⟨hr, hraises⟩ := List.forall_mem_cons.1 h
    have hnote : Shows true ((newline level).chars ++ (throwsNote r).toList) [throwsNote r] :=
      .plain_append (by simp) (shows_throwsNote hr)
    simpa using hnote.append (ih hraises)

theorem Method.shows_render {m : Method ScriptType String} (h : m.Sound) :
    Shows true (m.render level).chars (m.raises.map throwsNote) := by
  have hparameters : '/' ∉ (", ".intercalate (m.parameters.map Parameter.render)).toList := by
    refine notMem_slash_intercalate fun text htext => ?_
    obtain ⟨p, hp, rfl⟩ := List.mem_map.1 htext
    exact (h.parameters p hp).notMem_slash
  rw [Method.render, Rope.chars_append]
  refine (shows_throwsNotes h.raises).append_plain ?_
  simp [-String.toList_intercalate, h.name.notMem_slash, h.returns.notMem_slash, hparameters]

theorem Method.head?_render (level : Nat) (m : Method ScriptType String) :
    (m.render level).chars.head? = some '\n' := by
  unfold Method.render
  cases m.raises with
  | nil => simp
  | cons r raises => simp

end Items

/-! ## Declarations -/

namespace Declaration

/-- The comments of a declaration are comments, and its names are names. -/
inductive Sound : Declaration → Prop
  | module {name : String} {body : List Declaration} : Sound (.module name body)
  | imported {i : Import} : Sound (.imported i)
  | comment {c : Comment} (holds : c.Sound) : Sound (.comment c)
  | typedef {name : String} {type : ScriptType} (named : IsName name) (typed : type.Named) : Sound (.typedef name type)
  | record {kind : RecordKind} {name : String} {members : List (Member (Field ScriptType))} (named : IsName name)
      (holds : ∀ m ∈ members, m.Holds Comment.Sound Field.Sound) : Sound (.record kind name members)
  | enum {name : String} {members : List (Member String)} (named : IsName name)
      (holds : ∀ m ∈ members, m.Holds Comment.Sound IsName) : Sound (.enum name members)
  | interface {name : String} {members : List (Member (Method ScriptType String))} (named : IsName name)
      (holds : ∀ m ∈ members, m.Holds Comment.Sound Method.Sound) : Sound (.interface name members)

def comment? : Declaration → Option Comment
  | comment c => some c
  | _ => none

def isImport : Declaration → Bool
  | imported _ => true
  | _ => false

/-- The comments in what is written of a declaration. -/
def commentTexts : Declaration → List String
  | comment c => [c.text]
  | record _ _ members => members.flatMap (Member.commentTexts fun _ => [])
  | enum _ members => members.flatMap (Member.commentTexts fun _ => [])
  | interface _ members => members.flatMap (Member.commentTexts fun m => m.raises.map throwsNote)
  | module _ _ | typedef _ _ | imported _ => []

/-- Whether a line comment among the members takes in the next one. -/
def swallowsMember : Declaration → Bool
  | record _ _ members => swallows Member.comment? members
  | enum _ members => swallows Member.comment? members
  | interface _ members => swallows Member.comment? members
  | module _ _ | typedef _ _ | comment _ | imported _ => false

/-- Whether a line comment in a body takes in the next one. Imports are not written between them. -/
def swallowsComment (body : List Declaration) : Bool :=
  swallows comment? (body.filter (!·.isImport)) || body.any swallowsMember

/-- The comment that is written next, if a comment is. -/
def nextComment? (body : List Declaration) : Option Comment := (body.filter (!·.isImport)).head?.bind comment?

section Body

variable {d : Declaration} {body : List Declaration}

theorem nextComment?_cons (h : d.isImport = false) : nextComment? (d :: body) = d.comment? := by
  simp [nextComment?, h]

theorem nextComment?_cons_import (h : d.isImport = true) : nextComment? (d :: body) = nextComment? body := by
  simp [nextComment?, h]

theorem swallowsComment_cons (h : d.isImport = false) : swallowsComment (d :: body) =
    ((d.comment?.any (·.isLine) && (nextComment? body).any (·.staysOnLine)) ||
      (d.swallowsMember || swallowsComment body)) := by
  simp [swallowsComment, nextComment?, h, swallows, Bool.or_assoc, Bool.or_left_comm]

theorem swallowsComment_cons_import (h : d.isImport = true) : swallowsComment (d :: body) = swallowsComment body := by
  cases d with
  | imported i => rfl
  | module | comment | typedef | record | enum | interface => cases h

end Body

section Render

variable {level : Nat} {fresh : Bool}

/-- A declaration other than a comment starts a new line, and shows the comments of its members. -/
theorem shows_render? (level : Nat) (fresh : Bool) {d : Declaration} {rope : Rope} (h : d.Sound)
    (hcomment : d.comment? = none) (hrender : d.render? level fresh = some rope) :
    rope.chars.head? = some '\n' ∧ Shows (!d.swallowsMember) rope.chars d.commentTexts := by
  cases h with
  | module => cases hrender
  | imported => cases hrender
  | comment => cases hcomment
  | typedef named typed =>
    cases hrender
    refine ⟨by simp, .of_plain ?_⟩
    simp [named.notMem_slash, typed.notMem_slash]
  | @record kind name members named holds =>
    cases hrender
    have hheader : '/' ∉ (newline level).chars ++ (Rope.seq (recordHeader name kind)).chars := by
      cases kind <;> simp [recordHeader, named.notMem_slash]
    have hblock : Shows (!swallows Member.comment? members)
        (Member.renderBlock level (Field.render (level + 1)) members).chars
        (members.flatMap (Member.commentTexts fun _ => [])) :=
      Member.shows_renderBlock (fun f _ => by simp [Field.render]) (fun f hf => Field.shows_render hf) holds
    refine ⟨by simp, ?_⟩
    simpa [swallowsMember, commentTexts] using Shows.plain_append hheader hblock
  | @enum name members named holds =>
    cases hrender
    have hheader : '/' ∉ (newline level).chars ++ "export enum ".toList ++ name.toList := by
      simp [named.notMem_slash]
    have hblock : Shows (!swallows Member.comment? members)
        (Member.renderBlock level (fun text => .seq [newline (level + 1), .leaf text, .leaf ","]) members).chars
        (members.flatMap (Member.commentTexts fun _ => [])) :=
      Member.shows_renderBlock (fun text _ => by simp)
        (fun text htext => .of_plain (by simp [htext.notMem_slash])) holds
    refine ⟨by simp, ?_⟩
    simpa [swallowsMember, commentTexts] using Shows.plain_append hheader hblock
  | @interface name members named holds =>
    cases hrender
    have hheader : '/' ∉ (newline level).chars ++ "export abstract class ".toList ++ name.toList := by
      simp [named.notMem_slash]
    have hblock : Shows (!swallows Member.comment? members)
        (Member.renderBlock level (Method.render (level + 1)) members).chars
        (members.flatMap (Member.commentTexts fun m => m.raises.map throwsNote)) :=
      Member.shows_renderBlock (fun m _ => Method.head?_render (level + 1) m) (fun m hm => Method.shows_render hm) holds
    refine ⟨by simp, ?_⟩
    simpa [swallowsMember, commentTexts] using Shows.plain_append hheader hblock

theorem chars_renderFrom_cons {d : Declaration} {rope : Rope} (h : d.render? level fresh = some rope)
    (body : List Declaration) : (Rope.seq (renderFrom level fresh (d :: body))).chars =
      rope.chars ++ (Rope.seq (renderFrom level (d.freshAfter fresh) body)).chars := by
  rw [renderFrom, h, Option.toList_some, List.singleton_append, Rope.chars_cons]

/-- What comes next starts a new line, unless it is a comment that stays on its line. -/
theorem breaksLine_renderFrom {body : List Declaration} (h : ∀ d ∈ body, d.Sound) (fresh : Bool) :
    breaksLine (Rope.seq (renderFrom level fresh body)).chars =
      (fresh || !(nextComment? body).any (·.staysOnLine)) := by
  induction body generalizing fresh with
  | nil => simp [renderFrom, breaksLine, nextComment?]
  | cons d body ih =>
    obtain ⟨hd, hbody⟩ := List.forall_mem_cons.1 h
    cases d with
    | module name inner =>
      have hfresh : breaksLine (Rope.seq (renderFrom level true body)).chars = true := ih hbody true
      rw [nextComment?_cons rfl]
      simpa [renderFrom, render?, freshAfter, comment?] using hfresh
    | imported i =>
      rw [nextComment?_cons_import rfl]
      exact ih hbody fresh
    | comment c =>
      cases hd with
      | comment holds =>
        rw [chars_renderFrom_cons rfl, Comment.breaksLine_render holds, nextComment?_cons rfl]
        rfl
    | typedef | record | enum | interface =>
      rw [chars_renderFrom_cons rfl, breaksLine_append (shows_render? level fresh hd rfl rfl).1, nextComment?_cons rfl]
      simp [comment?]

/-- What is written of a body shows its comments, unless a line comment takes in the next one. -/
theorem comments_renderFrom {body : List Declaration} (h : ∀ d ∈ body, d.Sound) (fresh : Bool) :
    comments (Rope.seq (renderFrom level fresh body)).chars = some (body.flatMap commentTexts) ↔
      swallowsComment body = false := by
  induction body generalizing fresh with
  | nil => simp [renderFrom, comments, swallowsComment, swallows]
  | cons d body ih =>
    obtain ⟨hd, hbody⟩ := List.forall_mem_cons.1 h
    rw [List.flatMap_cons]
    cases d with
    | module name inner =>
      rw [swallowsComment_cons rfl]
      exact ih hbody true
    | imported i =>
      rw [swallowsComment_cons_import rfl]
      exact ih hbody fresh
    | comment c =>
      cases hd with
      | comment holds =>
        rw [chars_renderFrom_cons rfl, commentTexts, List.singleton_append, Comment.comments_render holds, ih hbody,
          breaksLine_renderFrom hbody, swallowsComment_cons rfl]
        cases hline : c.isLine with
        | false => simp [comment?, swallowsMember, hline]
        | true => simp [comment?, swallowsMember, hline, freshAfter]
    | typedef | record | enum | interface =>
      rw [chars_renderFrom_cons rfl, (shows_render? level fresh hd rfl rfl).2, ih hbody, swallowsComment_cons rfl]
      simp [comment?]

/-- The text of a body shows the comments of the body, unless a line comment takes in the next one. -/
theorem comments_bodyText {body : List Declaration} (h : ∀ d ∈ body, d.Sound) :
    comments (bodyText body).toList = some (body.flatMap commentTexts) ↔ swallowsComment body = false :=
  comments_renderFrom h true

end Render

end Declaration

end Idl
