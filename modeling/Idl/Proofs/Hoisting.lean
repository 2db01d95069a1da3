import Idl.Proofs.Erasure
import Mathlib.Data.List.Forall2

/-!
# Reading loses no comment

Comments are passed on the way to the next token and wait in the cursor until they are taken. However
a declaration is read, the comments in front of the cursor are first those that it takes and then those
that are left, in the order in which they were written. A comment that is found inside of something is
put in front of it, on a line of its own.

* `Comment.Moved found written`: a comment as it was found, and as it is written.
* `Cursor.Hands c d read`: between the cursors `c` and `d`, the comments `read` are taken.
-/

namespace Idl

namespace Comment

/-- A comment keeps its text, and keeps the blanks in front of it or stands on a line of its own. -/
structure Moved (found written : Comment) : Prop where
  text : written.text = found.text
  leading : written.leading = found.leading ∨ written.leading = "\n"

theorem Moved.refl (c : Comment) : Moved c c := ⟨rfl, .inl rfl⟩

theorem moved_detach (c : Comment) : Moved c c.detach := by
  unfold detach
  split
  · exact .refl c
  · exact ⟨rfl, .inr rfl⟩

theorem forall₂_moved_refl (cs : List Comment) : List.Forall₂ Moved cs cs := List.forall₂_same.2 fun c _ => .refl c

theorem forall₂_moved_detach (cs : List Comment) : List.Forall₂ Moved cs (cs.map detach) :=
  List.forall₂_map_right_iff.2 (List.forall₂_same.2 fun c _ => moved_detach c)

theorem map_text_of_moved {found written : List Comment} (h : List.Forall₂ Moved found written) :
    written.map (·.text) = found.map (·.text) := by
  induction h with
  | nil => rfl
  | cons hmoved _ ih => rw [List.map_cons, List.map_cons, hmoved.text, ih]

end Comment

namespace Member

variable {α : Type}

/-- The comments without the items. -/
def heldComments (members : List (Member α)) : List Comment :=
  members.filterMap fun
    | .item _ => none
    | .comment c => some c

@[simp]
theorem heldComments_nil : heldComments ([] : List (Member α)) = [] := rfl

@[simp]
theorem heldComments_cons_item (a : α) (members : List (Member α)) : heldComments (.item a :: members) = heldComments members := rfl

@[simp]
theorem heldComments_cons_comment (c : Comment) (members : List (Member α)) :
    heldComments (.comment c :: members) = c :: heldComments members := rfl

@[simp]
theorem heldComments_append (ms ms' : List (Member α)) : heldComments (ms ++ ms') = heldComments ms ++ heldComments ms' :=
  List.filterMap_append

theorem heldComments_map (f : Comment → Comment) (cs : List Comment) :
    heldComments (cs.map fun c => (.comment (f c) : Member α)) = cs.map f := by
  induction cs with
  | nil => rfl
  | cons c cs ih => rw [List.map_cons, heldComments_cons_comment, ih, List.map_cons]

end Member

namespace Cursor

/-- The comments that wait, and those among the tokens that are still to be read. -/
def all (c : Cursor) : List Comment := c.comments ++ (c.tokens.filter (·.kind.isComment)).map .ofToken

/-- Between two cursors, the comments `read` are taken. -/
def Hands (c d : Cursor) (read : List Comment) : Prop :=
  ∃ found, c.all = found ++ d.all ∧ List.Forall₂ Comment.Moved found read

section Hands

variable {α : Type} {finish : FileRange} {c d e : Cursor} {read read' : List Comment}

theorem hands_of_eq (h : d.all = c.all) : c.Hands d [] := ⟨[], h.symm, .nil⟩

theorem Hands.trans (h : c.Hands d read) (h' : d.Hands e read') : c.Hands e (read ++ read') := by
  obtain ⟨found, hfound, hmoved⟩ := h
  obtain ⟨found', hfound', hmoved'⟩ := h'
  exact ⟨found ++ found', by rw [hfound, hfound', List.append_assoc], List.rel_append hmoved hmoved'⟩

theorem Hands.forall₂ (h : c.Hands d read) (h' : List.Forall₂ Comment.Moved d.all read') :
    List.Forall₂ Comment.Moved c.all (read ++ read') := by
  obtain ⟨found, hfound, hmoved⟩ := h
  rw [hfound]
  exact List.rel_append hmoved h'

/-- The comments that wait are taken as they are. -/
theorem hands_taken (c : Cursor) : c.Hands ⟨c.tokens, []⟩ c.comments :=
  ⟨c.comments, rfl, Comment.forall₂_moved_refl _⟩

/-- The comments that wait are put on lines of their own. -/
theorem hands_detached (c : Cursor) : c.Hands ⟨c.tokens, []⟩ (c.comments.map Comment.detach) :=
  ⟨c.comments, rfl, Comment.forall₂_moved_detach _⟩

/-! ## Tokens, names and types -/

theorem all_skip (c : Cursor) : c.skip.all = c.all := by
  have hall : (c.tokens.takeWhile (·.kind.isComment)).filter (·.kind.isComment) =
      c.tokens.takeWhile (·.kind.isComment) :=
    List.filter_eq_self.2 fun token hmem => List.all_eq_true.1 List.all_takeWhile token hmem
  have hsplit := List.takeWhile_append_dropWhile (p := (·.kind.isComment)) (l := c.tokens)
  have hfilter := congrArg (List.filter (·.kind.isComment)) hsplit
  rw [List.filter_append, hall] at hfilter
  simp only [all, skip, List.append_assoc, ← List.map_append, hfilter]

theorem hands_fresh (c : Cursor) : c.Hands c.fresh c.skip.comments := by
  have htaken := c.skip.hands_taken
  obtain ⟨found, hfound, hmoved⟩ := htaken
  exact ⟨found, by rw [← all_skip, hfound]; rfl, hmoved⟩

/-- A token that is no comment holds none. -/
theorem all_cons {token : Token} (h : token.kind.isComment = false) (tokens : List Token) (comments : List Comment) :
    all ⟨token :: tokens, comments⟩ = all ⟨tokens, comments⟩ := by
  have hfilter : (token :: tokens).filter (·.kind.isComment) = tokens.filter (·.kind.isComment) :=
    List.filter_cons_of_neg (by simp [h])
  simp only [all, hfilter]

theorem all_of_skip {token : Token} {rest : List Token} (h : c.skip.tokens = token :: rest) :
    all ⟨rest, c.skip.comments⟩ = c.all := by
  rw [← all_cons (isComment_of_skip h), ← h]
  exact all_skip c

/-- The comments in front of the next token are passed on the way behind it. -/
theorem hands_head {token : Token} {rest : List Token} (c : Cursor) (h : c.skip.tokens = token :: rest) :
    c.Hands ⟨rest, []⟩ c.skip.comments := by
  have hall : all ⟨rest, []⟩ = c.fresh.all := by rw [fresh, h, all_cons (isComment_of_skip h)]
  simpa using c.hands_fresh.trans (hands_of_eq hall)

theorem all_next {expected : String} {token : Token} (h : c.next finish expected = .ok (token, d)) : d.all = c.all := by
  unfold next at h
  split at h
  · cases h
  · rename_i token' rest hs
    cases h
    exact all_of_skip hs

theorem all_expect {kind : Token.Kind} {expected : String} (h : c.expect finish kind expected = .ok d) :
    d.all = c.all := by
  obtain ⟨⟨token, c₁⟩, hnext, h⟩ := Except.bind_eq_ok.1 h
  dsimp only at h
  split at h
  · cases h
    exact all_next hnext
  · cases h

theorem all_name {name : Name} (h : c.name finish = .ok (name, d)) : d.all = c.all := by
  obtain ⟨⟨token, c₁⟩, hnext, h⟩ := Except.bind_eq_ok.1 h
  obtain ⟨name', -, heq⟩ := Except.bind_eq_ok.1 h
  cases heq
  exact all_next hnext

theorem all_typedName {stops : List Mark} {typed : TypedName} (h : c.typedName finish stops = .ok (typed, d)) :
    d.all = c.all := by
  have hsplit := List.takeWhile_append_dropWhile (p := (!endsType stops ·)) (l := c.tokens)
  unfold typedName at h
  split at h
  · cases h
  · rename_i stop rest hrest
    dsimp only at h
    split at h
    · rename_i first more last hwords hlast
      obtain ⟨name, -, heq⟩ := Except.bind_eq_ok.1 h
      cases heq
      rw [hrest] at hsplit
      have hfilter := congrArg (List.filter (·.kind.isComment)) hsplit
      rw [List.filter_append] at hfilter
      simp only [all, List.append_assoc, ← List.map_append, hfilter]
    · cases h

/-! ## Members -/

@[simp]
theorem heldComments_passedMembers (c : Cursor) :
    Member.heldComments (c.passedMembers : List (Member α)) = c.skip.comments := by
  have hmap := Member.heldComments_map (α := α) id c.skip.comments
  rwa [List.map_id] at hmap

@[simp]
theorem heldComments_hoistedMembers (c : Cursor) :
    Member.heldComments (c.hoistedMembers : List (Member α)) = c.comments.map Comment.detach :=
  Member.heldComments_map Comment.detach c.comments

theorem all_field {f : Field TypeExpr} (h : c.field finish = .ok (f, d)) : d.all = c.all := by
  obtain ⟨⟨typed, c₁⟩, htyped, h⟩ := Except.bind_eq_ok.1 h
  obtain ⟨⟨token, c₂⟩, hnext, h⟩ := Except.bind_eq_ok.1 h
  dsimp only at h
  split at h
  · cases h
    rw [all_next hnext, all_typedName htyped]
  · cases h

theorem hands_fields (h : (c.fields finish).2 = .ok d) : c.Hands d (Member.heldComments (c.fields finish).1) := by
  fun_induction fields finish c with
  | case1 c hclose =>
    cases h
    simpa using c.hands_fresh
  | case2 c hclose e hf => cases h
  | case3 c hclose f after hf hlt rest last heq ih =>
    rw [heq] at ih
    have hfield : c.fresh.Hands ⟨after.tokens, []⟩ (after.comments.map Comment.detach) := by
      simpa using (hands_of_eq (all_field hf)).trans after.hands_detached
    simpa using c.hands_fresh.trans (hfield.trans (ih h))

theorem hands_values (h : (c.values finish).2 = .ok d) : c.Hands d (Member.heldComments (c.values finish).1) := by
  have hvalue {c after : Cursor} {name : Name} (hname : c.fresh.name finish = .ok (name, after)) :
      c.Hands after.fresh (c.skip.comments ++ after.skip.comments) := by
    simpa using c.hands_fresh.trans ((hands_of_eq (all_name hname)).trans after.hands_fresh)
  fun_induction values finish c with
  | case1 c e hname => cases h
  | case2 c name after hname head hs =>
    cases h
    simpa [head] using hvalue hname
  | case3 c name after hname head token tokens hs hcomma hlt rest last heq ih =>
    rw [heq] at ih
    have hafter : all ⟨tokens, []⟩ = after.fresh.all := by
      rw [fresh, hs, all_cons (isComment_of_skip hs)]
    simpa [head] using (hvalue hname).trans ((hands_of_eq hafter).trans (ih h))
  | case4 c name after hname head token tokens hs hcomma =>
    cases h
    simpa [head] using hvalue hname

theorem hands_enumMembers (h : (c.enumMembers finish).2 = .ok d) :
    c.Hands d (Member.heldComments (c.enumMembers finish).1) := by
  unfold enumMembers at h ⊢
  split
  · rename_i hclose
    rw [if_pos hclose] at h
    cases h
    simpa using c.hands_fresh
  · rename_i hclose
    rw [if_neg hclose] at h
    exact hands_values h

/-! ## Methods -/

theorem all_separated {item : Cursor → Except Error (α × Cursor)}
    {forward : ∀ c d a, item c = .ok (a, d) → d.size ≤ c.size} (hitem : ∀ {c d a}, item c = .ok (a, d) → d.all = c.all)
    (h : (c.separated finish item forward).2 = .ok d) : d.all = c.all := by
  fun_induction separated finish item forward c with
  | case1 c e hi => cases h
  | case2 c a after hi e hn => cases h
  | case3 c a after hi token rest hn hcomma hlt more last heq ih =>
    rw [heq] at ih
    rw [ih h, all_next hn, hitem hi]
  | case4 c a after hi token rest hn =>
    cases h
    rw [all_next hn, hitem hi]
  | case5 c a after hi token rest hn => cases h

theorem all_parameter {p : Parameter TypeExpr} (h : c.parameter finish = .ok (p, d)) : d.all = c.all := by
  obtain ⟨⟨token, c₁⟩, hnext, h⟩ := Except.bind_eq_ok.1 h
  dsimp only at h
  split at h
  · obtain ⟨⟨typed, c₂⟩, htyped, heq⟩ := Except.bind_eq_ok.1 h
    cases heq
    rw [all_typedName htyped, all_next hnext]
  · cases h

/-- The next token, of which the kind is known, is passed. -/
theorem all_drop {kind : Token.Kind} (h : c.kind? = some kind) :
    all ⟨c.skip.tokens.drop 1, c.skip.comments⟩ = c.all := by
  cases hs : c.skip.tokens with
  | nil => simp [kind?, hs] at h
  | cons token rest => exact all_of_skip hs

theorem all_parameters (h : (c.parameters finish).2 = .ok d) : d.all = c.all := by
  unfold parameters at h
  split at h
  · rename_i hclose
    cases h
    exact all_drop hclose
  · exact all_separated all_parameter h

theorem all_readAfter {before : Except Error Cursor} {f : Cursor → Reading α}
    (hbefore : ∀ {e}, before = .ok e → e.all = c.all) (hf : ∀ {e}, (f e).2 = .ok d → d.all = e.all)
    (h : (readAfter before f).2 = .ok d) : d.all = c.all := by
  cases before with
  | error e => cases h
  | ok e => rw [hf h, hbefore rfl]

theorem all_raised (h : (c.raised finish).2 = .ok d) : d.all = c.all := by
  unfold raised at h
  split at h
  · rename_i hraises
    refine all_readAfter (fun he => ?_) (fun he => all_separated all_name he) h
    rw [all_expect he, all_drop hraises]
  · cases h
    rfl

theorem all_methodRest {typed : TypedName} (h : (c.methodRest finish typed).2 = .ok d) : d.all = c.all := by
  obtain ⟨c₁, hraised, hend⟩ := Except.bind_eq_ok.1 h
  have hlisted {e : Cursor}
      (he : (readAfter (c.expect finish (.mark .openParen) "`(`") (·.parameters finish)).2 = .ok e) : e.all = c.all :=
    all_readAfter all_expect all_parameters he
  rw [all_expect hend, all_readAfter hlisted all_raised hraised]

theorem all_method {m : Method TypeExpr Name} (h : c.method finish = .ok (m, .ok d)) : d.all = c.all := by
  obtain ⟨⟨typed, c₁⟩, htyped, h⟩ := Except.bind_eq_ok.1 h
  have hrest : (c₁.methodRest finish typed).2 = .ok d := congrArg Prod.snd (Except.ok.inj h)
  rw [all_methodRest hrest, all_typedName htyped]

theorem hands_methods (h : (c.methods finish).2 = .ok d) : c.Hands d (Member.heldComments (c.methods finish).1) := by
  fun_induction methods finish c with
  | case1 c hclose =>
    cases h
    simpa using c.hands_fresh
  | case2 c hclose e hm => cases h
  | case3 c hclose m e hm => cases h
  | case4 c hclose m after hm hlt rest last heq ih =>
    rw [heq] at ih
    have hmethod : c.fresh.Hands ⟨after.tokens, []⟩ (after.comments.map Comment.detach) := by
      simpa using (hands_of_eq (all_method hm)).trans after.hands_detached
    simpa using c.hands_fresh.trans (hmethod.trans (ih h))

/-! ## Blocks -/

theorem hands_block {members : Cursor → Reading (Member α)} {closer : String} {b : Block α}
    (hmembers : ∀ {c d}, (members c).2 = .ok d → c.Hands d (Member.heldComments (members c).1))
    (h : c.block finish members closer = (b, some d)) : c.Hands d (Member.heldComments b.members ++ b.trailing) := by
  unfold block at h
  dsimp only at h
  split at h
  · cases h
  · rename_i last hlast
    cases h
    obtain ⟨c₃, hclose, hlast⟩ := Except.bind_eq_ok.1 hlast
    obtain ⟨c₂, hread, hclose⟩ := Except.bind_eq_ok.1 hclose
    cases hopen : c.expect finish (.mark .openBrace) "`\x7b`" with
    | error e =>
      rw [hopen] at hread
      cases hread
    | ok c₁ =>
      rw [hopen] at hread
      have hbody := (hands_of_eq (all_expect hopen)).trans (hmembers hread)
      have hend : last.all = c₂.all := by rw [all_expect hlast, all_expect hclose]
      simpa [readAfter] using hbody.trans ((hands_of_eq hend).trans last.hands_detached)

end Hands

end Cursor

end Idl
