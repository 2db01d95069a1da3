import Idl.Proofs.Rendering

/-!
# Comments come out as they went in

Everything that a run emits is made of comments as they stand in a source and of names, so that the
comments in the text of each body can be told from the body.

* `Compilation.Sound s`: the declared names are names, and the emitted bodies are sound.
* `Traced.sound`: items that are sound keep the state sound.
* `comments_kept_iff`: the comments in the text of an emitted body are those of the body, if and only
  if no line comment stands in front of a comment that stays on its line.
-/

namespace Idl

/-! ## Members -/

theorem MembersDeclared.holds {α β : Type} {R : α → β → List Import → Prop} {P : Comment → Prop} {Q : α → Prop}
    {Q' : β → Prop} {as : List (Member α)} {bs : List (Member β)} {imports : List Import}
    (h : MembersDeclared R as bs imports) (hR : ∀ {a b needed}, R a b needed → Q a → Q' b)
    (has : ∀ m ∈ as, m.Holds P Q) : ∀ m ∈ bs, m.Holds P Q' := by
  induction h with
  | nil => simp
  | comment rest ih =>
    obtain ⟨hc, has⟩ := List.forall_mem_cons.1 has
    exact List.forall_mem_cons.2 ⟨hc, ih has⟩
  | item first rest ih =>
    obtain ⟨ha, has⟩ := List.forall_mem_cons.1 has
    exact List.forall_mem_cons.2 ⟨hR first ha, ih has⟩

/-- All declared names are names. -/
def SymbolTable.Named (t : SymbolTable) : Prop := ∀ entry ∈ t.entries, IsName entry.1

section Members

variable {t : SymbolTable} {target : Path} {needed : List Import}

theorem SymbolTable.Resolves.named {type : ScriptType} (h : t.Resolves target type needed) (ht : t.Named) :
    type.Named := by
  intro n hn
  obtain ⟨symbol, hsymbol⟩ := Option.isSome_iff_exists.1 (h.found n hn)
  obtain ⟨before, after, hentries, -⟩ := List.lookup_eq_some_iff.1 hsymbol
  exact ht (n, symbol) (by simp [hentries])

theorem FieldDeclared.sound {a : Field TypeExpr} {b : Field ScriptType} (h : FieldDeclared t target a b needed)
    (ht : t.Named) (ha : a.Named) : b.Sound := ⟨h.name_eq ▸ ha, h.resolves.named ht⟩

theorem ParametersDeclared.sound {ps : List (Parameter TypeExpr)} {qs : List (Parameter ScriptType)}
    (h : ParametersDeclared t target ps qs needed) (ht : t.Named) (hps : ∀ p ∈ ps, p.Named) : ∀ q ∈ qs, q.Sound := by
  induction h with
  | nil => simp
  | cons first rest ih =>
    obtain ⟨hp, hps⟩ := List.forall_mem_cons.1 hps
    exact List.forall_mem_cons.2 ⟨⟨hp, first.named ht⟩, ih hps⟩

theorem MethodDeclared.sound {a : MethodItem} {b : Method ScriptType String} (h : MethodDeclared t target a b needed)
    (ht : t.Named) (ha : a.Named) : b.Sound := by
  obtain ⟨returned, passed, hreturns, hparameters, -⟩ := h.types
  refine ⟨h.name_eq ▸ ha.name, hreturns.named ht, hparameters.sound ht ha.parameters, fun r hr => ?_⟩
  rw [h.raises_eq] at hr
  obtain ⟨name, hname, rfl⟩ := List.mem_map.1 hr
  exact ha.raises name hname

end Members

namespace Compilation

/-! ## Runs -/

/-- The declared names are names, and the emitted bodies are sound. -/
structure Sound (s : Compilation) : Prop where
  named : s.symbols.Named
  bodies : ∀ e ∈ s.emissions, ∀ d ∈ e.body, d.Sound

section Runs

variable {sources : Sources} {path target : Path} {s s' : Compilation}

theorem sound_empty : Sound .empty := ⟨by simp [SymbolTable.Named, SymbolTable.empty, empty], by simp [empty]⟩

theorem Sound.of_quiet (hq : Quiet s s') (h : Sound s) : Sound s' := by
  obtain ⟨log, rfl⟩ := hq
  exact ⟨h.named, h.bodies⟩

theorem Sound.emit (h : Sound s) {body : List Declaration} (hbody : ∀ d ∈ body, d.Sound) :
    Sound { s with emissions := s.emissions ++ [⟨target, body⟩] } := by
  refine ⟨h.named, fun e he => ?_⟩
  rcases List.mem_append.1 he with he | he
  · exact h.bodies e he
  · obtain rfl := List.mem_singleton.1 he
    exact hbody

theorem Registers.sound {kind : Symbol.Kind} {name : Name} (h : Registers kind path target name s s') (hs : s.Sound)
    (hname : IsName name.text) : s'.Sound := by
  refine .of_quiet h.quiet ⟨fun entry hentry => ?_, hs.bodies⟩
  rcases List.mem_cons.1 hentry with rfl | hentry
  · exact hname
  · exact hs.named entry hentry

theorem sound_comments {comments : List Comment} (h : ∀ c ∈ comments, c.Sound) :
    ∀ d ∈ comments.map Declaration.comment, d.Sound := by
  intro d hd
  obtain ⟨c, hc, rfl⟩ := List.mem_map.1 hd
  exact .comment (h c hc)

theorem sound_imports {imports : List Import} : ∀ d ∈ imports.map Declaration.imported, d.Sound := by
  intro d hd
  obtain ⟨i, -, rfl⟩ := List.mem_map.1 hd
  exact .imported

/-- A sound item leaves sound declarations. -/
theorem Declares.sound {item : Item} {ds : List Declaration} (h : Declares path target s item ds s')
    (hitem : item.Sound Comment.Sound) (hs : s.Sound) : s'.Sound ∧ ∀ d ∈ ds, d.Sound := by
  cases h with
  | typedef resolves registers =>
    cases hitem with
    | typedef named before =>
      refine ⟨registers.sound hs named, List.forall_mem_append.2 ⟨List.forall_mem_append.2 ⟨?_, ?_⟩, ?_⟩⟩
      · exact sound_comments before
      · exact sound_imports
      · exact List.forall_mem_singleton.2 (.typedef named (resolves.named hs.named))
  | record registers declared =>
    cases hitem with
    | record named holds =>
      have hs' := registers.sound hs named
      refine ⟨hs', List.forall_mem_append.2 ⟨List.forall_mem_append.2 ⟨?_, ?_⟩, ?_⟩⟩
      · exact sound_imports
      · exact sound_comments holds.trailing
      · refine List.forall_mem_singleton.2 (.record named ?_)
        exact declared.holds (fun hf => hf.sound hs'.named) holds.members
  | enum registers =>
    cases hitem with
    | enum named holds =>
      refine ⟨registers.sound hs named, List.forall_mem_append.2 ⟨?_, ?_⟩⟩
      · exact sound_comments holds.trailing
      · exact List.forall_mem_singleton.2 (.enum named holds.members)
  | interface registers declared =>
    cases hitem with
    | interface named holds =>
      have hs' := registers.sound hs named
      refine ⟨hs', List.forall_mem_append.2 ⟨List.forall_mem_append.2 ⟨?_, ?_⟩, ?_⟩⟩
      · exact sound_imports
      · exact sound_comments holds.trailing
      · refine List.forall_mem_singleton.2 (.interface named ?_)
        exact declared.holds (fun hm => hm.sound hs'.named) holds.members

theorem Opens.sound {items : List Item} (h : Opens sources path s items s') (hs : s.Sound) :
    s'.Sound ∧ ∀ item ∈ items, item.Sound Comment.Sound := by
  obtain ⟨-, -, -, lexed, quiet⟩ := h
  exact ⟨.of_quiet quiet ⟨hs.named, hs.bodies⟩,
    Item.sound_ofTokens (fun _ => Comment.Sound.detach) (Comment.sound_ofToken lexed)⟩

theorem Closes.sound {body : List Event} (h : Closes path body s s') (hs : s.Sound)
    (hbody : ∀ d ∈ Event.declarations body, d.Sound) : s'.Sound :=
  .of_quiet h ⟨hs.named, (hs.emit hbody).bodies⟩

/-- Sound items keep the state sound, and what they leave is sound. -/
theorem Traced.sound {items : List Item} {events : List Event}
    (h : Traced sources path target items s events s') (hitems : ∀ item ∈ items, item.Sound Comment.Sound)
    (hs : s.Sound) : s'.Sound ∧ ∀ d ∈ Event.declarations events, d.Sound := by
  induction h with
  | nil => exact ⟨hs, by simp [Event.declarations]⟩
  | comment rest ih =>
    obtain ⟨hitem, hitems⟩ := List.forall_mem_cons.1 hitems
    obtain ⟨hs', hrest⟩ := ih hitems hs
    rw [Event.declarations]
    cases hitem with
    | comment holds => exact ⟨hs', List.forall_mem_cons.2 ⟨.comment holds, hrest⟩⟩
  | define new quiet rest ih =>
    rw [Event.declarations]
    exact ih (List.forall_mem_cons.1 hitems).2 (.of_quiet quiet ⟨hs.named, hs.bodies⟩)
  | skip named old quiet rest ih =>
    rw [Event.declarations]
    exact ih (List.forall_mem_cons.1 hitems).2 (hs.of_quiet quiet)
  | file named fresh opens within closes rest ihbody ih =>
    obtain ⟨hs₁, hinner⟩ := opens.sound hs
    obtain ⟨hs₂, hbody⟩ := ihbody hinner hs₁
    rw [Event.declarations]
    exact ih (List.forall_mem_cons.1 hitems).2 (closes.sound hs₂ hbody)
  | guarded quiet within rest ihbody ih =>
    obtain ⟨hitem, hitems⟩ := List.forall_mem_cons.1 hitems
    cases hitem with
    | guarded inner =>
      obtain ⟨hs₂, hbody⟩ := ihbody inner (hs.of_quiet quiet)
      obtain ⟨hs', hrest⟩ := ih hitems hs₂
      rw [Event.declarations]
      refine ⟨hs', List.forall_mem_append.2 ⟨?_, hrest⟩⟩
      split
      · simp
      · exact hbody
  | module quiet within emits rest ihbody ih =>
    obtain ⟨hitem, hitems⟩ := List.forall_mem_cons.1 hitems
    cases hitem with
    | module named inner after =>
      obtain ⟨hs₂, hbody⟩ := ihbody inner (hs.of_quiet quiet)
      obtain ⟨hs', hrest⟩ := ih hitems ((hs₂.emit hbody).of_quiet emits)
      rw [Event.declarations]
      refine ⟨hs', List.forall_mem_append.2 ⟨List.forall_mem_append.2 ⟨sound_comments after, ?_⟩, hrest⟩⟩
      exact List.forall_mem_singleton.2 .module
  | declared at_path names gives rest ih =>
    obtain ⟨hitem, hitems⟩ := List.forall_mem_cons.1 hitems
    obtain ⟨hs₁, hds⟩ := (declares_of_gives names gives).sound hitem hs
    obtain ⟨hs', hrest⟩ := ih hitems hs₁
    rw [Event.declarations]
    exact ⟨hs', List.forall_mem_append.2 ⟨hds, hrest⟩⟩

/-- Everything that a run emits is sound. -/
theorem sound_of_gives {ds : List Declaration} (h : Gives (compileFile sources path) .empty ds s) : s.Sound := by
  obtain ⟨-, items, s₁, s₂, opens, traced, closes⟩ := fileTraced_of_compileFile h
  obtain ⟨hs₁, hitems⟩ := opens.sound sound_empty
  obtain ⟨hs₂, hbody⟩ := traced.sound hitems hs₁
  exact closes.sound hs₂ hbody

end Runs

/-! ## Comments of bodies -/

section Bodies

variable {sources : Sources} {path : Path} {ds : List Declaration} {s : Compilation}

/-- The text of each body that a run emits can be read as tokens, and the comments among them are those
of the body with the notes about what methods raise, if and only if no line comment of the body stands
directly in front of a comment that stays on its line. -/
theorem comments_kept_iff (run : Gives (compileFile sources path) .empty ds s) (file : Nat) :
    ∀ e ∈ s.emissions, (∃ tokens, Token.ofSource file (Declaration.bodyText e.body) = .ok tokens ∧
        Token.commentTexts tokens = e.body.flatMap Declaration.commentTexts) ↔
      Declaration.swallowsComment e.body = false := by
  intro e he
  rw [← Declaration.comments_bodyText ((sound_of_gives run).bodies e he), Token.comments_eq_scan file 0 .first]
  change _ ↔ (Token.ofSource file (Declaration.bodyText e.body)).toOption.map _ = _
  cases Token.ofSource file (Declaration.bodyText e.body) with
  | error error => simp [Except.toOption]
  | ok tokens => simp [Except.toOption]

/-- Comments in a file, in a block and around a method that raises an exception. -/
def commentedFile : Sources where
  texts := [(⟨"m.idl"⟩, "// a\n/* b */ exception E \x7b // c\n\x7d;\n" ++
    "interface I \x7b /* d */ void f() raises (E); // e\n\x7d; // f")]
  failure _ := ""

/-- All comments of the file come out, and the note about the exception. -/
theorem comments_kept_iff_commented :
    ∃ ds s, Gives (compileFile commentedFile ⟨"m.idl"⟩) .empty ds s ∧
      s.emissions.map (·.body.flatMap Declaration.commentTexts) =
        [["// a", "/* b */", "// c", "/* d */", throwsNote "E", "// e", "// f"]] ∧
      ∀ e ∈ s.emissions, ∃ tokens, Token.ofSource 0 (Declaration.bodyText e.body) = .ok tokens ∧
        Token.commentTexts tokens = e.body.flatMap Declaration.commentTexts := by
  obtain ⟨ds, run⟩ : ∃ ds, Gives (compileFile commentedFile ⟨"m.idl"⟩) .empty ds
      (outcome (compileFile commentedFile ⟨"m.idl"⟩) .empty).2 := exists_gives (by decide +kernel)
  have hkept : ∀ e ∈ (outcome (compileFile commentedFile ⟨"m.idl"⟩) .empty).2.emissions,
      Declaration.swallowsComment e.body = false := by decide +kernel
  exact ⟨ds, _, run, by decide +kernel, fun e he => (comments_kept_iff run 0 e he).2 (hkept e he)⟩

/-- Two comments with a directive between them, which is not written. -/
def commentAfterDirective : Sources where
  texts := [(⟨"m.idl"⟩, "// a\n#define B /* b */\n")]
  failure _ := ""

/-- The second comment comes out as a part of the first one. -/
theorem line_comment_takes_in_next :
    (outcome (compileFile commentAfterDirective ⟨"m.idl"⟩) .empty).1.isOk = true ∧
      (outcome (compileFile commentAfterDirective ⟨"m.idl"⟩) .empty).2.emissions.map (fun e =>
          (e.body.flatMap Declaration.commentTexts,
            (Token.ofSource 0 (Declaration.bodyText e.body)).toOption.map Token.commentTexts)) =
        [(["// a", "/* b */"], some ["// a /* b */"])] := by
  decide +kernel

end Bodies

end Compilation

end Idl
