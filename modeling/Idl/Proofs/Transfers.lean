import Idl.Proofs.Includes
import Idl.Proofs.Mirrors
import Idl.Proofs.Quotes
import Mathlib.Logic.Equiv.Basic

/-!
# Runs that are carried over

A run that is traced can be repeated at other paths, over other sources and in a state in which other files
were compiled before, if nothing there is in its way.

* `Shift.renumbering m n`: the tokens of a file under another number.
* `Clear ρ F sources sources' s`: what was read, compiled, declared and defined in a run that ends in `s`
  is apart from what `F` holds, and the relocated files are there.
* `Traced.carried`: then each body of the run is declared again, in each state that mirrors its first one.
* `FileTraced.carried`: so is a file.
-/

namespace Idl

/-! ## Files under other numbers -/

/-- Two numbers are exchanged, and everything else stays as it is. -/
def Shift.renumbering (m n : Nat) : Shift where
  file := Equiv.swap m n
  injective _ _ h := (Equiv.swap m n).injective h
  offset := 0
  leading token := token.leading
  leading_eq _ _ := rfl
  position token := token.position

theorem Shift.fits_renumbering (m n : Nat) (text : String) :
    (renumbering m n).Fits (.ofFile m text) (.ofFile n text) := by
  constructor
  · simp [SourceText.ofFile, FileRange.point, range, renumbering]
  · intro k
    simp [SourceText.ofFile, renumbering]

/-- A text has the same tokens under each number. -/
theorem Token.scan_renumbering (m n offset : Nat) (position : Position) (cs : List Char) :
    (scan n offset position cs).toOption =
      (scan m offset position cs).toOption.map (List.map (Shift.renumbering m n).token) := by
  fun_induction scan m offset position cs with
  | case1 offset position cs =>
    rename_i hfirst
    rw [scan_eq, hfirst]
    rfl
  | case2 offset position cs =>
    rename_i hfirst
    rw [scan_eq, hfirst]
    rfl
  | case3 offset position cs gap start position' kind text rest hfirst stop token ih =>
    have hcut : cutAt n offset position kind gap text = (Shift.renumbering m n).token token := by
      simp [cutAt, Shift.token, Shift.range, Shift.renumbering, token, start, stop, position']
    have hstop : stop = offset + Text.size (gap ++ text) := by simp only [stop, start, Text.size_append, Nat.add_assoc]
    rw [hstop, ← Position.advance_append] at ih
    rw [scan_eq, hfirst]
    dsimp only
    rw [hcut, toOption_cons, toOption_cons, ih, hstop, ← Position.advance_append, Option.map_map, Option.map_map]
    rfl

/-- A file that can be read under one number can be read under each one, and its items are renumbered. -/
theorem Shift.exists_ofSource {m : Nat} {text : String} {tokens : List Token} (h : Token.ofSource m text = .ok tokens)
    (n : Nat) : ∃ tokens', Token.ofSource n text = .ok tokens' ∧
      Item.ofTokens (.ofFile n text) tokens' = (renumbering m n).items (Item.ofTokens (.ofFile m text) tokens) := by
  refine ⟨tokens.map (renumbering m n).token, ?_, (renumbering m n).ofTokens (fits_renumbering m n text) tokens⟩
  rw [← Token.toOption_eq_some, Token.ofSource, Token.scan_renumbering m n, ← Token.ofSource, h]
  rfl

mutual

/-- The names that the guarded blocks in an event test. -/
def Event.tested : Event → List String
  | .guarded name _ body => name.text :: Event.testedAll body
  | .file _ body | .module _ _ body _ => Event.testedAll body
  | .comment _ | .define _ | .skip _ | .declared _ => []

/-- The names that guarded blocks test. -/
def Event.testedAll : List Event → List String
  | [] => []
  | event :: rest => Event.tested event ++ Event.testedAll rest

end

/-- The text of an include that stands in one of the files. -/
inductive Library.Writes (l : Library) (written : String) : Prop
  | intro {id : Nat} {file : SourceFile} {tokens : List Token} (get : l.get id = .ok file)
      (lexed : Token.ofSource id file.text = .ok tokens)
      (mem : written ∈ Item.allIncludes (Item.ofTokens (.ofFile id file.text) tokens)) : Writes l written

/-- The texts of the includes in the files. -/
def Library.written (l : Library) : List String :=
  (l.files.zipIdx 1).flatMap fun (file, id) =>
    match Token.ofSource id file.text with
    | .ok tokens => Item.allIncludes (Item.ofTokens (.ofFile id file.text) tokens)
    | .error _ => []

theorem Library.writes_iff {l : Library} {written : String} : l.Writes written ↔ written ∈ l.written := by
  simp only [Library.written, List.mem_flatMap]
  constructor
  · rintro ⟨hget, hlexed, hmem⟩
    obtain ⟨hpos, hfile⟩ := get_eq_ok.1 hget
    refine ⟨(_, _), List.mem_zipIdx_iff_le_and_getElem?_sub.2 ⟨hpos, hfile⟩, ?_⟩
    simpa [hlexed] using hmem
  · rintro ⟨⟨file, id⟩, hfile, hmem⟩
    have hget := get_eq_ok.2 (List.mem_zipIdx_iff_le_and_getElem?_sub.1 hfile)
    dsimp only at hmem
    split at hmem
    · rename_i tokens hlexed
      exact ⟨hget, hlexed, hmem⟩
    · cases hmem

theorem Library.Writes.mono {l l' : Library} {written : String} (h : l.Writes written)
    (hinitial : l.files <+: l'.files) : l'.Writes written := by
  obtain ⟨hget, hlexed, hmem⟩ := h
  exact ⟨get_of_initial hinitial hget, hlexed, hmem⟩

namespace Compilation

/-! ## What a run adds -/

/-- Files were read and compiled, and names were declared and defined. -/
structure Continues (s s' : Compilation) : Prop extends AddsFiles s s' where
  symbols : s.symbols.names ⊆ s'.symbols.names
  defines : s.defines.names ⊆ s'.defines.names

section Continues

variable {sources : Sources} {path target : Path} {s s₁ s' : Compilation} {items : List Item}
  {events : List Event}

theorem Continues.trans (h : Continues s s₁) (h' : Continues s₁ s') : Continues s s' :=
  ⟨h.toAddsFiles.trans h'.toAddsFiles, List.Subset.trans h.symbols h'.symbols, List.Subset.trans h.defines h'.defines⟩

theorem Quiet.continues (h : Quiet s s') : Continues s s' := by
  obtain ⟨log, rfl⟩ := h
  exact ⟨⟨List.prefix_rfl, List.suffix_rfl⟩, List.Subset.refl _, List.Subset.refl _⟩

theorem Opens.continues (h : Opens sources path s items s') : Continues s s' := by
  obtain ⟨-, -, -, -, log, rfl⟩ := h
  exact ⟨⟨List.prefix_append .., List.suffix_rfl⟩, List.Subset.refl _, List.Subset.refl _⟩

theorem Closes.continues (h : Closes path events s s') : Continues s s' := by
  obtain ⟨log, rfl⟩ := h
  exact ⟨⟨List.prefix_rfl, List.suffix_cons ..⟩, List.Subset.refl _, List.Subset.refl _⟩

/-- A declaration adds its name. -/
theorem Declares.continues {item : Item} {ds : List Declaration} (h : Declares path target s item ds s') :
    Continues s s' ∧ ∀ name ∈ item.name?, name ∈ s'.symbols.names := by
  have hregisters {kind : Symbol.Kind} {name : Name} (h : Registers kind path target name s s') :
      Continues s s' ∧ name.text ∈ s'.symbols.names := by
    obtain ⟨-, log, rfl⟩ := h
    exact ⟨⟨⟨List.prefix_rfl, List.suffix_rfl⟩, List.subset_cons_self .., List.Subset.refl _⟩, List.mem_cons_self⟩
  cases h with
  | typedef resolves registers =>
    exact ⟨(hregisters registers).1, by simpa [Item.name?] using (hregisters registers).2⟩
  | record registers declared =>
    exact ⟨(hregisters registers).1, by simpa [Item.name?] using (hregisters registers).2⟩
  | enum registers =>
    exact ⟨(hregisters registers).1, by simpa [Item.name?] using (hregisters registers).2⟩
  | interface registers declared =>
    exact ⟨(hregisters registers).1, by simpa [Item.name?] using (hregisters registers).2⟩

theorem continues_define {name : Name} {defines : Defines} (h : s.defines.define name.text name.range = .ok defines)
    (quiet : Quiet { s with defines } s') : Continues s s' ∧ name.text ∈ s'.defines.names := by
  obtain ⟨-, rfl⟩ := Defines.define_eq_ok_iff.1 h
  obtain ⟨log, rfl⟩ := quiet
  exact ⟨⟨⟨List.prefix_rfl, List.suffix_rfl⟩, List.Subset.refl _, List.subset_cons_self ..⟩, List.mem_cons_self⟩

theorem continues_emit {emissions : List Emission} (quiet : Quiet { s with emissions } s') : Continues s s' := by
  obtain ⟨log, rfl⟩ := quiet
  exact ⟨⟨List.prefix_rfl, List.suffix_rfl⟩, List.Subset.refl _, List.Subset.refl _⟩

theorem Traced.continues (h : Traced sources path target items s events s') : Continues s s' := by
  induction h with
  | nil => exact Quiet.continues ⟨_, rfl⟩
  | comment rest ih => exact ih
  | define new quiet rest ih => exact (continues_define new quiet).1.trans ih
  | skip named old quiet rest ih => exact quiet.continues.trans ih
  | file named fresh opens within closes rest ihbody ih =>
    exact (opens.continues.trans ihbody).trans (closes.continues.trans ih)
  | guarded quiet within rest ihbody ih => exact (quiet.continues.trans ihbody).trans ih
  | module quiet within emits rest ihbody ih =>
    exact (quiet.continues.trans ihbody).trans ((continues_emit emits).trans ih)
  | declared at_path names gives rest ih => exact (declares_of_gives names gives).continues.1.trans ih

theorem Opens.compiling_eq (h : Opens sources path s items s') : s'.compiling = path :: s.compiling := by
  obtain ⟨-, -, -, -, quiet⟩ := h
  exact quiet.compiling

theorem Closes.compiling_eq (h : Closes path events s s') : s'.compiling = s.compiling.tail := Quiet.compiling h

/-- The stack is the same before and after a body. -/
theorem Traced.compiling_eq (h : Traced sources path target items s events s') : s'.compiling = s.compiling := by
  induction h with
  | nil => rfl
  | comment rest ih => exact ih
  | define new quiet rest ih => exact ih.trans quiet.compiling
  | skip named old quiet rest ih => exact ih.trans quiet.compiling
  | file named fresh opens within closes rest ihbody ih =>
    rw [ih, closes.compiling_eq, ihbody, opens.compiling_eq, List.tail_cons]
  | guarded quiet within rest ihbody ih => exact ih.trans (ihbody.trans quiet.compiling)
  | module quiet within emits rest ihbody ih => exact ih.trans (emits.compiling.trans (ihbody.trans quiet.compiling))
  | declared at_path names gives rest ih => exact ih.trans (declares_of_gives names gives).sameFiles.compiling

/-- A file that is being compiled is not compiled to its end meanwhile. -/
theorem Traced.notMem_compiled (h : Traced sources path target items s events s') {p : Path}
    (hp : p ∈ s.compiling) (hs : p ∉ s.compiled) : p ∉ s'.compiled := by
  induction h with
  | nil => exact hs
  | comment rest ih => exact ih hp hs
  | define new quiet rest ih => exact ih (quiet.compiling ▸ hp) (by rwa [quiet.sameFiles.compiled])
  | skip named old quiet rest ih => exact ih (quiet.compiling ▸ hp) (by rwa [quiet.sameFiles.compiled])
  | file named fresh opens within closes rest ihbody ih =>
    obtain ⟨_, _, _, _, _, hopens⟩ := opens.files_eq
    have hstack := within.compiling_eq.trans opens.compiling_eq
    refine ih ?_ ?_
    · rwa [closes.compiling_eq, hstack]
    · rw [closes.files_eq.2, List.mem_cons, not_or]
      exact ⟨fun heq => fresh (heq ▸ hp), ihbody (opens.compiling_eq ▸ List.mem_cons_of_mem _ hp) (by rwa [hopens])⟩
  | guarded quiet within rest ihbody ih =>
    have hp₁ := quiet.compiling ▸ hp
    exact ih (within.compiling_eq ▸ hp₁) (ihbody hp₁ (by rwa [quiet.sameFiles.compiled]))
  | module quiet within emits rest ihbody ih =>
    have hp₁ := quiet.compiling ▸ hp
    refine ih (emits.compiling ▸ within.compiling_eq ▸ hp₁) ?_
    rw [emits.sameFiles.compiled]
    exact ihbody hp₁ (by rwa [quiet.sameFiles.compiled])
  | declared at_path names gives rest ih =>
    have hsame := (declares_of_gives names gives).sameFiles
    exact ih (hsame.compiling ▸ hp) (by rwa [hsame.compiled])

end Continues

/-! ## Compiling a file -/

section Compile

variable {s : Compilation} {sources : Sources} {path : Path} {body : List Declaration} {P : Compilation → Prop}

/-- A file that was compiled before is skipped. -/
theorem attains_compile_of_mem (origin : Option FileRange) (hmem : path ∈ s.compiled) :
    Attains (compile sources origin path) s [] (Quiet s) := by
  refine attains_get ?_
  rw [compileFrom]
  refine attains_get ?_
  rw [if_pos hmem]
  exact (attains_note ..).bind fun _ => attains_pure

/-- A file that was not compiled before is compiled if its items can be declared. -/
theorem attains_compile_of_notMem (origin : Option FileRange) (fresh : path ∉ s.compiling) {text : String}
    {tokens : List Token} (hmem : path ∉ s.compiled) (hapart : (Placement.ofSource path).same path = false)
    (hread : sources.texts.lookup path = some text) (hlexed : Token.ofSource s.library.nextId text = .ok tokens)
    (hbody : ∀ t, Quiet { s.enter path with library := s.library.add ⟨path.text, text⟩ } t →
      Attains (declareAll ⟨path, includeFile sources⟩ (Placement.ofSource path)
        (Item.ofTokens (.ofFile s.library.nextId text) tokens)) t body P) :
    Attains (compile sources origin path) s body fun t => ∃ t₁, P t₁ ∧ Quiet { t₁.leave with
      compiled := path :: t₁.compiled
      emissions := t₁.emissions ++ [⟨Placement.ofSource path, body⟩] } t := by
  refine Attains.congr (outcome_compile sources fresh) (attains_get ?_)
  rw [if_neg hmem]
  simp only [hapart, Bool.false_eq_true, if_false, hread]
  have hadd : Quiet { s with library := s.library.add ⟨path.text, text⟩ }
    { s with library := s.library.add ⟨path.text, text⟩ } := ⟨_, rfl⟩
  refine attains_get ((attains_modify hadd).bind fun t₁ h₁ => (attains_ofExcept hlexed h₁).bind fun t₂ h₂ => ?_)
  refine (attains_note ..).bind fun t₃ h₃ => ?_
  obtain ⟨log, rfl⟩ := h₂.trans h₃
  refine (hbody _ ⟨log, rfl⟩).during.bind ?_
  rintro _ ⟨t₄, h₄, rfl⟩
  refine (attains_modify rfl (P := Eq { t₄.leave with compiled := path :: t₄.compiled })).bind fun t₅ h₅ => ?_
  subst h₅
  exact (attains_emit ..).bind fun t₆ h₆ => attains_pure ⟨t₄, h₄, h₆⟩

theorem attains_compileFile {q : Path} (hq : path.normalize = q)
    (h : ∀ t, Quiet s t → Attains (compile sources none q) t body P) :
    Attains (compileFile sources path) s body P := by
  subst hq
  rw [compileFile]
  split
  · exact (attains_note ..).bind fun t ht => h t ht
  · exact h s ⟨_, rfl⟩

end Compile

/-! ## Runs -/

/-- The state in which nothing happened but that the files of `stack` are being compiled. -/
def starting (stack : List Path) : Compilation := { empty with compiling := stack }

/-- Nothing is in the way of a run that ends in `s` when it is repeated, relocated by `ρ`, over other sources and after
what `F` holds. -/
structure Clear (ρ : Relocation) (F : Compilation) (sources sources' : Sources) (s : Compilation) : Prop where
  symbols : ∀ name ∈ s.symbols.names, name ∉ F.symbols.names
  defines : ∀ name ∈ s.defines.names, name ∉ F.defines.names
  files : ∀ q ∈ s.compiled, ρ.IsFile q
  new : ∀ q ∈ s.compiled, ρ.path q ∉ F.compiled ∧ ρ.path q ∉ F.compiling
  texts : ∀ q ∈ s.compiled, sources'.texts.lookup (ρ.path q) = sources.texts.lookup q
  leads : ∀ written, s.library.Writes written → ρ.Leads written

section Runs

variable {ρ : Relocation} {F s s₁ s' : Compilation} {sources sources' : Sources}
  {path target : Path} {items : List Item} {events : List Event}

theorem mirrors_empty {library : Library} (stack : List Path) {log : List LogEntry}
    (h : Quiet { starting stack with library, log } s') : Mirrors ρ (starting stack) .empty s' := by
  refine Mirrors.quiet ?_ h
  exact ⟨⟨rfl, List.forall_mem_nil _, List.forall_mem_nil _, List.forall_mem_nil _⟩, rfl, rfl, List.forall_mem_nil _,
    rfl, rfl⟩

/-- What is in the way of a run is in the way of each one that goes on from it. -/
theorem Clear.of_continues (h : Clear ρ F sources sources' s₁) (hc : Continues s s₁) :
    Clear ρ F sources sources' s where
  symbols name hname := h.symbols name (hc.symbols hname)
  defines name hname := h.defines name (hc.defines hname)
  files q hq := h.files q (hc.compiled.subset hq)
  new q hq := h.new q (hc.compiled.subset hq)
  texts q hq := h.texts q (hc.compiled.subset hq)
  leads written hwritten := h.leads written (hwritten.mono hc.library)

/-- A file that can be relocated stays out of a list of files when it is relocated with them. -/
theorem Relocation.path_notMem {q : Path} {files : List Path} (hq : ρ.IsFile q) (hfiles : ∀ p ∈ files, ρ.IsFile p)
    (h : q ∉ files) : ρ.path q ∉ files.map ρ.path := by
  intro hmem
  obtain ⟨p, hp, heq⟩ := List.mem_map.1 hmem
  exact h (ρ.injective (hfiles p hp) hq heq ▸ hp)

theorem Clear.path_notMem_compiled (h : Clear ρ F sources sources' s₁) (hs : Mirrors ρ F s s')
    (hc : s.compiled ⊆ s₁.compiled) {q : Path} (hq : q ∈ s₁.compiled) (hnew : q ∉ s.compiled) :
    ρ.path q ∉ s'.compiled := by
  rw [hs.compiled, List.mem_append, not_or]
  exact ⟨Relocation.path_notMem (h.files q hq) (fun p hp => h.files p (hc hp)) hnew, (h.new q hq).1⟩

theorem Clear.path_notMem_compiling (h : Clear ρ F sources sources' s₁) (hs : Mirrors ρ F s s')
    (hfiles : ∀ p ∈ s.compiling, ρ.IsFile p) {q : Path} (hq : q ∈ s₁.compiled) (hfresh : q ∉ s.compiling) :
    ρ.path q ∉ s'.compiling := by
  rw [hs.compiling, List.mem_append, not_or]
  exact ⟨Relocation.path_notMem (h.files q hq) hfiles hfresh, (h.new q hq).2⟩

/-- An include is carried over if the file that it leads to is. -/
theorem attains_include {head : Token} {written : String} {range : FileRange} {q : Path}
    (hs : Mirrors ρ F s s') (hq : included path written = q)
    (hfile : ∀ t, Mirrors ρ F s t → q ∉ t.compiling ∧
      ∃ ds, Attains (compile sources' (some range) q) t ds (Mirrors ρ F s₁)) :
    Attains (declare ⟨path, includeFile sources'⟩ target (.include head written range)) s' [] (Mirrors ρ F s₁) := by
  rw [declare]
  refine (hs.note ..).bind fun t₁ h₁ => (h₁.note ..).bind fun t₂ h₂ => ?_
  obtain ⟨hfresh, ds, hds⟩ := hfile t₂ h₂
  subst hq
  refine Attains.bind (a := ()) (P := Mirrors ρ F s₁) (attains_get ?_) fun _ => attains_pure
  dsimp only
  rw [included] at hfresh hds
  rw [if_neg hfresh]
  exact hds.discard

theorem attains_cons {ctx : Context} {item : Item} {event : Event}
    (hitem : Attains (declare ctx target item) s' (Event.declarations [event]) (Mirrors ρ F s))
    (hrest : ∀ t, Mirrors ρ F s t →
      Attains (declareAll ctx target items) t (Event.declarations events) (Mirrors ρ F s₁)) :
    Attains (declareAll ctx target (item :: items)) s' (Event.declarations (event :: events)) (Mirrors ρ F s₁) := by
  rw [declareAll, Event.declarations_cons]
  exact hitem.bind fun t₁ h₁ => (hrest t₁ h₁).bind fun _ => attains_pure

/-- A file that is compiled to its end in both of two states. -/
theorem Mirrors.closed {body : List Event} {s₂ t t₂ : Compilation} (h : Mirrors ρ F s₂ t₂) (hfile : ρ.IsFile path)
    (hstack : s₂.compiling ≠ []) (hcloses : Closes path body s₂ s)
    (ht : Quiet { t₂.leave with
      compiled := ρ.path path :: t₂.compiled
      emissions := t₂.emissions ++ [⟨Placement.ofSource (ρ.path path), Event.declarations body⟩] } t) :
    Mirrors ρ F s t := by
  refine Mirrors.of_quiet (Mirrors.quiet ?_ ht) hcloses
  refine ⟨h.symbols, h.defines, ?_, ?_, ?_, ?_⟩
  · simp [h.emissions, ρ.ofSource_path hfile, Relocation.emission]
  · exact List.forall_mem_append.2 ⟨h.targets, List.forall_mem_singleton.2 (ρ.target_ofSource hfile)⟩
  · simp [h.compiled]
  · simp only [leave, h.compiling, List.map_tail]
    exact List.tail_append_of_ne_nil (by simpa using hstack)

/-- A file is carried over if its body is. -/
theorem Opens.carried {body : List Event} {s₂ s₃ : Compilation} (hopens : Opens sources path s items s₁)
    (hstack : s₂.compiling = s₁.compiling) (hcloses : Closes path body s₂ s₃) (hfile : ρ.IsFile path)
    (hs : Mirrors ρ F s s') (htext : sources'.texts.lookup (ρ.path path) = sources.texts.lookup path)
    (hmem : ρ.path path ∉ s'.compiled) (origin : Option FileRange) (fresh : ρ.path path ∉ s'.compiling)
    (hbody : ∀ (σ : Shift) (t : Compilation), Mirrors ρ F s₁ t →
      Attains (declareAll ⟨ρ.path path, includeFile sources'⟩ (ρ.path (Placement.ofSource path)) (σ.items items)) t
        (Event.declarations body) (Mirrors ρ F s₂)) :
    Attains (compile sources' origin (ρ.path path)) s' (Event.declarations body) (Mirrors ρ F s₃) := by
  rw [hopens.compiling_eq] at hstack
  obtain ⟨-, apart, read, lexed, quiet⟩ := hopens
  obtain ⟨tokens', hlexed', hitems⟩ := Shift.exists_ofSource lexed s'.library.nextId
  have htarget := ρ.ofSource_path hfile
  have hapart : (Placement.ofSource (ρ.path path)).same (ρ.path path) = false := by rw [htarget, ρ.apart hfile, apart]
  refine (attains_compile_of_notMem (P := Mirrors ρ F s₂) origin fresh hmem hapart (htext.trans read) hlexed'
    fun t ht => ?_).mono ?_
  · rw [hitems, htarget]
    refine hbody _ t (Mirrors.of_quiet (Mirrors.quiet ?_ ht) quiet)
    exact ⟨hs.symbols, hs.defines, hs.emissions, hs.targets, hs.compiled, by simp [enter, hs.compiling]⟩
  · rintro t ⟨t₁, h₁, ht⟩
    exact h₁.closed hfile (by simp [hstack]) hcloses ht

theorem Opens.notMem (h : Opens sources path s items s₁) : path ∉ s.compiled := by
  obtain ⟨fresh, -, -, -, -⟩ := h
  exact fresh

theorem Opens.items_sound (h : Opens sources path s items s₁) : ∀ item ∈ items, item.Sound fun _ => True := by
  obtain ⟨-, -, -, -, -⟩ := h
  exact Item.sound_ofTokens (fun _ _ => trivial) fun _ _ _ => trivial

/-- A file that is opened is among those that are being compiled. -/
theorem Opens.open_of_fresh (h : Opens sources path s items s₁) (hopen : ∀ p ∈ s.compiling, p ∉ s.compiled) :
    ∀ p ∈ s₁.compiling, p ∉ s₁.compiled := by
  obtain ⟨_, _, _, _, _, hcompiled⟩ := h.files_eq
  rw [hcompiled, h.compiling_eq]
  exact List.forall_mem_cons.2 ⟨h.notMem, hopen⟩

/-- The includes of a file that was read lead somewhere if nothing is in the way. -/
theorem Opens.leads (h : Opens sources path s items s₁) (hc : Continues s₁ s')
    (hclear : Clear ρ F sources sources' s') : ∀ written ∈ Item.allIncludes items, ρ.Leads written := by
  obtain ⟨text, tokens, hlexed, rfl, hlibrary, -⟩ := h.files_eq
  intro written hmem
  refine hclear.leads written (Library.Writes.mono ?_ hc.library)
  rw [hlibrary]
  exact ⟨Library.get_add .., hlexed, hmem⟩

/-- A body that was declared is declared again in each state that mirrors its first one, if nothing is in the way. -/
theorem Traced.carried (h : Traced sources path target items s events s₁)
    (hpath : ρ.IsFile path) (hfiles : ∀ q ∈ s.compiling, ρ.IsFile q) (htarget : ρ.IsTarget target)
    (hsound : ∀ item ∈ items, item.Sound fun _ => True) (hleads : ∀ written ∈ Item.allIncludes items, ρ.Leads written)
    (hopen : ∀ q ∈ s.compiling, q ∉ s.compiled) (hclear : Clear ρ F sources sources' s₁)
    (htested : ∀ name ∈ Event.testedAll events, name ∉ F.defines.names) (σ : Shift) (hs : Mirrors ρ F s s') :
    Attains (declareAll ⟨ρ.path path, includeFile sources'⟩ (ρ.path target) (σ.items items)) s'
      (Event.declarations events) (Mirrors ρ F s₁) := by
  induction h generalizing σ s' with
  | nil =>
    rw [Shift.items, declareAll, Event.declarations]
    exact attains_pure hs
  | comment rest ih =>
    obtain ⟨-, hsound⟩ := List.forall_mem_cons.1 hsound
    rw [Item.allIncludes, Item.includes, List.nil_append] at hleads
    rw [Event.testedAll, Event.tested, List.nil_append] at htested
    refine attains_cons ?_ fun t ht => ih hpath hfiles htarget hsound hleads hopen hclear htested σ ht
    rw [Shift.item, declare, Event.declarations, Event.declarations]
    exact attains_pure hs
  | define new quiet rest ih =>
    obtain ⟨-, hsound⟩ := List.forall_mem_cons.1 hsound
    rw [Item.allIncludes, Item.includes, List.nil_append] at hleads
    rw [Event.testedAll, Event.tested, List.nil_append] at htested
    have hfiles₁ := quiet.compiling ▸ hfiles
    have hopen₁ := quiet.compiling ▸ quiet.sameFiles.compiled ▸ hopen
    have hname := hclear.defines _ (rest.continues.defines (continues_define new quiet).2)
    refine attains_cons ?_ fun t ht => ih hpath hfiles₁ htarget hsound hleads hopen₁ hclear htested σ ht
    rw [Shift.item, declare, Event.declarations, Event.declarations]
    refine (hs.note ..).bind fun t₁ h₁ => ?_
    refine ((h₁.define new ?_ hname).of_quiet quiet).bind fun t₂ h₂ => ?_
    · rfl
    · exact attains_pure h₂
  | @skip path target q head written range items events s s₂ s₁ named old quiet rest ih =>
    obtain ⟨-, hsound⟩ := List.forall_mem_cons.1 hsound
    rw [Item.allIncludes, Item.includes, List.singleton_append, List.forall_mem_cons] at hleads
    rw [Event.testedAll, Event.tested, List.nil_append] at htested
    have hfiles₁ := quiet.compiling ▸ hfiles
    have hopen₁ := quiet.compiling ▸ quiet.sameFiles.compiled ▸ hopen
    have hq : q ∈ s₁.compiled := rest.continues.compiled.subset (quiet.sameFiles.compiled ▸ old)
    have hfresh : q ∉ s.compiling := fun hmem => hopen q hmem old
    have hmem : ∀ t, Mirrors ρ F s t → ρ.path q ∈ t.compiled := by
      intro t ht
      rw [ht.compiled]
      exact List.mem_append_left _ (List.mem_map_of_mem old)
    have hincluded : included (ρ.path path) written = ρ.path q := by
      have hfile := hclear.files q hq
      subst named
      exact ρ.included hpath hleads.1 hfile
    refine attains_cons ?_ fun t ht => ih hpath hfiles₁ htarget hsound hleads.2 hopen₁ hclear htested σ ht
    rw [Shift.item, Event.declarations, Event.declarations]
    refine (attains_include hs hincluded fun t ht => ⟨?_, [], ?_⟩).of_quiet quiet
    · exact hclear.path_notMem_compiling ht hfiles hq hfresh
    · exact (attains_compile_of_mem _ (hmem t ht)).mono fun _ => ht.quiet
  | @file path target q head written range inner items body events s sa sb sc s₁ named fresh opens within closes
      rest ihbody ih =>
    obtain ⟨-, hsound⟩ := List.forall_mem_cons.1 hsound
    rw [Item.allIncludes, Item.includes, List.singleton_append, List.forall_mem_cons] at hleads
    rw [Event.testedAll, Event.tested, List.forall_mem_append] at htested
    have hbetween := closes.continues.trans rest.continues
    have hq : q ∈ s₁.compiled := rest.continues.compiled.subset (closes.files_eq.2 ▸ List.mem_cons_self)
    have hfile := hclear.files q hq
    have hincluded : included (ρ.path path) written = ρ.path q := by
      have hfile := hfile
      subst named
      exact ρ.included hpath hleads.1 hfile
    have hopen₁ := opens.open_of_fresh hopen
    have hfiles₁ : ∀ p ∈ sa.compiling, ρ.IsFile p := opens.compiling_eq ▸ List.forall_mem_cons.2 ⟨hfile, hfiles⟩
    have hstack : sc.compiling = s.compiling := by
      rw [closes.compiling_eq, within.compiling_eq, opens.compiling_eq, List.tail_cons]
    have hopen₂ : ∀ p ∈ sc.compiling, p ∉ sc.compiled := by
      intro p hp
      rw [hstack] at hp
      have hp₁ : p ∈ sa.compiling := opens.compiling_eq ▸ List.mem_cons_of_mem _ hp
      rw [closes.files_eq.2, List.mem_cons, not_or]
      exact ⟨fun heq => fresh (heq ▸ hp), within.notMem_compiled hp₁ (hopen₁ p hp₁)⟩
    refine attains_cons ?_ fun t ht =>
      ih hpath (hstack ▸ hfiles) htarget hsound hleads.2 hopen₂ hclear htested.2 σ ht
    rw [Shift.item, Event.declarations, Event.declarations]
    refine attains_include hs hincluded fun t ht => ?_
    have hnew := hclear.path_notMem_compiling ht hfiles hq fresh
    refine ⟨hnew, Event.declarations body, ?_⟩
    refine opens.carried within.compiling_eq closes hfile ht (hclear.texts q hq) ?_ _ hnew fun σ t ht => ?_
    · exact hclear.path_notMem_compiled ht (opens.continues.trans (within.continues.trans hbetween)).compiled.subset hq
        opens.notMem
    · exact ihbody hfile hfiles₁ (ρ.target_ofSource hfile) opens.items_sound
        (opens.leads (within.continues.trans hbetween) hclear) hopen₁ (hclear.of_continues hbetween) htested.1 σ ht
  | @guarded path target head name inner items body events s sa sb s₁ quiet within rest ihbody ih =>
    obtain ⟨hitem, hsound⟩ := List.forall_mem_cons.1 hsound
    rw [Item.allIncludes, Item.includes, List.forall_mem_append] at hleads
    rw [Event.testedAll, Event.tested, List.cons_append, List.forall_mem_cons, List.forall_mem_append] at htested
    have hfiles₁ := quiet.compiling ▸ hfiles
    have hopen₁ := quiet.compiling ▸ quiet.sameFiles.compiled ▸ hopen
    have hfiles₂ := within.compiling_eq ▸ hfiles₁
    have hopen₂ := within.compiling_eq ▸ fun q hq => within.notMem_compiled hq (hopen₁ q hq)
    refine attains_cons ?_ fun t ht => ih hpath hfiles₂ htarget hsound hleads.2 hopen₂ hclear htested.2.2 σ ht
    cases hitem with
    | guarded hinner =>
      rw [Shift.item, declare, Event.declarations, Event.declarations, List.append_nil]
      refine (hs.note ..).bind fun t₁ h₁ => attains_get ?_
      refine (ihbody hpath hfiles₁ htarget hinner hleads.1 hopen₁ (hclear.of_continues rest.continues) htested.2.1 σ
        (h₁.of_quiet quiet)).bind fun t₂ h₂ => ?_
      have hdefined : t₁.defines.isDefined (σ.name name).text = s.defines.isDefined name.text :=
        h₁.isDefined_eq htested.1
      rw [hdefined]
      exact attains_pure h₂
  | @module path target head name inner items trailing body events s sa sb sc s₁ quiet within emits rest ihbody
      ih =>
    obtain ⟨hitem, hsound⟩ := List.forall_mem_cons.1 hsound
    rw [Item.allIncludes, Item.includes, List.forall_mem_append] at hleads
    rw [Event.testedAll, Event.tested, List.forall_mem_append] at htested
    have hfiles₁ := quiet.compiling ▸ hfiles
    have hopen₁ := quiet.compiling ▸ quiet.sameFiles.compiled ▸ hopen
    have hfiles₂ := emits.compiling ▸ within.compiling_eq ▸ hfiles₁
    have hopen₂ := emits.compiling ▸ within.compiling_eq ▸ fun q hq =>
      emits.sameFiles.compiled ▸ within.notMem_compiled hq (hopen₁ q hq)
    refine attains_cons ?_ fun t ht => ih hpath hfiles₂ htarget hsound hleads.2 hopen₂ hclear htested.2 σ ht
    cases hitem with
    | module hname hinner =>
      have hclear₁ := hclear.of_continues ((continues_emit emits).trans rest.continues)
      have hbody := fun t (ht : Mirrors ρ F sa t) =>
        ihbody hpath hfiles₁ (ρ.target_ofModule htarget hname) hinner hleads.1 hopen₁ hclear₁ htested.1 σ ht
      rw [Shift.item, declare, Event.declarations, Event.declarations, List.append_nil]
      dsimp only [Shift.name]
      rw [ρ.ofModule_path htarget hname]
      refine (hs.note ..).bind fun t₁ h₁ => (hbody t₁ (h₁.of_quiet quiet)).bind fun t₂ h₂ => ?_
      refine (attains_pure h₂).bind fun t₃ h₃ => ?_
      have hemit := h₃.emit (ρ.target_ofModule htarget hname) (Event.declarations body)
      exact (hemit.of_quiet emits).bind fun _ => attains_pure
  | declared at_path names gives rest ih =>
    obtain ⟨hitem, hsound⟩ := List.forall_mem_cons.1 hsound
    rw [Item.allIncludes, Item.includes_of_declares names, List.nil_append] at hleads
    rw [Event.testedAll, Event.tested, List.nil_append] at htested
    have hdeclares := declares_of_gives names gives
    have hsame := hdeclares.sameFiles
    have hfiles₁ := hsame.compiling ▸ hfiles
    have hopen₁ := hsame.compiling ▸ hsame.compiled ▸ hopen
    refine attains_cons ?_ fun t ht => ih hpath hfiles₁ htarget hsound hleads hopen₁ hclear htested σ ht
    rw [Event.declarations, Event.declarations, List.append_nil]
    refine carries_declare σ htarget hitem (fun name hname => ?_) names hs gives
    exact hclear.symbols name (rest.continues.symbols (hdeclares.continues.2 name hname))

theorem FileTraced.mem_compiled {body : List Event} (h : FileTraced sources path s body s₁) :
    path ∈ s₁.compiled := by
  obtain ⟨items, sa, sb, opens, within, closes⟩ := h
  exact closes.files_eq.2 ▸ List.mem_cons_self

theorem FileTraced.compiling_eq {body : List Event} (h : FileTraced sources path s body s₁) :
    s₁.compiling = s.compiling := by
  obtain ⟨items, sa, sb, opens, within, closes⟩ := h
  rw [closes.compiling_eq, within.compiling_eq, opens.compiling_eq, List.tail_cons]

/-- A file that was compiled while no other one was, is compiled again in each state that mirrors its first one, if
nothing is in the way. -/
theorem FileTraced.carried {body : List Event} (h : FileTraced sources path s body s₁) (hstack : s.compiling = [])
    (hclear : Clear ρ F sources sources' s₁) (htested : ∀ name ∈ Event.testedAll body, name ∉ F.defines.names)
    (hs : Mirrors ρ F s s') (origin : Option FileRange) :
    Attains (compile sources' origin (ρ.path path)) s' (Event.declarations body) (Mirrors ρ F s₁) := by
  have hpath := h.mem_compiled
  obtain ⟨items, sa, sb, opens, within, closes⟩ := h
  have hfile := hclear.files path hpath
  have hbetween := within.continues.trans closes.continues
  have hfiles : ∀ p ∈ s.compiling, ρ.IsFile p := by simp [hstack]
  refine opens.carried within.compiling_eq closes hfile hs (hclear.texts path hpath) ?_ origin ?_ fun σ t ht => ?_
  · exact hclear.path_notMem_compiled hs (opens.continues.trans hbetween).compiled.subset hpath opens.notMem
  · exact hclear.path_notMem_compiling hs hfiles hpath (by simp [hstack])
  · exact within.carried hfile (opens.compiling_eq ▸ List.forall_mem_cons.2 ⟨hfile, hfiles⟩) (ρ.target_ofSource hfile)
      opens.items_sound (opens.leads hbetween hclear) (opens.open_of_fresh (by simp [hstack]))
      (hclear.of_continues closes.continues) htested σ ht

end Runs

end Compilation

end Idl
