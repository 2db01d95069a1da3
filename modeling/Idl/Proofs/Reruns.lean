import Idl.Proofs.Includes
import Idl.Proofs.Saving
import Idl.Proofs.Stacks

/-!
# Running again

A compilation that succeeds depends on the files that it read and on nothing else that could be read
(`reads_compile`). Saving changes none of these files, unless the output for a file with a stray name
leads to one. So another run finds the same files, makes the same outputs and puts them in the same
places.
-/

namespace Idl

open Placement

namespace Compilation

/-! ## The files that a compilation depends on -/

/-- While the files on the stack are `stack`, the step `m` adds files to those that were read, and where
two sources agree on all that was read in the end, the step `m'` succeeds in the same way. -/
structure Reads {α : Type} (sources sources' : Sources) (stack : List Path) (m m' : CompileM α) : Prop where
  adds : ∀ s a s', s.compiling = stack → Gives m s a s' → AddsFiles s s'
  stays : ∀ s a s', s.compiling = stack → Gives m s a s' → s'.compiling = stack
  again : ∀ s a s', s.compiling = stack → Gives m s a s' →
    (∀ p ∈ s'.paths, sources'.texts.lookup p = sources.texts.lookup p) → Gives m' s a s'

section Reads

variable {α β : Type} {sources sources' : Sources} {stack : List Path}

theorem AddsFiles.paths_subset {s s' : Compilation} (h : AddsFiles s s') : s.paths ⊆ s'.paths :=
  List.map_subset _ h.library.subset

theorem Reads.bind {m m' : CompileM α} {f f' : α → CompileM β} (h : Reads sources sources' stack m m')
    (hf : ∀ a, Reads sources sources' stack (f a) (f' a)) : Reads sources sources' stack (m >>= f) (m' >>= f') := by
  constructor
  · intro s b s' hs hb
    obtain ⟨a, s₁, ha, hb⟩ := gives_bind.1 hb
    exact (h.adds s a s₁ hs ha).trans ((hf a).adds s₁ b s' (h.stays s a s₁ hs ha) hb)
  · intro s b s' hs hb
    obtain ⟨a, s₁, ha, hb⟩ := gives_bind.1 hb
    exact (hf a).stays s₁ b s' (h.stays s a s₁ hs ha) hb
  · intro s b s' hs hb hagree
    obtain ⟨a, s₁, ha, hb⟩ := gives_bind.1 hb
    have hs₁ := h.stays s a s₁ hs ha
    have hadds := (hf a).adds s₁ b s' hs₁ hb
    refine gives_bind.2 ⟨a, s₁, h.again s a s₁ hs ha fun p hp => ?_, (hf a).again s₁ b s' hs₁ hb hagree⟩
    exact hagree p (hadds.paths_subset hp)

/-- A step that touches no file. -/
theorem reads_of_same {m : CompileM α} (h : ∀ s a s', Gives m s a s' → SameFiles s s') :
    Reads sources sources' stack m m :=
  ⟨fun s a s' _ ha => (h s a s' ha).addsFiles, fun s a s' hs ha => (h s a s' ha).compiling.trans hs,
    fun _ _ _ _ ha _ => ha⟩

theorem reads_of_keeps {m : CompileM α} (h : ∀ s, Keeps m s) : Reads sources sources' stack m m :=
  reads_of_same fun s => (h s).success

theorem reads_of_not_gives {m m' : CompileM α} (h : ∀ s a s', ¬Gives m s a s') : Reads sources sources' stack m m' :=
  ⟨fun s a s' _ ha => absurd ha (h s a s'), fun s a s' _ ha => absurd ha (h s a s'),
    fun s a s' _ ha => absurd ha (h s a s')⟩

theorem reads_pure (a : α) : Reads sources sources' stack (pure a) (pure a) := reads_of_keeps fun _ => keeps_pure a

theorem Reads.discard {m m' : CompileM α} (h : Reads sources sources' stack m m') :
    Reads sources sources' stack (discard m) (discard m') := by
  simp only [Functor.discard, map_const, Function.comp_apply, map_eq_pure_bind]
  exact h.bind fun _ => reads_pure _

theorem reads_modify {f : Compilation → Compilation} (h : ∀ s, AddsFiles s (f s))
    (hstack : ∀ s, (f s).compiling = s.compiling) : Reads sources sources' stack (modify f) (modify f) :=
  ⟨fun s _ _ _ hm => gives_modify.1 hm ▸ h s, fun s _ _ hs hm => gives_modify.1 hm ▸ (hstack s).trans hs,
    fun _ _ _ _ hm _ => hm⟩

/-- A step that runs while a file is being compiled. -/
theorem Reads.during {m m' : CompileM α} {path : Path} (h : Reads sources sources' (path :: stack) m m') :
    Reads sources sources' stack (during path m) (during path m') := by
  constructor
  · rintro s a s' rfl ha
    obtain ⟨s₁, hm, rfl⟩ := gives_during.1 ha
    exact ⟨(h.adds _ a s₁ rfl hm).library, (h.adds _ a s₁ rfl hm).compiled⟩
  · rintro s a s' rfl ha
    obtain ⟨s₁, hm, rfl⟩ := gives_during.1 ha
    exact congrArg List.tail (h.stays _ a s₁ rfl hm)
  · rintro s a s' rfl ha hagree
    obtain ⟨s₁, hm, rfl⟩ := gives_during.1 ha
    exact gives_during.2 ⟨s₁, h.again _ a s₁ rfl hm hagree, rfl⟩

theorem reads_get : Reads sources sources' stack get get := reads_of_keeps fun _ => keeps_get

/-- A step that looks at the stack. -/
theorem reads_get_bind {f f' : Compilation → CompileM α}
    (hf : ∀ s, s.compiling = stack → Reads sources sources' stack (f s) (f' s)) :
    Reads sources sources' stack (get >>= f) (get >>= f') :=
  ⟨fun s a s' hs h => (hf s hs).adds s a s' hs h, fun s a s' hs h => (hf s hs).stays s a s' hs h,
    fun s a s' hs h => (hf s hs).again s a s' hs h⟩

theorem reads_reach (path : Path) (head : Token) : Reads sources sources' stack (reach path head) (reach path head) :=
  reads_of_keeps fun _ => keeps_reach path head

theorem reads_note (level : LogLevel) (message : String) :
    Reads sources sources' stack (note level message) (note level message) :=
  reads_of_keeps fun _ => keeps_note level message

theorem reads_emit (target : Path) (body : List Declaration) :
    Reads sources sources' stack (emit target body) (emit target body) := reads_of_keeps fun _ => keeps_emit target body

theorem reads_stopAt (fault : Option Error) : Reads sources sources' stack (stopAt fault) (stopAt fault) := by
  refine reads_of_same fun s _ _ h => ?_
  obtain ⟨-, rfl⟩ := gives_stopAt.1 h
  exact .refl s

end Reads

section Declare

variable {sources sources' : Sources} {stack : List Path} {ctx ctx' : Context}

theorem reads_of_declares {target : Path} {item : Item} (hpath : ctx'.path = ctx.path) (h : item.declares = true) :
    Reads sources sources' stack (declare ctx target item) (declare ctx' target item) := by
  have heq : declare ctx' target item = declare ctx target item := by
    cases item <;> first | (cases h; done) | rw [declare, declare, hpath]
  rw [heq]
  exact reads_of_same fun _ _ _ hgives => (declares_of_gives h hgives).sameFiles

mutual

theorem reads_declare (hpath : ctx'.path = ctx.path)
    (hinclude : ∀ path range, Reads sources sources' stack (ctx.includeFile path range) (ctx'.includeFile path range)) :
    ∀ {target : Path} {item : Item},
      Reads sources sources' stack (declare ctx target item) (declare ctx' target item)
  | _, .comment _ => reads_pure _
  | _, .define .. => by
    rw [declare, declare, hpath]
    exact (reads_reach ..).bind fun _ => (reads_of_keeps fun _ => keeps_define _).bind fun _ => reads_pure _
  | _, .include .. => by
    rw [declare, declare, hpath]
    refine (reads_reach ..).bind fun _ => (reads_note ..).bind fun _ => ?_
    exact (hinclude ..).bind fun _ => reads_pure _
  | _, .guarded .. => by
    rw [declare, declare, hpath]
    refine (reads_reach ..).bind fun _ => reads_get.bind fun _ => ?_
    exact (reads_declareAll hpath hinclude).bind fun _ => reads_pure _
  | _, .module .. => by
    rw [declare, declare, hpath]
    refine (reads_reach ..).bind fun _ => (reads_declareAll hpath hinclude).bind fun _ => ?_
    exact (reads_stopAt _).bind fun _ => (reads_emit ..).bind fun _ => reads_pure _
  | _, .typedef .. | _, .record .. | _, .enum .. | _, .interface .. => reads_of_declares hpath rfl
  | _, .fault .. => reads_of_not_gives fun _ _ _ h => by simp [declare] at h

theorem reads_declareAll (hpath : ctx'.path = ctx.path)
    (hinclude : ∀ path range, Reads sources sources' stack (ctx.includeFile path range) (ctx'.includeFile path range)) :
    ∀ {target : Path} {items : List Item},
      Reads sources sources' stack (declareAll ctx target items) (declareAll ctx' target items)
  | _, [] => reads_pure _
  | _, item :: items => by
    refine (reads_declare hpath hinclude).bind fun _ => ?_
    exact (reads_declareAll hpath hinclude).bind fun _ => reads_pure _

end

end Declare

section Files

variable {sources sources' : Sources} {stack : List Path} {path target : Path}
  {includeFile includeFile' : Path → FileRange → CompileM Unit}

theorem reads_compileText (hinclude : ∀ written range,
      Reads sources sources' (path :: stack) (includeFile written range) (includeFile' written range)) (text : String) :
    Reads sources sources' stack (compileText includeFile path target text)
      (compileText includeFile' path target text) := by
  refine reads_get.bind fun _ => ?_
  refine (reads_modify (by exact fun _ => ⟨List.prefix_append .., List.suffix_rfl⟩)
    (by exact fun _ => rfl)).bind fun _ => ?_
  refine (reads_of_same fun s _ _ h => ?_).bind fun _ => ?_
  · obtain ⟨-, rfl⟩ := gives_ofExcept.1 h
    exact .refl s
  · refine (reads_note ..).bind fun _ => (Reads.during ?_).bind fun _ => ?_
    · exact reads_declareAll (by rfl) hinclude
    · refine (reads_modify (by exact fun _ => ⟨List.prefix_rfl, List.suffix_cons ..⟩) (by exact fun _ => rfl)).bind
        fun _ => ?_
      exact (reads_emit ..).bind fun _ => reads_pure _

/-- A file that is compiled to its end has been read. -/
theorem mem_paths_of_compileText {text : String} {ds : List Declaration} {s s' : Compilation}
    (hinclude : ∀ written range,
      Reads sources sources' (path :: s.compiling) (includeFile written range) (includeFile' written range))
    (h : Gives (compileText includeFile path target text) s ds s') : path ∈ s'.paths := by
  simp only [compileText, gives_bind, gives_get, gives_modify, gives_ofExcept, gives_during, gives_pure] at h
  obtain ⟨_, _, ⟨rfl, rfl⟩, _, _, rfl, tokens, _, ⟨-, rfl⟩, _, s₁, hnote, body, _, ⟨s₂, hitems, rfl⟩, _, _, rfl, _, s₃,
    hemit, rfl, rfl⟩ := h
  obtain ⟨log, rfl⟩ := quiet_of_note hnote
  have hbody : Reads sources sources' (path :: s.compiling)
      (declareAll ⟨path, includeFile⟩ target (Item.ofTokens (.ofFile s.library.nextId text) tokens))
      (declareAll ⟨path, includeFile'⟩ target (Item.ofTokens (.ofFile s.library.nextId text) tokens)) :=
    reads_declareAll (by rfl) hinclude
  have hadds := hbody.adds _ _ _ rfl hitems
  obtain ⟨log', rfl⟩ := gives_emit hemit
  exact hadds.paths_subset (by simp [paths, enter, Library.add])

theorem reads_compileOnce {origin : Option FileRange}
    (hinclude : ∀ text, sources.texts.lookup path = some text → ∀ written range,
      Reads sources sources' (path :: stack) (includeFile written range) (includeFile' written range)) :
    Reads sources sources' stack (compileOnce includeFile sources origin path)
      (compileOnce includeFile' sources' origin path) := by
  refine reads_get.bind fun state => ?_
  by_cases hmem : path ∈ state.compiled
  · rw [if_pos hmem, if_pos hmem]
    exact (reads_note ..).bind fun _ => reads_pure _
  · rw [if_neg hmem, if_neg hmem]
    dsimp only
    by_cases hsame : (ofSource path).same path = true
    · rw [if_pos hsame]
      exact reads_of_not_gives fun _ _ _ h => by simp at h
    · rw [if_neg hsame, if_neg hsame]
      cases htext : sources.texts.lookup path with
      | none => exact reads_of_not_gives fun _ _ _ => gives_throw
      | some text =>
        have hread : Reads sources sources' stack (compileText includeFile path (ofSource path) text)
            (compileText includeFile' path (ofSource path) text) := reads_compileText (hinclude text htext) text
        refine ⟨hread.adds, hread.stays, fun s ds s' hs hgives hagree => ?_⟩
        have hpath := mem_paths_of_compileText (by rw [hs]; exact hinclude text htext) hgives
        rw [(hagree path hpath).trans htext]
        exact hread.again s ds s' hs hgives hagree

/-- A file that is not on the stack is compiled in the same way wherever the files that were read can be
read. -/
theorem reads_compile {origin : Option FileRange} (fresh : path ∉ stack) :
    Reads sources sources' stack (compile sources origin path) (compile sources' origin path) := by
  induction hn : sources.unread stack using Nat.strongRecOn generalizing stack origin path with
  | _ n ih =>
    subst hn
    have honce : Reads sources sources' stack (compileOnce (Compilation.includeFile sources) sources origin path)
        (compileOnce (Compilation.includeFile sources') sources' origin path) := by
      refine reads_compileOnce fun text htext written range => reads_get_bind fun s hs => ?_
      rw [hs]
      split
      · exact reads_of_not_gives fun _ _ _ => gives_throw
      · rename_i hq
        exact (ih _ (sources.unread_cons_lt htext fresh) hq rfl).discard
    constructor
    · rintro s ds s' rfl h
      rw [Gives, outcome_compile sources fresh] at h
      exact honce.adds s ds s' rfl h
    · rintro s ds s' rfl h
      rw [Gives, outcome_compile sources fresh] at h
      exact honce.stays s ds s' rfl h
    · rintro s ds s' rfl h hagree
      rw [Gives, outcome_compile _ fresh] at h ⊢
      exact honce.again s ds s' rfl h hagree

theorem reads_compileFile (path : Path) :
    Reads sources sources' [] (compileFile sources path) (compileFile sources' path) := by
  unfold compileFile
  split
  · exact (reads_note ..).bind fun _ => reads_compile List.not_mem_nil
  · exact reads_compile List.not_mem_nil

end Files

end Compilation

/-! ## Texts that stay -/

namespace Store

theorem lookup_texts_insert {s : Store} {p q : Path} (h : q ≠ p.normalize) (contents : String) :
    (s.insert p contents).texts.lookup q = s.texts.lookup q := by
  have hkey : (q == Path.ofComponents (Path.resolve p.components)) = false := by
    rwa [beq_eq_false_iff_ne]
  unfold insert texts PathTable.insert
  dsimp only
  fun_induction PathTable.insertEntry (Path.resolve p.components) contents s.table.entries with
  | case1 => simp [List.lookup_cons, hkey]
  | case2 => simp [List.lookup_cons, hkey]
  | case3 other b rest heq =>
    obtain rfl : Path.resolve p.components = other := Std.LawfulEqOrd.eq_of_compare heq
    simp [List.lookup_cons, hkey]
  | case4 other b rest hgt ih => simp only [List.map_cons, List.lookup_cons, ih]

theorem lookup_texts_erase {s : Store} {p q : Path} (h : q ≠ p.normalize) :
    (s.put p none).texts.lookup q = s.texts.lookup q := by
  unfold put texts PathTable.erase
  dsimp only
  induction s.table.entries with
  | nil => rfl
  | cons entry entries ih =>
    by_cases hentry : entry.1 = Path.resolve p.components
    · have hkey : (q == Path.ofComponents entry.1) = false := by
        rwa [hentry, beq_eq_false_iff_ne]
      rw [List.filter_cons_of_neg (by simpa using hentry), ih, List.map_cons, List.lookup_cons, hkey]
    · rw [List.filter_cons_of_pos (by simpa using hentry), List.map_cons, List.map_cons, List.lookup_cons,
        List.lookup_cons, ih]

/-- What is put in another place leaves the text at a normal path alone. -/
theorem lookup_texts_put {s : Store} {p q : Path} (h : q ≠ p.normalize) (contents : Option String) :
    (s.put p contents).texts.lookup q = s.texts.lookup q := by
  cases contents with
  | some contents => exact lookup_texts_insert h contents
  | none => exact lookup_texts_erase h

/-- Puts outputs in their places, one after the other. -/
def putAll (s : Store) (outputs : List Output) : Store := outputs.foldl (fun t o => t.put o.path o.contents) s

theorem lookup_texts_putAll {outputs : List Output} {q : Path} (h : ∀ o ∈ outputs, q ≠ o.path.normalize) (s : Store) :
    (s.putAll outputs).texts.lookup q = s.texts.lookup q := by
  induction outputs generalizing s with
  | nil => rfl
  | cons o outputs ih =>
    obtain ⟨ho, houtputs⟩ := List.forall_mem_cons.1 h
    exact (ih houtputs _).trans (lookup_texts_put ho _)

theorem get?_putAll {outputs : List Output} {p : Path} (h : ∀ o ∈ outputs, p.normalize ≠ o.path.normalize) (s : Store) :
    (s.putAll outputs).get? p = s.get? p := by
  induction outputs generalizing s with
  | nil => rfl
  | cons o outputs ih =>
    obtain ⟨ho, houtputs⟩ := List.forall_mem_cons.1 h
    refine (ih houtputs _).trans ?_
    rw [get?_put, if_neg ho]

/-- What is in the place of an output in the end does not depend on what was there before. -/
theorem get?_putAll_congr {outputs : List Output} {p : Path} {s t : Store}
    (h : s.get? p = t.get? p ∨ ∃ o ∈ outputs, p.normalize = o.path.normalize) :
    (s.putAll outputs).get? p = (t.putAll outputs).get? p := by
  induction outputs generalizing s t with
  | nil => simpa [putAll] using h
  | cons o outputs ih =>
    refine ih ?_
    by_cases ho : p.normalize = o.path.normalize
    · exact .inl (by rw [get?_put, get?_put, if_pos ho, if_pos ho])
    · rw [get?_put, get?_put, if_neg ho, if_neg ho]
      refine h.imp_right fun ⟨o', ho', hplace⟩ => ?_
      rcases List.mem_cons.1 ho' with rfl | ho'
      · exact absurd hplace ho
      · exact ⟨o', ho', hplace⟩

/-- Putting outputs in their places twice is the same as once. -/
theorem get?_putAll_putAll (s : Store) (outputs : List Output) (p : Path) :
    ((s.putAll outputs).putAll outputs).get? p = (s.putAll outputs).get? p := by
  refine get?_putAll_congr ?_
  by_cases h : ∃ o ∈ outputs, p.normalize = o.path.normalize
  · exact .inr h
  · exact .inl (get?_putAll (fun o ho hplace => h ⟨o, ho, hplace⟩) s)

end Store

/-! ## Storages in which nothing fails -/

namespace FaultyStore

/-- A store in which nothing fails. -/
def faultless (store : Store) : FaultyStore := ⟨store, fun _ _ => none⟩

theorem texts_faultless (store : Store) : (Storage.sources (faultless store)).texts = store.texts := by
  change store.texts.filter (fun _ => true) = store.texts
  simp

theorem attempt_faultless (store : Store) (o : Output) :
    o.attempt (faultless store) = (.ok (), faultless (store.put o.path o.contents)) := by
  unfold Output.attempt Output.operations
  rcases o.contents with _ | contents
  · change Storage.performAll (faultless store) (if (store.get? o.path).isSome then _ else _) = _
    rcases hget : store.get? o.path with _ | text
    · rw [Store.put_none_of_absent hget]
      rfl
    · have hremove : Storage.perform (faultless store) (.remove o.path) =
          (.ok (), faultless (store.put o.path none)) := by
        change (store.perform (.remove o.path)).map id faultless = _
        simp [Store.perform, Store.remove, hget, Storage.settle, Store.put]
      change Storage.performAll (faultless store) [.remove o.path] = _
      rw [Output.performAll_of_ok (by rw [hremove]), hremove]
      rfl
  · rcases o.path.parent? with _ | dir <;> rfl

theorem storageAfter_faultless (store : Store) (outputs : List Output) :
    Run.storageAfter (faultless store) outputs = faultless (store.putAll outputs) := by
  induction outputs generalizing store with
  | nil => rfl
  | cons o outputs ih =>
    rw [Run.storageAfter, List.foldl_cons, attempt_faultless]
    exact ih _

end FaultyStore

/-! ## Runs -/

namespace Run

open Compilation

/-- A run whose compilation ended in the state `st` does to the storage `s` what its outputs say. -/
structure Saves {σ : Type} [Storage σ] [KeptInStore σ] (console : Console) (s : σ) (st : Compilation)
    (r : RunResult σ) : Prop where
  /-- Every output is tried, whatever happened to the ones before it. -/
  storage_eq : r.storage = storageAfter s st.finish.1
  elsewhere : ∀ p, (∀ o ∈ st.finish.1, p.normalize ≠ o.path.normalize) →
    (KeptInStore.store r.storage).get? p = (KeptInStore.store s).get? p
  /-- The place of an output holds its contents, or it is as before if an operation on it failed. -/
  own : ∀ before o after, st.finish.1 = before ++ o :: after →
    (∀ o' ∈ before ++ after, o'.path.normalize ≠ o.path.normalize) →
    ((o.attempt (storageAfter s before)).1 = .ok () ∧ (KeptInStore.store r.storage).get? o.path = o.contents) ∨
      ((∃ reason, (o.attempt (storageAfter s before)).1 = .error reason) ∧
        (KeptInStore.store r.storage).get? o.path = (KeptInStore.store s).get? o.path)
  /-- Outputs share a place only if one of them is that of a file with a stray name. -/
  shared : ∀ before o after, st.finish.1 = before ++ o :: after → ∀ o' ∈ before ++ after,
    o'.path.normalize = o.path.normalize →
    ∃ f ∈ st.library.files, isStray f.path = true ∧ (o.path = ofSource f.path ∨ o'.path = ofSource f.path)
  status_iff : r.status = .error ↔
    ∃ before o after, st.finish.1 = before ++ o :: after ∧ o.Fails console (storageAfter s before)

section Runs

variable {σ : Type} [Storage σ] {s : σ} {path : Path} {ds : List Declaration} {st : Compilation}

theorem compileAndSave_of_gives (console : Console) (h : Gives (compileFile (Storage.sources s) path) .empty ds st) :
    (compileAndSave console s path).storage = storageAfter s st.finish.1 ∧
      (compileAndSave console s path).status = (saveAll console st.library s st.finish.1).status := by
  have hrun : (compileFile (Storage.sources s) path).run .empty = (.ok ds, st) := h
  unfold compileAndSave
  rw [hrun]
  exact ⟨storage_saveAll s st.finish.1, rfl⟩

theorem saves_of_gives [KeptInStore σ] (console : Console)
    (h : Gives (compileFile (Storage.sources s) path) .empty ds st) :
    Saves console s st (compileAndSave console s path) := by
  obtain ⟨hstorage, hstatus⟩ := compileAndSave_of_gives console h
  have hconsistent := consistent_of_gives h
  refine ⟨hstorage, fun p hp => ?_, fun before o after heq hother => ?_, fun before o after heq o' ho' hplace => ?_, ?_⟩
  · rw [hstorage]
    exact get?_storageAfter hp s
  · rw [hstorage, heq]
    exact get?_storageAfter_own hother s
  · have hne := Output.path_ne_of_split heq o' ho'
    refine hconsistent.exists_stray ?_ ?_ hne.symm hplace.symm
    · rw [heq]
      simp
    · rw [heq]
      rcases List.mem_append.1 ho' with ho' | ho' <;> simp [ho']
  · rw [hstatus, status_saveAll]

/-- A run that fails to compile leaves the storage alone and writes no line. -/
theorem compileAndSave_of_error {console : Console} {e : Error}
    (h : outcome (compileFile (Storage.sources s) path) .empty = (.error e, st)) :
    (compileAndSave console s path).storage = s ∧ (compileAndSave console s path).status = .error ∧
      ∀ text, Report.line text ∉ (compileAndSave console s path).reports := by
  have hrun : (compileFile (Storage.sources s) path).run .empty = (.error e, st) := h
  unfold compileAndSave
  rw [hrun]
  refine ⟨rfl, rfl, fun text hmem => ?_⟩
  rcases List.mem_append.1 hmem with hmem | hmem
  · simp at hmem
  · exact console.line_notMem_tell _ _ text hmem

end Runs

section Faultless

variable {console : Console} {store : Store} {path : Path} {ds : List Declaration} {st : Compilation}

theorem compileAndSave_faultless (hlines : ∀ line, console.lineFault line = none)
    (h : Gives (compileFile (Storage.sources (FaultyStore.faultless store)) path) .empty ds st) :
    (compileAndSave console (FaultyStore.faultless store) path).status = .ok ∧
      (compileAndSave console (FaultyStore.faultless store) path).storage =
        FaultyStore.faultless (store.putAll st.finish.1) := by
  obtain ⟨hstorage, hstatus⟩ := compileAndSave_of_gives console h
  rw [FaultyStore.storageAfter_faultless] at hstorage
  refine ⟨?_, hstorage⟩
  rcases hs : (compileAndSave console (FaultyStore.faultless store) path).status
  · rfl
  · rw [hs, eq_comm, status_saveAll] at hstatus
    obtain ⟨before, o, after, -, hfails⟩ := hstatus
    rw [FaultyStore.storageAfter_faultless, Output.Fails, FaultyStore.attempt_faultless] at hfails
    rcases hfails with ⟨reason, h⟩ | ⟨-, message, line, reason, -, h⟩
    · cases h
    · rw [hlines] at h
      cases h

/-- Where the files that were read stay, they compile in the same way. -/
theorem gives_putAll {outputs : List Output}
    (h : Gives (compileFile (Storage.sources (FaultyStore.faultless store)) path) .empty ds st)
    (hstay : ∀ f ∈ st.library.files, ∀ o ∈ outputs, f.path ≠ o.path.normalize) :
    Gives (compileFile (Storage.sources (FaultyStore.faultless (store.putAll outputs))) path) .empty ds st := by
  refine (reads_compileFile path).again .empty ds st rfl h fun p hp => ?_
  obtain ⟨f, hf, rfl⟩ := List.mem_map.1 hp
  rw [FaultyStore.texts_faultless, FaultyStore.texts_faultless]
  exact Store.lookup_texts_putAll (hstay f hf) store

end Faultless

/-- A run that fails to compile changes nothing and writes no line. A run that compiles tries every
output, changes the places of its outputs only, and ends in an error if an operation or a line fails.
Where nothing fails and the run is fine, a second one is fine, too, and changes nothing; unless the
output for a file with a stray name leads to a file that was read. -/
theorem run_saves {σ : Type} [Storage σ] [KeptInStore σ] (console : Console) (s : σ) (path : Path) (store : Store) :
    (∀ e st, outcome (compileFile (Storage.sources s) path) .empty = (.error e, st) →
      (compileAndSave console s path).storage = s ∧ (compileAndSave console s path).status = .error ∧
        ∀ text, Report.line text ∉ (compileAndSave console s path).reports) ∧
    (∀ ds st, Gives (compileFile (Storage.sources s) path) .empty ds st →
      Saves console s st (compileAndSave console s path)) ∧
    ((∀ line, console.lineFault line = none) →
      (compileAndSave console (FaultyStore.faultless store) path).status = .ok →
      (∀ f ∈ (session [.compile (Storage.sources (FaultyStore.faultless store)) path]).library.files,
        ∀ g ∈ (session [.compile (Storage.sources (FaultyStore.faultless store)) path]).library.files,
          isStray g.path = true → (ofSource g.path).normalize ≠ f.path) →
      (compileAndSave console (compileAndSave console (FaultyStore.faultless store) path).storage path).status = .ok ∧
        ∀ p, (compileAndSave console (compileAndSave console (FaultyStore.faultless store) path).storage
            path).storage.store.get? p =
          (compileAndSave console (FaultyStore.faultless store) path).storage.store.get? p) := by
  refine ⟨fun e st => compileAndSave_of_error, fun ds st => saves_of_gives console, fun hlines hok hstray => ?_⟩
  rcases hrun : outcome (compileFile (Storage.sources (FaultyStore.faultless store)) path) .empty with ⟨e | ds, st⟩
  · rw [(compileAndSave_of_error hrun).2.1] at hok
    cases hok
  · have hstate : session [.compile (Storage.sources (FaultyStore.faultless store)) path] = st := congrArg Prod.snd hrun
    rw [hstate] at hstray
    have hstay (f : SourceFile) (hf : f ∈ st.library.files) (o : Output) (ho : o ∈ st.finish.1) :
        f.path ≠ o.path.normalize := by
      have hconsistent := consistent_of_gives hrun
      rw [← (hconsistent.readable f hf).normal, ne_eq, Path.normalize_eq_iff]
      exact hconsistent.resolve_ne ho hf fun g hg => hstray f hf g hg
    obtain ⟨-, hstorage⟩ := compileAndSave_faultless hlines hrun
    obtain ⟨hok', hstorage'⟩ := compileAndSave_faultless hlines (gives_putAll hrun hstay)
    rw [hstorage]
    refine ⟨hok', fun p => ?_⟩
    rw [hstorage']
    exact store.get?_putAll_putAll st.finish.1 p

/-- Two runs over a file with a module in it. -/
theorem run_saves_plain :
    let console : Console := ⟨false, fun _ => none, none⟩
    let first := compileAndSave console (FaultyStore.faultless plainFile.store) ⟨"m.idl"⟩
    (∃ ds st, Gives (compileFile (Storage.sources plainFile) ⟨"m.idl"⟩) .empty ds st ∧
      Saves console plainFile st (compileAndSave console plainFile ⟨"m.idl"⟩)) ∧
      first.status = .ok ∧ (compileAndSave console first.storage ⟨"m.idl"⟩).status = .ok := by
  intro console first
  have hsaves := run_saves console plainFile ⟨"m.idl"⟩ plainFile.store
  have hok : first.status = .ok := by decide +kernel
  obtain ⟨ds, hgives⟩ := exists_gives (m := compileFile (Storage.sources plainFile) ⟨"m.idl"⟩) (s := .empty)
    (by decide +kernel)
  exact ⟨⟨ds, _, hgives, hsaves.2.1 ds _ hgives⟩, hok, (hsaves.2.2 (fun _ => rfl) hok (by decide +kernel)).1⟩

/-- A run over a file named by two dots and an extension puts its output over a file that was read,
and then that file cannot be compiled any more. -/
theorem stray_output_breaks_rerun :
    (compileAndSave ⟨false, fun _ => none, none⟩ strayFiles ⟨"a"⟩).status = .ok ∧
      (compileAndSave ⟨false, fun _ => none, none⟩
        (compileAndSave ⟨false, fun _ => none, none⟩ strayFiles ⟨"a"⟩).storage ⟨"a"⟩).status = .error := by
  decide +kernel

end Run

end Idl
