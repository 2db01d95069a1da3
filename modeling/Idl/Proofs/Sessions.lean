import Idl.Proofs.Batches
import Idl.Proofs.Stacks
import Idl.Proofs.Stores
import Idl.Proofs.Targets

/-!
# Outputs and the files that were read

Files can be compiled and included one after the other, some of them without success, and the
outputs can be taken at any time. Each of these calls only adds readable files to the library and
targets to the emissions (`Grows`), so no output ever is a file that was read. Nor does a run change
one, unless the name of some file is two dots and an extension without dots: its output is the
directory above, and a file may have been read from there.
-/

namespace Idl

open Placement

/-- The path that a file was read from. -/
def SourceFile.path (f : SourceFile) : Path := ⟨f.name⟩

namespace Compilation

/-- The paths of the files that were read. -/
def paths (s : Compilation) : List Path := s.library.files.map SourceFile.path

/-! ## Growing states -/

/-- Only readable files and emissions to targets are added. -/
structure Grows (s s' : Compilation) : Prop where
  keeps : s.library.files ⊆ s'.library.files
  readable : ∀ f ∈ s'.library.files, f ∈ s.library.files ∨ Readable f.path
  targets : ∀ e ∈ s'.emissions, e ∈ s.emissions ∨ IsTarget s'.paths e.target

section Grows

variable {s s₁ s' : Compilation}

theorem Grows.paths_subset (h : Grows s s') : s.paths ⊆ s'.paths := List.map_subset _ h.keeps

theorem Grows.of_eq (hfiles : s'.library = s.library) (hemissions : s'.emissions = s.emissions) : Grows s s' :=
  ⟨by simp [hfiles], fun f hf => .inl (hfiles ▸ hf), fun e he => .inl (hemissions ▸ he)⟩

theorem Grows.refl (s : Compilation) : Grows s s := .of_eq rfl rfl

theorem Grows.trans (h : Grows s s₁) (h' : Grows s₁ s') : Grows s s' := by
  refine ⟨List.Subset.trans h.keeps h'.keeps, fun f hf => ?_, fun e he => ?_⟩
  · rcases h'.readable f hf with hf | hf
    · exact h.readable f hf
    · exact .inr hf
  · rcases h'.targets e he with he | he
    · exact (h.targets e he).imp_right fun ht => ht.mono h'.paths_subset
    · exact .inr he

theorem Grows.isTarget {t : Path} (h : Grows s s') (ht : IsTarget s.paths t) : IsTarget s'.paths t :=
  ht.mono h.paths_subset

end Grows

/-- The state grows in the step `m`, whether it succeeds or fails. -/
def Leads {α : Type} (m : CompileM α) (s : Compilation) : Prop := Grows s (outcome m s).2

section Leads

variable {α β : Type} {s : Compilation}

theorem Leads.of_const {m : CompileM α} {r : Except Error α} (h : outcome m s = (r, s)) : Leads m s := by
  rw [Leads, h]
  exact .refl s

theorem leads_pure (a : α) : Leads (pure a) s := .of_const rfl

theorem leads_throw (e : Error) : Leads (throw e : CompileM α) s := .of_const rfl

theorem leads_get : Leads get s := .of_const rfl

theorem leads_modify {f : Compilation → Compilation} (h : Grows s (f s)) : Leads (modify f) s := h

theorem leads_ofExcept (x : Except Error α) : Leads (MonadExcept.ofExcept x) s := by
  cases x with
  | error e => exact leads_throw e
  | ok a => exact leads_pure a

theorem leads_stopAt (fault : Option Error) : Leads (stopAt fault) s := by
  cases fault with
  | none => exact leads_pure ()
  | some e => exact leads_throw e

/-- What holds of each of two steps holds of both in sequence. -/
theorem Leads.bind {m : CompileM α} {f : α → CompileM β} (h : Leads m s)
    (hf : ∀ a s₁, Gives m s a s₁ → Grows s s₁ → Leads (f a) s₁) : Leads (m >>= f) s := by
  unfold Leads at h ⊢
  rw [outcome_bind]
  rcases hm : outcome m s with ⟨e | a, s₁⟩
  · rw [hm] at h
    exact h
  · rw [hm] at h
    exact h.trans (hf a s₁ hm h)

/-- Two steps in sequence, where the second one needs nothing of the first. -/
theorem Leads.then {m : CompileM α} {f : α → CompileM β} (h : Leads m s) (hf : ∀ a s₁, Leads (f a) s₁) :
    Leads (m >>= f) s := h.bind fun a s₁ _ _ => hf a s₁

theorem Leads.discard {m : CompileM α} (h : Leads m s) : Leads (discard m) s := by
  rw [Functor.discard, map_const, Function.comp_apply, map_eq_pure_bind]
  exact h.then fun _ _ => leads_pure _

theorem Leads.during {m : CompileM α} {path : Path} (h : Leads m (s.enter path)) : Leads (during path m) s := by
  rw [Leads, outcome_during]
  exact ⟨h.keeps, h.readable, h.targets⟩

end Leads

/-! ## Steps -/

section Steps

variable {s : Compilation}

theorem leads_note (level : LogLevel) (message : String) : Leads (note level message) s := leads_modify (.of_eq rfl rfl)

theorem leads_reach (path : Path) (head : Token) : Leads (reach path head) s := leads_note ..

theorem leads_define (name : Name) : Leads (define name) s := by
  refine (leads_note ..).then fun _ _ => ?_
  refine leads_get.then fun _ _ => ?_
  exact (leads_ofExcept _).then fun _ _ => leads_modify (.of_eq rfl rfl)

theorem leads_register (kind : Symbol.Kind) (path target : Path) (name : Name) :
    Leads (register kind path target name) s := by
  refine leads_get.then fun _ _ => ?_
  refine (leads_ofExcept _).then fun _ _ => ?_
  exact (leads_note ..).then fun _ _ => leads_modify (.of_eq rfl rfl)

theorem leads_resolve (target : Path) (type : TypeExpr) : Leads (resolve target type) s :=
  leads_get.then fun _ _ => leads_ofExcept _

theorem leads_resolveReturn (target : Path) (type : TypeExpr) : Leads (resolveReturn target type) s :=
  leads_get.then fun _ _ => leads_ofExcept _

theorem leads_resolveException (name : Name) : Leads (resolveException name) s :=
  leads_get.then fun _ _ => (leads_ofExcept _).then fun _ _ => leads_pure _

theorem leads_emit {target : Path} (body : List Declaration) (h : IsTarget s.paths target) :
    Leads (emit target body) s := by
  refine (leads_note ..).bind fun _ s₁ hnote hgrows => leads_modify ⟨by simp, fun f hf => .inl hf, fun e he => ?_⟩
  rcases List.mem_append.1 he with he | he
  · exact .inl he
  · rw [List.mem_singleton.1 he]
    exact .inr (hgrows.isTarget h)

theorem leads_mapM {α β : Type} {f : α → CompileM β} (h : ∀ a s, Leads (f a) s) (as : List α) :
    Leads (as.mapM f) s := by
  induction as generalizing s with
  | nil => exact leads_pure []
  | cons a as ih =>
    rw [List.mapM_cons]
    exact (h a s).then fun _ _ => ih.then fun _ _ => leads_pure _

theorem leads_declareMembers {α β : Type} {f : α → CompileM (β × List Import)} (h : ∀ a s, Leads (f a) s)
    (members : List (Member α)) : Leads (declareMembers f members) s := by
  induction members generalizing s with
  | nil => exact leads_pure _
  | cons m members ih =>
    cases m with
    | comment c => exact ih.then fun _ _ => leads_pure _
    | item a => exact (h a s).then fun _ _ => ih.then fun _ _ => leads_pure _

theorem leads_declareField (target : Path) (f : Field TypeExpr) : Leads (declareField target f) s :=
  (leads_resolve ..).then fun _ _ => leads_pure _

theorem leads_declareParameters (target : Path) (ps : List (Parameter TypeExpr)) :
    Leads (declareParameters target ps) s := by
  induction ps generalizing s with
  | nil => exact leads_pure _
  | cons p ps ih => exact (leads_resolve ..).then fun _ _ => ih.then fun _ _ => leads_pure _

theorem leads_declareMethod (target : Path) (m : MethodItem) : Leads (declareMethod target m) s := by
  refine (leads_resolveReturn ..).then fun _ _ => ?_
  refine (leads_declareParameters ..).then fun _ _ => ?_
  refine (leads_mapM (fun _ _ => leads_resolveException _) _).then fun _ _ => ?_
  exact (leads_stopAt _).then fun _ _ => leads_pure _

end Steps

/-! ## Items -/

mutual

theorem leads_declare {ctx : Context} (hinclude : ∀ path range s, Leads (ctx.includeFile path range) s) :
    ∀ {target : Path} {item : Item} {s : Compilation}, item.Sound (fun _ => True) → IsTarget s.paths target →
      Leads (declare ctx target item) s
  | _, .comment _, _, _, _ => leads_pure _
  | _, .define .., _, _, _ => (leads_reach ..).then fun _ _ => (leads_define _).then fun _ _ => leads_pure _
  | _, .include .., _, _, _ => by
    refine (leads_reach ..).then fun _ _ => ?_
    refine (leads_note ..).then fun _ _ => ?_
    exact (hinclude ..).then fun _ _ => leads_pure _
  | _, .guarded .., _, .guarded within, ht => by
    refine (leads_reach ..).bind fun _ s₁ _ h₁ => ?_
    refine leads_get.bind fun _ s₂ _ h₂ => ?_
    exact (leads_declareAll hinclude within (h₂.isTarget (h₁.isTarget ht))).then fun _ _ => leads_pure _
  | target, .module _ name _ _ _, _, .module named within _, ht => by
    have hinner : IsProper (ofModule target name.text) := ht.ofModule named
    refine (leads_reach ..).then fun _ _ => ?_
    refine (leads_declareAll hinclude within (.proper hinner)).then fun _ _ => ?_
    refine (leads_stopAt _).then fun _ _ => ?_
    exact (leads_emit _ (.proper hinner)).then fun _ _ => leads_pure _
  | _, .typedef .., _, _, _ => by
    refine (leads_reach ..).then fun _ _ => ?_
    refine (leads_resolve ..).then fun _ _ => ?_
    exact (leads_register ..).then fun _ _ => leads_pure _
  | _, .record .., _, _, _ => by
    refine (leads_reach ..).then fun _ _ => ?_
    refine (leads_register ..).then fun _ _ => ?_
    refine (leads_declareMembers (fun _ _ => leads_declareField ..) _).then fun _ _ => ?_
    exact (leads_stopAt _).then fun _ _ => leads_pure _
  | _, .enum .., _, _, _ => by
    refine (leads_reach ..).then fun _ _ => ?_
    refine (leads_register ..).then fun _ _ => ?_
    exact (leads_stopAt _).then fun _ _ => leads_pure _
  | _, .interface .., _, _, _ => by
    refine (leads_reach ..).then fun _ _ => ?_
    refine (leads_register ..).then fun _ _ => ?_
    refine (leads_declareMembers (fun _ _ => leads_declareMethod ..) _).then fun _ _ => ?_
    exact (leads_stopAt _).then fun _ _ => leads_pure _
  | _, .fault none _, _, _, _ => (leads_pure _).then fun _ _ => leads_throw _
  | _, .fault (some _) _, _, _, _ => (leads_reach ..).then fun _ _ => leads_throw _

theorem leads_declareAll {ctx : Context} (hinclude : ∀ path range s, Leads (ctx.includeFile path range) s) :
    ∀ {target : Path} {items : List Item} {s : Compilation}, (∀ item ∈ items, item.Sound fun _ => True) →
      IsTarget s.paths target → Leads (declareAll ctx target items) s
  | _, [], _, _, _ => leads_pure _
  | _, item :: items, _, hsound, ht => by
    obtain ⟨hitem, hitems⟩ := List.forall_mem_cons.1 hsound
    refine (leads_declare hinclude hitem ht).bind fun _ s₁ _ h₁ => ?_
    exact (leads_declareAll hinclude hitems (h₁.isTarget ht)).then fun _ _ => leads_pure _

end

/-! ## Files -/

section Files

variable {s : Compilation}

theorem leads_compileText {includeFile : Path → FileRange → CompileM Unit} {path : Path} {text : String}
    (hinclude : ∀ path range s, Leads (includeFile path range) s) (hpath : Readable path) :
    Leads (compileText includeFile path (ofSource path) text) s := by
  refine leads_get.then fun _ s => ?_
  have hadd : Grows s { s with library := s.library.add ⟨path.text, text⟩ } := by
    refine ⟨List.subset_append_left .., fun f hf => ?_, fun e he => .inl he⟩
    rcases List.mem_append.1 hf with hf | hf
    · exact .inl hf
    · rw [List.mem_singleton.1 hf]
      exact .inr hpath
  refine (leads_modify hadd).bind fun _ s₁ h₁ _ => ?_
  have htarget : IsTarget s₁.paths (ofSource path) := by
    rw [← gives_modify.1 h₁]
    exact hpath.isTarget (by simp [paths, Library.add, SourceFile.path])
  refine (leads_ofExcept _).bind fun tokens s₂ _ h₂ => ?_
  refine (leads_note ..).bind fun _ s₃ _ h₃ => ?_
  have htarget := h₃.isTarget (h₂.isTarget htarget)
  refine (Leads.during ?_).bind fun body s₄ _ h₄ => ?_
  · exact leads_declareAll hinclude (Item.sound_ofTokens (fun _ => id) fun _ _ _ => trivial) htarget
  · refine (leads_modify (.of_eq rfl rfl)).bind fun _ s₅ _ h₅ => ?_
    exact (leads_emit body (h₅.isTarget (h₄.isTarget htarget))).then fun _ _ => leads_pure _

theorem leads_compileFrom {sources : Sources} {stack : List Path} {origin : Option FileRange} {path : Path}
    (hnormal : path.normalize = path) : Leads (compileFrom sources stack origin path) s := by
  induction hn : sources.unread stack using Nat.strongRecOn generalizing stack origin path s with
  | _ n ih =>
    subst hn
    rw [compileFrom]
    refine leads_get.then fun state s => ?_
    split
    · exact (leads_note ..).then fun _ _ => leads_pure _
    · dsimp only
      split
      · exact (leads_throw _).bind fun _ _ hgives => absurd hgives gives_throw
      · rename_i happart
        split
        · exact leads_throw _
        · refine leads_compileText (fun written range s => ?_) ⟨hnormal, by simpa using happart⟩
          refine leads_get.then fun state s => ?_
          split
          · rename_i h
            exact (ih _ h.2 written.normalize_normalize rfl).discard
          · exact leads_throw _

theorem leads_compile {sources : Sources} {origin : Option FileRange} {path : Path} (hnormal : path.normalize = path) :
    Leads (compile sources origin path) s := leads_get.then fun _ _ => leads_compileFrom hnormal

theorem leads_includeFile (sources : Sources) (path : Path) (range : FileRange) :
    Leads (includeFile sources path range) s := by
  refine leads_get.then fun _ _ => ?_
  split
  · exact leads_throw _
  · exact (leads_compile path.normalize_normalize).discard

theorem leads_compileFile (sources : Sources) (path : Path) : Leads (compileFile sources path) s := by
  unfold compileFile
  split
  · exact (leads_note ..).then fun _ _ => leads_compile path.normalize_normalize
  · exact leads_compile path.normalize_normalize

end Files

/-! ## Sessions -/

/-- A use of a compilation from outside. -/
inductive Call where
  | compile (sources : Sources) (path : Path)
  | included (sources : Sources) (path : Path) (range : FileRange)
  | finish

/-- The state after a call, whether it succeeds or fails. -/
def Call.perform (s : Compilation) : Call → Compilation
  | .compile sources path => (outcome (compileFile sources path) s).2
  | .included sources path range => (outcome (includeFile sources path range) s).2
  | .finish => s.finish.2

/-- The state after some calls, one after the other. -/
def session (calls : List Call) : Compilation := calls.foldl Call.perform .empty

/-- However a call ends, the same files are being compiled after it. -/
theorem Call.compiling_perform (call : Call) (s : Compilation) : (call.perform s).compiling = s.compiling := by
  cases call with
  | compile sources path => exact compiling_compileFile sources path s
  | included sources path range => exact compiling_includeFile sources path range s
  | finish => rfl

/-- Between the calls of a session no file is being compiled. -/
theorem compiling_session (calls : List Call) : (session calls).compiling = [] := by
  have hrun (s : Compilation) : (calls.foldl Call.perform s).compiling = s.compiling := by
    induction calls generalizing s with
    | nil => rfl
    | cons call calls ih => exact (ih _).trans (call.compiling_perform s)
  exact hrun .empty

/-- Every file that was read is readable, and everything was emitted to a target. -/
structure Consistent (s : Compilation) : Prop where
  readable : ∀ f ∈ s.library.files, Readable f.path
  targets : ∀ e ∈ s.emissions, IsTarget s.paths e.target

theorem Consistent.of_grows {s s' : Compilation} (h : Consistent s) (hgrows : Grows s s') : Consistent s' where
  readable f hf := (hgrows.readable f hf).elim (h.readable f) id
  targets e he := (hgrows.targets e he).elim (fun he => hgrows.isTarget (h.targets e he)) id

theorem Consistent.perform {s : Compilation} (h : Consistent s) (call : Call) : Consistent (call.perform s) := by
  cases call with
  | compile sources path => exact h.of_grows (leads_compileFile sources path)
  | included sources path range => exact h.of_grows (leads_includeFile sources path range)
  | finish => exact ⟨h.readable, by simp [Call.perform, finish]⟩

theorem consistent_session (calls : List Call) : Consistent (session calls) := by
  have hrun {s : Compilation} (h : Consistent s) : Consistent (calls.foldl Call.perform s) := by
    induction calls generalizing s with
    | nil => exact h
    | cons call calls ih => exact ih (h.perform call)
  exact hrun ⟨by simp [empty, Library.empty], by simp [empty]⟩

/-- An output has the path of a target. -/
theorem Consistent.isTarget_of_finish {s : Compilation} {o : Output} (h : Consistent s) (ho : o ∈ s.finish.1) :
    IsTarget s.paths o.path := by
  obtain ⟨b, hb, rfl⟩ := List.mem_map.1 ho
  obtain ⟨e, he, htarget, -⟩ := Batch.exists_emission b hb
  rw [show b.output.path = e.target from htarget]
  exact h.targets e he

/-- A run from the start is a session of one call. -/
theorem consistent_of_gives {sources : Sources} {path : Path} {ds : List Declaration} {s : Compilation}
    (h : Gives (compileFile sources path) .empty ds s) : Consistent s := by
  have hsession := consistent_session [.compile sources path]
  rwa [show session [.compile sources path] = s from congrArg Prod.snd h] at hsession

/-- What a run emits to is spelled by its components. -/
theorem targets_spelled {sources : Sources} {path : Path} {ds : List Declaration} {s : Compilation}
    (h : Gives (compileFile sources path) .empty ds s) :
    ∀ e ∈ s.emissions, e.target = .ofComponents e.target.components :=
  fun e he => ((consistent_of_gives h).targets e he).eq_ofComponents

section Consistent

variable {s : Compilation} {f : SourceFile} {o : Output}

theorem Consistent.readable_paths (h : Consistent s) : ∀ p ∈ s.paths, Readable p := by
  intro p hp
  obtain ⟨f, hf, rfl⟩ := List.mem_map.1 hp
  exact h.readable f hf

/-- An output is no file that was read. -/
theorem Consistent.same_eq_false (h : Consistent s) (ho : o ∈ s.finish.1) (hf : f ∈ s.library.files) :
    o.path.same f.path = false := by
  have htarget := h.isTarget_of_finish ho
  have hfile := h.readable f hf
  rw [Path.same_eq_false_iff htarget.eq_ofComponents hfile.eq_ofComponents]
  exact htarget.ne_readable hfile

/-- An output leads to a file that was read only if it is the output for a file with a stray name. -/
theorem Consistent.resolve_ne (h : Consistent s) (ho : o ∈ s.finish.1) (hf : f ∈ s.library.files)
    (hstray : ∀ g ∈ s.library.files, isStray g.path = true → (ofSource g.path).normalize ≠ f.path) :
    Path.resolve f.path.components ≠ Path.resolve o.path.components := by
  intro heq
  have hnormal : o.path.normalize = f.path := by
    rw [← (h.readable f hf).normal, Path.normalize, Path.normalize, heq]
  rcases h.isTarget_of_finish ho with hproper | ⟨read, readable, stray, eq⟩
  · rw [hproper.normalize_eq] at hnormal
    exact (h.isTarget_of_finish ho).ne_readable (h.readable f hf) hnormal
  · obtain ⟨g, hg, rfl⟩ := List.mem_map.1 read
    exact hstray g hg stray (eq ▸ hnormal)

/-- A run leaves a path alone that leads to none of its outputs. -/
theorem get?_compileAndSave {store : FaultyStore} {path p : Path}
    (h : ∀ o ∈ (session [.compile (Storage.sources store) path]).finish.1,
      Path.resolve p.components ≠ Path.resolve o.path.components) (console : Console) :
    (Run.compileAndSave console store path).storage.store.get? p = store.store.get? p := by
  change ∀ o ∈ ((compileFile (Storage.sources store) path).run empty).2.finish.1, _ at h
  unfold Run.compileAndSave
  rcases hrun : (compileFile (Storage.sources store) path).run empty with ⟨e | ds, s⟩
  · rfl
  · rw [hrun] at h
    exact FaultyStore.get?_saveAll h console _ store

end Consistent

/-- Outputs are never files that were read, whatever was compiled before and however it ended. They
are normal and have the extension of outputs, and a run leaves the files that it read alone, except
for a file whose name is two dots and an extension without dots: its output is the directory
above. -/
theorem outputs_avoid_sources (calls : List Call) (console : Console) (store : FaultyStore) (path : Path) :
    (∀ o ∈ (session calls).finish.1,
      (∀ f ∈ (session calls).library.files, o.path.same f.path = false) ∧
      ((o.path.normalize = o.path ∧ o.path.extension? = some outputExtension) ↔
        ∀ f ∈ (session calls).library.files, isStray f.path = true → o.path ≠ ofSource f.path)) ∧
    ∀ f ∈ (session [.compile (Storage.sources store) path]).library.files,
      (∀ g ∈ (session [.compile (Storage.sources store) path]).library.files,
        isStray g.path = true → (ofSource g.path).normalize ≠ f.path) →
      (Run.compileAndSave console store path).storage.store.get? f.path = store.store.get? f.path := by
  constructor
  · intro o ho
    have h := consistent_session calls
    refine ⟨fun f hf => h.same_eq_false ho hf, ?_⟩
    rw [(h.isTarget_of_finish ho).isProper_iff h.readable_paths]
    simp [paths]
  · intro f hf hstray
    have h := consistent_session [.compile (Storage.sources store) path]
    exact get?_compileAndSave (fun o ho => h.resolve_ne ho hf hstray) console

/-- A single file, with a module in it. -/
def plainFile : FaultyStore where
  store := Store.empty.insert ⟨"m.idl"⟩ "module M \x7b typedef long X; \x7d;"
  fault _ _ := none

/-- Both outputs of the file are normal, and the file is left alone. -/
theorem outputs_avoid_sources_plain :
    (session [.compile (Storage.sources plainFile) ⟨"m.idl"⟩]).finish.1.map (·.path) = [⟨"M/m.ts"⟩, ⟨"m.ts"⟩] ∧
      (session [.compile (Storage.sources plainFile) ⟨"m.idl"⟩]).library.files.map (·.path) = [⟨"m.idl"⟩] ∧
      (∀ o ∈ (session [.compile (Storage.sources plainFile) ⟨"m.idl"⟩]).finish.1,
        o.path.normalize = o.path ∧ o.path.extension? = some outputExtension) ∧
      (Run.compileAndSave ⟨false, fun _ => none, none⟩ plainFile ⟨"m.idl"⟩).storage.store.get? ⟨"m.idl"⟩ =
        plainFile.store.get? ⟨"m.idl"⟩ := by
  have hfiles : (session [.compile (Storage.sources plainFile) ⟨"m.idl"⟩]).library.files =
      [⟨"m.idl", "module M \x7b typedef long X; \x7d;"⟩] := by decide +kernel
  have havoids := outputs_avoid_sources [.compile (Storage.sources plainFile) ⟨"m.idl"⟩] ⟨false, fun _ => none, none⟩
    plainFile ⟨"m.idl"⟩
  rw [hfiles] at havoids
  refine ⟨by decide +kernel, by rw [hfiles]; rfl, fun o ho => (havoids.1 o ho).2.2 fun f hf hstray => ?_, ?_⟩
  · obtain rfl := List.mem_singleton.1 hf
    exact absurd hstray (by decide +kernel)
  · exact havoids.2 _ (List.mem_singleton.2 rfl) (by decide +kernel)

/-- A file named by two dots and an extension, and a file where its output goes. -/
def strayFiles : FaultyStore where
  store := (Store.empty.insert ⟨"a"⟩ "#include \"a/b/..idl\"\n").insert ⟨"a/b/..idl"⟩ "typedef long X;\n"
  fault _ _ := none

/-- The output for a file whose name is two dots and an extension is neither normal nor has it an
extension, and it is written over a file that was read. -/
theorem stray_output_overwrites_source :
    (session [.compile (Storage.sources strayFiles) ⟨"a"⟩]).finish.1.map (·.path) = [⟨"a/b/.."⟩, ⟨"a.ts"⟩] ∧
      (session [.compile (Storage.sources strayFiles) ⟨"a"⟩]).library.files.map (·.name) = ["a", "a/b/..idl"] ∧
      (⟨"a/b/.."⟩ : Path).normalize = ⟨"a"⟩ ∧ (⟨"a/b/.."⟩ : Path).extension? = none ∧
      (Run.compileAndSave ⟨false, fun _ => none, none⟩ strayFiles ⟨"a"⟩).storage.store.get? ⟨"a"⟩ =
        some "export type X = number;\n" := by
  decide +kernel

end Compilation

end Idl
