import Idl.Proofs.Endings

/-!
# The stack of the files that are being compiled

A file is put on the stack before its items are declared and taken off after it, also if one of the
items fails. So however a step ends, the stack is as before (`compiling_compileFile`,
`compiling_includeFile`). While the items of a file are declared the file is on top of the stack, which
makes what is left to read less than before: an include compiles its file unless that is on the stack,
with no other reason to stop (`outcome_compile`).
-/

namespace Idl.Compilation

/-- Where the files on the stack are `stack`, the two steps do the same and leave the stack as it is,
also if they fail. -/
def AgreeOn {α : Type} (stack : List Path) (m m' : CompileM α) : Prop :=
  ∀ s, s.compiling = stack → outcome m s = outcome m' s ∧ (outcome m s).2.compiling = stack

section AgreeOn

variable {α β : Type} {stack : List Path} {m m' : CompileM α}

theorem AgreeOn.bind {f f' : α → CompileM β} (h : AgreeOn stack m m') (hf : ∀ a, AgreeOn stack (f a) (f' a)) :
    AgreeOn stack (m >>= f) (m' >>= f') := by
  intro s hs
  obtain ⟨heq, hafter⟩ := h s hs
  rw [outcome_bind, outcome_bind, ← heq]
  rcases hm : outcome m s with ⟨e | a, s₁⟩
  · rw [hm] at hafter
    exact ⟨rfl, hafter⟩
  · rw [hm] at hafter
    exact hf a s₁ hafter

theorem agreeOn_throw (e : Error) : AgreeOn stack (throw e : CompileM α) (throw e) := fun _ hs => ⟨rfl, hs⟩

theorem agreeOn_pure (a : α) : AgreeOn stack (pure a) (pure a) := fun _ hs => ⟨rfl, hs⟩

theorem agreeOn_get : AgreeOn stack get get := fun _ hs => ⟨rfl, hs⟩

theorem agreeOn_modify {f : Compilation → Compilation} (h : ∀ s, (f s).compiling = s.compiling) :
    AgreeOn stack (modify f) (modify f) := fun s hs => ⟨rfl, (h s).trans hs⟩

theorem agreeOn_ofExcept (x : Except Error α) : AgreeOn stack (MonadExcept.ofExcept x) (MonadExcept.ofExcept x) := by
  cases x with
  | error e => exact agreeOn_throw e
  | ok a => exact agreeOn_pure a

theorem AgreeOn.discard (h : AgreeOn stack m m') : AgreeOn stack (discard m) (discard m') := by
  simp only [Functor.discard, map_const, Function.comp_apply, map_eq_pure_bind]
  exact h.bind fun _ => agreeOn_pure _

/-- A step that touches no file. -/
theorem agreeOn_of_keeps (h : ∀ s, Keeps m s) : AgreeOn stack m m := by
  intro s hs
  exact ⟨rfl, (h s).after (fun _ _ hsame => hsame.compiling.trans hs) fun _ _ he => he.2.compiling.trans hs⟩

/-- What is put on the stack before a step is taken off after it. -/
theorem AgreeOn.during {path : Path} (h : AgreeOn (path :: stack) m m') :
    AgreeOn stack (during path m) (during path m') := by
  rintro s rfl
  obtain ⟨heq, hafter⟩ := h (s.enter path) rfl
  rw [outcome_during, outcome_during, ← heq]
  exact ⟨rfl, congrArg List.tail hafter⟩

end AgreeOn

/-! ## Bodies, texts and files -/

section Declare

variable {stack : List Path} {path : Path} {includeFile includeFile' : Path → FileRange → CompileM Unit}

mutual

theorem agreeOn_declare
    (hinclude : ∀ written range, AgreeOn stack (includeFile written range) (includeFile' written range)) :
    ∀ {target : Path} {item : Item}, item.FaultsIn (·.isLocal = true) →
      AgreeOn stack (declare ⟨path, includeFile⟩ target item) (declare ⟨path, includeFile'⟩ target item)
  | _, .include .., _ => by
    refine (agreeOn_of_keeps fun _ => keeps_reach ..).bind fun _ => ?_
    refine (agreeOn_of_keeps fun _ => keeps_note ..).bind fun _ => ?_
    exact (hinclude _ _).bind fun _ => agreeOn_pure _
  | _, .guarded .., .guarded within => by
    refine (agreeOn_of_keeps fun _ => keeps_reach ..).bind fun _ => ?_
    refine agreeOn_get.bind fun _ => ?_
    exact (agreeOn_declareAll hinclude within).bind fun _ => agreeOn_pure _
  | _, .module .., .module within own => by
    refine (agreeOn_of_keeps fun _ => keeps_reach ..).bind fun _ => ?_
    refine (agreeOn_declareAll hinclude within).bind fun _ => ?_
    exact agreeOn_of_keeps fun _ => (keeps_stopAt own).then fun _ _ => (keeps_emit ..).then fun _ _ => keeps_pure _
  | _, .comment _, hfaults | _, .define .., hfaults | _, .typedef .., hfaults | _, .record .., hfaults
  | _, .enum .., hfaults | _, .interface .., hfaults | _, .fault .., hfaults =>
    agreeOn_of_keeps fun _ => keeps_declare rfl hfaults

theorem agreeOn_declareAll
    (hinclude : ∀ written range, AgreeOn stack (includeFile written range) (includeFile' written range)) :
    ∀ {target : Path} {items : List Item}, (∀ item ∈ items, item.FaultsIn (·.isLocal = true)) →
      AgreeOn stack (declareAll ⟨path, includeFile⟩ target items) (declareAll ⟨path, includeFile'⟩ target items)
  | _, [], _ => agreeOn_pure _
  | _, _ :: _, hfaults => by
    obtain ⟨hitem, hitems⟩ := List.forall_mem_cons.1 hfaults
    refine (agreeOn_declare hinclude hitem).bind fun _ => ?_
    exact (agreeOn_declareAll hinclude hitems).bind fun _ => agreeOn_pure _

end

theorem agreeOn_compileText {target : Path} {text : String} (hinclude : ∀ written range,
      AgreeOn (path :: stack) (includeFile written range) (includeFile' written range)) :
    AgreeOn stack (compileText includeFile path target text) (compileText includeFile' path target text) := by
  refine agreeOn_get.bind fun _ => ?_
  refine (agreeOn_modify (by intro; rfl)).bind fun _ => ?_
  refine (agreeOn_ofExcept _).bind fun _ => ?_
  refine (agreeOn_of_keeps fun _ => keeps_note ..).bind fun _ => ?_
  refine (agreeOn_declareAll hinclude (Item.faultsIn_isLocal _ _)).during.bind fun _ => ?_
  refine (agreeOn_modify (by intro; rfl)).bind fun _ => ?_
  exact (agreeOn_of_keeps fun _ => keeps_emit ..).bind fun _ => agreeOn_pure _

theorem agreeOn_compileOnce {sources : Sources} {origin : Option FileRange}
    (hinclude : ∀ text, sources.texts.lookup path = some text → ∀ written range,
      AgreeOn (path :: stack) (includeFile written range) (includeFile' written range)) :
    AgreeOn stack (compileOnce includeFile sources origin path) (compileOnce includeFile' sources origin path) := by
  refine agreeOn_get.bind fun s => ?_
  split
  · exact (agreeOn_of_keeps fun _ => keeps_note ..).bind fun _ => agreeOn_pure _
  · dsimp only
    split
    · exact agreeOn_throw _
    · split
      · exact agreeOn_throw _
      · rename_i text htext
        exact agreeOn_compileText (hinclude text htext)

end Declare

/-! ## The stack is left as it was -/

section Compile

variable (sources : Sources)

theorem agreeOn_compileFrom {stack stack' : List Path} {origin : Option FileRange} {path : Path} :
    AgreeOn stack' (compileFrom sources stack origin path) (compileFrom sources stack origin path) := by
  induction hn : sources.unread stack using Nat.strongRecOn generalizing stack stack' origin path with
  | _ n ih =>
    subst hn
    rw [compileFrom]
    refine agreeOn_compileOnce fun _ _ written range => agreeOn_get.bind fun s => ?_
    split
    · rename_i h
      exact (ih _ h.2 rfl).discard
    · exact agreeOn_throw _

theorem agreeOn_compile {stack : List Path} {origin : Option FileRange} {path : Path} :
    AgreeOn stack (compile sources origin path) (compile sources origin path) :=
  agreeOn_get.bind fun _ => agreeOn_compileFrom sources

/-- An include leaves the stack as it was, also if it fails. -/
theorem compiling_includeFile (path : Path) (range : FileRange) (s : Compilation) :
    (outcome (includeFile sources path range) s).2.compiling = s.compiling := by
  have hagree : AgreeOn s.compiling (includeFile sources path range) (includeFile sources path range) := by
    refine agreeOn_get.bind fun _ => ?_
    split
    · exact agreeOn_throw _
    · exact (agreeOn_compile sources).discard
  exact (hagree s rfl).2

/-- The compilation of a file leaves the stack as it was, also if it fails. -/
theorem compiling_compileFile (path : Path) (s : Compilation) :
    (outcome (compileFile sources path) s).2.compiling = s.compiling := by
  have hagree : AgreeOn s.compiling (compileFile sources path) (compileFile sources path) := by
    unfold compileFile
    split
    · exact (agreeOn_of_keeps fun _ => keeps_note ..).bind fun _ => agreeOn_compile sources
    · exact (agreeOn_pure _).bind fun _ => agreeOn_compile sources
  exact (hagree s rfl).2

/-! ## Includes -/

/-- What is done about an include in a file that is compiled while the stack is `stack`. -/
theorem outcome_include {stack : List Path} {written : Path} {range : FileRange} {t : Compilation}
    (hlt : sources.unread t.compiling < sources.unread stack) :
    outcome (do
      let s ← get
      if _ : written.normalize ∉ s.compiling ∧ sources.unread s.compiling < sources.unread stack then
        discard (compileFrom sources s.compiling (some range) written.normalize)
      else throw (.includeCycle written.normalize range)) t = outcome (includeFile sources written range) t := by
  change outcome (dite _ _ _) t = outcome (ite _ _ _) t
  by_cases hq : written.normalize ∈ t.compiling
  · rw [dif_neg fun h => h.1 hq, if_pos hq]
  · rw [dif_pos ⟨hq, hlt⟩, if_neg hq]
    rfl

/-- A file that is not on the stack is compiled with its includes compiled in turn, each unless it is
on the stack then. -/
theorem outcome_compile {origin : Option FileRange} {path : Path} {s : Compilation} (fresh : path ∉ s.compiling) :
    outcome (compile sources origin path) s = outcome (compileOnce (includeFile sources) sources origin path) s := by
  have hagree : AgreeOn s.compiling (compileFrom sources s.compiling origin path)
      (compileOnce (includeFile sources) sources origin path) := by
    rw [compileFrom]
    refine agreeOn_compileOnce fun text htext written range t ht => ?_
    have hlt : sources.unread t.compiling < sources.unread s.compiling := by
      rw [ht]
      exact sources.unread_cons_lt htext fresh
    have heq : _ = outcome (includeFile sources written range) t := outcome_include sources hlt
    exact ⟨heq, by rw [heq, compiling_includeFile, ht]⟩
  exact (hagree s rfl).1

end Compile

end Idl.Compilation
