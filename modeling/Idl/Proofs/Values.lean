import Idl.Proofs.Endings
import Idl.Proofs.Integrity
import Idl.Proofs.Sessions

/-!
# Types of values

A method may return nothing, and nowhere else can a type be void. However the calls of a session end,
what was emitted up to then has types of values in its fields, its parameters and its typedefs, and
the table of declared names was built by declaring names.

* `SymbolTable.Registered t`: the tables that declaring names leads to.
* `ScriptType.isValue`: there is no void in a type.
* `Yields m s Q`: the step `m` keeps the state valued, and what it gives satisfies `Q`.
* `valued_session`: every session keeps the state valued.
-/

namespace Idl

/-- There is no void in the type. -/
def ScriptType.isValue : ScriptType → Bool
  | void => false
  | array element => element.isValue
  | number | string | boolean | buffer | any | named _ => true

namespace SymbolTable

/-! ## Tables of declared names -/

/-- The tables that are built by declaring names, from the empty one on. -/
inductive Registered : SymbolTable → Prop
  | empty : Registered .empty
  | declared {t t' : SymbolTable} {name : String} {symbol : Symbol} (before : Registered t) (isName : IsName name)
      (registers : t.register name symbol = .ok t') : Registered t'

variable {t : SymbolTable} {range : FileRange} {target : Path} {type : ScriptType} {imports : List Import}

theorem Registered.named (h : t.Registered) : t.Named := by
  induction h with
  | empty => exact fun entry hentry => absurd hentry List.not_mem_nil
  | declared before isName registers ih =>
    obtain ⟨-, rfl⟩ := register_eq_ok registers
    exact List.forall_mem_cons.2 ⟨isName, ih⟩

/-- Built-in types and the reserved names are not declared. -/
theorem Registered.find?_eq_none (h : t.Registered) {name : String} (hname : name ∈ builtins ∨ name ∈ reserved) :
    t.find? name = none := by
  induction h with
  | empty => rfl
  | @declared t t' other symbol before isName registers ih =>
    have hne : (name == other) = false := by
      rw [beq_eq_false_iff_ne]
      rintro rfl
      rw [register, if_pos hname] at registers
      cases registers
    obtain ⟨-, rfl⟩ := register_eq_ok registers
    rw [find?, List.lookup_cons, hne]
    exact ih

/-! ## Resolved types -/

theorem isValue_builtin? {name : String} (h : builtin? name = some type) : type.isValue = true := by
  unfold builtin? at h
  split at h <;> cases h <;> rfl

theorem isValue_of_resolveChars {chars : List Char} (h : t.resolveChars range target chars = .ok (type, imports)) :
    type.isValue = true := by
  fun_induction resolveChars t range target chars generalizing type with
  | case1 | case2 | case3 | case4 => cases h; rfl
  | case5 chars _ normal _ _ _ element harg hlt type' imports' helement =>
    rename_i ih
    cases h
    have hinner := ih helement
    exact hinner
  | case6 => cases h
  | case7 chars _ normal _ _ _ _ type' =>
    rename_i hbuiltin
    cases h
    exact isValue_builtin? hbuiltin
  | case8 => cases h

theorem isValue_of_resolve {text : String} (h : t.resolve range target text = .ok (type, imports)) :
    type.isValue = true := isValue_of_resolveChars h

theorem isValue_of_resolveReturn {text : String} (h : t.resolveReturn range target text = .ok (type, imports)) :
    type = .void ∨ type.isValue = true := by
  unfold resolveReturn at h
  split at h
  · cases h
    exact .inl rfl
  · exact .inr (isValue_of_resolve h)

end SymbolTable

/-! ## Declarations -/

/-- A method may return nothing, and takes values. -/
structure Method.Valued (m : Method ScriptType String) : Prop where
  returns : m.returns = .void ∨ m.returns.isValue = true
  parameters : ∀ p ∈ m.parameters, p.type.isValue = true

/-- What is declared is of types of values. -/
inductive Declaration.Valued : Declaration → Prop
  | module {name : String} {body : List Declaration} (within : ∀ d ∈ body, Valued d) : Valued (.module name body)
  | typedef {name : String} {type : ScriptType} (value : type.isValue = true) : Valued (.typedef name type)
  | record {kind : RecordKind} {name : String} {members : List (Member (Field ScriptType))}
      (fields : ∀ f ∈ Member.items members, f.type.isValue = true) : Valued (.record kind name members)
  | enum {name : String} {members : List (Member String)} : Valued (.enum name members)
  | interface {name : String} {members : List (Member (Method ScriptType String))}
      (methods : ∀ m ∈ Member.items members, m.Valued) : Valued (.interface name members)
  | comment {c : Comment} : Valued (.comment c)
  | imported {i : Import} : Valued (.imported i)

theorem Declaration.valued_comments (comments : List Comment) : ∀ d ∈ comments.map Declaration.comment, d.Valued := by
  intro d hd
  obtain ⟨c, -, rfl⟩ := List.mem_map.1 hd
  exact .comment

theorem Declaration.valued_imports (imports : List Import) : ∀ d ∈ imports.map Declaration.imported, d.Valued := by
  intro d hd
  obtain ⟨i, -, rfl⟩ := List.mem_map.1 hd
  exact .imported

/-- A block stands behind its imports and the comments of its end. -/
theorem Declaration.Valued.block {block : Declaration} (h : block.Valued) (imports : List Import)
    (comments : List Comment) :
    ∀ d ∈ imports.map Declaration.imported ++ comments.map Declaration.comment ++ [block], d.Valued := by
  refine List.forall_mem_append.2 ⟨List.forall_mem_append.2 ⟨?_, ?_⟩, List.forall_mem_singleton.2 h⟩
  · exact valued_imports imports
  · exact valued_comments comments

namespace Compilation

/-- The declared names were declared one by one, and what was emitted is of types of values. -/
structure Valued (s : Compilation) : Prop where
  registered : s.symbols.Registered
  bodies : ∀ e ∈ s.emissions, ∀ d ∈ e.body, d.Valued

theorem valued_empty : Valued .empty := ⟨.empty, by simp [empty]⟩

theorem Valued.of_quiet {s s' : Compilation} (h : s.Valued) (hquiet : Quiet s s') : s'.Valued := by
  obtain ⟨log, rfl⟩ := hquiet
  exact ⟨h.registered, h.bodies⟩

/-! ## Steps -/

/-- The step `m` keeps the state valued, however it ends, and what it gives satisfies `Q`. -/
def Yields {α : Type} (m : CompileM α) (s : Compilation) (Q : α → Prop) : Prop :=
  Ends m s (fun a s' => s'.Valued ∧ Q a) fun _ s' => s'.Valued

section Yields

variable {α β : Type} {s : Compilation} {Q : α → Prop} {R : β → Prop}

theorem yields_pure (hs : s.Valued) {a : α} (h : Q a) : Yields (pure a) s Q := ends_pure ⟨hs, h⟩

theorem yields_throw (hs : s.Valued) (e : Error) : Yields (throw e : CompileM α) s Q := ends_throw hs

theorem yields_get (hs : s.Valued) : Yields get s Valued := ends_get ⟨hs, hs⟩

theorem yields_modify {f : Compilation → Compilation} (h : (f s).Valued) : Yields (modify f) s fun _ => True :=
  ends_modify ⟨h, trivial⟩

theorem yields_ofExcept (hs : s.Valued) {x : Except Error α} (h : ∀ a, x = .ok a → Q a) :
    Yields (MonadExcept.ofExcept x) s Q := ends_ofExcept (fun a ha => ⟨hs, h a ha⟩) fun _ _ => hs

theorem yields_stopAt (hs : s.Valued) (fault : Option Error) : Yields (stopAt fault) s fun _ => True := by
  cases fault with
  | none => exact yields_pure hs trivial
  | some e => exact yields_throw hs e

theorem Yields.bind {m : CompileM α} {f : α → CompileM β} (h : Yields m s Q)
    (hf : ∀ a s₁, s₁.Valued → Q a → Yields (f a) s₁ R) : Yields (m >>= f) s R :=
  Ends.bind h fun a s₁ ha => hf a s₁ ha.1 ha.2

theorem Yields.during {m : CompileM α} {path : Path} (h : Yields m (s.enter path) Q) : Yields (during path m) s Q :=
  ends_during (h.mono (fun _ _ h => ⟨⟨h.1.registered, h.1.bodies⟩, h.2⟩) fun _ _ h => ⟨h.registered, h.bodies⟩)

theorem Yields.discard {m : CompileM α} (h : Yields m s Q) : Yields (discard m) s fun _ => True := by
  rw [Functor.discard, map_const, Function.comp_apply, map_eq_pure_bind]
  exact h.bind fun _ _ hs _ => yields_pure hs trivial

theorem yields_note (hs : s.Valued) (level : LogLevel) (message : String) :
    Yields (note level message) s fun _ => True := yields_modify (hs.of_quiet ⟨_, rfl⟩)

theorem yields_reach (hs : s.Valued) (path : Path) (head : Token) : Yields (reach path head) s fun _ => True :=
  yields_note hs ..

theorem yields_define (hs : s.Valued) (name : Name) : Yields (define name) s fun _ => True := by
  refine (yields_note hs ..).bind fun _ s₁ h₁ _ => ?_
  refine (yields_get h₁).bind fun _ s₂ h₂ _ => ?_
  refine (yields_ofExcept (Q := fun _ => True) h₂ fun _ _ => trivial).bind fun _ s₃ h₃ _ => ?_
  exact yields_modify ⟨h₃.registered, h₃.bodies⟩

theorem yields_register (hs : s.Valued) (kind : Symbol.Kind) (path target : Path) {name : Name}
    (hname : IsName name.text) : Yields (register kind path target name) s fun _ => True := by
  refine (yields_get hs).bind fun s₁ s₂ h₂ h₁ => ?_
  refine (yields_ofExcept (Q := SymbolTable.Registered) h₂ fun t ht => ?_).bind fun t s₃ h₃ ht => ?_
  · exact .declared h₁.registered hname ht
  · refine (yields_note h₃ ..).bind fun _ s₄ h₄ _ => ?_
    exact yields_modify ⟨ht, h₄.bodies⟩

theorem yields_resolve (hs : s.Valued) (target : Path) (type : TypeExpr) :
    Yields (resolve target type) s fun r => r.1.isValue = true := by
  refine (yields_get hs).bind fun s₁ s₂ h₂ _ => yields_ofExcept h₂ fun r hr => ?_
  exact SymbolTable.isValue_of_resolve hr

theorem yields_resolveReturn (hs : s.Valued) (target : Path) (type : TypeExpr) :
    Yields (resolveReturn target type) s fun r => r.1 = .void ∨ r.1.isValue = true := by
  refine (yields_get hs).bind fun s₁ s₂ h₂ _ => yields_ofExcept h₂ fun r hr => ?_
  exact SymbolTable.isValue_of_resolveReturn hr

theorem yields_resolveException (hs : s.Valued) (name : Name) : Yields (resolveException name) s fun _ => True := by
  refine (yields_get hs).bind fun s₁ s₂ h₂ _ => ?_
  refine (yields_ofExcept (Q := fun _ => True) h₂ fun _ _ => trivial).bind fun _ s₃ h₃ _ => ?_
  exact yields_pure h₃ trivial

theorem yields_emit (hs : s.Valued) (target : Path) {body : List Declaration} (hbody : ∀ d ∈ body, d.Valued) :
    Yields (emit target body) s fun _ => True := by
  refine (yields_note hs ..).bind fun _ s₁ h₁ _ => yields_modify ⟨h₁.registered, ?_⟩
  refine List.forall_mem_append.2 ⟨h₁.bodies, ?_⟩
  exact List.forall_mem_singleton.2 hbody

theorem yields_mapM {f : α → CompileM β} (hf : ∀ a s, s.Valued → Yields (f a) s fun _ => True) (hs : s.Valued)
    (as : List α) : Yields (as.mapM f) s fun _ => True := by
  induction as generalizing s with
  | nil => exact yields_pure hs trivial
  | cons a as ih =>
    rw [List.mapM_cons]
    refine (hf a s hs).bind fun _ s₁ h₁ _ => ?_
    exact (ih h₁).bind fun _ s₂ h₂ _ => yields_pure h₂ trivial

theorem yields_declareMembers {f : α → CompileM (β × List Import)}
    (hf : ∀ a s, s.Valued → Yields (f a) s fun r => R r.1) (hs : s.Valued) (members : List (Member α)) :
    Yields (declareMembers f members) s fun r => ∀ b ∈ Member.items r.1, R b := by
  induction members generalizing s with
  | nil => exact yields_pure hs fun b hb => absurd hb List.not_mem_nil
  | cons m members ih =>
    cases m with
    | comment c => exact (ih hs).bind fun r s₁ h₁ hr => yields_pure h₁ hr
    | item a =>
      refine (hf a s hs).bind fun r s₁ h₁ hr => ?_
      exact (ih h₁).bind fun rest s₂ h₂ hrest => yields_pure h₂ (List.forall_mem_cons.2 ⟨hr, hrest⟩)

theorem yields_declareField (target : Path) (f : Field TypeExpr) (hs : s.Valued) :
    Yields (declareField target f) s fun r => r.1.type.isValue = true :=
  (yields_resolve hs ..).bind fun _ _ h₁ hr => yields_pure h₁ hr

theorem yields_declareParameters (target : Path) (ps : List (Parameter TypeExpr)) (hs : s.Valued) :
    Yields (declareParameters target ps) s fun r => ∀ p ∈ r.1, p.type.isValue = true := by
  induction ps generalizing s with
  | nil => exact yields_pure hs fun p hp => absurd hp List.not_mem_nil
  | cons p ps ih =>
    refine (yields_resolve hs ..).bind fun r s₁ h₁ hr => ?_
    exact (ih h₁).bind fun rest s₂ h₂ hrest => yields_pure h₂ (List.forall_mem_cons.2 ⟨hr, hrest⟩)

theorem yields_declareMethod (target : Path) (m : MethodItem) (hs : s.Valued) :
    Yields (declareMethod target m) s fun r => r.1.Valued := by
  refine (yields_resolveReturn hs ..).bind fun returned s₁ h₁ hreturns => ?_
  refine (yields_declareParameters _ _ h₁).bind fun parameters s₂ h₂ hparameters => ?_
  refine (yields_mapM (fun name s hs => yields_resolveException hs name) h₂ _).bind fun raises s₃ h₃ _ => ?_
  exact (yields_stopAt h₃ _).bind fun _ s₄ h₄ _ => yields_pure h₄ ⟨hreturns, hparameters⟩

end Yields

/-! ## Items -/

mutual

theorem yields_declare {ctx : Context}
    (hinclude : ∀ path range s, s.Valued → Yields (ctx.includeFile path range) s fun _ => True) :
    ∀ {target : Path} {item : Item} {s : Compilation}, item.Sound (fun _ => True) → s.Valued →
      Yields (declare ctx target item) s fun ds => ∀ d ∈ ds, d.Valued
  | _, .comment c, _, _, hs => yields_pure hs (Declaration.valued_comments [c])
  | _, .define .., _, _, hs => by
    refine (yields_reach hs ..).bind fun _ s₁ h₁ _ => ?_
    exact (yields_define h₁ _).bind fun _ s₂ h₂ _ => yields_pure h₂ (by simp)
  | _, .include .., _, _, hs => by
    refine (yields_reach hs ..).bind fun _ s₁ h₁ _ => ?_
    refine (yields_note h₁ ..).bind fun _ s₂ h₂ _ => ?_
    exact (hinclude _ _ s₂ h₂).bind fun _ s₃ h₃ _ => yields_pure h₃ (by simp)
  | _, .guarded .., _, .guarded within, hs => by
    refine (yields_reach hs ..).bind fun _ s₁ h₁ _ => ?_
    refine (yields_get h₁).bind fun _ s₂ h₂ _ => ?_
    refine (yields_declareAll hinclude within h₂).bind fun body s₃ h₃ hbody => yields_pure h₃ ?_
    split
    · simp
    · exact hbody
  | _, .module .., _, .module named within _, hs => by
    refine (yields_reach hs ..).bind fun _ s₁ h₁ _ => ?_
    refine (yields_declareAll hinclude within h₁).bind fun body s₂ h₂ hbody => ?_
    refine (yields_stopAt h₂ _).bind fun _ s₃ h₃ _ => ?_
    refine (yields_emit h₃ _ hbody).bind fun _ s₄ h₄ _ => yields_pure h₄ ?_
    exact List.forall_mem_append.2 ⟨Declaration.valued_comments _, List.forall_mem_singleton.2 (.module hbody)⟩
  | _, .typedef .., _, .typedef named _, hs => by
    refine (yields_reach hs ..).bind fun _ s₁ h₁ _ => ?_
    refine (yields_resolve h₁ ..).bind fun r s₂ h₂ hr => ?_
    refine (yields_register h₂ _ _ _ named).bind fun _ s₃ h₃ _ => yields_pure h₃ ?_
    refine List.forall_mem_append.2 ⟨List.forall_mem_append.2 ⟨?_, ?_⟩, List.forall_mem_singleton.2 (.typedef hr)⟩
    · exact Declaration.valued_comments _
    · exact Declaration.valued_imports _
  | _, .record .., _, .record named _, hs => by
    refine (yields_reach hs ..).bind fun _ s₁ h₁ _ => ?_
    refine (yields_register h₁ _ _ _ named).bind fun _ s₂ h₂ _ => ?_
    refine (yields_declareMembers (R := fun f => f.type.isValue = true) (fun f s hs => yields_declareField _ f hs)
      h₂ _).bind fun r s₃ h₃ hr => ?_
    exact (yields_stopAt h₃ _).bind fun _ s₄ h₄ _ => yields_pure h₄ (Declaration.Valued.block (.record hr) _ _)
  | _, .enum .., _, .enum named _, hs => by
    refine (yields_reach hs ..).bind fun _ s₁ h₁ _ => ?_
    refine (yields_register h₁ _ _ _ named).bind fun _ s₂ h₂ _ => ?_
    refine (yields_stopAt h₂ _).bind fun _ s₃ h₃ _ => yields_pure h₃ ?_
    exact List.forall_mem_append.2 ⟨Declaration.valued_comments _, List.forall_mem_singleton.2 .enum⟩
  | _, .interface .., _, .interface named _, hs => by
    refine (yields_reach hs ..).bind fun _ s₁ h₁ _ => ?_
    refine (yields_register h₁ _ _ _ named).bind fun _ s₂ h₂ _ => ?_
    refine (yields_declareMembers (fun m s hs => yields_declareMethod _ m hs) h₂ _).bind fun r s₃ h₃ hr => ?_
    exact (yields_stopAt h₃ _).bind fun _ s₄ h₄ _ => yields_pure h₄ (Declaration.Valued.block (.interface hr) _ _)
  | _, .fault none _, _, _, hs => (yields_pure (Q := fun _ => True) hs trivial).bind fun _ _ h₁ _ => yields_throw h₁ _
  | _, .fault (some _) _, _, _, hs => (yields_reach hs ..).bind fun _ _ h₁ _ => yields_throw h₁ _

theorem yields_declareAll {ctx : Context}
    (hinclude : ∀ path range s, s.Valued → Yields (ctx.includeFile path range) s fun _ => True) :
    ∀ {target : Path} {items : List Item} {s : Compilation}, (∀ item ∈ items, item.Sound fun _ => True) → s.Valued →
      Yields (declareAll ctx target items) s fun ds => ∀ d ∈ ds, d.Valued
  | _, [], _, _, hs => yields_pure hs (by simp)
  | _, item :: items, _, hsound, hs => by
    obtain ⟨hitem, hitems⟩ := List.forall_mem_cons.1 hsound
    refine (yields_declare hinclude hitem hs).bind fun first s₁ h₁ hfirst => ?_
    refine (yields_declareAll hinclude hitems h₁).bind fun rest s₂ h₂ hrest => yields_pure h₂ ?_
    exact List.forall_mem_append.2 ⟨hfirst, hrest⟩

end

/-! ## Files and sessions -/

section Files

variable {s : Compilation}

theorem yields_compileText {includeFile : Path → FileRange → CompileM Unit} (path target : Path) (text : String)
    (hinclude : ∀ path range s, s.Valued → Yields (includeFile path range) s fun _ => True) (hs : s.Valued) :
    Yields (compileText includeFile path target text) s fun ds => ∀ d ∈ ds, d.Valued := by
  refine (yields_get hs).bind fun _ s₁ h₁ _ => ?_
  refine (yields_modify ⟨h₁.registered, h₁.bodies⟩).bind fun _ s₂ h₂ _ => ?_
  refine (yields_ofExcept (Q := fun _ => True) h₂ fun _ _ => trivial).bind fun tokens s₃ h₃ _ => ?_
  refine (yields_note h₃ ..).bind fun _ s₄ h₄ _ => ?_
  refine (Yields.during (Q := fun ds => ∀ d ∈ ds, d.Valued) ?_).bind fun body s₅ h₅ hbody => ?_
  · exact yields_declareAll hinclude (Item.sound_ofTokens (fun _ => id) fun _ _ _ => trivial) ⟨h₄.registered, h₄.bodies⟩
  · refine (yields_modify ⟨h₅.registered, h₅.bodies⟩).bind fun _ s₆ h₆ _ => ?_
    exact (yields_emit h₆ target hbody).bind fun _ s₇ h₇ _ => yields_pure h₇ hbody

theorem yields_compileFrom (sources : Sources) (stack : List Path) (origin : Option FileRange) (path : Path)
    (hs : s.Valued) : Yields (compileFrom sources stack origin path) s fun ds => ∀ d ∈ ds, d.Valued := by
  induction hn : sources.unread stack using Nat.strongRecOn generalizing stack origin path s with
  | _ n ih =>
    subst hn
    rw [compileFrom]
    refine ends_compileOnce (fun _ s' hquiet => ?_) (fun _ => hs) (fun _ _ => hs) fun text _ _ _ => ?_
    · exact ⟨hs.of_quiet hquiet, by simp⟩
    · refine yields_compileText path _ text (fun written range s hs => ?_) hs
      refine (yields_get hs).bind fun state s₁ h₁ _ => ?_
      split
      · rename_i h
        exact (ih _ h.2 _ _ _ h₁ rfl).discard
      · exact yields_throw h₁ _

theorem yields_compile (sources : Sources) (origin : Option FileRange) (path : Path) (hs : s.Valued) :
    Yields (compile sources origin path) s fun ds => ∀ d ∈ ds, d.Valued :=
  (yields_get hs).bind fun _ _ h _ => yields_compileFrom _ _ _ _ h

theorem valued_perform (hs : s.Valued) (call : Call) : (call.perform s).Valued := by
  have hafter {α : Type} {m : CompileM α} {Q : α → Prop} (h : Yields m s Q) : (outcome m s).2.Valued :=
    h.after (fun _ _ h => h.1) fun _ _ h => h
  cases call with
  | compile sources path =>
    refine hafter (Q := fun ds => ∀ d ∈ ds, d.Valued) ?_
    unfold compileFile
    split
    · exact (yields_note hs ..).bind fun _ s₁ h₁ _ => yields_compile _ _ _ h₁
    · exact yields_compile _ _ _ hs
  | included sources path range =>
    refine hafter (Q := fun _ => True) ((yields_get hs).bind fun state s₁ h₁ _ => ?_)
    split
    · exact yields_throw h₁ _
    · exact (yields_compile _ _ _ h₁).discard
  | finish => exact ⟨hs.registered, by simp [Call.perform, finish]⟩

/-- However its calls end, a session leaves a valued state. -/
theorem valued_session (calls : List Call) : (session calls).Valued := by
  have hrun {s : Compilation} (hs : s.Valued) : (calls.foldl Call.perform s).Valued := by
    induction calls generalizing s with
    | nil => exact hs
    | cons call calls ih => exact ih (valued_perform hs call)
  exact hrun valued_empty

end Files

end Compilation

end Idl
