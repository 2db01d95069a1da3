import Idl.Proofs.Readers
import Idl.Proofs.Steps

/-!
# How steps end

`Ends m s Q E` says that the step `m`, started in the state `s`, ends as `Q` says if it succeeds and
as `E` says if it fails. Only an include can add a file to those that were read or compiled, and only
an include can fail because of another file. So all that is to be known of the items of a body is
what its includes do (`ends_declareAll`).
-/

namespace Idl

/-! ## Errors about the file itself -/

/-- Whether an error is about what stands in a file, not about which file is read. -/
def Error.isLocal : Error → Bool
  | .includeCycle .. | .unreadable .. | .overwritesSource .. => false
  | _ => true

/-- Whether an error is about what a name stands for, not about how a file is written. -/
def Error.isAboutName : Error → Bool
  | duplicateDefine _ _ _ | duplicateSymbol _ _ _ | reservedName _ _ | unknownType _ _ _ | notException _ _ _ => true
  | _ => false

theorem Error.isLocal_of_isAboutName {e : Error} (h : e.isAboutName = true) : e.isLocal = true := by
  cases e <;> first | rfl | cases h

theorem IsFault.isLocal {finish : FileRange} {tokens : List Token} {e : Error} (h : IsFault finish tokens e) :
    e.isLocal = true := by
  cases h <;> rfl

/-- The faults among the items of a file are local. -/
theorem Item.faultsIn_isLocal (source : SourceText) (tokens : List Token) :
    ∀ item ∈ ofTokens source tokens, item.FaultsIn (·.isLocal = true) :=
  faultsIn_ofTokens fun _ he => he.isLocal

theorem Defines.isAboutName_of_define {d : Defines} {name : String} {range : FileRange} {e : Error}
    (h : d.define name range = .error e) : e.isAboutName = true := by
  unfold define at h
  split at h
  · cases h; rfl
  · cases h

namespace SymbolTable

variable {t : SymbolTable} {range : FileRange} {target : Path} {e : Error}

theorem isAboutName_of_register {name : String} {symbol : Symbol} (h : t.register name symbol = .error e) :
    e.isAboutName = true := by
  unfold register at h
  split at h
  · cases h; rfl
  · split at h
    · cases h; rfl
    · cases h

theorem isAboutName_of_resolveChars {type : List Char} (h : t.resolveChars range target type = .error e) :
    e.isAboutName = true := by
  fun_induction resolveChars t range target type generalizing e with
  | case6 => rename_i hrec ih; exact ih (hrec.trans h)
  | case8 => cases h; rfl
  | _ => cases h

theorem isAboutName_of_resolve {type : String} (h : t.resolve range target type = .error e) : e.isAboutName = true :=
  isAboutName_of_resolveChars h

theorem isAboutName_of_resolveReturn {type : String} (h : t.resolveReturn range target type = .error e) :
    e.isAboutName = true := by
  unfold resolveReturn at h
  split at h
  · cases h
  · exact isAboutName_of_resolve h

theorem isAboutName_of_checkException {name : String} (h : t.checkException name range = .error e) :
    e.isAboutName = true := by
  unfold checkException at h
  split at h
  · split at h
    · cases h
    · cases h; rfl
  · cases h; rfl

end SymbolTable

theorem Token.isLocal_of_scan {file offset : Nat} {position : Position} {cs : List Char} {e : Error}
    (h : scan file offset position cs = .error e) : e.isLocal = true := by
  fun_induction scan file offset position cs with
  | case1 => cases h
  | case2 =>
    cases h
    rfl
  | case3 _ _ cs _ _ _ kind text rest _ _ _ ih =>
    rcases hrest : scan file _ _ rest with e' | tokens
    · rw [hrest] at h ih
      cases h
      exact ih rfl
    · rw [hrest] at h
      cases h

/-- Whether an item neither includes a file nor holds other items. -/
def Item.isSimple : Item → Bool
  | .include .. | .guarded .. | .module .. => false
  | _ => true

namespace Compilation

/-! ## Endings -/

/-- The step `m`, started in `s`, ends as `Q` says if it succeeds and as `E` says if it fails. -/
structure Ends {α : Type} (m : CompileM α) (s : Compilation) (Q : α → Compilation → Prop)
    (E : Error → Compilation → Prop) : Prop where
  success : ∀ a s', Gives m s a s' → Q a s'
  failure : ∀ e s', outcome m s = (.error e, s') → E e s'

section Ends

variable {α β : Type} {s : Compilation} {Q Q' : α → Compilation → Prop} {R : β → Compilation → Prop}
  {E E' : Error → Compilation → Prop}

theorem Ends.mono {m : CompileM α} (h : Ends m s Q E) (hQ : ∀ a s', Q a s' → Q' a s')
    (hE : ∀ e s', E e s' → E' e s') : Ends m s Q' E' :=
  ⟨fun a s' ha => hQ a s' (h.success a s' ha), fun e s' he => hE e s' (h.failure e s' he)⟩

/-- What holds however a step ends holds after it. -/
theorem Ends.after {m : CompileM α} {P : Compilation → Prop} (h : Ends m s Q E) (hQ : ∀ a s', Q a s' → P s')
    (hE : ∀ e s', E e s' → P s') : P (outcome m s).2 := by
  rcases hm : outcome m s with ⟨e | a, s'⟩
  · exact hE e s' (h.failure e s' hm)
  · exact hQ a s' (h.success a s' hm)

theorem Ends.congr {m m' : CompileM α} (heq : outcome m s = outcome m' s) (h : Ends m' s Q E) : Ends m s Q E :=
  ⟨fun a s' ha => h.success a s' (heq.symm.trans ha), fun e s' he => h.failure e s' (heq.symm.trans he)⟩

theorem ends_pure {a : α} (h : Q a s) : Ends (pure a) s Q E := by
  refine ⟨fun a' s' h' => ?_, fun e s' h' => by cases h'⟩
  obtain ⟨rfl, rfl⟩ := gives_pure.1 h'
  exact h

theorem ends_throw {e : Error} (h : E e s) : Ends (throw e : CompileM α) s Q E :=
  ⟨fun _ _ h' => absurd h' gives_throw, fun e' s' h' => by cases h'; exact h⟩

theorem ends_get {Q : Compilation → Compilation → Prop} (h : Q s s) : Ends get s Q E := by
  refine ⟨fun a s' h' => ?_, fun e s' h' => by cases h'⟩
  obtain ⟨rfl, rfl⟩ := gives_get.1 h'
  exact h

theorem ends_modify {Q : Unit → Compilation → Prop} {f : Compilation → Compilation} (h : Q () (f s)) :
    Ends (modify f) s Q E := by
  refine ⟨fun u s' h' => ?_, fun e s' h' => by cases h'⟩
  obtain rfl := gives_modify.1 h'
  exact h

theorem ends_ofExcept {x : Except Error α} (hok : ∀ a, x = .ok a → Q a s) (herror : ∀ e, x = .error e → E e s) :
    Ends (MonadExcept.ofExcept x) s Q E := by
  cases x with
  | error e => exact ends_throw (herror e rfl)
  | ok a => exact ends_pure (hok a rfl)

theorem ends_note {Q : Unit → Compilation → Prop} {level : LogLevel} {message : String}
    (h : ∀ s', Quiet s s' → Q () s') : Ends (note level message) s Q E := ends_modify (h _ ⟨_, rfl⟩)

/-- Two steps in sequence. -/
theorem Ends.bind {m : CompileM α} {f : α → CompileM β} (h : Ends m s Q E)
    (hf : ∀ a s₁, Q a s₁ → Ends (f a) s₁ R E) : Ends (m >>= f) s R E := by
  constructor
  · intro b s' hb
    obtain ⟨a, s₁, ha, hb⟩ := gives_bind.1 hb
    exact (hf a s₁ (h.success a s₁ ha)).success b s' hb
  · intro e s' he
    rw [outcome_bind] at he
    rcases hm : outcome m s with ⟨e' | a, s₁⟩
    · rw [hm] at he
      cases he
      exact h.failure e s' hm
    · rw [hm] at he
      exact (hf a s₁ (h.success a s₁ hm)).failure e s' he

/-- A step that runs while a file is being compiled. -/
theorem ends_during {path : Path} {m : CompileM α}
    (h : Ends m (s.enter path) (fun a s' => Q a s'.leave) fun e s' => E e s'.leave) : Ends (during path m) s Q E := by
  constructor
  · intro a s' ha
    obtain ⟨s₁, hm, rfl⟩ := gives_during.1 ha
    exact h.success a s₁ hm
  · intro e s' he
    rw [outcome_during, Prod.mk.injEq] at he
    obtain ⟨he, rfl⟩ := he
    exact h.failure e _ (Prod.ext he rfl)

/-- A step that starts with the state that it finds. -/
theorem ends_get_bind {f : Compilation → CompileM α} (h : Ends (f s) s Q E) : Ends (get >>= f) s Q E :=
  ⟨h.success, h.failure⟩

theorem ends_emit {Q : Unit → Compilation → Prop} {target : Path} {body : List Declaration}
    (h : ∀ s', Quiet { s with emissions := s.emissions ++ [⟨target, body⟩] } s' → Q () s') :
    Ends (emit target body) s Q E := by
  refine (ends_note (Q := fun _ s' => Quiet s s') fun _ => id).bind fun _ s₁ h₁ => ends_modify (h _ ?_)
  obtain ⟨log, rfl⟩ := h₁
  exact ⟨log, rfl⟩

theorem Ends.discard {m : CompileM α} {Q : Compilation → Prop} (h : Ends m s (fun _ s' => Q s') E) :
    Ends (discard m) s (fun _ s' => Q s') E := by
  rw [Functor.discard, map_const, Function.comp_apply, map_eq_pure_bind]
  exact h.bind fun _ _ hQ => ends_pure hQ

end Ends

/-! ## Steps that touch no file -/

/-- The same files were read and compiled, and are being compiled. -/
structure SameFiles (s s' : Compilation) : Prop where
  library : s'.library = s.library
  compiled : s'.compiled = s.compiled
  compiling : s'.compiling = s.compiling

theorem SameFiles.refl (s : Compilation) : SameFiles s s := ⟨rfl, rfl, rfl⟩

theorem SameFiles.trans {s s₁ s' : Compilation} (h : SameFiles s s₁) (h' : SameFiles s₁ s') : SameFiles s s' :=
  ⟨h'.library.trans h.library, h'.compiled.trans h.compiled, h'.compiling.trans h.compiling⟩

/-- The step reads and compiles no file, and fails with local errors only. -/
def Keeps {α : Type} (m : CompileM α) (s : Compilation) : Prop :=
  Ends m s (fun _ s' => SameFiles s s') fun e s' => e.isLocal = true ∧ SameFiles s s'

section Keeps

variable {α β : Type} {s : Compilation}

theorem keeps_pure (a : α) : Keeps (pure a) s := ends_pure (.refl s)

theorem keeps_throw {e : Error} (h : e.isLocal = true) : Keeps (throw e : CompileM α) s := ends_throw ⟨h, .refl s⟩

theorem keeps_get : Keeps get s := ends_get (.refl s)

theorem keeps_ofExcept {x : Except Error α} (h : ∀ e, x = .error e → e.isAboutName = true) :
    Keeps (MonadExcept.ofExcept x) s :=
  ends_ofExcept (fun _ _ => .refl s) fun e he => ⟨Error.isLocal_of_isAboutName (h e he), .refl s⟩

theorem keeps_stopAt {fault : Option Error} (h : ∀ e, fault = some e → e.isLocal = true) : Keeps (stopAt fault) s := by
  cases fault with
  | none => exact keeps_pure ()
  | some e => exact keeps_throw (h e rfl)

theorem Keeps.then {m : CompileM α} {f : α → CompileM β} (h : Keeps m s) (hf : ∀ a s₁, Keeps (f a) s₁) :
    Keeps (m >>= f) s := by
  refine Ends.bind (h.mono (fun _ _ h => h) fun _ _ h => h) fun a s₁ h₁ => ?_
  exact (hf a s₁).mono (fun _ _ h => h₁.trans h) fun e s' h => ⟨h.1, h₁.trans h.2⟩

theorem keeps_note (level : LogLevel) (message : String) : Keeps (note level message) s := ends_modify ⟨rfl, rfl, rfl⟩

theorem keeps_reach (path : Path) (head : Token) : Keeps (reach path head) s := keeps_note ..

theorem keeps_emit (target : Path) (body : List Declaration) : Keeps (emit target body) s :=
  (keeps_note ..).then fun _ _ => ends_modify ⟨rfl, rfl, rfl⟩

theorem keeps_define (name : Name) : Keeps (define name) s := by
  refine (keeps_note ..).then fun _ _ => ?_
  refine keeps_get.then fun _ _ => ?_
  exact (keeps_ofExcept fun _ => Defines.isAboutName_of_define).then fun _ _ => ends_modify ⟨rfl, rfl, rfl⟩

theorem keeps_register (kind : Symbol.Kind) (path target : Path) (name : Name) :
    Keeps (register kind path target name) s := by
  refine keeps_get.then fun _ _ => ?_
  refine (keeps_ofExcept fun _ => SymbolTable.isAboutName_of_register).then fun _ _ => ?_
  exact (keeps_note ..).then fun _ _ => ends_modify ⟨rfl, rfl, rfl⟩

theorem keeps_resolve (target : Path) (type : TypeExpr) : Keeps (resolve target type) s :=
  keeps_get.then fun _ _ => keeps_ofExcept fun _ => SymbolTable.isAboutName_of_resolve

theorem keeps_resolveReturn (target : Path) (type : TypeExpr) : Keeps (resolveReturn target type) s :=
  keeps_get.then fun _ _ => keeps_ofExcept fun _ => SymbolTable.isAboutName_of_resolveReturn

theorem keeps_resolveException (name : Name) : Keeps (resolveException name) s := by
  refine keeps_get.then fun _ _ => ?_
  exact (keeps_ofExcept fun _ => SymbolTable.isAboutName_of_checkException).then fun _ _ => keeps_pure _

theorem keeps_mapM {f : α → CompileM β} (h : ∀ a s, Keeps (f a) s) (as : List α) : Keeps (as.mapM f) s := by
  induction as generalizing s with
  | nil => exact keeps_pure []
  | cons a as ih =>
    rw [List.mapM_cons]
    exact (h a s).then fun _ _ => ih.then fun _ _ => keeps_pure _

theorem keeps_declareMembers {f : α → CompileM (β × List Import)} {members : List (Member α)}
    (h : ∀ a ∈ Member.items members, ∀ s, Keeps (f a) s) : Keeps (declareMembers f members) s := by
  induction members generalizing s with
  | nil => exact keeps_pure _
  | cons m members ih =>
    cases m with
    | comment c => exact (ih h).then fun _ _ => keeps_pure _
    | item a =>
      obtain ⟨ha, h⟩ := List.forall_mem_cons.1 h
      exact (ha s).then fun _ _ => (ih h).then fun _ _ => keeps_pure _

theorem keeps_declareField (target : Path) (f : Field TypeExpr) : Keeps (declareField target f) s :=
  (keeps_resolve ..).then fun _ _ => keeps_pure _

theorem keeps_declareParameters (target : Path) (ps : List (Parameter TypeExpr)) :
    Keeps (declareParameters target ps) s := by
  induction ps generalizing s with
  | nil => exact keeps_pure _
  | cons p ps ih => exact (keeps_resolve ..).then fun _ _ => ih.then fun _ _ => keeps_pure _

theorem keeps_declareMethod (target : Path) {m : MethodItem} (h : ∀ e, m.fault = some e → e.isLocal = true) :
    Keeps (declareMethod target m) s := by
  refine (keeps_resolveReturn ..).then fun _ _ => ?_
  refine (keeps_declareParameters ..).then fun _ _ => ?_
  refine (keeps_mapM (fun _ _ => keeps_resolveException _) _).then fun _ _ => ?_
  exact (keeps_stopAt h).then fun _ _ => keeps_pure _

/-- An item that stands on its own touches no file. -/
theorem keeps_declare {ctx : Context} {target : Path} {item : Item} (hsimple : item.isSimple = true)
    (hfaults : item.FaultsIn (·.isLocal = true)) : Keeps (declare ctx target item) s := by
  cases hfaults with
  | comment => exact keeps_pure _
  | define => exact (keeps_reach ..).then fun _ _ => (keeps_define _).then fun _ _ => keeps_pure _
  | included | guarded | module => cases hsimple
  | typedef =>
    refine (keeps_reach ..).then fun _ _ => ?_
    refine (keeps_resolve ..).then fun _ _ => ?_
    exact (keeps_register ..).then fun _ _ => keeps_pure _
  | record own =>
    refine (keeps_reach ..).then fun _ _ => ?_
    refine (keeps_register ..).then fun _ _ => ?_
    refine (keeps_declareMembers fun _ _ _ => keeps_declareField ..).then fun _ _ => ?_
    exact (keeps_stopAt own).then fun _ _ => keeps_pure _
  | enum own =>
    refine (keeps_reach ..).then fun _ _ => ?_
    refine (keeps_register ..).then fun _ _ => ?_
    exact (keeps_stopAt own).then fun _ _ => keeps_pure _
  | interface methods own =>
    refine (keeps_reach ..).then fun _ _ => ?_
    refine (keeps_register ..).then fun _ _ => ?_
    refine (keeps_declareMembers fun m hm _ => keeps_declareMethod _ (methods m hm)).then fun _ _ => ?_
    exact (keeps_stopAt own).then fun _ _ => keeps_pure _
  | @fault head _ own =>
    cases head with
    | none => exact (keeps_pure _).then fun _ _ => keeps_throw own
    | some _ => exact (keeps_reach ..).then fun _ _ => keeps_throw own

end Keeps

/-! ## Bodies -/

/-- Files were added to those that were read and compiled. -/
structure AddsFiles (s s' : Compilation) : Prop where
  library : s.library.files <+: s'.library.files
  compiled : s.compiled <:+ s'.compiled

theorem AddsFiles.trans {s s₁ s' : Compilation} (h : AddsFiles s s₁) (h' : AddsFiles s₁ s') : AddsFiles s s' :=
  ⟨h.library.trans h'.library, h.compiled.trans h'.compiled⟩

theorem SameFiles.addsFiles {s s' : Compilation} (h : SameFiles s s') : AddsFiles s s' :=
  ⟨h.library ▸ List.prefix_rfl, h.compiled ▸ List.suffix_rfl⟩

end Compilation

mutual

/-- The texts of the includes in an item. -/
def Item.includes : Item → List String
  | .include _ written _ => [written]
  | .guarded _ _ body | .module _ _ body _ _ => Item.allIncludes body
  | .comment .. | .define .. | .typedef .. | .record .. | .enum .. | .interface .. | .fault .. => []

/-- The texts of the includes in a body. -/
def Item.allIncludes : List Item → List String
  | [] => []
  | item :: items => item.includes ++ Item.allIncludes items

end

namespace Compilation

/-- The file that an include in the file `path` leads to. -/
def included (path : Path) (written : String) : Path := (includedPath path written).normalize

section Declare

variable {I : Compilation → Prop} {E : Error → Compilation → Prop} {ctx : Context}

/-- A body, or a part of one, whose includes are `texts` ends well: files were added, and those that
it includes are among the compiled ones. -/
def Follows (I : Compilation → Prop) (path : Path) (texts : List String) (s s' : Compilation) : Prop :=
  I s' ∧ AddsFiles s s' ∧ ∀ written ∈ texts, included path written ∈ s'.compiled

theorem Follows.start (path : Path) {s : Compilation} (h : I s) : Follows I path [] s s :=
  ⟨h, (SameFiles.refl s).addsFiles, by simp⟩

theorem Follows.then {path : Path} {s s₁ s' : Compilation} {texts texts' : List String}
    (h : Follows I path texts s s₁) (h' : Follows I path texts' s₁ s') : Follows I path (texts ++ texts') s s' := by
  refine ⟨h'.1, h.2.1.trans h'.2.1, fun written hw => ?_⟩
  rcases List.mem_append.1 hw with hw | hw
  · exact h'.2.1.compiled.subset (h.2.2 written hw)
  · exact h'.2.2 written hw

/-- A step that touches no file. -/
theorem Keeps.follows {α : Type} {m : CompileM α} {path : Path} {s₀ s : Compilation} {texts : List String}
    (hI : ∀ s s', I s → SameFiles s s' → I s') (hE : ∀ e s, I s → e.isLocal = true → E e s) (h : Keeps m s)
    (hs : Follows I path texts s₀ s) : Ends m s (fun _ s' => Follows I path texts s₀ s') E := by
  refine h.mono (fun _ s' hsame => ?_) fun e s' he => hE e s' (hI _ _ hs.1 he.2) he.1
  exact ⟨hI _ _ hs.1 hsame, hs.2.1.trans hsame.addsFiles, fun written hw => hsame.compiled ▸ hs.2.2 written hw⟩

mutual

theorem ends_declare (hI : ∀ s s', I s → SameFiles s s' → I s') (hE : ∀ e s, I s → e.isLocal = true → E e s) :
    ∀ {target : Path} {item : Item} {s : Compilation}, item.FaultsIn (·.isLocal = true) →
      (∀ written ∈ item.includes, ∀ range s, I s →
        Ends (ctx.includeFile (includedPath ctx.path written) range) s
          (fun _ s' => Follows I ctx.path [written] s s') E) →
      I s → Ends (declare ctx target item) s (fun _ s' => Follows I ctx.path item.includes s s') E
  | _, .include _ written range, _, _, hinclude, hs => by
    refine ((keeps_reach ..).follows hI hE (.start ctx.path hs)).bind fun _ s₁ h₁ => ?_
    refine ((keeps_note ..).follows hI hE h₁).bind fun _ s₂ h₂ => ?_
    have hfile := hinclude written (by simp [Item.includes]) range s₂ h₂.1
    exact (hfile.mono (fun _ _ h => h₂.then h) fun _ _ h => h).bind fun _ _ h => ends_pure h
  | _, .guarded .., s, .guarded within, hinclude, hs => by
    refine ((keeps_reach ..).follows hI hE (.start ctx.path hs)).bind fun _ s₁ h₁ => ?_
    refine (keeps_get.follows hI hE h₁).bind fun _ s₂ h₂ => ?_
    refine ((ends_declareAll hI hE within hinclude h₂.1).mono (fun _ _ h => h₂.then h) fun _ _ h => h).bind
      fun _ _ h => ?_
    exact ends_pure h
  | _, .module .., s, .module within own, hinclude, hs => by
    refine ((keeps_reach ..).follows hI hE (.start ctx.path hs)).bind fun _ s₁ h₁ => ?_
    refine ((ends_declareAll hI hE within hinclude h₁.1).mono (fun _ _ h => h₁.then h) fun _ _ h => h).bind
      fun _ _ h => ?_
    exact ((keeps_stopAt own).then fun _ _ => (keeps_emit ..).then fun _ _ => keeps_pure _).follows hI hE h
  | _, .comment _, _, hfaults, _, hs | _, .define .., _, hfaults, _, hs | _, .typedef .., _, hfaults, _, hs
  | _, .record .., _, hfaults, _, hs | _, .enum .., _, hfaults, _, hs | _, .interface .., _, hfaults, _, hs
  | _, .fault .., _, hfaults, _, hs => (keeps_declare rfl hfaults).follows hI hE (.start ctx.path hs)

theorem ends_declareAll (hI : ∀ s s', I s → SameFiles s s' → I s') (hE : ∀ e s, I s → e.isLocal = true → E e s) :
    ∀ {target : Path} {items : List Item} {s : Compilation}, (∀ item ∈ items, item.FaultsIn (·.isLocal = true)) →
      (∀ written ∈ Item.allIncludes items, ∀ range s, I s →
        Ends (ctx.includeFile (includedPath ctx.path written) range) s
          (fun _ s' => Follows I ctx.path [written] s s') E) →
      I s → Ends (declareAll ctx target items) s (fun _ s' => Follows I ctx.path (Item.allIncludes items) s s') E
  | _, [], _, _, _, hs => ends_pure (.start ctx.path hs)
  | _, item :: items, _, hfaults, hinclude, hs => by
    obtain ⟨hitem, hitems⟩ := List.forall_mem_cons.1 hfaults
    obtain ⟨hfirst, hrest⟩ := List.forall_mem_append.1 hinclude
    refine (ends_declare hI hE hitem hfirst hs).bind fun _ s₁ h₁ => ?_
    refine ((ends_declareAll hI hE hitems hrest h₁.1).mono (fun _ _ h => h₁.then h) fun _ _ h => h).bind fun _ _ h => ?_
    exact ends_pure h

end

end Declare

/-! ## Texts -/

/-- How the text of a file ends, from how its items end. -/
theorem ends_compileText {includeFile : Path → FileRange → CompileM Unit} {path target : Path} {text : String}
    {s : Compilation} {Q : List Declaration → Compilation → Prop} {E : Error → Compilation → Prop}
    (hlexer : ∀ e, Token.ofSource s.library.nextId text = .error e →
      E e { s with library := s.library.add ⟨path.text, text⟩ })
    (hbody : ∀ tokens s₁, Token.ofSource s.library.nextId text = .ok tokens →
      Quiet { s with library := s.library.add ⟨path.text, text⟩ } s₁ →
      Ends (declareAll ⟨path, includeFile⟩ target (Item.ofTokens (.ofFile s.library.nextId text) tokens))
        (s₁.enter path)
        (fun body s₂ => ∀ s', Quiet { s₂.leave with
          compiled := path :: s₂.compiled
          emissions := s₂.emissions ++ [⟨target, body⟩] } s' → Q body s') fun e s₂ => E e s₂.leave) :
    Ends (compileText includeFile path target text) s Q E := by
  refine ends_get_bind ?_
  refine (ends_modify (Q := fun _ s₁ => { s with library := s.library.add ⟨path.text, text⟩ } = s₁) rfl).bind ?_
  rintro _ _ rfl
  refine (ends_ofExcept (Q := fun tokens s₁ => Token.ofSource s.library.nextId text = .ok tokens ∧
    { s with library := s.library.add ⟨path.text, text⟩ } = s₁) (fun _ h => ⟨h, rfl⟩) hlexer).bind ?_
  rintro tokens _ ⟨hlexed, rfl⟩
  refine (ends_note (Q := fun _ s₁ => Quiet _ s₁) fun _ => id).bind fun _ s₁ hs₁ => ?_
  refine (ends_during (Q := fun body s₂ => ∀ s', Quiet { s₂ with
    compiled := path :: s₂.compiled
    emissions := s₂.emissions ++ [⟨target, body⟩] } s' → Q body s') (hbody tokens s₁ hlexed hs₁)).bind
    fun body s₂ hs₂ => ?_
  refine (ends_modify (Q := fun _ s₃ => { s₂ with compiled := path :: s₂.compiled } = s₃) rfl).bind ?_
  rintro _ _ rfl
  exact (ends_emit (Q := fun _ s' => Q body s') hs₂).bind fun _ _ h => ends_pure h

/-- How a file ends, from how its text ends. -/
theorem ends_compileOnce {includeFile : Path → FileRange → CompileM Unit} {sources : Sources}
    {origin : Option FileRange} {path : Path} {s : Compilation} {Q : List Declaration → Compilation → Prop}
    {E : Error → Compilation → Prop} (hskip : path ∈ s.compiled → ∀ s', Quiet s s' → Q [] s')
    (hsame : (Placement.ofSource path).same path = true → E (.overwritesSource path origin) s)
    (hnone : path ∉ s.compiled → sources.texts.lookup path = none →
      E (.unreadable path origin (sources.failure path)) s)
    (htext : ∀ text, path ∉ s.compiled → (Placement.ofSource path).same path = false →
      sources.texts.lookup path = some text →
      Ends (compileText includeFile path (Placement.ofSource path) text) s Q E) :
    Ends (compileOnce includeFile sources origin path) s Q E := by
  refine ends_get_bind ?_
  split
  · rename_i hmem
    exact (ends_note (Q := fun _ s' => Quiet s s') fun _ => id).bind fun _ s' hs' => ends_pure (hskip hmem s' hs')
  · rename_i hmem
    dsimp only
    split
    · rename_i heq
      exact ends_throw (hsame heq)
    · rename_i heq
      split
      · rename_i hlookup
        exact ends_throw (hnone hmem hlookup)
      · rename_i text hlookup
        exact htext text hmem (by simpa using heq) hlookup

end Compilation

end Idl
