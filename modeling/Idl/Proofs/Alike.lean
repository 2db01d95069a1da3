import Idl.Proofs.Endings
import Idl.Proofs.Erasure

/-!
# Blanks and comments have no meaning

Two runs are compared that differ in blanks, comments and places only. The states that they go
through are the same without those (`Compilation.bare`), and so are their results and errors.

* `Alike f m m'`: started in states that are the same, the steps `m` and `m'` end in states that are
  the same, with results that `f` makes equal or with errors that differ in their places.
* `alike_declareAll`: items can be declared without their comments and places.
* `same_meaning`: what a file without includes declares depends on its terminals only.
-/

namespace Idl

/-! ## Items without includes -/

namespace Item

@[simp]
theorem allIncludes_nil : allIncludes [] = [] := by rw [allIncludes]

@[simp]
theorem allIncludes_cons (item : Item) (items : List Item) :
    allIncludes (item :: items) = item.includes ++ allIncludes items := by rw [allIncludes]

@[simp]
theorem allIncludes_append (items items' : List Item) :
    allIncludes (items ++ items') = allIncludes items ++ allIncludes items' := by
  induction items with
  | nil => simp
  | cons item items ih => simp [ih]

@[simp]
theorem allIncludes_comments (comments : List Comment) : allIncludes (comments.map .comment) = [] := by
  induction comments with
  | nil => simp
  | cons comment comments ih => simp [includes, ih]

theorem exists_comment {item : Item} (h : item.isComment = true) : ∃ c, item = .comment c := by
  cases item with
  | comment c => exact ⟨c, rfl⟩
  | _ => cases h

/-- The items that a step leaves, whether reading goes on or not. -/
def Step.read : Step → List Item
  | items read _ => read
  | enter _ _ => []
  | stop item => [item]

theorem allIncludes_step (source : SourceText) {head : Token} (hhead : head.kind ≠ .directive .include) (c : Cursor) :
    allIncludes (step source head c).read = [] := by
  have hafter {α : Type} {r : Except Error (α × Cursor)} {k : α → Cursor → Step}
      (hk : ∀ a d, allIncludes (k a d).read = []) : allIncludes (Step.after head r k).read = [] := by
    rcases r with e | ⟨a, d⟩
    · simp [Step.after, Step.read, includes]
    · exact hk a d
  have hblock {α : Type} (r : Block α × Option Cursor) {f : Block α → Item} (hf : ∀ b, (f b).includes = []) :
      allIncludes (Step.ofItem (r.map f id)).read = [] := by
    rcases r with ⟨b, _ | rest⟩ <;> simp [Step.ofItem, Step.read, hf]
  unfold step
  dsimp only
  split
  · exact hafter fun name d => by simp [Step.read, includes]
  · exact hafter fun name d => by simp [Step.read]
  · contradiction
  · exact hafter fun name d => by split <;> simp [Step.read, includes]
  · exact hafter fun typed d => by split <;> simp [Step.read, includes]
  · exact hafter fun name d => hblock _ fun b => by simp [includes]
  · exact hafter fun name d => hblock _ fun b => by simp [includes]
  · exact hafter fun name d => hblock _ fun b => by simp [includes]
  · exact hafter fun name d => hblock _ fun b => by simp [includes]
  · simp [Step.read, includes]

theorem includes_close (opener : Opener) (finish : FileRange) (body : List Item) (c : Cursor) :
    (opener.close finish body c).1.includes = allIncludes body := by
  unfold Opener.close
  split
  · rw [includes]
  · split <;> rw [includes]

theorem allIncludes_abandonAll {frames : List Frame} {body : List Item}
    (hframes : ∀ frame ∈ frames, allIncludes frame.before = []) (hbody : allIncludes body = []) :
    allIncludes (frames.foldl Frame.abandon body) = [] := by
  induction frames generalizing body with
  | nil => exact hbody
  | cons frame frames ih =>
    obtain ⟨hframe, hframes⟩ := List.forall_mem_cons.1 hframes
    refine ih hframes ?_
    unfold Frame.abandon
    split <;> simp [hframe, includes, hbody]

theorem allIncludes_readFrom {source : SourceText} {frames : List Frame} {before : List Item} {c : Cursor}
    (h : NoInclude c.tokens) (hframes : ∀ frame ∈ frames, allIncludes frame.before = [])
    (hbefore : allIncludes before = []) : allIncludes (readFrom source frames before c) = [] := by
  fun_induction readFrom source frames before c with
  | case1 frames before c items hs =>
    unfold ended
    split
    · simp [items, hbefore]
    · exact allIncludes_abandonAll hframes (by simp [items, hbefore, includes])
  | case2 frames before c items head tokens hs hlt frame outer hclosing item rest hclose hle hrest ih =>
    obtain rfl := eq_cons_of_closing hclosing
    obtain ⟨hframe, houter⟩ := List.forall_mem_cons.1 hframes
    have hitem := includes_close frame.opener source.finish items ⟨tokens, []⟩
    rw [hclose] at hitem
    refine ih (h.onward hs (suffix_of_close (congrArg Prod.snd hclose))) houter ?_
    simp [hframe, hitem, items, hbefore]
  | case3 frames before c items head tokens hs hlt frame outer hclosing item hclose =>
    obtain rfl := eq_cons_of_closing hclosing
    obtain ⟨hframe, houter⟩ := List.forall_mem_cons.1 hframes
    have hitem := includes_close frame.opener source.finish items ⟨tokens, []⟩
    rw [hclose] at hitem
    exact allIncludes_abandonAll houter (by simp [hframe, hitem, items, hbefore])
  | case4 frames before c items head tokens hs hlt hclosing read rest hstep hle hrest ih =>
    have hread := allIncludes_step source (h.kind_ne hs) ⟨tokens, []⟩
    rw [hstep] at hread
    refine ih (h.onward hs (suffix_of_step (congrArg Step.rest? hstep))) hframes ?_
    simpa [items, hbefore, Step.read] using hread
  | case5 frames before c items head tokens hs hlt hclosing opener rest hstep hle hrest ih =>
    refine ih (h.onward hs (suffix_of_step (congrArg Step.rest? hstep)))
      (List.forall_mem_cons.2 ⟨?_, hframes⟩) (by simp)
    simp [items, hbefore]
  | case6 frames before c items head tokens hs hlt hclosing item hstep =>
    have hread := allIncludes_step source (h.kind_ne hs) ⟨tokens, []⟩
    rw [hstep] at hread
    refine allIncludes_abandonAll hframes ?_
    simpa [items, hbefore, Step.read] using hread

theorem allIncludes_ofTokens (source : SourceText) {tokens : List Token} (h : NoInclude tokens) :
    allIncludes (ofTokens source tokens) = [] := allIncludes_readFrom h (by simp) (by simp)

end Item

/-! ## Tables without places -/

@[simp]
theorem Error.bare_bare (e : Error) : e.bare.bare = e.bare := by
  cases e <;> simp [bare, Function.comp_def]

/-- An entry with another value has the same place in a list. -/
theorem lookup_map_snd {α β : Type} (f : α → β) (entries : List (String × α)) (name : String) :
    (entries.map fun entry => (entry.1, f entry.2)).lookup name = (entries.lookup name).map f := by
  induction entries with
  | nil => rfl
  | cons entry entries ih =>
    rw [List.map_cons, List.lookup_cons, List.lookup_cons, ih]
    split <;> rfl

namespace Defines

def bare (d : Defines) : Defines := ⟨d.entries.map fun entry => (entry.1, .nowhere)⟩

theorem find?_bare (d : Defines) (name : String) : d.bare.find? name = (d.find? name).map fun _ => .nowhere :=
  lookup_map_snd (fun _ => FileRange.nowhere) d.entries name

theorem isDefined_bare (d : Defines) (name : String) : d.bare.isDefined name = d.isDefined name := by
  simp [isDefined, find?_bare]

theorem erased_define (d : Defines) (name : String) (range : FileRange) :
    erased bare (d.define name range) = d.bare.define name .nowhere := by
  unfold define
  rw [find?_bare]
  cases d.find? name with
  | none => rfl
  | some previous => rfl

end Defines

def Symbol.bare (symbol : Symbol) : Symbol := { symbol with range := .nowhere }

namespace SymbolTable

def bare (t : SymbolTable) : SymbolTable := ⟨t.entries.map fun entry => (entry.1, entry.2.bare)⟩

theorem find?_bare (t : SymbolTable) (name : String) : t.bare.find? name = (t.find? name).map Symbol.bare :=
  lookup_map_snd ..

theorem erased_register (t : SymbolTable) (name : String) (symbol : Symbol) :
    erased bare (t.register name symbol) = t.bare.register name symbol.bare := by
  unfold register
  rw [erased_ite, find?_bare]
  cases t.find? name with
  | none => rfl
  | some previous => rfl

theorem suggestion?_bare (t : SymbolTable) (type : String) : t.bare.suggestion? type = t.suggestion? type := by
  simp [suggestion?, bare, Function.comp_def]

theorem erased_resolveChars (t : SymbolTable) (range : FileRange) (target : Path) (type : List Char) :
    erased id (t.resolveChars range target type) = t.bare.resolveChars .nowhere target type := by
  induction hn : type.length using Nat.strongRecOn generalizing type with
  | _ n ih =>
    subst hn
    rw [resolveChars, resolveChars]
    simp only [find?_bare]
    cases t.find? (String.ofList type) with
    | some symbol => rfl
    | none =>
      cases t.find? (String.ofList (TypeText.normalChars type)) with
      | some symbol => rfl
      | none =>
        simp only [Option.map_none]
        split
        · rfl
        · split
          · rfl
          · split
            · rename_i element helement
              have hlt : element.length < type.length :=
                Nat.lt_of_lt_of_le (TypeText.length_argument?_lt helement) (TypeText.length_normalChars_le type)
              rw [← ih element.length hlt element rfl]
              cases t.resolveChars range target element with
              | error e => rfl
              | ok r => rfl
            · cases builtin? (String.ofList (TypeText.normalChars type)) with
              | some type => rfl
              | none => simp [Error.bare, suggestion?_bare]

theorem erased_resolve (t : SymbolTable) (range : FileRange) (target : Path) (type : String) :
    erased id (t.resolve range target type) = t.bare.resolve .nowhere target type := t.erased_resolveChars ..

theorem erased_resolveReturn (t : SymbolTable) (range : FileRange) (target : Path) (type : String) :
    erased id (t.resolveReturn range target type) = t.bare.resolveReturn .nowhere target type := by
  unfold resolveReturn
  rw [erased_ite, erased_resolve]
  rfl

theorem erased_checkException (t : SymbolTable) (name : String) (range : FileRange) :
    erased id (t.checkException name range) = t.bare.checkException name .nowhere := by
  unfold checkException
  rw [find?_bare]
  cases t.find? name with
  | none => rfl
  | some symbol => exact erased_ite

end SymbolTable

/-! ## Declarations without comments -/

theorem Member.bareAll_bareAll {α : Type} (members : List (Member α)) :
    Member.bareAll id (Member.bareAll id members) = Member.bareAll id members := by
  rw [Member.bareAll, Member.items_bareAll, List.map_id]
  rfl

namespace Declaration

def isComment : Declaration → Bool
  | comment _ => true
  | _ => false

mutual

/-- A declaration without the comments in it. -/
def bare : Declaration → Declaration
  | .module name body => .module name (bareAll body)
  | .typedef name type => .typedef name type
  | .record kind name members => .record kind name (Member.bareAll id members)
  | .enum name members => .enum name (Member.bareAll id members)
  | .interface name members => .interface name (Member.bareAll id members)
  | .comment _ => .comment ⟨"", ""⟩
  | .imported i => .imported i

/-- Declarations without the comments among and in them. -/
def bareAll : List Declaration → List Declaration
  | [] => []
  | d :: ds => if d.isComment then bareAll ds else d.bare :: bareAll ds

end

@[simp]
theorem bareAll_nil : bareAll [] = [] := by rw [bareAll]

theorem bareAll_cons (d : Declaration) (ds : List Declaration) :
    bareAll (d :: ds) = if d.isComment then bareAll ds else d.bare :: bareAll ds := by rw [bareAll]

@[simp]
theorem bareAll_append (ds ds' : List Declaration) : bareAll (ds ++ ds') = bareAll ds ++ bareAll ds' := by
  induction ds with
  | nil => simp
  | cons d ds ih =>
    simp only [List.cons_append, bareAll_cons, ih]
    split <;> rfl

@[simp]
theorem bareAll_comments (comments : List Comment) : bareAll (comments.map .comment) = [] := by
  induction comments with
  | nil => simp
  | cons comment comments ih =>
    rw [List.map_cons, bareAll_cons, ih]
    rfl

@[simp]
theorem bareAll_imports (imports : List Import) : bareAll (imports.map .imported) = imports.map .imported := by
  induction imports with
  | nil => simp
  | cons i imports ih =>
    rw [List.map_cons, bareAll_cons, ih]
    simp [isComment, bare]

end Declaration

def Emission.bare (e : Emission) : Emission := ⟨e.target, Declaration.bareAll e.body⟩

namespace Compilation

/-- What the state means for the rest of a compilation that includes no file: its tables without
places, and what was emitted without comments. -/
def bare (s : Compilation) : Compilation :=
  ⟨.empty, s.defines.bare, s.symbols.bare, s.emissions.map Emission.bare, s.compiled, s.compiling, []⟩

/-- The steps end alike in states that are alike. -/
structure Alike {α β : Type} (f : α → β) (m m' : CompileM α) : Prop where
  result : ∀ s s', s.bare = s'.bare → erased f (outcome m s).1 = erased f (outcome m' s').1
  state : ∀ s s', s.bare = s'.bare → (outcome m s).2.bare = (outcome m' s').2.bare

section Alike

variable {α β γ δ : Type} {f : α → β} {g : γ → δ}

theorem alike_of_outcome {m m' : CompileM α}
    (h : ∀ s s', s.bare = s'.bare → ∃ r r' t t', outcome m s = (r, t) ∧ outcome m' s' = (r', t') ∧
      erased f r = erased f r' ∧ t.bare = t'.bare) : Alike f m m' := by
  constructor
  · intro s s' hs
    obtain ⟨r, r', t, t', hm, hm', hr, -⟩ := h s s' hs
    rw [hm, hm', hr]
  · intro s s' hs
    obtain ⟨r, r', t, t', hm, hm', -, ht⟩ := h s s' hs
    rw [hm, hm', ht]

theorem alike_pure {a a' : α} (h : f a = f a') : Alike f (pure a) (pure a') :=
  alike_of_outcome fun s s' hs => ⟨.ok a, .ok a', s, s', rfl, rfl, by simp [h], hs⟩

theorem alike_throw {e e' : Error} (h : e.bare = e'.bare) : Alike f (throw e : CompileM α) (throw e') :=
  alike_of_outcome fun s s' hs => ⟨.error e, .error e', s, s', rfl, rfl, by simp [h], hs⟩

theorem alike_guard {p : Prop} [Decidable p] (e : Error) {m m' : CompileM α} (h : Alike f m m') :
    Alike f (if p then (throw e : CompileM PUnit) >>= fun _ => m else m)
      (if p then (throw e : CompileM PUnit) >>= fun _ => m' else m') := by
  split
  · exact alike_of_outcome fun s s' hs => ⟨.error e, .error e, s, s', rfl, rfl, rfl, hs⟩
  · exact h

theorem alike_get : Alike bare get get :=
  alike_of_outcome fun s s' hs => ⟨.ok s, .ok s', s, s', rfl, rfl, by simp [hs], hs⟩

theorem alike_modify {u u' : Compilation → Compilation} (h : ∀ s s', s.bare = s'.bare → (u s).bare = (u' s').bare) :
    Alike id (modify u) (modify u') :=
  alike_of_outcome fun s s' hs => ⟨.ok (), .ok (), u s, u' s', rfl, rfl, rfl, h s s' hs⟩

theorem alike_ofExcept {x x' : Except Error α} (h : erased f x = erased f x') :
    Alike f (MonadExcept.ofExcept x) (MonadExcept.ofExcept x') :=
  alike_of_outcome fun s s' hs => ⟨x, x', s, s', by cases x <;> rfl, by cases x' <;> rfl, h, hs⟩

/-- Steps in sequence: what comes next may depend on the first result as far as `f` tells. -/
theorem Alike.bind {m m' : CompileM α} {k k' : α → CompileM γ} (h : Alike f m m')
    (hk : ∀ a a', f a = f a' → Alike g (k a) (k' a')) : Alike g (m >>= k) (m' >>= k') := by
  refine alike_of_outcome fun s s' hs => ?_
  have hresult := h.result s s' hs
  have hstate := h.state s s' hs
  rw [outcome_bind, outcome_bind]
  revert hresult hstate
  rcases outcome m s with ⟨e | a, t⟩ <;> rcases outcome m' s' with ⟨e' | a', t'⟩ <;> intro hresult hstate
  · exact ⟨_, _, t, t', rfl, rfl, by simpa using hresult, hstate⟩
  · cases hresult
  · cases hresult
  · have hnext := hk a a' (by simpa using hresult)
    exact ⟨_, _, _, _, rfl, rfl, hnext.result t t' hstate, hnext.state t t' hstate⟩

/-- Steps that end like a third one end alike. -/
theorem Alike.join {m m' m₀ : CompileM α} (h : Alike f m m₀) (h' : Alike f m' m₀) : Alike f m m' :=
  ⟨fun s s' hs => (h.result s s' hs).trans (h'.result s' s' rfl).symm,
    fun s s' hs => (h.state s s' hs).trans (h'.state s' s' rfl).symm⟩

theorem Alike.then {m m' : CompileM Unit} {k k' : Unit → CompileM γ} (h : Alike id m m') (hk : Alike g (k ()) (k' ())) :
    Alike g (m >>= k) (m' >>= k') := h.bind fun _ _ _ => hk

/-- Steps that run while the same file is being compiled. -/
theorem Alike.during {m m' : CompileM α} (path : Path) (h : Alike f m m') :
    Alike f (during path m) (during path m') := by
  refine alike_of_outcome fun s s' hs => ⟨_, _, _, _, outcome_during .., outcome_during .., ?_⟩
  have henter : (s.enter path).bare = (s'.enter path).bare := by
    simp only [bare, Compilation.mk.injEq] at hs
    simp [bare, enter, hs]
  have hstate := h.state _ _ henter
  refine ⟨h.result _ _ henter, ?_⟩
  simp only [bare, Compilation.mk.injEq] at hstate
  simp [bare, leave, hstate]

end Alike

/-! ## Steps -/

section Steps

theorem alike_note {level level' : LogLevel} {message message' : String} :
    Alike id (note level message) (note level' message') := alike_modify fun _ _ hs => hs

theorem alike_reach {path path' : Path} {head head' : Token} : Alike id (reach path head) (reach path' head') :=
  alike_note

theorem alike_stopAt (fault : Option Error) : Alike id (stopAt fault) (stopAt (fault.map Error.bare)) := by
  cases fault with
  | none => exact alike_pure rfl
  | some e => exact alike_throw e.bare_bare.symm

theorem alike_emit (target : Path) {body body' : List Declaration}
    (h : Declaration.bareAll body = Declaration.bareAll body') : Alike id (emit target body) (emit target body') := by
  refine alike_note.then (alike_modify fun s s' hs => ?_)
  simp only [bare, Compilation.mk.injEq] at hs
  simp [bare, Emission.bare, hs, h]

theorem alike_define (name : Name) : Alike id (define name) (define name.bare) := by
  refine alike_note.then (alike_get.bind fun s s' hs => ?_)
  have hdefine : erased Defines.bare (s.defines.define name.text name.range) =
      erased Defines.bare (s'.defines.define name.text .nowhere) := by
    rw [Defines.erased_define, Defines.erased_define, show s.defines.bare = s'.defines.bare from congrArg defines hs]
  refine (alike_ofExcept hdefine).bind fun d d' hd => alike_modify fun t t' ht => ?_
  simp only [bare, Compilation.mk.injEq] at ht
  simp [bare, ht, hd]

theorem alike_register (kind : Symbol.Kind) (path target : Path) (name : Name) :
    Alike id (register kind path target name) (register kind path target name.bare) := by
  refine alike_get.bind fun s s' hs => ?_
  have hregister : erased SymbolTable.bare (s.symbols.register name.text ⟨kind, path, target, name.range⟩) =
      erased SymbolTable.bare (s'.symbols.register name.text ⟨kind, path, target, .nowhere⟩) := by
    rw [SymbolTable.erased_register, SymbolTable.erased_register,
      show s.symbols.bare = s'.symbols.bare from congrArg symbols hs]
    rfl
  refine (alike_ofExcept hregister).bind fun t t' ht => alike_note.then (alike_modify fun u u' hu => ?_)
  simp only [bare, Compilation.mk.injEq] at hu
  simp [bare, hu, ht]

theorem alike_resolve (target : Path) (type : TypeExpr) :
    Alike id (resolve target type) (resolve target type.bare) := by
  refine alike_get.bind fun s s' hs => alike_ofExcept ?_
  rw [SymbolTable.erased_resolve, SymbolTable.erased_resolve,
    show s.symbols.bare = s'.symbols.bare from congrArg symbols hs]
  rfl

theorem alike_resolveReturn (target : Path) (type : TypeExpr) :
    Alike id (resolveReturn target type) (resolveReturn target type.bare) := by
  refine alike_get.bind fun s s' hs => alike_ofExcept ?_
  rw [SymbolTable.erased_resolveReturn, SymbolTable.erased_resolveReturn,
    show s.symbols.bare = s'.symbols.bare from congrArg symbols hs]
  rfl

theorem alike_resolveException (name : Name) : Alike id (resolveException name) (resolveException name.bare) := by
  refine alike_get.bind fun s s' hs => ?_
  refine Alike.then (alike_ofExcept ?_) (alike_pure rfl)
  rw [SymbolTable.erased_checkException, SymbolTable.erased_checkException,
    show s.symbols.bare = s'.symbols.bare from congrArg symbols hs]
  rfl

/-! ## Members -/

theorem alike_declareMembers {α β : Type} {f : α → α} {declare : α → CompileM (β × List Import)}
    (hdeclare : ∀ a, Alike id (declare a) (declare (f a))) (members : List (Member α)) :
    Alike (fun r => (Member.bareAll id r.1, r.2)) (declareMembers declare members)
      (declareMembers declare (Member.bareAll f members)) := by
  induction members with
  | nil => exact alike_pure rfl
  | cons member members ih =>
    cases member with
    | comment c =>
      rw [← bind_pure (declareMembers declare (Member.bareAll f (.comment c :: members)))]
      refine ih.bind fun r r' hr => alike_pure ?_
      simpa [Member.bareAll] using hr
    | item a =>
      refine (hdeclare a).bind fun r r' hr => ih.bind fun q q' hq => alike_pure ?_
      obtain rfl : r = r' := hr
      simp only [Prod.mk.injEq] at hq
      simp [hq]

theorem alike_declareField (target : Path) (f : Field TypeExpr) :
    Alike id (declareField target f) (declareField target f.bare) := by
  refine (alike_resolve target f.type).bind fun r r' hr => alike_pure ?_
  obtain rfl : r = r' := hr
  rfl

theorem alike_declareParameters (target : Path) (parameters : List (Parameter TypeExpr)) :
    Alike id (declareParameters target parameters) (declareParameters target (parameters.map Parameter.bare)) := by
  induction parameters with
  | nil => exact alike_pure rfl
  | cons p parameters ih =>
    refine (alike_resolve target p.type).bind fun r r' hr => ih.bind fun q q' hq => alike_pure ?_
    obtain rfl : r = r' := hr
    obtain rfl : q = q' := hq
    rfl

theorem alike_resolveExceptions (names : List Name) :
    Alike id (names.mapM resolveException) ((names.map Name.bare).mapM resolveException) := by
  induction names with
  | nil => exact alike_pure rfl
  | cons name names ih =>
    rw [List.map_cons, List.mapM_cons, List.mapM_cons]
    refine (alike_resolveException name).bind fun text text' htext => ih.bind fun texts texts' htexts => alike_pure ?_
    obtain rfl : text = text' := htext
    obtain rfl : texts = texts' := htexts
    rfl

theorem alike_declareMethod (target : Path) (m : MethodItem) :
    Alike id (declareMethod target m) (declareMethod target m.bare) := by
  refine (alike_resolveReturn target m.method.returns).bind fun r r' hr => ?_
  refine (alike_declareParameters target m.method.parameters).bind fun q q' hq => ?_
  refine (alike_resolveExceptions m.method.raises).bind fun raises raises' hraises => ?_
  refine (alike_stopAt m.fault).then (alike_pure ?_)
  obtain rfl : r = r' := hr
  obtain rfl : q = q' := hq
  obtain rfl : raises = raises' := hraises
  rfl

end Steps

/-! ## Items -/

mutual

/-- An item without includes can be declared without its comments and places. -/
theorem alike_declare {ctx ctx' : Context} (hpath : ctx.path = ctx'.path) (target : Path) :
    ∀ item : Item, item.includes = [] → item.isComment = false →
      Alike Declaration.bareAll (declare ctx target item) (declare ctx' target item.bare)
  | .comment _, _, h => by cases h
  | .define head name, _, _ => by
    rw [Item.bare, declare, declare]
    exact alike_reach.then ((alike_define name).then (alike_pure rfl))
  | .include head written range, h, _ => by simp [Item.includes] at h
  | .guarded head name body, h, _ => by
    rw [Item.bare, declare, declare]
    refine alike_reach.then (alike_get.bind fun s s' hs => ?_)
    refine (alike_declareAll hpath target body (by simpa [Item.includes] using h)).bind fun ds ds' hds => alike_pure ?_
    have hdefined : s.defines.isDefined name.text = s'.defines.isDefined name.text := by
      rw [← Defines.isDefined_bare, ← s'.defines.isDefined_bare,
        show s.defines.bare = s'.defines.bare from congrArg defines hs]
    rw [Name.bare, hdefined]
    cases s'.defines.isDefined name.text with
    | true => rfl
    | false => exact hds
  | .module head name body trailing fault, h, _ => by
    rw [Item.bare, declare, declare]
    refine alike_reach.then ?_
    refine (alike_declareAll hpath _ body (by simpa [Item.includes] using h)).bind fun ds ds' hds => ?_
    refine (alike_stopAt fault).then ((alike_emit _ hds).then (alike_pure ?_))
    simp [Declaration.bareAll_cons, Declaration.isComment, Declaration.bare, hds, Name.bare]
  | .typedef head typed comments, _, _ => by
    rw [Item.bare, declare, declare, ← hpath]
    refine alike_reach.then ((alike_resolve target typed.type).bind fun r r' hr => ?_)
    refine (alike_register .typedef ctx.path target typed.name).then (alike_pure ?_)
    obtain rfl : r = r' := hr
    simp [TypedName.bare, Name.bare]
  | .record head kind name block, _, _ => by
    rw [Item.bare, declare, declare, ← hpath]
    refine alike_reach.then ((alike_register (recordSymbol kind) ctx.path target name).then ?_)
    refine (alike_declareMembers (alike_declareField target) block.members).bind fun r r' hr => ?_
    refine (alike_stopAt block.fault).then (alike_pure ?_)
    simp only [Prod.mk.injEq] at hr
    simp [Declaration.bareAll_cons, Declaration.isComment, Declaration.bare, hr, Block.bare, Name.bare]
  | .enum head name block, _, _ => by
    rw [Item.bare, declare, declare, ← hpath]
    refine alike_reach.then ((alike_register .enum ctx.path target name).then ?_)
    refine (alike_stopAt block.fault).then (alike_pure ?_)
    simp [Declaration.bareAll_cons, Declaration.isComment, Declaration.bare, Block.bare, Name.bare,
      Member.bareAll_bareAll]
  | .interface head name block, _, _ => by
    rw [Item.bare, declare, declare, ← hpath]
    refine alike_reach.then ((alike_register .interface ctx.path target name).then ?_)
    refine (alike_declareMembers (alike_declareMethod target) block.members).bind fun r r' hr => ?_
    refine (alike_stopAt block.fault).then (alike_pure ?_)
    simp only [Prod.mk.injEq] at hr
    simp [Declaration.bareAll_cons, Declaration.isComment, Declaration.bare, hr, Block.bare, Name.bare]
  | .fault head error, _, _ => by
    rw [Item.bare, declare, declare]
    cases head with
    | none => exact (alike_pure rfl).then (alike_throw error.bare_bare.symm)
    | some head => exact alike_reach.then (alike_throw error.bare_bare.symm)

/-- Items without includes can be declared without their comments and places. -/
theorem alike_declareAll {ctx ctx' : Context} (hpath : ctx.path = ctx'.path) (target : Path) :
    ∀ items : List Item, Item.allIncludes items = [] →
      Alike Declaration.bareAll (declareAll ctx target items) (declareAll ctx' target (Item.bareAll items))
  | [], _ => by
    rw [Item.bareAll, declareAll, declareAll]
    exact alike_pure rfl
  | item :: items, h => by
    obtain ⟨hitem, hitems⟩ := List.append_eq_nil_iff.1 (Item.allIncludes_cons item items ▸ h)
    have hrest := alike_declareAll hpath target items hitems
    rw [Item.bareAll_cons]
    cases hc : item.isComment with
    | true =>
      obtain ⟨c, rfl⟩ := Item.exists_comment hc
      rw [if_pos rfl, declareAll, declare, pure_bind, ← bind_pure (declareAll ctx' target (Item.bareAll items))]
      exact hrest.bind fun ds ds' hds => alike_pure
        (by simpa [Declaration.bareAll_cons, Declaration.isComment] using hds)
    | false =>
      rw [if_neg (by simp), declareAll, declareAll]
      refine (alike_declare hpath target item hitem hc).bind fun ds ds' hds => hrest.bind fun es es' hes => ?_
      exact alike_pure (by simp [hds, hes])

end

end Compilation

/-! ## Terminals -/

/-- What the tokens of a text are does not depend on where it stands. -/
theorem Token.exists_scan {file offset : Nat} {position : Position} {cs : List Char} {tokens : List Token}
    (h : scan file offset position cs = .ok tokens) (file' offset' : Nat) (position' : Position) :
    ∃ tokens', scan file' offset' position' cs = .ok tokens' ∧ terminals tokens' = terminals tokens := by
  fun_induction scan file offset position cs generalizing tokens offset' position' with
  | case1 offset position cs hfirst =>
    cases h
    refine ⟨[], ?_, rfl⟩
    rw [scan]
    split <;> simp_all
  | case2 => cases h
  | case3 offset position cs gap start position₁ kind text rest hfirst stop token =>
    rename_i ih
    obtain ⟨more, hmore, htokens⟩ := Except.bind_eq_ok.1 h
    cases htokens
    obtain ⟨more', hmore', heq⟩ := ih hmore (offset' + Text.size gap + Text.size text)
      ((position'.advance gap).advance text)
    have hscan : scan file' offset' position' cs =
        (scan file' (offset' + Text.size gap + Text.size text) ((position'.advance gap).advance text) rest >>=
          fun tokens => pure (⟨kind, String.ofList gap, String.ofList text, ⟨file', offset' + Text.size gap,
            offset' + Text.size gap + Text.size text⟩, position'.advance gap⟩ :: tokens)) := by
      rw [scan]
      split <;> simp_all [gap]
    refine ⟨_, by rw [hscan, hmore']; rfl, ?_⟩
    simp only [terminals, List.filterMap_cons] at heq ⊢
    rw [heq]
    rfl

namespace Compilation

/-- Files without includes that have the same terminals are declared alike. -/
theorem alike_ofTokens {ctx ctx' : Context} (hpath : ctx.path = ctx'.path) (target : Path) (source source' : SourceText)
    {tokens tokens' : List Token} (h : Item.NoInclude tokens) (hsame : terminals tokens = terminals tokens') :
    Alike Declaration.bareAll (declareAll ctx target (Item.ofTokens source tokens))
      (declareAll ctx' target (Item.ofTokens source' tokens')) := by
  have h' : Item.NoInclude tokens' := Item.noInclude_iff.2 (hsame ▸ Item.noInclude_iff.1 h)
  have hbare := alike_declareAll hpath target _ (Item.allIncludes_ofTokens source h)
  have hbare' := alike_declareAll (rfl : ctx'.path = ctx'.path) target _ (Item.allIncludes_ofTokens source' h')
  rw [Item.bareAll_ofTokens source h, hsame] at hbare
  rw [Item.bareAll_ofTokens source' h'] at hbare'
  exact hbare.join hbare'

/-- A text that is read as some terminals, whatever its number. -/
def ReadAs (text : String) (ls : List Terminal) : Prop :=
  ∀ file, ∃ tokens, Token.ofSource file text = .ok tokens ∧ terminals tokens = ls

theorem readAs_of_ofSource {file : Nat} {text : String} {tokens : List Token}
    (h : Token.ofSource file text = .ok tokens) :
    ReadAs text (terminals tokens) := by
  intro file'
  obtain ⟨tokens', htokens', heq⟩ := Token.exists_scan h file' 0 .first
  exact ⟨tokens', htokens', heq⟩

/-- The text of a file is compiled as its terminals tell. -/
theorem alike_compileText {includeFile includeFile' : Path → FileRange → CompileM Unit} {text text' : String}
    {ls : List Terminal} (htext : ReadAs text ls) (htext' : ReadAs text' ls)
    (hls : ∀ l ∈ ls, l.kind ≠ .directive .include) (path target : Path) :
    Alike Declaration.bareAll (compileText includeFile path target text)
      (compileText includeFile' path target text') := by
  refine alike_get.bind fun s s' _ => Alike.then (alike_modify fun t t' ht => ht) ?_
  obtain ⟨tokens, htokens, rfl⟩ := htext s.library.nextId
  obtain ⟨tokens', htokens', heq⟩ := htext' s'.library.nextId
  have hitems := alike_ofTokens
    (show (⟨path, includeFile⟩ : Context).path = (⟨path, includeFile'⟩ : Context).path from rfl)
    target (.ofFile s.library.nextId text) (.ofFile s'.library.nextId text') (Item.noInclude_iff.2 hls) heq.symm
  rw [htokens, htokens']
  change Alike _ (pure tokens >>= _) (pure tokens' >>= _)
  rw [pure_bind, pure_bind]
  refine alike_note.then ((hitems.during path).bind fun body body' hbody => ?_)
  refine Alike.then (alike_modify fun t t' ht => ?_) ((alike_emit target hbody).then (alike_pure hbody))
  simp only [bare, Compilation.mk.injEq] at ht
  simp [bare, ht]

/-- The file at a path is compiled as the terminals of its text tell. -/
theorem alike_compileFile {sources sources' : Sources} {path : Path} {text text' : String} {ls : List Terminal}
    (hsource : sources.texts.lookup path.normalize = some text)
    (hsource' : sources'.texts.lookup path.normalize = some text') (htext : ReadAs text ls) (htext' : ReadAs text' ls)
    (hls : ∀ l ∈ ls, l.kind ≠ .directive .include) :
    Alike Declaration.bareAll (compileFile sources path) (compileFile sources' path) := by
  have hcompile : Alike Declaration.bareAll (compile sources none path.normalize)
      (compile sources' none path.normalize) := by
    refine alike_get.bind fun _ _ _ => ?_
    rw [compileFrom, compileFrom]
    refine alike_get.bind fun s s' hs => ?_
    have hcompiled : s.bare.compiled = s'.bare.compiled := congrArg compiled hs
    change s.compiled = s'.compiled at hcompiled
    rw [hcompiled]
    split
    · exact alike_note.then (alike_pure rfl)
    · dsimp only
      refine alike_guard (.overwritesSource path.normalize none) ?_
      rw [hsource, hsource']
      exact alike_compileText htext htext' hls ..
  unfold compileFile
  split
  · exact alike_note.then hcompile
  · exact hcompile

/-- Two outcomes of compiling a file that differ in blanks, comments and places only. -/
inductive SameMeaning :
    Except Error (List Declaration) × Compilation → Except Error (List Declaration) × Compilation → Prop
  /-- Both files compile. -/
  | success {ds ds' : List Declaration} {s s' : Compilation}
      (declarations : Declaration.bareAll ds = Declaration.bareAll ds')
      (defined : s.defines.entries.map (·.1) = s'.defines.entries.map (·.1))
      (declared : (s.symbols.entries.map fun (name, symbol) => (name, symbol.kind, symbol.file, symbol.target)) =
        s'.symbols.entries.map fun (name, symbol) => (name, symbol.kind, symbol.file, symbol.target))
      (emitted : s.emissions.map Emission.bare = s'.emissions.map Emission.bare) :
      SameMeaning (.ok ds, s) (.ok ds', s')
  /-- Both files have the same error in them. -/
  | failure {e e' : Error} {s s' : Compilation} (error : e.bare = e'.bare) : SameMeaning (.error e, s) (.error e', s')

/-- States that are alike know the same names. -/
theorem names_of_bare {s s' : Compilation} (h : s.bare = s'.bare) :
    s.defines.entries.map (·.1) = s'.defines.entries.map (·.1) ∧
      (s.symbols.entries.map fun (name, symbol) => (name, symbol.kind, symbol.file, symbol.target)) =
        s'.symbols.entries.map fun (name, symbol) => (name, symbol.kind, symbol.file, symbol.target) := by
  have hdefines : s.bare.defines.entries.map (·.1) = s'.bare.defines.entries.map (·.1) := by rw [h]
  have hsymbols : (s.bare.symbols.entries.map fun (name, symbol) => (name, symbol.kind, symbol.file, symbol.target)) =
      s'.bare.symbols.entries.map fun (name, symbol) => (name, symbol.kind, symbol.file, symbol.target) := by rw [h]
  simp only [bare, Defines.bare, SymbolTable.bare, Symbol.bare, List.map_map, Function.comp_def] at hdefines hsymbols
  exact ⟨hdefines, hsymbols⟩

/-- Blanks and comments never change the meaning of a file without includes: texts that are read as the
same terminals compile with the same declarations, names and bodies, or fail with the same error. -/
theorem same_meaning {sources sources' : Sources} {path : Path} {text text' : String} {file file' : Nat}
    {tokens tokens' : List Token} (hsource : sources.texts.lookup path.normalize = some text)
    (hsource' : sources'.texts.lookup path.normalize = some text') (hlex : Token.ofSource file text = .ok tokens)
    (hlex' : Token.ofSource file' text' = .ok tokens') (hinclude : Item.NoInclude tokens)
    (hsame : terminals tokens = terminals tokens') (s : Compilation) :
    SameMeaning (outcome (compileFile sources path) s) (outcome (compileFile sources' path) s) := by
  have halike := alike_compileFile hsource hsource' (readAs_of_ofSource hlex) (hsame ▸ readAs_of_ofSource hlex')
    (Item.noInclude_iff.1 hinclude)
  have hresult := halike.result s s rfl
  have hstate := halike.state s s rfl
  revert hresult hstate
  rcases outcome (compileFile sources path) s with ⟨e | ds, t⟩ <;>
    rcases outcome (compileFile sources' path) s with ⟨e' | ds', t'⟩ <;> intro hresult hstate
  · exact .failure (by simpa using hresult)
  · cases hresult
  · cases hresult
  · obtain ⟨hdefined, hdeclared⟩ := names_of_bare hstate
    exact .success (by simpa using hresult) hdefined hdeclared (congrArg emissions hstate)

/-- A module, with comments where they can stand and without them. -/
def commentedModule : String :=
  "// a\nmodule /* b */ M \x7b\n  struct S \x7b long /* c */ x; // d\n  \x7d;\n\x7d /* e */;"

def plainModule : String := "module M\x7bstruct S\x7blong x;\x7d;\x7d;"

theorem same_meaning_commented :
    (outcome (compileFile ⟨[(⟨"m.idl"⟩, commentedModule)], fun _ => ""⟩ ⟨"m.idl"⟩) .empty).1.isOk = true ∧
      SameMeaning (outcome (compileFile ⟨[(⟨"m.idl"⟩, commentedModule)], fun _ => ""⟩ ⟨"m.idl"⟩) .empty)
        (outcome (compileFile ⟨[(⟨"m.idl"⟩, plainModule)], fun _ => ""⟩ ⟨"m.idl"⟩) .empty) := by
  have hlex (text : String) (h : (Token.ofSource 1 text).isOk = true) :
      Token.ofSource 1 text = .ok ((Token.ofSource 1 text).toOption.getD []) := by
    cases hlexed : Token.ofSource 1 text with
    | error e => simp [hlexed, Except.isOk, Except.toBool] at h
    | ok tokens => rfl
  have hsource (text : String) :
      (⟨[(⟨"m.idl"⟩, text)], fun _ => ""⟩ : Sources).texts.lookup (⟨"m.idl"⟩ : Path).normalize = some text := by
    rw [show (⟨"m.idl"⟩ : Path).normalize = ⟨"m.idl"⟩ by decide +kernel]
    rfl
  refine ⟨by decide +kernel, same_meaning (hsource commentedModule) (hsource plainModule)
    (hlex commentedModule (by decide +kernel)) (hlex plainModule (by decide +kernel)) ?_ (by decide +kernel) .empty⟩
  exact Item.noInclude_iff.2 (by decide +kernel)

end Compilation

end Idl
