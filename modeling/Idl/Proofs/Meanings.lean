import Idl.Proofs.Accepting
import Idl.Proofs.Alike

/-!
# The meaning of files

What the declarations of a file stand for, given the names that are known before it: each type is
what the table of names says at that point, each name is new, and what is raised is an exception.

* `Phrase.MeansAll path target s file ds s'`: in the state `s`, the declarations `file` of the file
  `path` stand for `ds` and leave the state `s'`. States and declarations are bare.
* `Compilation.Realizes f m R`: the step `m` succeeds if and only if `R` relates the state to a result,
  with that result, and otherwise it fails with an error about a name.
* `Compilation.accepts_grammar`: a file without includes is accepted if and only if it derives from the
  grammar and has a meaning, and its declarations are that meaning.
-/

namespace Idl

/-! ## Meanings -/

namespace Phrase

/-- Members stand for others one by one, and need some imports together. -/
inductive Collected {α β : Type} (R : α → β → List Import → Prop) : List α → List β → List Import → Prop
  | nil : Collected R [] [] []
  | cons {a : α} {b : β} {needed : List Import} {as : List α} {bs : List β} {imports : List Import}
      (first : R a b needed) (rest : Collected R as bs imports) : Collected R (a :: as) (b :: bs) (needed ++ imports)

section Collected

variable {α β : Type} {R : α → β → List Import → Prop} {a : α} {as : List α} {bs : List β} {imports : List Import}

theorem collected_nil : Collected R [] bs imports ↔ bs = [] ∧ imports = [] := by
  constructor
  · intro h
    cases h
    exact ⟨rfl, rfl⟩
  · rintro ⟨rfl, rfl⟩
    exact .nil

theorem collected_cons : Collected R (a :: as) bs imports ↔
    ∃ b needed bs' more, R a b needed ∧ Collected R as bs' more ∧ bs = b :: bs' ∧ imports = needed ++ more := by
  constructor
  · intro h
    cases h with
    | cons first rest => exact ⟨_, _, _, _, first, rest, rfl, rfl⟩
  · rintro ⟨b, needed, bs', more, first, rest, rfl, rfl⟩
    exact .cons first rest

end Collected

section Members

variable (symbols : SymbolTable) (target : Path)

inductive FieldMeans : Field String → Field ScriptType → List Import → Prop
  | field {name text : String} {type : ScriptType} {imports : List Import}
      (resolved : symbols.resolve .nowhere target text = .ok (type, imports)) :
      FieldMeans ⟨name, text⟩ ⟨name, type⟩ imports

inductive ParameterMeans : Parameter String → Parameter ScriptType → List Import → Prop
  | parameter {direction : Direction} {name text : String} {type : ScriptType} {imports : List Import}
      (resolved : symbols.resolve .nowhere target text = .ok (type, imports)) :
      ParameterMeans ⟨direction, name, text⟩ ⟨direction, name, type⟩ imports

inductive MethodMeans : Method String String → Method ScriptType String → List Import → Prop
  | method {name text : String} {written : List (Parameter String)} {raises : List String} {returns : ScriptType}
      {parameters : List (Parameter ScriptType)} {needed imports : List Import}
      (resolved : symbols.resolveReturn .nowhere target text = .ok (returns, needed))
      (collected : Collected (ParameterMeans symbols target) written parameters imports)
      (raised : ∀ e ∈ raises, symbols.checkException e .nowhere = .ok ()) :
      MethodMeans ⟨name, text, written, raises⟩ ⟨name, returns, parameters, raises⟩ (needed ++ imports)

end Members

mutual

/-- In a state, a declaration of the file `path` in a body that is written to an output stands for
some declarations and leaves a state. -/
inductive Means (path : Path) : Path → Compilation → Phrase → List Declaration → Compilation → Prop
  | define {target : Path} {s : Compilation} {name : String} {defines : Defines}
      (defined : s.defines.define name .nowhere = .ok defines) :
      Means path target s (.define name) [] { s with defines }
  /-- The body is left out if the name is defined before it, but it must have a meaning all the same. -/
  | guarded {target : Path} {s s' : Compilation} {name : String} {body : List Phrase} {ds : List Declaration}
      (inner : MeansAll path target s body ds s') :
      Means path target s (.guarded name body) (if s.defines.isDefined name then [] else ds) s'
  | module {target : Path} {s s' : Compilation} {name : String} {body : List Phrase} {ds : List Declaration}
      (inner : MeansAll path (Placement.ofModule target name) s body ds s') :
      Means path target s (.module name body) [.module name ds]
        { s' with emissions := s'.emissions ++ [⟨Placement.ofModule target name, ds⟩] }
  | typedef {target : Path} {s : Compilation} {name text : String} {type : ScriptType} {imports : List Import}
      {symbols : SymbolTable} (resolved : s.symbols.resolve .nowhere target text = .ok (type, imports))
      (registered : s.symbols.register name ⟨.typedef, path, target, .nowhere⟩ = .ok symbols) :
      Means path target s (.typedef text name) (imports.map .imported ++ [.typedef name type]) { s with symbols }
  /-- The name is known in the fields. -/
  | record {target : Path} {s : Compilation} {kind : RecordKind} {name : String} {written : List (Field String)}
      {fields : List (Field ScriptType)} {imports : List Import} {symbols : SymbolTable}
      (registered : s.symbols.register name ⟨Compilation.recordSymbol kind, path, target, .nowhere⟩ = .ok symbols)
      (collected : Collected (FieldMeans symbols target) written fields imports) :
      Means path target s (.record kind name written)
        (imports.map .imported ++ [.record kind name (fields.map .item)]) { s with symbols }
  | enum {target : Path} {s : Compilation} {name : String} {values : List String} {symbols : SymbolTable}
      (registered : s.symbols.register name ⟨.enum, path, target, .nowhere⟩ = .ok symbols) :
      Means path target s (.enum name values) [.enum name (values.map .item)] { s with symbols }
  /-- The name is known in the methods. -/
  | interface {target : Path} {s : Compilation} {name : String} {written : List (Method String String)}
      {methods : List (Method ScriptType String)} {imports : List Import} {symbols : SymbolTable}
      (registered : s.symbols.register name ⟨.interface, path, target, .nowhere⟩ = .ok symbols)
      (collected : Collected (MethodMeans symbols target) written methods imports) :
      Means path target s (.interface name written)
        (imports.map .imported ++ [.interface name (methods.map .item)]) { s with symbols }

/-- The declarations of a body, one after the other. -/
inductive MeansAll (path : Path) : Path → Compilation → List Phrase → List Declaration → Compilation → Prop
  | nil {target : Path} {s : Compilation} : MeansAll path target s [] [] s
  | cons {target : Path} {s s₁ s' : Compilation} {p : Phrase} {ps : List Phrase} {ds ds' : List Declaration}
      (first : Means path target s p ds s₁) (rest : MeansAll path target s₁ ps ds' s') :
      MeansAll path target s (p :: ps) (ds ++ ds') s'

end

end Phrase

namespace Compilation

open Phrase

/-! ## Steps against relations -/

/-- The step `m` succeeds if and only if `R` relates the state to a result, and with that result; it
fails only because of a name. -/
structure Realizes {α β : Type} (f : α → β) (m : CompileM α) (R : Compilation → β → Compilation → Prop) : Prop where
  sound : ∀ {s a s'}, Gives m s a s' → R s.bare (f a) s'.bare
  complete : ∀ {s b t}, R s.bare b t → ∃ a s', Gives m s a s' ∧ f a = b ∧ s'.bare = t
  failure : ∀ {s e s'}, outcome m s = (.error e, s') → e.isAboutName = true

section Realizes

variable {α β γ δ : Type} {f : α → β} {g : γ → δ} {m : CompileM α} {k : α → CompileM γ}
  {R R' : Compilation → β → Compilation → Prop}

theorem Realizes.congr (h : Realizes f m R) (heq : ∀ s b t, R s b t ↔ R' s b t) : Realizes f m R' where
  sound hm := (heq ..).1 (h.sound hm)
  complete hr := h.complete ((heq ..).2 hr)
  failure := h.failure

/-- Steps in sequence realize relations in sequence. -/
theorem Realizes.bind (hm : Realizes f m R) (Q : β → Compilation → δ → Compilation → Prop)
    (hk : ∀ a, Realizes g (k a) (Q (f a))) : Realizes g (m >>= k) fun s c t => ∃ b s₁, R s b s₁ ∧ Q b s₁ c t where
  sound := by
    intro s c t h
    obtain ⟨a, s₁, hma, hka⟩ := gives_bind.1 h
    exact ⟨f a, s₁.bare, hm.sound hma, (hk a).sound hka⟩
  complete := by
    rintro s c t ⟨b, _, hr, hq⟩
    obtain ⟨a, s₁, hma, rfl, rfl⟩ := hm.complete hr
    obtain ⟨c', s', hka, hc, ht⟩ := (hk a).complete hq
    exact ⟨c', s', gives_bind.2 ⟨a, s₁, hma, hka⟩, hc, ht⟩
  failure := by
    intro s e t h
    rw [outcome_bind] at h
    cases hma : outcome m s with
    | mk result s₁ =>
      rw [hma] at h
      cases result with
      | error e' =>
        obtain ⟨rfl, rfl⟩ : e' = e ∧ s₁ = t := by simpa using h
        exact hm.failure hma
      | ok a => exact (hk a).failure h

theorem realizes_pure (a : α) : Realizes f (pure a) fun s b t => b = f a ∧ t = s where
  sound h := by
    obtain ⟨rfl, rfl⟩ := gives_pure.1 h
    exact ⟨rfl, rfl⟩
  complete := by
    rintro s b t ⟨rfl, rfl⟩
    exact ⟨a, s, rfl, rfl, rfl⟩
  failure h := by cases h

theorem realizes_get : Realizes bare get fun s b t => b = s ∧ t = s where
  sound h := by
    obtain ⟨rfl, rfl⟩ := gives_get.1 h
    exact ⟨rfl, rfl⟩
  complete := by
    rintro s b t ⟨rfl, rfl⟩
    exact ⟨s, s, rfl, rfl, rfl⟩
  failure h := by cases h

theorem realizes_modify {u u₀ : Compilation → Compilation} (hu : ∀ s, (u s).bare = u₀ s.bare) :
    Realizes id (modify u) fun s _ t => t = u₀ s where
  sound h := by rw [← gives_modify.1 h, hu]
  complete := by
    rintro s b t rfl
    exact ⟨(), u s, gives_modify.2 rfl, rfl, hu s⟩
  failure h := by cases h

theorem realizes_ofExcept {x : Except Error α} {x₀ : Except Error β} (hx : erased f x = x₀)
    (herror : ∀ e, x = .error e → e.isAboutName = true) :
    Realizes f (MonadExcept.ofExcept x) fun s b t => x₀ = .ok b ∧ t = s where
  sound h := by
    obtain ⟨rfl, rfl⟩ := gives_ofExcept.1 h
    exact ⟨hx.symm, rfl⟩
  complete := by
    rintro s b t ⟨hok, rfl⟩
    cases x with
    | error e => cases hx.trans hok
    | ok a =>
      cases hx.trans hok
      exact ⟨a, s, rfl, rfl, rfl⟩
  failure := by
    intro s e s' h
    cases x with
    | error e' =>
      cases h
      exact herror e rfl
    | ok a => cases h

/-- Steps in sequence, the first of which leaves the state as it is. -/
theorem Realizes.bind_read {X : Compilation → β → Prop} (hm : Realizes f m fun s b t => X s b ∧ t = s)
    (Q : β → Compilation → δ → Compilation → Prop) (hk : ∀ a, Realizes g (k a) (Q (f a))) :
    Realizes g (m >>= k) fun s c t => ∃ b, X s b ∧ Q b s c t := by
  refine (hm.bind Q hk).congr fun s c t => ⟨?_, ?_⟩
  · rintro ⟨b, _, ⟨hb, rfl⟩, hc⟩
    exact ⟨b, hb, hc⟩
  · rintro ⟨b, hb, hc⟩
    exact ⟨b, s, ⟨hb, rfl⟩, hc⟩

/-- The case in which nothing is left out of the first result. -/
theorem Realizes.bind_value {X : Compilation → α → Prop} {Q : α → Compilation → δ → Compilation → Prop}
    (hm : Realizes id m fun s a t => X s a ∧ t = s) (hk : ∀ a, Realizes g (k a) (Q a)) :
    Realizes g (m >>= k) fun s c t => ∃ a, X s a ∧ Q a s c t := hm.bind_read Q hk

/-- Looking something up in the state. -/
theorem realizes_read {x : Compilation → Except Error α} {x₀ : Compilation → Except Error β}
    (hx : ∀ s, erased f (x s) = x₀ s.bare) (herror : ∀ s e, x s = .error e → e.isAboutName = true) :
    Realizes f (get >>= fun s => MonadExcept.ofExcept (x s)) fun s b t => x₀ s = .ok b ∧ t = s := by
  refine (realizes_get.bind_read (fun b s c t => x₀ b = .ok c ∧ t = s) fun s => ?_).congr (by simp)
  exact realizes_ofExcept (hx s) (herror s)

theorem Realizes.then {m : CompileM Unit} {k : Unit → CompileM γ} {R : Compilation → Unit → Compilation → Prop}
    {Q : Compilation → δ → Compilation → Prop} (hm : Realizes id m R) (hk : Realizes g (k ()) Q) :
    Realizes g (m >>= k) fun s c t => ∃ s₁, R s () s₁ ∧ Q s₁ c t :=
  (hm.bind (fun _ => Q) fun _ => hk).congr fun _ _ _ => ⟨fun ⟨(), h⟩ => h, fun h => ⟨(), h⟩⟩

/-- A note has no meaning. -/
theorem Realizes.after_note {k : Unit → CompileM γ} {R : Compilation → δ → Compilation → Prop}
    (hk : Realizes g (k ()) R) (level : LogLevel) (message : String) : Realizes g (note level message >>= k) R := by
  have hnote : Realizes id (note level message) fun s _ t => t = id s := realizes_modify fun s => rfl
  exact (hnote.then hk).congr (by simp)

end Realizes

/-! ## Basic steps -/

section Basic

variable (target : Path)

theorem realizes_emit (body : List Declaration) : Realizes id (emit target body) fun s _ t =>
    t = { s with emissions := s.emissions ++ [⟨target, Declaration.bareAll body⟩] } := by
  refine Realizes.after_note (realizes_modify fun s => ?_) _ _
  simp [bare, Emission.bare]

theorem realizes_define (name : Name) : Realizes id (define name) fun s _ t =>
    ∃ defines, s.defines.define name.text .nowhere = .ok defines ∧ t = { s with defines } := by
  have hread : Realizes Defines.bare (get >>= fun s => MonadExcept.ofExcept (s.defines.define name.text name.range))
      fun s b t => s.defines.define name.text .nowhere = .ok b ∧ t = s :=
    realizes_read (fun s => s.defines.erased_define ..) fun _ _ => Defines.isAboutName_of_define
  refine Realizes.after_note ?_ _ _
  rw [← bind_assoc]
  exact hread.bind_read (fun defines s _ t => t = { s with defines }) fun defines => realizes_modify fun s => rfl

theorem realizes_register (kind : Symbol.Kind) (path : Path) (name : Name) :
    Realizes id (register kind path target name) fun s _ t =>
      ∃ symbols, s.symbols.register name.text ⟨kind, path, target, .nowhere⟩ = .ok symbols ∧
        t = { s with symbols } := by
  have hread : Realizes SymbolTable.bare
      (get >>= fun s => MonadExcept.ofExcept (s.symbols.register name.text ⟨kind, path, target, name.range⟩))
      fun s b t => s.symbols.register name.text ⟨kind, path, target, .nowhere⟩ = .ok b ∧ t = s :=
    realizes_read (fun s => s.symbols.erased_register ..) fun _ _ => SymbolTable.isAboutName_of_register
  unfold register
  rw [← bind_assoc]
  refine hread.bind_read (fun symbols s _ t => t = { s with symbols }) fun symbols => Realizes.after_note ?_ _ _
  exact realizes_modify fun s => rfl

theorem realizes_resolve (type : TypeExpr) : Realizes id (resolve target type) fun s r t =>
    s.symbols.resolve .nowhere target type.text = .ok r ∧ t = s :=
  realizes_read (fun s => s.symbols.erased_resolve ..) fun _ _ => SymbolTable.isAboutName_of_resolve

theorem realizes_resolveReturn (type : TypeExpr) : Realizes id (resolveReturn target type) fun s r t =>
    s.symbols.resolveReturn .nowhere target type.text = .ok r ∧ t = s :=
  realizes_read (fun s => s.symbols.erased_resolveReturn ..) fun _ _ => SymbolTable.isAboutName_of_resolveReturn

theorem realizes_resolveException (name : Name) : Realizes id (resolveException name) fun s text t =>
    (s.symbols.checkException name.text .nowhere = .ok () ∧ text = name.text) ∧ t = s := by
  have hread : Realizes id (get >>= fun s => MonadExcept.ofExcept (s.symbols.checkException name.text name.range))
      fun s b t => s.symbols.checkException name.text .nowhere = .ok b ∧ t = s :=
    realizes_read (fun s => s.symbols.erased_checkException ..) fun _ _ => SymbolTable.isAboutName_of_checkException
  unfold resolveException
  rw [← bind_assoc]
  refine (hread.bind_value fun _ => realizes_pure name.text).congr ?_
  intro s text t
  constructor
  · rintro ⟨_, hcheck, rfl, rfl⟩
    exact ⟨⟨hcheck, rfl⟩, rfl⟩
  · rintro ⟨⟨hcheck, rfl⟩, rfl⟩
    exact ⟨(), hcheck, rfl, rfl⟩

end Basic

/-! ## Members -/

section Members

variable (target : Path)

theorem realizes_declareMembers {α β γ : Type} {declare : α → CompileM (β × List Import)} {g : α → γ}
    {X : SymbolTable → γ → β → List Import → Prop} {members : List (Member α)}
    (hdeclare : ∀ a ∈ Member.items members, Realizes id (declare a) fun s r t => X s.symbols (g a) r.1 r.2 ∧ t = s) :
    Realizes (fun r => (Member.items r.1, r.2)) (declareMembers declare members)
      fun s r t => Collected (X s.symbols) ((Member.items members).map g) r.1 r.2 ∧ t = s := by
  induction members with
  | nil => exact (realizes_pure _).congr fun s r t => by simp [collected_nil, Prod.ext_iff]
  | cons member members ih =>
    cases member with
    | comment c =>
      refine ((ih hdeclare).bind_read (fun r s q t => q = r ∧ t = s) fun r => realizes_pure _).congr fun s q t => ?_
      constructor
      · rintro ⟨_, hr, rfl, rfl⟩
        exact ⟨hr, rfl⟩
      · rintro ⟨hr, rfl⟩
        exact ⟨q, hr, rfl, rfl⟩
    | item a =>
      obtain ⟨hfirst, hrest⟩ := List.forall_mem_cons.1 hdeclare
      refine (hfirst.bind_value fun r => (ih hrest).bind_read (fun r' s q t => q = (r.1 :: r'.1, r.2 ++ r'.2) ∧ t = s)
        fun r' => realizes_pure _).congr fun s q t => ?_
      rw [Member.items_cons_item, List.map_cons, collected_cons]
      constructor
      · rintro ⟨r, hr, r', hr', rfl, rfl⟩
        exact ⟨⟨_, _, _, _, hr, hr', rfl, rfl⟩, rfl⟩
      · rintro ⟨⟨b, needed, bs, imports, hb, hbs, hq, hq'⟩, rfl⟩
        exact ⟨(b, needed), hb, (bs, imports), hbs, Prod.ext hq hq', rfl⟩

theorem realizes_declareField (f : Field TypeExpr) : Realizes id (declareField target f) fun s r t =>
    FieldMeans s.symbols target f.texts r.1 r.2 ∧ t = s := by
  refine ((realizes_resolve target f.type).bind_value fun r => realizes_pure _).congr fun s q t => ⟨?_, ?_⟩
  · rintro ⟨r, hr, rfl, rfl⟩
    exact ⟨.field hr, rfl⟩
  · obtain ⟨field, imports⟩ := q
    rintro ⟨⟨hr⟩, rfl⟩
    exact ⟨_, hr, rfl, rfl⟩

theorem realizes_declareParameters (parameters : List (Parameter TypeExpr)) :
    Realizes id (declareParameters target parameters) fun s r t =>
      Collected (ParameterMeans s.symbols target) (parameters.map Parameter.texts) r.1 r.2 ∧ t = s := by
  induction parameters with
  | nil => exact (realizes_pure _).congr fun s r t => by simp [collected_nil, Prod.ext_iff]
  | cons p parameters ih =>
    refine ((realizes_resolve target p.type).bind_value fun r => ih.bind_value fun r' => realizes_pure _).congr
      fun s q t => ?_
    rw [List.map_cons, collected_cons]
    constructor
    · rintro ⟨r, hr, r', hr', rfl, rfl⟩
      exact ⟨⟨_, _, _, _, .parameter hr, hr', rfl, rfl⟩, rfl⟩
    · rintro ⟨⟨_, _, bs, imports, ⟨hr⟩, hbs, hq, hq'⟩, rfl⟩
      exact ⟨_, hr, (bs, imports), hbs, Prod.ext hq hq', rfl⟩

theorem realizes_resolveExceptions (names : List Name) : Realizes id (names.mapM resolveException) fun s texts t =>
    ((∀ name ∈ names, s.symbols.checkException name.text .nowhere = .ok ()) ∧ texts = names.map Name.text) ∧ t = s := by
  induction names with
  | nil => exact (realizes_pure _).congr fun s texts t => by simp
  | cons name names ih =>
    rw [List.mapM_cons]
    refine ((realizes_resolveException name).bind_value fun text => ih.bind_value fun rest => realizes_pure _).congr
      fun s texts t => ?_
    rw [List.forall_mem_cons, List.map_cons]
    constructor
    · rintro ⟨_, ⟨hcheck, rfl⟩, _, ⟨hrest, rfl⟩, rfl, rfl⟩
      exact ⟨⟨⟨hcheck, hrest⟩, rfl⟩, rfl⟩
    · rintro ⟨⟨⟨hcheck, hrest⟩, rfl⟩, rfl⟩
      exact ⟨_, ⟨hcheck, rfl⟩, _, ⟨hrest, rfl⟩, rfl, rfl⟩

theorem realizes_declareMethod {m : MethodItem} (hfault : m.fault = none) : Realizes id (declareMethod target m)
    fun s r t => MethodMeans s.symbols target m.method.texts r.1 r.2 ∧ t = s := by
  unfold declareMethod
  rw [hfault]
  refine ((realizes_resolveReturn target m.method.returns).bind_value fun r =>
    (realizes_declareParameters target m.method.parameters).bind_value fun ps =>
      (realizes_resolveExceptions m.method.raises).bind_value fun raises => realizes_pure _).congr fun s q t => ?_
  constructor
  · rintro ⟨r, hr, ps, hps, _, ⟨hraises, rfl⟩, rfl, rfl⟩
    exact ⟨.method hr hps (by simpa using hraises), rfl⟩
  · obtain ⟨method, imports⟩ := q
    rintro ⟨⟨hr, hps, hraises⟩, rfl⟩
    exact ⟨_, hr, (_, _), hps, _, ⟨by simpa using hraises, rfl⟩, rfl, rfl⟩

end Members

/-! ## Items -/

theorem bareAll_single {d : Declaration} (h : d.isComment = false) : Declaration.bareAll [d] = [d.bare] := by
  simp [Declaration.bareAll_cons, h]

/-- A declaration with members: its name is registered first, and the imports of its members come in
front of it. -/
theorem realizes_block {α β γ : Type} (kind : Symbol.Kind) (path target : Path) (name : Name) {block : Block α}
    (hfault : block.fault = none) {declareMember : α → CompileM (β × List Import)} {g : α → γ}
    {X : SymbolTable → γ → β → List Import → Prop}
    (hmember : ∀ a ∈ Member.items block.members,
      Realizes id (declareMember a) fun s r t => X s.symbols (g a) r.1 r.2 ∧ t = s)
    {declared : List (Member β) → Declaration}
    (hdeclared : ∀ members, Declaration.bareAll [declared members] = [declared (Member.bareAll id members)]) :
    Realizes Declaration.bareAll
      (do
        register kind path target name
        let (members, imports) ← declareMembers declareMember block.members
        stopAt block.fault
        return imports.map .imported ++ block.trailing.map .comment ++ [declared members])
      fun s ds t => ∃ symbols, s.symbols.register name.text ⟨kind, path, target, .nowhere⟩ = .ok symbols ∧
        ∃ members imports, Collected (X symbols) ((Member.items block.members).map g) members imports ∧
          ds = imports.map .imported ++ [declared (members.map .item)] ∧ t = { s with symbols } := by
  rw [hfault]
  refine Realizes.congr ((realizes_register target kind path name).then ((realizes_declareMembers hmember).bind_read
    (fun r s ds t => ds = r.2.map .imported ++ [declared (r.1.map .item)] ∧ t = s) fun r => ?_)) fun s ds t => ?_
  · obtain ⟨members, imports⟩ := r
    dsimp only
    rw [stopAt, pure_bind]
    refine (realizes_pure _).congr fun s ds t => ?_
    rw [Declaration.bareAll_append, Declaration.bareAll_append, Declaration.bareAll_comments,
      Declaration.bareAll_imports, hdeclared, List.append_nil]
    rfl
  · constructor
    · rintro ⟨_, ⟨symbols, hregister, rfl⟩, r, hr, rfl, rfl⟩
      exact ⟨symbols, hregister, _, _, hr, rfl, rfl⟩
    · rintro ⟨symbols, hregister, members, imports, hcollected, rfl, rfl⟩
      exact ⟨_, ⟨symbols, hregister, rfl⟩, (members, imports), hcollected, rfl, rfl⟩

mutual

/-- Declaring an item without faults gives what it means. -/
theorem realizes_declare (ctx : Context) (target : Path) : ∀ (item : Item) {p : Phrase}, item.phrase? = some p →
    Realizes Declaration.bareAll (declare ctx target item) fun s ds t => Means ctx.path target s p ds t
  | .comment _, _, h | .include _ _ _, _, h | .fault _ _, _, h => by rw [Item.phrase?] at h; cases h
  | .define head name, p, h => by
    rw [Item.phrase?] at h
    cases h
    rw [declare]
    refine Realizes.after_note (((realizes_define name).then (realizes_pure [])).congr fun s ds t => ?_) _ _
    rw [Declaration.bareAll_nil]
    constructor
    · rintro ⟨_, ⟨defines, hdefine, rfl⟩, rfl, rfl⟩
      exact .define hdefine
    · rintro ⟨hdefine⟩
      exact ⟨_, ⟨_, hdefine, rfl⟩, rfl, rfl⟩
  | .guarded head name items, p, h => by
    rw [Item.phrase?] at h
    obtain ⟨body, hbody, rfl⟩ := Option.map_eq_some_iff.1 h
    have hitems := realizes_declareAll ctx target items hbody
    rw [declare]
    refine Realizes.after_note ?_ _ _
    refine Realizes.congr (realizes_get.bind_read (fun s₀ s ds t => ∃ ds' s₁, MeansAll ctx.path target s body ds' s₁ ∧
      ds = (if s₀.defines.isDefined name.text then [] else ds') ∧ t = s₁) fun s₀ => ?_) fun s ds t => ?_
    · refine hitems.bind (fun ds' s ds t => ds = (if s₀.bare.defines.isDefined name.text then [] else ds') ∧ t = s)
        fun ds' => ?_
      refine (realizes_pure _).congr fun s ds t => ?_
      rw [apply_ite Declaration.bareAll, Declaration.bareAll_nil]
      simp only [bare, Defines.isDefined_bare]
    · constructor
      · rintro ⟨_, rfl, ds', s₁, hmeans, rfl, rfl⟩
        exact .guarded hmeans
      · intro h
        cases h with
        | guarded inner => exact ⟨s, rfl, _, t, inner, rfl, rfl⟩
  | .module head name items trailing stopped, p, h => by
    rw [Item.phrase?] at h
    split at h
    · cases h
    · rename_i hstopped
      obtain ⟨body, hbody, rfl⟩ := Option.map_eq_some_iff.1 h
      obtain rfl : stopped = none := by simpa using hstopped
      have hitems := realizes_declareAll ctx (Placement.ofModule target name.text) items hbody
      rw [declare]
      refine Realizes.after_note ?_ _ _
      refine Realizes.congr (hitems.bind (fun ds' s ds t => ds = [.module name.text ds'] ∧
        t = { s with emissions := s.emissions ++ [⟨Placement.ofModule target name.text, ds'⟩] }) fun ds' => ?_)
        fun s ds t => ?_
      · rw [stopAt, pure_bind]
        refine Realizes.congr ((realizes_emit _ ds').then (realizes_pure _)) fun s ds t => ?_
        rw [Declaration.bareAll_append, Declaration.bareAll_comments, bareAll_single rfl, Declaration.bare]
        constructor
        · rintro ⟨_, rfl, rfl, rfl⟩
          exact ⟨rfl, rfl⟩
        · rintro ⟨rfl, rfl⟩
          exact ⟨_, rfl, rfl, rfl⟩
      · constructor
        · rintro ⟨ds', s₁, hmeans, rfl, rfl⟩
          exact .module hmeans
        · intro h
          cases h with
          | module inner => exact ⟨_, _, inner, rfl, rfl⟩
  | .typedef head typed comments, p, h => by
    rw [Item.phrase?] at h
    cases h
    rw [declare]
    refine Realizes.after_note ?_ _ _
    refine Realizes.congr ((realizes_resolve target typed.type).bind_value fun r =>
      (realizes_register target .typedef ctx.path typed.name).then (realizes_pure _)) fun s ds t => ?_
    simp only [Declaration.bareAll_append, Declaration.bareAll_comments, Declaration.bareAll_imports,
      bareAll_single (rfl : (Declaration.typedef _ _).isComment = false)]
    constructor
    · rintro ⟨r, hr, _, ⟨symbols, hregister, rfl⟩, rfl, rfl⟩
      exact .typedef hr hregister
    · intro h
      cases h with
      | typedef resolved registered => exact ⟨_, resolved, _, ⟨_, registered, rfl⟩, rfl, rfl⟩
  | .record head kind name block, p, h => by
    rw [Item.phrase?] at h
    split at h
    · cases h
    · rename_i hfault
      cases h
      rw [declare]
      refine Realizes.after_note ?_ _ _
      refine (realizes_block (X := fun t => FieldMeans t target) (recordSymbol kind) ctx.path target name
        (by simpa using hfault) (fun f _ => realizes_declareField target f) fun members => by
          rw [bareAll_single rfl, Declaration.bare]).congr fun s ds t => ?_
      constructor
      · rintro ⟨symbols, hregister, fields, imports, hcollected, rfl, rfl⟩
        exact .record hregister hcollected
      · intro h
        cases h with
        | record registered collected => exact ⟨_, registered, _, _, collected, rfl, rfl⟩
  | .enum head name block, p, h => by
    rw [Item.phrase?] at h
    split at h
    · cases h
    · rename_i hfault
      cases h
      rw [declare, show block.fault = none by simpa using hfault]
      refine Realizes.after_note ?_ _ _
      refine Realizes.congr ((realizes_register target .enum ctx.path name).then (realizes_pure _)) fun s ds t => ?_
      rw [Declaration.bareAll_append, Declaration.bareAll_comments, bareAll_single rfl, Declaration.bare]
      constructor
      · rintro ⟨_, ⟨symbols, hregister, rfl⟩, rfl, rfl⟩
        exact .enum hregister
      · intro h
        cases h with
        | enum registered => exact ⟨_, ⟨_, registered, rfl⟩, rfl, rfl⟩
  | .interface head name block, p, h => by
    rw [Item.phrase?] at h
    split at h
    · cases h
    · rename_i hfault
      cases h
      obtain ⟨hblock, hmethods⟩ := not_or.1 hfault
      have hmember : ∀ m ∈ Member.items block.members, m.fault = none := by simpa using hmethods
      rw [declare]
      refine Realizes.after_note ?_ _ _
      refine (realizes_block (X := fun t => MethodMeans t target) .interface ctx.path target name
        (by simpa using hblock) (fun m hm => realizes_declareMethod target (hmember m hm)) fun members => by
          rw [bareAll_single rfl, Declaration.bare]).congr fun s ds t => ?_
      constructor
      · rintro ⟨symbols, hregister, methods, imports, hcollected, rfl, rfl⟩
        exact .interface hregister hcollected
      · intro h
        cases h with
        | interface registered collected => exact ⟨_, registered, _, _, collected, rfl, rfl⟩

/-- Declaring items without faults gives what they mean. -/
theorem realizes_declareAll (ctx : Context) (target : Path) : ∀ (items : List Item) {ps : List Phrase},
    Item.phrases? items = some ps →
      Realizes Declaration.bareAll (declareAll ctx target items) fun s ds t => MeansAll ctx.path target s ps ds t
  | [], _, h => by
    cases Item.phrases?_nil.symm.trans h
    rw [declareAll]
    refine (realizes_pure []).congr fun s ds t => ?_
    constructor
    · rintro ⟨rfl, rfl⟩
      rw [Declaration.bareAll_nil]
      exact .nil
    · rintro ⟨⟩
      exact ⟨Declaration.bareAll_nil.symm, rfl⟩
  | item :: items, ps, h => by
    rw [Item.phrases?_cons] at h
    rw [declareAll]
    cases hcomment : item.isComment with
    | true =>
      obtain ⟨c, rfl⟩ := Item.exists_comment hcomment
      rw [if_pos hcomment] at h
      have hitems := realizes_declareAll ctx target items h
      rw [declare, pure_bind]
      refine (hitems.bind (fun ds' s ds t => ds = ds' ∧ t = s) fun ds' => ?_).congr (by simp)
      refine (realizes_pure _).congr fun s ds t => ?_
      rw [List.singleton_append, Declaration.bareAll_cons]
      rfl
    | false =>
      rw [if_neg (by simp [hcomment])] at h
      obtain ⟨p, hp, hrest⟩ := Option.bind_eq_some_iff.1 h
      obtain ⟨ps, hps, rfl⟩ := Option.map_eq_some_iff.1 hrest
      have hitem := realizes_declare ctx target item hp
      have hitems := realizes_declareAll ctx target items hps
      refine (hitem.bind (fun ds₁ s ds t => ∃ ds₂, MeansAll ctx.path target s ps ds₂ t ∧ ds = ds₁ ++ ds₂)
        fun ds₁ => ?_).congr fun s ds t => ?_
      · refine (hitems.bind (fun ds₂ s ds t => ds = Declaration.bareAll ds₁ ++ ds₂ ∧ t = s) fun ds₂ => ?_).congr
          (by simp)
        refine (realizes_pure _).congr fun s ds t => ?_
        rw [Declaration.bareAll_append]
      · constructor
        · rintro ⟨ds₁, s₁, hmeans, ds₂, hrest, rfl⟩
          exact .cons hmeans hrest
        · intro h
          cases h with
          | cons first rest => exact ⟨_, _, first, _, rest, rfl⟩

end

/-! ## Items that are declared have no faults -/

section Faultless

variable {s s' : Compilation}

theorem fault_of_declareMethod {target : Path} {m : MethodItem} {r : Method ScriptType String × List Import}
    (h : Gives (declareMethod target m) s r s') : m.fault = none := by
  simp only [declareMethod, gives_bind, gives_stopAt] at h
  obtain ⟨_, _, _, _, _, _, _, _, _, _, _, ⟨hfault, -⟩, -⟩ := h
  exact hfault

theorem exists_gives_of_declareMembers {α β : Type} {declareMember : α → CompileM (β × List Import)}
    {members : List (Member α)} {r : List (Member β) × List Import}
    (h : Gives (declareMembers declareMember members) s r s')
    {a : α} (ha : a ∈ Member.items members) : ∃ t q t', Gives (declareMember a) t q t' := by
  induction members generalizing s s' r with
  | nil => simp at ha
  | cons member members ih =>
    cases member with
    | comment c =>
      simp only [declareMembers, gives_bind] at h
      obtain ⟨_, _, hrest, -⟩ := h
      exact ih hrest ha
    | item b =>
      simp only [declareMembers, gives_bind] at h
      obtain ⟨_, _, hfirst, _, _, hrest, -⟩ := h
      rw [Member.items_cons_item] at ha
      cases ha with
      | head => exact ⟨_, _, _, hfirst⟩
      | tail _ ha => exact ih hrest ha

mutual

/-- An item that is declared says something, unless it is an include or a comment. -/
theorem exists_phrase {ctx : Context} {target : Path} {s s' : Compilation} {ds : List Declaration} :
    ∀ {item : Item}, item.includes = [] → item.isComment = false → Gives (declare ctx target item) s ds s' →
      ∃ p, item.phrase? = some p
  | .comment _, _, hcomment, _ => by cases hcomment
  | .include _ _ _, hincludes, _, _ => by simp [Item.includes] at hincludes
  | .fault head error, _, _, h => by
    simp only [declare, gives_bind, gives_throw, and_false, exists_false] at h
  | .define _ name, _, _, _ => ⟨.define name.text, by rw [Item.phrase?]⟩
  | .typedef _ typed _, _, _, _ => ⟨.typedef typed.type.text typed.name.text, by rw [Item.phrase?]⟩
  | .guarded head name items, hincludes, _, h => by
    simp only [declare, gives_bind] at h
    obtain ⟨_, _, -, _, _, -, _, _, hbody, -⟩ := h
    obtain ⟨body, hphrases⟩ := exists_phrases (by simpa [Item.includes] using hincludes) hbody
    exact ⟨.guarded name.text body, by rw [Item.phrase?, hphrases]; rfl⟩
  | .module head name items trailing stopped, hincludes, _, h => by
    simp only [declare, gives_bind, gives_stopAt] at h
    obtain ⟨_, _, -, _, _, hbody, _, _, ⟨rfl, -⟩, -⟩ := h
    obtain ⟨body, hphrases⟩ := exists_phrases (by simpa [Item.includes] using hincludes) hbody
    exact ⟨.module name.text body, by rw [Item.phrase?, hphrases]; rfl⟩
  | .record head kind name block, _, _, h => by
    simp only [declare, gives_bind, gives_stopAt] at h
    obtain ⟨_, _, -, _, _, -, _, _, -, _, _, ⟨hfault, -⟩, -⟩ := h
    exact ⟨_, by rw [Item.phrase?, if_neg (by simp [hfault])]⟩
  | .enum head name block, _, _, h => by
    simp only [declare, gives_bind, gives_stopAt] at h
    obtain ⟨_, _, -, _, _, -, _, _, ⟨hfault, -⟩, -⟩ := h
    exact ⟨_, by rw [Item.phrase?, if_neg (by simp [hfault])]⟩
  | .interface head name block, _, _, h => by
    simp only [declare, gives_bind, gives_stopAt] at h
    obtain ⟨_, _, -, _, _, -, _, _, hmembers, _, _, ⟨hfault, -⟩, -⟩ := h
    have hmethods : ∀ m ∈ Member.items block.members, m.fault = none := by
      intro m hm
      obtain ⟨_, _, _, hgives⟩ := exists_gives_of_declareMembers hmembers hm
      exact fault_of_declareMethod hgives
    exact ⟨_, by rw [Item.phrase?, if_neg (by simpa [hfault] using hmethods)]⟩

/-- Items that are declared say something, unless there is an include among them. -/
theorem exists_phrases {ctx : Context} {target : Path} {s s' : Compilation} {ds : List Declaration} :
    ∀ {items : List Item}, Item.allIncludes items = [] → Gives (declareAll ctx target items) s ds s' →
      ∃ ps, Item.phrases? items = some ps
  | [], _, _ => ⟨[], Item.phrases?_nil⟩
  | item :: items, hincludes, h => by
    obtain ⟨hitem, hitems⟩ := List.append_eq_nil_iff.1 (Item.allIncludes_cons item items ▸ hincludes)
    simp only [declareAll, gives_bind] at h
    obtain ⟨_, _, hfirst, _, _, hrest, -⟩ := h
    obtain ⟨ps, hps⟩ := exists_phrases hitems hrest
    rw [Item.phrases?_cons]
    cases hcomment : item.isComment with
    | true => exact ⟨ps, by simpa using hps⟩
    | false =>
      obtain ⟨p, hp⟩ := exists_phrase hitem hcomment hfirst
      exact ⟨p :: ps, by simp [hp, hps]⟩

end

end Faultless

/-! ## Files -/

/-- A file without includes is accepted if and only if its terminals derive from the grammar and the
derived declarations have a meaning, and then they are declared with that meaning. There is at most one
derivation, and if there is one, only an error about a name can stop it. -/
theorem accepts_grammar (source : SourceText) {tokens : List Token} (h : Item.NoInclude tokens) (ctx : Context)
    (target : Path) (s : Compilation) :
    (∀ ds₀ s₀, (∃ ds s', Gives (declareAll ctx target (Item.ofTokens source tokens)) s ds s' ∧
        Declaration.bareAll ds = ds₀ ∧ s'.bare = s₀) ↔
      ∃ file, Grammar.Derives (terminals tokens) file ∧ MeansAll ctx.path target s.bare file ds₀ s₀) ∧
    (∀ file file', Grammar.Derives (terminals tokens) file → Grammar.Derives (terminals tokens) file' → file = file') ∧
    ∀ file e s', Grammar.Derives (terminals tokens) file →
      outcome (declareAll ctx target (Item.ofTokens source tokens)) s = (.error e, s') → e.isAboutName = true := by
  have hphrases {file : List Phrase} : Item.phrases? (Item.ofTokens source tokens) = some file ↔
      Grammar.Derives (terminals tokens) file := Grammar.phrases?_ofTokens source h
  refine ⟨fun ds₀ s₀ => ⟨?_, ?_⟩, ?_, ?_⟩
  · rintro ⟨ds, s', hgives, rfl, rfl⟩
    obtain ⟨file, hfile⟩ := exists_phrases (Item.allIncludes_ofTokens source h) hgives
    exact ⟨file, hphrases.1 hfile, (realizes_declareAll ctx target _ hfile).sound hgives⟩
  · rintro ⟨file, hderives, hmeans⟩
    exact (realizes_declareAll ctx target _ (hphrases.2 hderives)).complete hmeans
  · intro file file' hderives hderives'
    exact Option.some.inj ((hphrases.2 hderives).symm.trans (hphrases.2 hderives'))
  · intro file e s' hderives houtcome
    exact (realizes_declareAll ctx target _ (hphrases.2 hderives)).failure houtcome

/-- A file with declarations in others. -/
def nestedFile : String :=
  "#ifndef D\nmodule M\x7bexception X\x7b\x7d;interface I\x7bvoid f(in long x)raises(X);\x7d;\x7d;\n#endif"

theorem accepts_grammar_nested :
    let tokens := (Token.ofSource 1 nestedFile).toOption.getD []
    let ctx : Context := ⟨⟨"n.idl"⟩, fun _ _ => pure ()⟩
    tokens ≠ [] ∧
      (outcome (declareAll ctx ⟨"n.ts"⟩ (Item.ofTokens (.ofFile 1 nestedFile) tokens)) .empty).1.isOk = true ∧
      ∃ file ds s, Grammar.Derives (terminals tokens) file ∧
        MeansAll ⟨"n.idl"⟩ ⟨"n.ts"⟩ Compilation.empty.bare file ds s := by
  intro tokens ctx
  have hinclude : Item.NoInclude tokens := Item.noInclude_iff.2 (by decide +kernel)
  have hok : (outcome (declareAll ctx ⟨"n.ts"⟩ (Item.ofTokens (.ofFile 1 nestedFile) tokens)) .empty).1.isOk = true :=
    by
    decide +kernel
  obtain ⟨ds, hgives⟩ := exists_gives hok
  obtain ⟨file, hderives, hmeans⟩ := ((accepts_grammar (.ofFile 1 nestedFile) hinclude ctx ⟨"n.ts"⟩ .empty).1 _ _).1
    ⟨ds, _, hgives, rfl, rfl⟩
  exact ⟨by decide +kernel, hok, file, _, _, hderives, hmeans⟩

end Compilation

end Idl
