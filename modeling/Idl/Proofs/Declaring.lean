import Idl.Proofs.Trace

/-!
# What a declaration needs and leaves

A declaration that succeeds registers one name that was not declared before, and leaves everything
else as it is. Every name that its types stand for is declared, the imports in front of it are those
that these names need, and the exceptions that its methods raise are declared as such.

* `SymbolTable.Resolves t target type imports`: the type is made of declared names, and `imports` are
  what they need in the output `target`.
* `Declares path target s item ds s'`: in the state `s`, the item of the file `path` is declared as
  `ds` in the output `target`, and the state after it is `s'`. This is how items that declare a name
  are declared (`declares_of_gives`).
-/

namespace Idl

/-! ## Types -/

/-- The declared names that a type is made of. -/
def ScriptType.names : ScriptType → List String
  | array element => element.names
  | named name => [name]
  | number | string | boolean | buffer | any | void => []

namespace SymbolTable

/-- The import that a declared name needs in an output. -/
def needed (t : SymbolTable) (target : Path) (name : String) : List Import :=
  match t.find? name with
  | some symbol => (use name symbol target).2
  | none => []

/-- A type is made of declared names, and the imports are those that it needs. -/
structure Resolves (t : SymbolTable) (target : Path) (type : ScriptType) (imports : List Import) : Prop where
  found : ∀ n ∈ type.names, (t.find? n).isSome = true
  imports_eq : imports = type.names.flatMap (t.needed target)

/-- What is declared in one table is declared alike in the other one. -/
def Extends (t t' : SymbolTable) : Prop := ∀ n symbol, t.find? n = some symbol → t'.find? n = some symbol

section Tables

variable {t t' t'' : SymbolTable} {target : Path} {type : ScriptType} {imports : List Import}

theorem Extends.refl (t : SymbolTable) : Extends t t := fun _ _ h => h

theorem Extends.trans (h : Extends t t') (h' : Extends t' t'') : Extends t t'' :=
  fun n symbol hn => h' n symbol (h n symbol hn)

theorem Extends.needed_eq {n : String} (h : Extends t t') (hn : (t.find? n).isSome = true) :
    t'.needed target n = t.needed target n := by
  obtain ⟨symbol, hsymbol⟩ := Option.isSome_iff_exists.1 hn
  rw [needed, needed, hsymbol, h n symbol hsymbol]

theorem Extends.isSome {n : String} (h : Extends t t') (hn : (t.find? n).isSome = true) :
    (t'.find? n).isSome = true := by
  obtain ⟨symbol, hsymbol⟩ := Option.isSome_iff_exists.1 hn
  rw [h n symbol hsymbol]
  rfl

theorem Resolves.mono (h : t.Resolves target type imports) (hext : Extends t t') : t'.Resolves target type imports := by
  refine ⟨fun n hn => hext.isSome (h.found n hn), ?_⟩
  rw [h.imports_eq]
  simp only [List.flatMap_def]
  rw [List.map_congr_left fun n hn => (hext.needed_eq (h.found n hn)).symm]

/-- A type without declared names. -/
theorem Resolves.of_builtin (h : type.names = []) : t.Resolves target type [] := ⟨by simp [h], by simp [h]⟩

theorem resolves_use {name : String} {symbol : Symbol} (h : t.find? name = some symbol) :
    t.Resolves target (use name symbol target).1 (use name symbol target).2 := by
  refine ⟨?_, ?_⟩
  · simp [use, ScriptType.names, h]
  · simp [use, ScriptType.names, needed, h]

theorem names_builtin? {name : String} (h : builtin? name = some type) : type.names = [] := by
  unfold builtin? at h
  split at h <;> cases h <;> rfl

theorem resolves_of_resolveChars {range : FileRange} {chars : List Char}
    (h : t.resolveChars range target chars = .ok (type, imports)) : t.Resolves target type imports := by
  fun_induction resolveChars t range target chars generalizing type with
  | case1 chars symbol hfind =>
    cases h
    exact resolves_use hfind
  | case2 chars hnone normal symbol =>
    rename_i hfind
    cases h
    exact resolves_use hfind
  | case3 =>
    cases h
    exact .of_builtin rfl
  | case4 =>
    cases h
    exact .of_builtin rfl
  | case5 chars _ normal _ _ _ element harg hlt type' imports' helement =>
    rename_i ih
    cases h
    have hinner := ih helement
    exact ⟨hinner.found, hinner.imports_eq⟩
  | case6 => cases h
  | case7 chars _ normal _ _ _ _ type' =>
    rename_i hbuiltin
    cases h
    exact .of_builtin (names_builtin? hbuiltin)
  | case8 => cases h

theorem resolves_of_resolve {range : FileRange} {text : String}
    (h : t.resolve range target text = .ok (type, imports)) : t.Resolves target type imports :=
  resolves_of_resolveChars h

theorem resolves_of_resolveReturn {range : FileRange} {text : String}
    (h : t.resolveReturn range target text = .ok (type, imports)) : t.Resolves target type imports := by
  unfold resolveReturn at h
  split at h
  · cases h
    exact .of_builtin rfl
  · exact resolves_of_resolve h

/-- A name that is registered was not declared before, and nothing else changes. -/
theorem register_eq_ok {name : String} {symbol : Symbol} (h : t.register name symbol = .ok t') :
    t.find? name = none ∧ t' = ⟨(name, symbol) :: t.entries⟩ := by
  unfold register at h
  split at h
  · cases h
  · split at h
    · cases h
    · rename_i hnone
      cases h
      exact ⟨hnone, rfl⟩

theorem extends_cons {name : String} {symbol : Symbol} (h : t.find? name = none) :
    Extends t ⟨(name, symbol) :: t.entries⟩ := by
  intro n other hn
  have hne : (n == name) = false := by
    rw [beq_eq_false_iff_ne]
    rintro rfl
    simp [h] at hn
  rw [find?, List.lookup_cons, hne]
  exact hn

end Tables

end SymbolTable

/-! ## Members -/

/-- Members are declared one by one; `R a b needed` says that the item `a` is declared as `b` and needs
the imports `needed`. -/
inductive MembersDeclared {α β : Type} (R : α → β → List Import → Prop) :
    List (Member α) → List (Member β) → List Import → Prop
  | nil : MembersDeclared R [] [] []
  | comment {c : Comment} {as : List (Member α)} {bs : List (Member β)} {imports : List Import}
      (rest : MembersDeclared R as bs imports) : MembersDeclared R (.comment c :: as) (.comment c :: bs) imports
  | item {a : α} {b : β} {as : List (Member α)} {bs : List (Member β)} {needed imports : List Import}
      (first : R a b needed) (rest : MembersDeclared R as bs imports) :
      MembersDeclared R (.item a :: as) (.item b :: bs) (needed ++ imports)

/-- A field keeps its name, and its type is resolved. -/
structure FieldDeclared (t : SymbolTable) (target : Path) (a : Field TypeExpr) (b : Field ScriptType)
    (needed : List Import) : Prop where
  name_eq : b.name = a.name
  resolves : t.Resolves target b.type needed

/-- Parameters keep their names, and their types are resolved. -/
inductive ParametersDeclared (t : SymbolTable) (target : Path) :
    List (Parameter TypeExpr) → List (Parameter ScriptType) → List Import → Prop
  | nil : ParametersDeclared t target [] [] []
  | cons {p : Parameter TypeExpr} {type : ScriptType} {ps : List (Parameter TypeExpr)}
      {qs : List (Parameter ScriptType)} {needed imports : List Import} (first : t.Resolves target type needed)
      (rest : ParametersDeclared t target ps qs imports) :
      ParametersDeclared t target (p :: ps) (⟨p.direction, p.name, type⟩ :: qs) (needed ++ imports)

/-- A name is declared as an exception. -/
def SymbolTable.IsException (t : SymbolTable) (name : String) : Prop :=
  ∃ symbol, t.find? name = some symbol ∧ symbol.kind = .exception

/-- A method keeps its names, its types are resolved, and what it raises are exceptions. -/
structure MethodDeclared (t : SymbolTable) (target : Path) (a : MethodItem) (b : Method ScriptType String)
    (needed : List Import) : Prop where
  name_eq : b.name = a.method.name
  types : ∃ returned passed, t.Resolves target b.returns returned ∧
    ParametersDeclared t target a.method.parameters b.parameters passed ∧ needed = returned ++ passed
  raises_eq : b.raises = a.method.raises.map (·.text)
  exceptions : ∀ r ∈ b.raises, t.IsException r

namespace Compilation

section Members

variable {s s' : Compilation} {target : Path}

theorem membersDeclared_of_gives {α β : Type} {R : α → β → List Import → Prop} {f : α → CompileM (β × List Import)}
    {members : List (Member α)} {r : List (Member β) × List Import}
    (hf : ∀ {a r s'}, Gives (f a) s r s' → R a r.1 r.2 ∧ s = s') (h : Gives (declareMembers f members) s r s') :
    MembersDeclared R members r.1 r.2 ∧ s = s' := by
  induction members generalizing r with
  | nil =>
    obtain ⟨rfl, rfl⟩ := gives_pure.1 h
    exact ⟨.nil, rfl⟩
  | cons m members ih =>
    cases m with
    | comment c =>
      simp only [declareMembers, gives_bind, gives_pure] at h
      obtain ⟨rest, s₁, hrest, rfl, rfl⟩ := h
      obtain ⟨hmembers, hs⟩ := ih hrest
      exact ⟨.comment hmembers, hs⟩
    | item a =>
      simp only [declareMembers, gives_bind, gives_pure] at h
      obtain ⟨first, s₁, hfirst, rest, s₂, hrest, rfl, rfl⟩ := h
      obtain ⟨hitem, rfl⟩ := hf hfirst
      obtain ⟨hmembers, hs⟩ := ih hrest
      exact ⟨.item hitem hmembers, hs⟩

theorem fieldDeclared_of_gives {a : Field TypeExpr} {r : Field ScriptType × List Import}
    (h : Gives (declareField target a) s r s') : FieldDeclared s.symbols target a r.1 r.2 ∧ s = s' := by
  simp only [declareField, gives_bind, gives_pure] at h
  obtain ⟨⟨type, imports⟩, s₁, hgives, rfl, rfl⟩ := h
  obtain ⟨hresolve, rfl⟩ := gives_resolve hgives
  exact ⟨⟨rfl, SymbolTable.resolves_of_resolve hresolve⟩, rfl⟩

theorem parametersDeclared_of_gives {ps : List (Parameter TypeExpr)} {r : List (Parameter ScriptType) × List Import}
    (h : Gives (declareParameters target ps) s r s') : ParametersDeclared s.symbols target ps r.1 r.2 ∧ s = s' := by
  induction ps generalizing r with
  | nil =>
    obtain ⟨rfl, rfl⟩ := gives_pure.1 h
    exact ⟨.nil, rfl⟩
  | cons p ps ih =>
    simp only [declareParameters, gives_bind, gives_pure] at h
    obtain ⟨⟨type, needed⟩, s₁, hgives, rest, s₂, hrest, rfl, rfl⟩ := h
    obtain ⟨hresolve, rfl⟩ := gives_resolve hgives
    obtain ⟨hps, hs⟩ := ih hrest
    exact ⟨.cons (SymbolTable.resolves_of_resolve hresolve) hps, hs⟩

theorem isException_of_gives {name : Name} {text : String} (h : Gives (resolveException name) s text s') :
    text = name.text ∧ s.symbols.IsException text ∧ s = s' := by
  obtain ⟨rfl, hcheck, rfl⟩ := gives_resolveException h
  refine ⟨rfl, ?_, rfl⟩
  unfold SymbolTable.checkException at hcheck
  split at hcheck
  · rename_i symbol hsymbol
    split at hcheck
    · rename_i hkind
      exact ⟨symbol, hsymbol, hkind⟩
    · cases hcheck
  · cases hcheck

theorem exceptions_of_gives {names : List Name} {texts : List String}
    (h : Gives (names.mapM resolveException) s texts s') :
    texts = names.map (·.text) ∧ (∀ r ∈ texts, s.symbols.IsException r) ∧ s = s' := by
  induction names generalizing texts with
  | nil =>
    obtain ⟨rfl, rfl⟩ := gives_pure.1 h
    exact ⟨rfl, by simp, rfl⟩
  | cons name names ih =>
    simp only [List.mapM_cons, gives_bind, gives_pure] at h
    obtain ⟨text, s₁, hfirst, rest, s₂, hrest, rfl, rfl⟩ := h
    obtain ⟨rfl, hexception, rfl⟩ := isException_of_gives hfirst
    obtain ⟨rfl, hrest, hs⟩ := ih hrest
    exact ⟨rfl, List.forall_mem_cons.2 ⟨hexception, hrest⟩, hs⟩

theorem methodDeclared_of_gives {a : MethodItem} {r : Method ScriptType String × List Import}
    (h : Gives (declareMethod target a) s r s') : MethodDeclared s.symbols target a r.1 r.2 ∧ s = s' := by
  simp only [declareMethod, gives_bind, gives_stopAt, gives_pure] at h
  obtain ⟨⟨returns, needed⟩, s₁, h₁, ⟨parameters, imports⟩, s₂, h₂, raises, s₃, h₃, _, _, ⟨-, rfl⟩, rfl, rfl⟩ := h
  obtain ⟨hreturns, rfl⟩ := gives_resolveReturn h₁
  obtain ⟨hparameters, rfl⟩ := parametersDeclared_of_gives h₂
  obtain ⟨hraises, hexceptions, rfl⟩ := exceptions_of_gives h₃
  exact ⟨⟨rfl, ⟨needed, imports, SymbolTable.resolves_of_resolveReturn hreturns, hparameters, rfl⟩, hraises,
    hexceptions⟩, rfl⟩

end Members

/-! ## Declarations -/

/-- The name is registered, and it was not declared before. -/
structure Registers (kind : Symbol.Kind) (path target : Path) (name : Name) (s s' : Compilation) : Prop where
  fresh : s.symbols.find? name.text = none
  quiet : Quiet { s with symbols := ⟨(name.text, ⟨kind, path, target, name.range⟩) :: s.symbols.entries⟩ } s'

/-- The item of the file `path` is declared as `ds` in the output `target`. -/
inductive Declares (path target : Path) (s : Compilation) : Item → List Declaration → Compilation → Prop
  | typedef {head : Token} {typed : TypedName} {comments : List Comment} {type : ScriptType} {imports : List Import}
      {s' : Compilation} (resolves : s.symbols.Resolves target type imports)
      (registers : Registers .typedef path target typed.name s s') :
      Declares path target s (.typedef head typed comments)
        (comments.map .comment ++ imports.map .imported ++ [.typedef typed.name.text type]) s'
  | record {head : Token} {kind : RecordKind} {name : Name} {block : Block (Field TypeExpr)}
      {members : List (Member (Field ScriptType))} {imports : List Import} {s' : Compilation}
      (registers : Registers (recordSymbol kind) path target name s s')
      (declared : MembersDeclared (FieldDeclared s'.symbols target) block.members members imports) :
      Declares path target s (.record head kind name block)
        (imports.map .imported ++ block.trailing.map .comment ++ [.record kind name.text members]) s'
  | enum {head : Token} {name : Name} {block : Block String} {s' : Compilation}
      (registers : Registers .enum path target name s s') :
      Declares path target s (.enum head name block)
        (block.trailing.map .comment ++ [.enum name.text block.members]) s'
  | interface {head : Token} {name : Name} {block : Block MethodItem}
      {members : List (Member (Method ScriptType String))} {imports : List Import} {s' : Compilation}
      (registers : Registers .interface path target name s s')
      (declared : MembersDeclared (MethodDeclared s'.symbols target) block.members members imports) :
      Declares path target s (.interface head name block)
        (imports.map .imported ++ block.trailing.map .comment ++ [.interface name.text members]) s'

section Declarations

variable {s s' : Compilation} {path target : Path}

theorem registers_of_gives {kind : Symbol.Kind} {name : Name} {u : Unit}
    (h : Gives (register kind path target name) s u s') : Registers kind path target name s s' := by
  obtain ⟨symbols, hregister, hquiet⟩ := gives_register h
  obtain ⟨hfresh, rfl⟩ := SymbolTable.register_eq_ok hregister
  exact ⟨hfresh, hquiet⟩

theorem Registers.of_quiet {kind : Symbol.Kind} {name : Name} {s₁ : Compilation} (hq : Quiet s s₁)
    (h : Registers kind path target name s₁ s') : Registers kind path target name s s' := by
  obtain ⟨log, rfl⟩ := hq
  exact ⟨h.fresh, h.quiet⟩

/-- An item that declares a name is declared. -/
theorem declares_of_gives {ctx : Context} {ds : List Declaration} :
    ∀ {item : Item}, item.declares = true → Gives (declare ctx target item) s ds s' →
      Declares ctx.path target s item ds s'
  | .typedef .., _, h => by
    simp only [declare, gives_bind, gives_pure] at h
    obtain ⟨_, s₁, hreach, ⟨type, imports⟩, s₂, hgives, _, s₃, hregister, rfl, rfl⟩ := h
    obtain ⟨hresolve, rfl⟩ := gives_resolve hgives
    obtain ⟨log, rfl⟩ := quiet_of_reach hreach
    exact .typedef (SymbolTable.resolves_of_resolve hresolve) ((registers_of_gives hregister).of_quiet ⟨log, rfl⟩)
  | .record .., _, h => by
    simp only [declare, gives_bind, gives_stopAt, gives_pure] at h
    obtain ⟨_, s₁, hreach, _, s₂, hregister, ⟨members, imports⟩, s₃, hgives, _, _, ⟨-, rfl⟩, rfl, rfl⟩ := h
    obtain ⟨hmembers, rfl⟩ := membersDeclared_of_gives fieldDeclared_of_gives hgives
    exact .record ((registers_of_gives hregister).of_quiet (quiet_of_reach hreach)) hmembers
  | .enum .., _, h => by
    simp only [declare, gives_bind, gives_stopAt, gives_pure] at h
    obtain ⟨_, s₁, hreach, _, s₂, hregister, _, _, ⟨-, rfl⟩, rfl, rfl⟩ := h
    exact .enum ((registers_of_gives hregister).of_quiet (quiet_of_reach hreach))
  | .interface .., _, h => by
    simp only [declare, gives_bind, gives_stopAt, gives_pure] at h
    obtain ⟨_, s₁, hreach, _, s₂, hregister, ⟨members, imports⟩, s₃, hgives, _, _, ⟨-, rfl⟩, rfl, rfl⟩ := h
    obtain ⟨hmembers, rfl⟩ := membersDeclared_of_gives methodDeclared_of_gives hgives
    exact .interface ((registers_of_gives hregister).of_quiet (quiet_of_reach hreach)) hmembers
  | .comment .., hnames, _ | .define .., hnames, _ | .include .., hnames, _ | .guarded .., hnames, _
  | .module .., hnames, _ | .fault .., hnames, _ => by cases hnames

end Declarations

end Compilation

end Idl
