import Idl.Proofs.Pieces
import Idl.Proofs.Sessions

/-!
# Imports fit together

In a run that drops no guarded block, every name that a declaration uses is declared once, in the
output that its symbol says, and the lines at the head of an output import exactly the names that its
declarations use from other outputs.

* `Linked t placed`: the declarations in `placed` use declared names, and each output has the imports
  that its declarations need and no others.
* `Traced.linked`: what lands in a run is linked with respect to the names declared in it.
* `Traced.targets_eq`: the names declared in a run, with the outputs that their symbols say, are those
  of the declarations that land, if no block is dropped.
-/

namespace Idl

/-! ## Names in declarations -/

/-- The declared names that the types of a method are made of. -/
def Method.typeNames (m : Method ScriptType String) : List String :=
  m.returns.names ++ m.parameters.flatMap (·.type.names)

namespace Declaration

/-- The declared names that the types of a declaration are made of. -/
def typeNames : Declaration → List String
  | typedef _ type => type.names
  | record _ _ members => (Member.items members).flatMap (·.type.names)
  | interface _ members => (Member.items members).flatMap Method.typeNames
  | module _ _ | enum _ _ | comment _ | imported _ => []

/-- The exceptions that the methods of a declaration raise. -/
def raisedNames : Declaration → List String
  | interface _ members => (Member.items members).flatMap (·.raises)
  | module _ _ | typedef _ _ | record _ _ _ | enum _ _ | comment _ | imported _ => []

end Declaration

section Members

variable {α β : Type} {R : α → β → List Import → Prop} {as : List (Member α)} {bs : List (Member β)}
  {imports : List Import}

theorem MembersDeclared.forall_items {Q : β → Prop} (h : MembersDeclared R as bs imports)
    (hR : ∀ {a b needed}, R a b needed → Q b) : ∀ b ∈ Member.items bs, Q b := by
  induction h with
  | nil => simp [Member.items]
  | comment rest ih => exact ih
  | item first rest ih => exact List.forall_mem_cons.2 ⟨hR first, ih⟩

theorem MembersDeclared.imports_eq {names : β → List String} {f : String → List Import}
    (h : MembersDeclared R as bs imports) (hR : ∀ {a b needed}, R a b needed → needed = (names b).flatMap f) :
    imports = ((Member.items bs).flatMap names).flatMap f := by
  induction h with
  | nil => rfl
  | comment rest ih => exact ih
  | @item a b as bs needed imports first rest ih =>
    rw [hR first, ih]
    simp [Member.items]

end Members

section Types

variable {t : SymbolTable} {target : Path}

theorem ParametersDeclared.imports_eq {ps : List (Parameter TypeExpr)} {qs : List (Parameter ScriptType)}
    {imports : List Import} (h : ParametersDeclared t target ps qs imports) :
    imports = (qs.flatMap (·.type.names)).flatMap (t.needed target) ∧
      ∀ q ∈ qs, ∀ n ∈ q.type.names, (t.find? n).isSome = true := by
  induction h with
  | nil => exact ⟨rfl, by simp⟩
  | cons first rest ih =>
    obtain ⟨himports, hfound⟩ := ih
    refine ⟨?_, List.forall_mem_cons.2 ⟨first.found, hfound⟩⟩
    rw [first.imports_eq, himports]
    simp

theorem MethodDeclared.imports_eq {a : MethodItem} {b : Method ScriptType String} {needed : List Import}
    (h : MethodDeclared t target a b needed) : needed = b.typeNames.flatMap (t.needed target) := by
  obtain ⟨returned, passed, hreturned, hpassed, rfl⟩ := h.types
  rw [hreturned.imports_eq, hpassed.imports_eq.1, Method.typeNames, List.flatMap_append]

theorem MethodDeclared.found {a : MethodItem} {b : Method ScriptType String} {needed : List Import}
    (h : MethodDeclared t target a b needed) : ∀ n ∈ b.typeNames, (t.find? n).isSome = true := by
  obtain ⟨returned, passed, hreturned, hpassed, -⟩ := h.types
  intro n hn
  rcases List.mem_append.1 hn with hn | hn
  · exact hreturned.found n hn
  · obtain ⟨q, hq, hn⟩ := List.mem_flatMap.1 hn
    exact hpassed.imports_eq.2 q hq n hn

end Types

/-! ## Linked declarations -/

/-- A declaration `d` with what belongs in front of it: comments, and the imports that it needs. -/
structure Supplied (t : SymbolTable) (target : Path) (ds : List Declaration) (d : Declaration) (comments : List Comment)
    (imports : List Import) : Prop where
  mem_iff : ∀ x, x ∈ ds ↔ x = d ∨ (∃ c ∈ comments, x = .comment c) ∨ ∃ i ∈ imports, x = .imported i
  isModule_eq : d.isModule = false
  named : ∃ n, d.name? = some n ∧ ds.filterMap Declaration.name? = [n]
  found : ∀ n ∈ d.typeNames, (t.find? n).isSome = true
  imports_eq : imports = d.typeNames.flatMap (t.needed target)
  raised : ∀ r ∈ d.raisedNames, t.IsException r

/-- The declarations use declared names, and each output has the imports that its declarations need
and no others. -/
structure Linked (t : SymbolTable) (placed : List (Path × Declaration)) : Prop where
  found : ∀ target d, (target, d) ∈ placed → ∀ n ∈ d.typeNames, ∃ symbol, t.find? n = some symbol ∧
    ∀ i ∈ (SymbolTable.use n symbol target).2, (target, .imported i) ∈ placed
  used : ∀ target i, (target, .imported i) ∈ placed → ∃ d n symbol, (target, d) ∈ placed ∧ n ∈ d.typeNames ∧
    t.find? n = some symbol ∧ i ∈ (SymbolTable.use n symbol target).2
  raised : ∀ target d, (target, d) ∈ placed → ∀ r ∈ d.raisedNames, t.IsException r

section Linked

variable {t t' : SymbolTable} {placed more : List (Path × Declaration)}

theorem Linked.nil : Linked t [] := ⟨by simp, by simp, by simp⟩

theorem Linked.append (h : Linked t placed) (h' : Linked t more) : Linked t (placed ++ more) := by
  refine ⟨fun target d hd n hn => ?_, fun target i hi => ?_, fun target d hd => ?_⟩
  · rcases List.mem_append.1 hd with hd | hd
    · obtain ⟨symbol, hsymbol, himports⟩ := h.found target d hd n hn
      exact ⟨symbol, hsymbol, fun i hi => List.mem_append_left _ (himports i hi)⟩
    · obtain ⟨symbol, hsymbol, himports⟩ := h'.found target d hd n hn
      exact ⟨symbol, hsymbol, fun i hi => List.mem_append_right _ (himports i hi)⟩
  · rcases List.mem_append.1 hi with hi | hi
    · obtain ⟨d, n, symbol, hd, hrest⟩ := h.used target i hi
      exact ⟨d, n, symbol, List.mem_append_left _ hd, hrest⟩
    · obtain ⟨d, n, symbol, hd, hrest⟩ := h'.used target i hi
      exact ⟨d, n, symbol, List.mem_append_right _ hd, hrest⟩
  · rcases List.mem_append.1 hd with hd | hd
    · exact h.raised target d hd
    · exact h'.raised target d hd

theorem Linked.mono (h : Linked t placed) (hext : SymbolTable.Extends t t') : Linked t' placed := by
  refine ⟨fun target d hd n hn => ?_, fun target i hi => ?_, fun target d hd r hr => ?_⟩
  · obtain ⟨symbol, hsymbol, himports⟩ := h.found target d hd n hn
    exact ⟨symbol, hext n symbol hsymbol, himports⟩
  · obtain ⟨d, n, symbol, hd, hn, hsymbol, hi⟩ := h.used target i hi
    exact ⟨d, n, symbol, hd, hn, hext n symbol hsymbol, hi⟩
  · obtain ⟨symbol, hsymbol, hkind⟩ := h.raised target d hd r hr
    exact ⟨symbol, hext r symbol hsymbol, hkind⟩

/-- Comments use nothing. -/
theorem Linked.of_comments (within : List Enclosure) (comments : List Comment) :
    Linked t (landed within (comments.map .comment)) := by
  have hcomment : ∀ target d, (target, d) ∈ landed within (comments.map .comment) → ∃ c, d = .comment c := by
    intro target d hd
    obtain ⟨-, hmem, -⟩ := mem_landed.1 hd
    obtain ⟨c, -, rfl⟩ := List.mem_map.1 hmem
    exact ⟨c, rfl⟩
  refine ⟨fun target d hd n hn => ?_, fun target i hi => ?_, fun target d hd r hr => ?_⟩
  · obtain ⟨c, rfl⟩ := hcomment target d hd
    cases hn
  · obtain ⟨c, hc⟩ := hcomment target _ hi
    cases hc
  · obtain ⟨c, rfl⟩ := hcomment target d hd
    cases hr

/-- A declaration and what belongs in front of it are linked. -/
theorem Supplied.linked {target : Path} {ds : List Declaration} {d : Declaration} {comments : List Comment}
    {imports : List Import} {within : List Enclosure} (h : Supplied t target ds d comments imports)
    (hplace : ∀ place, landing within = some place → place = target) : Linked t (landed within ds) := by
  refine ⟨fun place x hx n hn => ?_, fun place i hi => ?_, fun place x hx r hr => ?_⟩
  · obtain ⟨hland, hx, -⟩ := mem_landed.1 hx
    obtain rfl := hplace place hland
    rcases (h.mem_iff x).1 hx with rfl | ⟨c, -, rfl⟩ | ⟨i, -, rfl⟩
    · obtain ⟨symbol, hsymbol⟩ := Option.isSome_iff_exists.1 (h.found n hn)
      refine ⟨symbol, hsymbol, fun i hi => mem_landed.2 ⟨hland, (h.mem_iff _).2 (.inr (.inr ⟨i, ?_, rfl⟩)), rfl⟩⟩
      rw [h.imports_eq]
      exact List.mem_flatMap.2 ⟨n, hn, by simpa [SymbolTable.needed, hsymbol] using hi⟩
    · cases hn
    · cases hn
  · obtain ⟨hland, hi, -⟩ := mem_landed.1 hi
    obtain rfl := hplace place hland
    obtain ⟨name, hname, -⟩ := h.named
    rcases (h.mem_iff _).1 hi with rfl | ⟨c, -, hc⟩ | ⟨j, hj, heq⟩
    · cases hname
    · cases hc
    · cases heq
      rw [h.imports_eq] at hj
      obtain ⟨n, hn, hneeded⟩ := List.mem_flatMap.1 hj
      obtain ⟨symbol, hsymbol⟩ := Option.isSome_iff_exists.1 (h.found n hn)
      exact ⟨d, n, symbol, mem_landed.2 ⟨hland, (h.mem_iff d).2 (.inl rfl), h.isModule_eq⟩, hn, hsymbol,
        by simpa [SymbolTable.needed, hsymbol] using hneeded⟩
  · obtain ⟨-, hx, -⟩ := mem_landed.1 hx
    rcases (h.mem_iff x).1 hx with rfl | ⟨c, -, rfl⟩ | ⟨i, -, rfl⟩
    · exact h.raised r hr
    · cases hr
    · cases hr

/-- A use of a name needs an import unless the name is declared in the same output. -/
theorem mem_use {n : String} {symbol : Symbol} {target : Path} {i : Import} :
    i ∈ (SymbolTable.use n symbol target).2 ↔
      symbol.target.same target = false ∧ i = ⟨n, Placement.importSpecifier target symbol.target⟩ := by
  unfold SymbolTable.use
  cases symbol.target.same target <;> simp

/-- An output imports a name that it uses if it is declared in another one, and in one way only. -/
theorem Linked.mem_imported_iff {target : Path} {d : Declaration} {n specifier : String} {symbol : Symbol}
    (h : Linked t placed) (hd : (target, d) ∈ placed) (hn : n ∈ d.typeNames) (hsymbol : t.find? n = some symbol) :
    (target, .imported ⟨n, specifier⟩) ∈ placed ↔
      symbol.target.same target = false ∧ specifier = Placement.importSpecifier target symbol.target := by
  constructor
  · intro hi
    obtain ⟨d', n', symbol', -, -, hsymbol', huse⟩ := h.used target _ hi
    obtain ⟨hother, heq⟩ := mem_use.1 huse
    obtain ⟨hname, hspecifier⟩ := Import.mk.inj heq
    rw [← hname] at hsymbol'
    obtain rfl := Option.some.inj (hsymbol.symm.trans hsymbol')
    exact ⟨hother, hspecifier⟩
  · rintro ⟨hother, hspecifier⟩
    obtain ⟨symbol', hsymbol', himports⟩ := h.found target d hd n hn
    obtain rfl := Option.some.inj (hsymbol.symm.trans hsymbol')
    exact himports _ (mem_use.2 ⟨hother, congrArg _ hspecifier⟩)

end Linked

namespace Compilation

/-! ## Runs -/

section Runs

variable {sources : Sources} {path target : Path} {s s' : Compilation}

theorem Quiet.symbols_eq (h : Quiet s s') : s'.symbols = s.symbols := by
  obtain ⟨log, rfl⟩ := h
  rfl

theorem Opens.symbols_eq {items : List Item} (h : Opens sources path s items s') : s'.symbols = s.symbols := by
  obtain ⟨-, -, -, -, quiet⟩ := h
  exact quiet.symbols_eq

theorem Closes.symbols_eq {body : List Event} (h : Closes path body s s') : s'.symbols = s.symbols := by
  obtain ⟨log, rfl⟩ := h
  rfl

/-- The name of a declaration is added to the declared names, and it was not among them before. -/
def Adds (target : Path) (d : Declaration) (s s' : Compilation) : Prop :=
  ∃ n symbol, d.name? = some n ∧ symbol.target = target ∧ s.symbols.find? n = none ∧
    s'.symbols = ⟨(n, symbol) :: s.symbols.entries⟩

theorem Registers.adds {kind : Symbol.Kind} {name : Name} (h : Registers kind path target name s s')
    (d : Declaration) (hname : d.name? = some name.text) : Adds target d s s' :=
  ⟨name.text, ⟨kind, path, target, name.range⟩, hname, rfl, h.fresh, h.quiet.symbols_eq⟩

theorem Adds.extends {d : Declaration} (h : Adds target d s s') : SymbolTable.Extends s.symbols s'.symbols := by
  obtain ⟨n, symbol, -, -, hfresh, htable⟩ := h
  rw [htable]
  exact SymbolTable.extends_cons hfresh

/-- What belongs in front of a declaration, whether imports or comments come first. -/
theorem mem_supply (x d : Declaration) (comments : List Comment) (imports : List Import) :
    (x ∈ comments.map .comment ++ imports.map .imported ++ [d] ↔
      x = d ∨ (∃ c ∈ comments, x = .comment c) ∨ ∃ i ∈ imports, x = .imported i) ∧
    (x ∈ imports.map .imported ++ comments.map .comment ++ [d] ↔
      x = d ∨ (∃ c ∈ comments, x = .comment c) ∨ ∃ i ∈ imports, x = .imported i) := by
  have hcomment : x ∈ comments.map Declaration.comment ↔ ∃ c ∈ comments, x = .comment c := by simp [eq_comm]
  have himport : x ∈ imports.map Declaration.imported ↔ ∃ i ∈ imports, x = .imported i := by simp [eq_comm]
  simp only [List.mem_append, List.mem_singleton, hcomment, himport]
  constructor <;> grind

/-- Nothing in front of a declaration has a name. -/
theorem names_supply {d : Declaration} {n : String} (comments : List Comment) (imports : List Import)
    (h : d.name? = some n) :
    List.filterMap Declaration.name? (comments.map .comment ++ imports.map .imported ++ [d]) = [n] ∧
      List.filterMap Declaration.name? (imports.map .imported ++ comments.map .comment ++ [d]) = [n] := by
  have hcomments : List.filterMap Declaration.name? (comments.map .comment) = [] := by
    simp [List.filterMap_map, Function.comp_def, Declaration.name?]
  have himports : List.filterMap Declaration.name? (imports.map .imported) = [] := by
    simp [List.filterMap_map, Function.comp_def, Declaration.name?]
  simp only [List.filterMap_append, hcomments, himports, List.filterMap_cons_some h, List.filterMap_nil]
  exact ⟨rfl, rfl⟩

/-- A declaration is supplied with the imports that it needs, and it adds its name. -/
theorem Declares.supplied {item : Item} {ds : List Declaration} (h : Declares path target s item ds s') :
    ∃ d comments imports, Supplied s'.symbols target ds d comments imports ∧ Adds target d s s' := by
  cases h with
  | @typedef _ typed comments type imports _ resolves registers =>
    have hadds := registers.adds (.typedef typed.name.text type) rfl
    have hresolves := resolves.mono hadds.extends
    refine ⟨.typedef _ type, comments, imports,
      ⟨fun x => (mem_supply x ..).1, rfl, ⟨_, rfl, (names_supply _ _ rfl).1⟩, ?_, ?_, ?_⟩, hadds⟩
    · exact hresolves.found
    · exact hresolves.imports_eq
    · simp [Declaration.raisedNames]
  | @record _ kind name block members imports _ registers declared =>
    have hadds := registers.adds (.record kind name.text members) rfl
    have hfound := declared.forall_items fun hfield => hfield.resolves.found
    refine ⟨.record kind _ members, block.trailing, imports, ⟨fun x => (mem_supply x ..).2, rfl,
      ⟨_, rfl, (names_supply _ _ rfl).2⟩, fun n hn => ?_, ?_, ?_⟩, hadds⟩
    · obtain ⟨f, hf, hn⟩ := List.mem_flatMap.1 hn
      exact hfound f hf n hn
    · exact declared.imports_eq fun hfield => hfield.resolves.imports_eq
    · simp [Declaration.raisedNames]
  | @enum _ name block _ registers =>
    have hadds := registers.adds (.enum name.text block.members) rfl
    refine ⟨.enum _ block.members, block.trailing, [], ⟨fun x => (mem_supply x _ _ []).2, rfl,
      ⟨_, rfl, (names_supply _ [] rfl).2⟩, ?_, rfl, ?_⟩, hadds⟩
    · simp [Declaration.typeNames]
    · simp [Declaration.raisedNames]
  | @interface _ name block members imports _ registers declared =>
    have hadds := registers.adds (.interface name.text members) rfl
    have hfound := declared.forall_items fun hmethod => hmethod.found
    have hraised := declared.forall_items fun hmethod => hmethod.exceptions
    refine ⟨.interface _ members, block.trailing, imports, ⟨fun x => (mem_supply x ..).2, rfl,
      ⟨_, rfl, (names_supply _ _ rfl).2⟩, fun n hn => ?_, ?_, fun r hr => ?_⟩, hadds⟩
    · obtain ⟨m, hm, hn⟩ := List.mem_flatMap.1 hn
      exact hfound m hm n hn
    · exact declared.imports_eq fun hmethod => hmethod.imports_eq
    · obtain ⟨m, hm, hr⟩ := List.mem_flatMap.1 hr
      exact hraised m hm r hr

/-- In a run, names are added to the declared ones, and nothing else happens to them. -/
theorem Traced.symbols_rel {R : SymbolTable → SymbolTable → Prop} {items : List Item} {events : List Event}
    (refl : ∀ t, R t t) (trans : ∀ {t t' t''}, R t t' → R t' t'' → R t t'')
    (adds : ∀ {target d s s'}, Adds target d s s' → R s.symbols s'.symbols)
    (h : Traced sources path target items s events s') : R s.symbols s'.symbols := by
  induction h with
  | nil => exact refl _
  | comment rest ih => exact ih
  | define new quiet rest ih =>
    rw [quiet.symbols_eq] at ih
    exact ih
  | skip named old quiet rest ih =>
    rw [quiet.symbols_eq] at ih
    exact ih
  | file named fresh opens within closes rest ihbody ih =>
    rw [opens.symbols_eq] at ihbody
    rw [closes.symbols_eq] at ih
    exact trans ihbody ih
  | guarded quiet within rest ihbody ih =>
    rw [quiet.symbols_eq] at ihbody
    exact trans ihbody ih
  | module quiet within emits rest ihbody ih =>
    rw [quiet.symbols_eq] at ihbody
    rw [emits.symbols_eq] at ih
    exact trans ihbody ih
  | declared at_path names gives rest ih =>
    obtain ⟨d, comments, imports, -, hadds⟩ := (declares_of_gives names gives).supplied
    exact trans (adds hadds) ih

/-- What is declared stays declared. -/
theorem Traced.extends {items : List Item} {events : List Event}
    (h : Traced sources path target items s events s') : SymbolTable.Extends s.symbols s'.symbols :=
  h.symbols_rel .refl .trans Adds.extends

/-- No name is declared twice. -/
def Distinct (t : SymbolTable) : Prop := (t.entries.map Prod.fst).Nodup

theorem Adds.distinct {d : Declaration} (h : Adds target d s s') (hs : Distinct s.symbols) : Distinct s'.symbols := by
  obtain ⟨n, symbol, -, -, hfresh, htable⟩ := h
  rw [htable]
  refine List.nodup_cons.2 ⟨fun hmem => ?_, hs⟩
  obtain ⟨⟨n', symbol'⟩, hentry, rfl⟩ := List.mem_map.1 hmem
  have hne := List.lookup_eq_none_iff.1 hfresh _ hentry
  simp at hne

theorem Traced.distinct {items : List Item} {events : List Event}
    (h : Traced sources path target items s events s') (hs : Distinct s.symbols) : Distinct s'.symbols :=
  h.symbols_rel (R := fun t t' => Distinct t → Distinct t') (fun _ => id) (fun h h' ht => h' (h ht)) Adds.distinct hs

/-- What lands in a run is linked, if the items of the body can only land where it is written to. -/
theorem Traced.linked {items : List Item} {events : List Event}
    (h : Traced sources path target items s events s') : ∀ within : List Enclosure,
      (∀ place, landing within = some place → place = target) →
      Linked s'.symbols ((Event.piecesAll within events).filterMap Piece.landed?) := by
  have hsome {a b : Path} (place : Path) (hplace : some a = some place) (hab : a = b) : place = b :=
    (Option.some.inj hplace).symm.trans hab
  induction h with
  | nil =>
    intro within hplace
    rw [Event.piecesAll]
    exact .nil
  | @comment _ _ c _ _ _ _ rest ih =>
    intro within hplace
    rw [Event.piecesAll, Event.pieces, List.filterMap_append]
    exact (Linked.of_comments within [c]).append (ih within hplace)
  | define new quiet rest ih =>
    intro within hplace
    rw [Event.piecesAll, Event.pieces, List.nil_append]
    exact ih within hplace
  | skip named old quiet rest ih =>
    intro within hplace
    rw [Event.piecesAll, Event.pieces, List.nil_append]
    exact ih within hplace
  | file named fresh opens inner closes rest ihbody ih =>
    intro within hplace
    rw [Event.piecesAll, Event.pieces, List.filterMap_append]
    have hbody := ihbody (.file _ :: within) fun place hland => hsome place hland rfl
    rw [← closes.symbols_eq] at hbody
    exact (hbody.mono rest.extends).append (ih within hplace)
  | guarded quiet inner rest ihbody ih =>
    intro within hplace
    rw [Event.piecesAll, Event.pieces, List.filterMap_append]
    refine ((ihbody (.guarded _ _ :: within) fun place hland => ?_).mono rest.extends).append (ih within hplace)
    rw [landing] at hland
    split at hland
    · cases hland
    · exact hplace place hland
  | @module _ _ _ _ _ _ trailing _ _ _ _ _ _ _ quiet inner emits rest ihbody ih =>
    intro within hplace
    rw [Event.piecesAll, Event.pieces, List.filterMap_append, List.filterMap_append]
    have hbody := ihbody (.module _ :: within) fun place hland => hsome place hland rfl
    rw [← emits.symbols_eq] at hbody
    exact ((hbody.mono rest.extends).append (.of_comments within trailing)).append (ih within hplace)
  | declared at_path names gives rest ih =>
    intro within hplace
    rw [Event.piecesAll, Event.pieces, List.filterMap_append]
    obtain ⟨d, comments, imports, hsupplied, -⟩ := (declares_of_gives names gives).supplied
    exact ((hsupplied.linked hplace).mono rest.extends).append (ih within hplace)

/-- The names of declarations, with the outputs that they are in. -/
def declaredIn (placed : List (Path × Declaration)) : List (String × Path) :=
  placed.filterMap fun (target, d) => d.name?.map (·, target)

/-- The declared names, with the outputs that they are declared in. -/
def targets (t : SymbolTable) : List (String × Path) := t.entries.map fun (n, symbol) => (n, symbol.target)

theorem declaredIn_append (placed more : List (Path × Declaration)) :
    declaredIn (placed ++ more) = declaredIn placed ++ declaredIn more := by simp [declaredIn]

theorem declaredIn_landed {within : List Enclosure} {ds : List Declaration} (h : landing within = some target)
    (hds : ∀ d ∈ ds, d.isModule = false) :
    declaredIn (landed within ds) = (ds.filterMap Declaration.name?).map (·, target) := by
  have hall : ds.filter (!·.isModule) = ds := List.filter_eq_self.2 fun d hd => by simp [hds d hd]
  rw [landed_eq_emitted within h]
  simp [declaredIn, emitted, hall, List.filterMap_map, List.map_filterMap]

theorem declaredIn_comments {within : List Enclosure} (h : landing within = some target) (comments : List Comment) :
    declaredIn (landed within (comments.map .comment)) = [] := by
  rw [declaredIn_landed h (by simp [Declaration.isModule])]
  simp [List.filterMap_map, Function.comp_def, Declaration.name?]

/-- A declaration that lands has the output that its symbol says. -/
theorem Adds.targets_eq {within : List Enclosure} {ds : List Declaration} {d : Declaration} {comments : List Comment}
    {imports : List Import} (h : Adds target d s s') (hsupplied : Supplied s'.symbols target ds d comments imports)
    (hland : landing within = some target) :
    targets s'.symbols = (declaredIn (landed within ds)).reverse ++ targets s.symbols := by
  obtain ⟨n, symbol, hname, htarget, -, htable⟩ := h
  obtain ⟨n', hname', hnames⟩ := hsupplied.named
  obtain rfl : n = n' := Option.some.inj (hname.symm.trans hname')
  have hmodules : ∀ x ∈ ds, x.isModule = false := by
    intro x hx
    rcases (hsupplied.mem_iff x).1 hx with rfl | ⟨c, -, rfl⟩ | ⟨i, -, rfl⟩
    · exact hsupplied.isModule_eq
    · rfl
    · rfl
  rw [declaredIn_landed hland hmodules, hnames, htable]
  simp [targets, htarget]

/-- If no block is dropped, then the declarations that land are in the outputs that their symbols
say. -/
theorem Traced.targets_eq {items : List Item} {events : List Event}
    (h : Traced sources path target items s events s') (kept : Event.keepsAll events = true) :
    ∀ within : List Enclosure, landing within = some target → targets s'.symbols =
      (declaredIn ((Event.piecesAll within events).filterMap Piece.landed?)).reverse ++ targets s.symbols := by
  induction h with
  | nil =>
    intro within hland
    simp [Event.piecesAll, declaredIn]
  | @comment _ _ c _ _ _ _ rest ih =>
    intro within hland
    have hcomment := declaredIn_comments hland [c]
    rw [ih (by simpa [Event.keepsAll] using kept) within hland, Event.piecesAll, Event.pieces,
      List.filterMap_append, declaredIn_append]
    change _ = (declaredIn (landed within ([c].map .comment)) ++ _).reverse ++ _
    rw [hcomment, List.nil_append]
  | define new quiet rest ih =>
    intro within hland
    rw [ih (by simpa [Event.keepsAll] using kept) within hland, Event.piecesAll, Event.pieces,
      List.nil_append, quiet.symbols_eq]
  | skip named old quiet rest ih =>
    intro within hland
    rw [ih (by simpa [Event.keepsAll] using kept) within hland, Event.piecesAll, Event.pieces,
      List.nil_append, quiet.symbols_eq]
  | file named fresh opens inner closes rest ihbody ih =>
    intro within hland
    simp only [Event.keepsAll, Event.keepsAllIn, Event.keepsIn, Bool.and_eq_true] at kept
    obtain ⟨hkept, hrest⟩ := kept
    rw [ih hrest within hland, closes.symbols_eq, ihbody hkept (.file _ :: within) rfl, opens.symbols_eq,
      Event.piecesAll, Event.pieces, List.filterMap_append, declaredIn_append]
    simp
  | @guarded _ _ _ name _ _ _ _ _ _ _ _ quiet inner rest ihbody ih =>
    intro within hland
    simp only [Event.keepsAll, Event.keepsAllIn, Event.keepsIn, Bool.and_eq_true, Bool.not_eq_true'] at kept
    obtain ⟨⟨hdefined, hkept⟩, hrest⟩ := kept
    rw [ih hrest within hland, ihbody hkept (.guarded name false :: within) hland, quiet.symbols_eq,
      Event.piecesAll, Event.pieces, hdefined, List.filterMap_append, declaredIn_append]
    simp
  | @module _ _ _ _ _ _ trailing _ _ _ _ _ _ _ quiet inner emits rest ihbody ih =>
    intro within hland
    simp only [Event.keepsAll, Event.keepsAllIn, Event.keepsIn, Bool.and_eq_true] at kept
    obtain ⟨hkept, hrest⟩ := kept
    have hcomments := declaredIn_comments hland trailing
    rw [ih hrest within hland, emits.symbols_eq, ihbody hkept (.module _ :: within) rfl, quiet.symbols_eq,
      Event.piecesAll, Event.pieces, List.filterMap_append, List.filterMap_append, declaredIn_append, declaredIn_append]
    change _ = (_ ++ declaredIn (landed within (trailing.map .comment)) ++ _).reverse ++ _
    rw [hcomments]
    simp
  | declared at_path names gives rest ih =>
    intro within hland
    obtain ⟨d, comments, imports, hsupplied, hadds⟩ := (declares_of_gives names gives).supplied
    rw [ih (by simpa [Event.keepsAll] using kept) within hland, hadds.targets_eq hsupplied hland,
      Event.piecesAll, Event.pieces, List.filterMap_append, declaredIn_append]
    simp [landed]

/-- The outputs that hold a declaration of a name. -/
def outputsOf (n : String) (placed : List (Path × Declaration)) : List Path :=
  (placed.filter (·.2.name? == some n)).map (·.1)

theorem outputsOf_eq (n : String) (placed : List (Path × Declaration)) :
    outputsOf n placed = ((declaredIn placed).filter (·.1 == n)).map (·.2) := by
  induction placed with
  | nil => rfl
  | cons p placed ih =>
    obtain ⟨target, d⟩ := p
    unfold outputsOf declaredIn at ih ⊢
    cases hname : d.name? with
    | none => simpa [hname] using ih
    | some m =>
      by_cases hm : m = n
      · simpa [hname, hm] using ih
      · simpa [hname, hm] using ih

/-- A name that is declared once is found once. -/
theorem filter_targets {t : SymbolTable} {n : String} {symbol : Symbol} (hdistinct : Distinct t)
    (h : t.find? n = some symbol) : (targets t).filter (·.1 == n) = [(n, symbol.target)] := by
  obtain ⟨entries⟩ := t
  unfold Distinct SymbolTable.find? targets at *
  dsimp only at *
  induction entries with
  | nil => cases h
  | cons entry entries ih =>
    obtain ⟨m, other⟩ := entry
    obtain ⟨hfresh, hdistinct⟩ := List.nodup_cons.1 hdistinct
    rw [List.lookup_cons] at h
    by_cases hm : n = m
    · subst hm
      have hnone : (entries.map fun (n, symbol) => (n, symbol.target)).filter (·.1 == n) = [] := by
        rw [List.filter_eq_nil_iff]
        rintro ⟨m, target⟩ hmem heq
        obtain ⟨⟨m', symbol'⟩, hentry, hpair⟩ := List.mem_map.1 hmem
        cases hpair
        exact hfresh (List.mem_map.2 ⟨_, hentry, by simpa using heq⟩)
      simp at h
      simp [h, hnone]
    · have hne : (n == m) = false := by simpa using hm
      rw [hne] at h
      simpa [Ne.symm hm] using ih hdistinct h

end Runs

/-! ## Outputs -/

theorem isSome_name?_of_mem_typeNames {d : Declaration} {n : String} (h : n ∈ d.typeNames) : d.name?.isSome := by
  cases d with
  | comment c => cases h
  | imported i => cases h
  | module | typedef | record | enum | interface => rfl

section Outputs

variable {sources : Sources} {path : Path} {ds : List Declaration} {s : Compilation}

/-- What is emitted in a run is linked. -/
theorem linked_of_gives (h : Gives (compileFile sources path) .empty ds s) :
    Linked s.symbols (emitted s.emissions) := by
  have hperm := emitted_perm_history h
  obtain ⟨-, items, s₁, s₂, hopens, htraced, hcloses⟩ := fileTraced_of_compileFile h
  have hlinked := htraced.linked [.file path.normalize] fun place hland => (Option.some.inj hland).symm
  rw [← hcloses.symbols_eq] at hlinked
  refine ⟨fun target d hd n hn => ?_, fun target i hi => ?_, fun target d hd => ?_⟩
  · obtain ⟨symbol, hsymbol, himports⟩ := hlinked.found target d (hperm.mem_iff.1 hd) n hn
    exact ⟨symbol, hsymbol, fun i hi => hperm.mem_iff.2 (himports i hi)⟩
  · obtain ⟨d, n, symbol, hd, hrest⟩ := hlinked.used target i (hperm.mem_iff.1 hi)
    exact ⟨d, n, symbol, hperm.mem_iff.2 hd, hrest⟩
  · exact hlinked.raised target d (hperm.mem_iff.1 hd)

/-- If no block is dropped, then a declared name has one declaration, in the output that its symbol
says. -/
theorem outputsOf_of_gives (h : Gives (compileFile sources path) .empty ds s)
    (kept : Event.keepsAll (history sources path) = true) {n : String} {symbol : Symbol}
    (hn : s.symbols.find? n = some symbol) : outputsOf n (emitted s.emissions) = [symbol.target] := by
  have hperm := emitted_perm_history h
  obtain ⟨-, items, s₁, s₂, hopens, htraced, hcloses⟩ := fileTraced_of_compileFile h
  have hempty : s₁.symbols = .empty := hopens.symbols_eq
  have htargets := htraced.targets_eq kept [.file path.normalize] rfl
  have hdistinct := htraced.distinct (by simp [hempty, Distinct, SymbolTable.empty])
  rw [← hcloses.symbols_eq] at htargets hdistinct
  have hfilter := filter_targets hdistinct hn
  rw [htargets, hempty, show targets .empty = [] from rfl, List.append_nil, List.filter_reverse] at hfilter
  have hone := congrArg List.reverse hfilter
  rw [List.reverse_reverse, List.reverse_singleton] at hone
  -- one declaration of the name lands, so one is emitted
  have hlanded : (outputsOf n (emitted s.emissions)).Perm [symbol.target] := by
    refine ((hperm.filter _).map _).trans ?_
    change (outputsOf n _).Perm _
    rw [outputsOf_eq, hone]
    exact .refl _
  exact hlanded.eq_singleton

/-- The output that a symbol says is one of the run, so it is spelled by its components. -/
theorem eq_ofComponents_of_outputsOf {es : List Emission} {n : String} {target : Path}
    (spelled : ∀ e ∈ es, e.target = .ofComponents e.target.components) (h : outputsOf n (emitted es) = [target]) :
    target = .ofComponents target.components := by
  have hmem : target ∈ outputsOf n (emitted es) := by simp [h]
  obtain ⟨⟨target', d⟩, hp, rfl⟩ := List.mem_map.1 hmem
  obtain ⟨-, e, he, rfl, -⟩ := mem_emitted.1 (List.mem_filter.1 hp).1
  exact spelled e he

/-- The table of an output lists the imports that were emitted to it. -/
theorem lists_iff_emitted {es : List Emission} {b : Batch} {i : Import}
    (spelled : ∀ e ∈ es, e.target = .ofComponents e.target.components) (hb : b ∈ Batch.ofEmissions es) :
    (Output.ImportTable.ofImports (b.bodies.flatMap Output.imports)).Lists i ↔
      (b.target, .imported i) ∈ emitted es := by
  rw [Batch.mem_emitted_iff spelled hb, Output.ImportTable.lists_ofImports, List.mem_flatMap, List.mem_flatten]
  simp [Output.mem_imports, Declaration.isModule]

/-- In a run that drops no guarded block, each name that is used in an output is declared once, in the output that its
symbol says. The lines above the declarations of the output import it from there if that is another output, in this way
only, and they do not import it if it is the same. All that they import is used, and all that methods raise are declared
exceptions. -/
theorem imports_closed (run : Gives (compileFile sources path) .empty ds s)
    (kept : Event.keepsAll (history sources path) = true) :
    (∀ placed ∈ emitted s.emissions, ∃ o ∈ s.finish.1, o.path = placed.1) ∧
    ∀ o ∈ s.finish.1, ∃ table : Output.ImportTable,
      (∀ contents, o.contents = some contents →
        table.Heads ((Emission.sentTo o.path s.emissions).map (·.body)) contents) ∧
      (∀ d, (o.path, d) ∈ emitted s.emissions → ∀ n ∈ d.typeNames, o.contents ≠ none ∧
        ∃ symbol, s.symbols.find? n = some symbol ∧ outputsOf n (emitted s.emissions) = [symbol.target] ∧
          ∀ specifier, table.Lists ⟨n, specifier⟩ ↔
            symbol.target ≠ o.path ∧ specifier = Placement.importSpecifier o.path symbol.target) ∧
      (∀ i, table.Lists i → ∃ d, (o.path, d) ∈ emitted s.emissions ∧ i.name ∈ d.typeNames) ∧
      ∀ d, (o.path, d) ∈ emitted s.emissions → ∀ r ∈ d.raisedNames, s.symbols.IsException r := by
  have spelled := targets_spelled run
  have hlinked := linked_of_gives run
  refine ⟨fun placed hplaced => ?_, fun o ho => ?_⟩
  · obtain ⟨-, e, he, htarget, -⟩ := mem_emitted.1 hplaced
    exact ⟨_, (Output.mem_ofEmissions_iff spelled).2 ⟨e, he, rfl⟩, htarget⟩
  obtain ⟨b, hb, rfl⟩ := List.mem_map.1 ho
  have hpath : b.output.path = b.target := rfl
  rw [hpath]
  refine ⟨.ofImports (b.bodies.flatMap Output.imports), fun contents hcontents => ?_, fun d hd n hn => ⟨?_, ?_⟩,
    fun i hi => ?_, fun d hd => hlinked.raised b.target d hd⟩
  · rw [← Batch.bodies_eq_sentTo hb]
    exact Output.heads_of_contentsOf hcontents
  · obtain ⟨hmodule, hbody⟩ := (Batch.mem_emitted_iff spelled hb).1 hd
    exact Output.contentsOf_ne_none hbody hmodule (isSome_name?_of_mem_typeNames hn)
  · obtain ⟨symbol, hsymbol, -⟩ := hlinked.found b.target d hd n hn
    have houtputs := outputsOf_of_gives run kept hsymbol
    have hdeclared := eq_ofComponents_of_outputsOf spelled houtputs
    obtain ⟨e, he, htarget, -⟩ := Batch.exists_emission b hb
    have hown : b.target = .ofComponents b.target.components := htarget ▸ spelled e he
    refine ⟨symbol, hsymbol, houtputs, fun specifier => ?_⟩
    rw [lists_iff_emitted spelled hb, hlinked.mem_imported_iff hd hn hsymbol, Path.same_eq_false_iff hdeclared hown]
  · obtain ⟨d, n, symbol, hd, hn, -, huse⟩ := hlinked.used b.target i ((lists_iff_emitted spelled hb).1 hi)
    have hname : i.name = n := congrArg Import.name (mem_use.1 huse).2
    exact ⟨d, hd, hname ▸ hn⟩

/-- A file that includes another one, with a module that uses what both of them declare. -/
def twoFiles : Sources where
  texts := [(⟨"a.idl"⟩, "struct A \x7b long x; \x7d;"),
    (⟨"m.idl"⟩, "#include \"a.idl\"\nexception E \x7b A a; \x7d;\n" ++
    "module M \x7b interface I \x7b sequence<A> f(in A a, out E e) raises (E); \x7d; \x7d;")]
  failure _ := ""

/-- What is written for the module. -/
def moduleText : String :=
  "import \x7b A \x7d from '../a';\nimport \x7b E \x7d from '../m';\n\nexport abstract class I \x7b\n" ++
  "    /** @throws \x7bE\x7d */\n    abstract f(a: A, e: \x7b value: E \x7d): Array<A>;\n\x7d\n"

/-- What is written for both files: the module, and the files themselves. -/
def twoOutputs : List Output :=
  [⟨⟨"M/m.ts"⟩, some moduleText⟩,
    ⟨⟨"a.ts"⟩, some "export interface A \x7b\n    x: number;\n\x7d\n"⟩,
    ⟨⟨"m.ts"⟩, some "import \x7b A \x7d from './a';\n\nexport class E extends Error \x7b\n    a: A;\n\x7d\n"⟩]

/-- The module's output imports from both of the others. -/
theorem imports_closed_two_files :
    ∃ ds s, Gives (compileFile twoFiles ⟨"m.idl"⟩) .empty ds s ∧
      Event.keepsAll (history twoFiles ⟨"m.idl"⟩) = true ∧
      s.finish.1 = twoOutputs ∧
      ∃ table : Output.ImportTable,
        table.Heads ((Emission.sentTo ⟨"M/m.ts"⟩ s.emissions).map (·.body)) moduleText ∧
        (∀ specifier, table.Lists ⟨"A", specifier⟩ ↔ specifier = "../a") ∧
        ∀ specifier, table.Lists ⟨"E", specifier⟩ ↔ specifier = "../m" := by
  have kept : Event.keepsAll (history twoFiles ⟨"m.idl"⟩) = true := by decide +kernel
  obtain ⟨ds, run⟩ : ∃ ds, Gives (compileFile twoFiles ⟨"m.idl"⟩) .empty ds
      (outcome (compileFile twoFiles ⟨"m.idl"⟩) .empty).2 := exists_gives (by decide +kernel)
  generalize hs : (outcome (compileFile twoFiles ⟨"m.idl"⟩) .empty).2 = s at run
  obtain ⟨hfinish, ha, he, hused⟩ : s.finish.1 = twoOutputs ∧
      (s.symbols.find? "A").map (·.target) = some ⟨"a.ts"⟩ ∧ (s.symbols.find? "E").map (·.target) = some ⟨"m.ts"⟩ ∧
      ∃ placed ∈ emitted s.emissions, placed.1 = ⟨"M/m.ts"⟩ ∧ ["A", "E"] ⊆ placed.2.typeNames := by
    rw [← hs]
    decide +kernel
  obtain ⟨⟨_, d⟩, hd, rfl, hnames⟩ := hused
  obtain ⟨table, hheads, hlists, -, -⟩ :=
    (imports_closed run kept).2 ⟨⟨"M/m.ts"⟩, some moduleText⟩ (hfinish ▸ List.mem_cons_self)
  have hother {n : String} {target : Path} (hn : n ∈ d.typeNames) (hne : target ≠ ⟨"M/m.ts"⟩)
      (hdeclared : (s.symbols.find? n).map (·.target) = some target) (specifier : String) :
      table.Lists ⟨n, specifier⟩ ↔ specifier = Placement.importSpecifier ⟨"M/m.ts"⟩ target := by
    obtain ⟨-, symbol, hsymbol, -, hlists⟩ := hlists d hd n hn
    obtain rfl : symbol.target = target := by simpa [hsymbol] using hdeclared
    rw [hlists]
    exact and_iff_right hne
  have ha := hother (hnames List.mem_cons_self) (by decide) ha
  have he := hother (hnames (List.mem_cons_of_mem _ List.mem_cons_self)) (by decide) he
  rw [show Placement.importSpecifier ⟨"M/m.ts"⟩ ⟨"a.ts"⟩ = "../a" by decide +kernel] at ha
  rw [show Placement.importSpecifier ⟨"M/m.ts"⟩ ⟨"m.ts"⟩ = "../m" by decide +kernel] at he
  exact ⟨ds, s, run, kept, hfinish, table, hheads moduleText rfl, ha, he⟩

end Outputs

end Compilation

end Idl
