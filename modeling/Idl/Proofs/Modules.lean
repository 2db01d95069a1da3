import Idl.Proofs.Alike
import Idl.Proofs.Pieces
import Idl.Proofs.Quotes
import Idl.Proofs.Sessions
import Mathlib.Data.List.Forall2

/-!
# Modules and outputs

The bodies of a file are its own and those of its modules. A body is emitted when it ends, so the
modules in it come first; an output collects the bodies with the same modules around them. Bodies
inside of each other never have the same modules around them, so each output holds its bodies in the
order of the text.

* `Scope`: a body, and the modules around it.
* `Declaration.scopes` lists the bodies where they start, `Declaration.closing` where they end.
* `Placement.ofModules base modules`: the output for the bodies in some modules.
* `Placement.located p modules`: the path that is made of the directory and the stem of a file, and
  the names of the modules.
-/

namespace Idl

/-- A body, and the modules around it, from the outside to the inside. -/
structure Scope (α : Type) where
  modules : List String
  body : List α

/-- A declared name, and what it stands for; nothing, if it is the name of a module. -/
structure Heading where
  kind : Option Symbol.Kind
  name : String
deriving DecidableEq, Repr

namespace Item

mutual

/-- The bodies of the modules in an item. A guarded block is part of the body around it. -/
def scopes (modules : List String) : Item → List (Scope Item)
  | .guarded _ _ body => allScopes modules body
  | .module _ name body _ _ => ⟨modules ++ [name.text], body⟩ :: allScopes (modules ++ [name.text]) body
  | .comment _ | .define .. | .include .. | .typedef .. | .record .. | .enum .. | .interface .. | .fault .. => []

/-- The bodies of the modules in a body. -/
def allScopes (modules : List String) : List Item → List (Scope Item)
  | [] => []
  | item :: items => item.scopes modules ++ allScopes modules items

end

mutual

/-- What an item declares in the body around it. -/
def headings : Item → List Heading
  | .guarded _ _ body => allHeadings body
  | .module _ name _ _ _ => [⟨none, name.text⟩]
  | .typedef _ typed _ => [⟨some .typedef, typed.name.text⟩]
  | .record _ kind name _ => [⟨some (Compilation.recordSymbol kind), name.text⟩]
  | .enum _ name _ => [⟨some .enum, name.text⟩]
  | .interface _ name _ => [⟨some .interface, name.text⟩]
  | .comment _ | .define .. | .include .. | .fault .. => []

/-- What is declared in a body, in order. -/
def allHeadings : List Item → List Heading
  | [] => []
  | item :: items => item.headings ++ allHeadings items

end

/-- There is no body in an item that declares a name. -/
theorem scopes_of_declares {modules : List String} : ∀ {item : Item}, item.declares = true → item.scopes modules = []
  | .typedef .., _ | .record .., _ | .enum .., _ | .interface .., _ => by rw [scopes]
  | .comment .., h | .define .., h | .include .., h | .guarded .., h | .module .., h | .fault .., h => by cases h

/-- The bodies of a file. -/
def fileScopes (items : List Item) : List (Scope Item) := ⟨[], items⟩ :: allScopes [] items

section Names

variable {P : Comment → Prop}

mutual

theorem isName_of_mem_scopes : ∀ {modules : List String} {item : Item}, (∀ n ∈ modules, IsName n) → item.Sound P →
    ∀ scope ∈ item.scopes modules, ∀ n ∈ scope.modules, IsName n
  | modules, .guarded _ _ body, hmodules, .guarded within => by
    rw [scopes]
    exact isName_of_mem_allScopes hmodules within
  | modules, .module _ name body _ _, hmodules, .module named within _ => by
    have hinner : ∀ n ∈ modules ++ [name.text], IsName n :=
      List.forall_mem_append.2 ⟨hmodules, by simpa using named⟩
    rw [scopes]
    exact List.forall_mem_cons.2 ⟨hinner, isName_of_mem_allScopes hinner within⟩
  | modules, .comment _, _, _ | modules, .define .., _, _ | modules, .include .., _, _ | modules, .typedef .., _, _
  | modules, .record .., _, _ | modules, .enum .., _, _ | modules, .interface .., _, _ | modules, .fault .., _, _ => by
    simp [scopes]

/-- The modules around the bodies of sound items have names. -/
theorem isName_of_mem_allScopes : ∀ {modules : List String} {items : List Item}, (∀ n ∈ modules, IsName n) →
    (∀ item ∈ items, item.Sound P) → ∀ scope ∈ allScopes modules items, ∀ n ∈ scope.modules, IsName n
  | modules, [], _, _ => by simp [allScopes]
  | modules, item :: items, hmodules, hsound => by
    obtain ⟨hitem, hitems⟩ := List.forall_mem_cons.1 hsound
    rw [allScopes]
    exact List.forall_mem_append.2 ⟨isName_of_mem_scopes hmodules hitem, isName_of_mem_allScopes hmodules hitems⟩

end

end Names

end Item

namespace Declaration

mutual

/-- The bodies of the modules in a declaration, in the order in which they start. -/
def scopes (modules : List String) : Declaration → List (Scope Declaration)
  | .module name body => ⟨modules ++ [name], body⟩ :: allScopes (modules ++ [name]) body
  | .comment _ | .imported _ | .typedef .. | .record .. | .enum .. | .interface .. => []

/-- The bodies of the modules in a body, in the order in which they start. -/
def allScopes (modules : List String) : List Declaration → List (Scope Declaration)
  | [] => []
  | d :: ds => d.scopes modules ++ allScopes modules ds

end

mutual

/-- The bodies of the modules in a declaration, in the order in which they end. -/
def closing (modules : List String) : Declaration → List (Scope Declaration)
  | .module name body => allClosing (modules ++ [name]) body ++ [⟨modules ++ [name], body⟩]
  | .comment _ | .imported _ | .typedef .. | .record .. | .enum .. | .interface .. => []

/-- The bodies of the modules in a body, in the order in which they end. -/
def allClosing (modules : List String) : List Declaration → List (Scope Declaration)
  | [] => []
  | d :: ds => d.closing modules ++ allClosing modules ds

end

/-- What a declaration declares. -/
def heading? : Declaration → Option Heading
  | .module name _ => some ⟨none, name⟩
  | .typedef name _ => some ⟨some .typedef, name⟩
  | .record kind name _ => some ⟨some (Compilation.recordSymbol kind), name⟩
  | .enum name _ => some ⟨some .enum, name⟩
  | .interface name _ => some ⟨some .interface, name⟩
  | .comment _ | .imported _ => none

/-- The bodies of a file, in the order in which they start. -/
def fileScopes (ds : List Declaration) : List (Scope Declaration) := ⟨[], ds⟩ :: allScopes [] ds

/-- The bodies of a file, in the order in which they end. -/
def fileClosing (ds : List Declaration) : List (Scope Declaration) := allClosing [] ds ++ [⟨[], ds⟩]

/-! ## Starts and ends -/

section Order

variable {modules : List String}

@[simp]
theorem allScopes_append (ds ds' : List Declaration) :
    allScopes modules (ds ++ ds') = allScopes modules ds ++ allScopes modules ds' := by
  induction ds with
  | nil => simp [allScopes]
  | cons d ds ih => simp [allScopes, ih]

@[simp]
theorem allClosing_append (ds ds' : List Declaration) :
    allClosing modules (ds ++ ds') = allClosing modules ds ++ allClosing modules ds' := by
  induction ds with
  | nil => simp [allClosing]
  | cons d ds ih => simp [allClosing, ih]

/-- There is no body in declarations that are no modules. -/
theorem allScopes_eq_nil {ds : List Declaration} (h : ∀ d ∈ ds, d.isModule = false) : allScopes modules ds = [] := by
  induction ds with
  | nil => rw [allScopes]
  | cons d ds ih =>
    obtain ⟨hd, hds⟩ := List.forall_mem_cons.1 h
    have hscopes : scopes modules d = [] := by
      cases d with
      | module name body => cases hd
      | comment _ | imported _ | typedef _ _ | record _ _ _ | enum _ _ | interface _ _ => rw [scopes]
    rw [allScopes, hscopes, ih hds, List.append_nil]

mutual

/-- The bodies that end are those that start. -/
theorem closing_perm (modules : List String) : ∀ d : Declaration, (closing modules d).Perm (scopes modules d)
  | .module name body => by
    rw [closing, scopes]
    exact List.perm_append_comm.trans ((allClosing_perm (modules ++ [name]) body).cons _)
  | .comment _ | .imported _ | .typedef .. | .record .. | .enum .. | .interface .. => by
    rw [closing, scopes]

theorem allClosing_perm (modules : List String) :
    ∀ ds : List Declaration, (allClosing modules ds).Perm (allScopes modules ds)
  | [] => by rw [allClosing, allScopes]
  | d :: ds => by
    rw [allClosing, allScopes]
    exact (closing_perm modules d).append (allClosing_perm modules ds)

end

theorem allScopes_comments (cs : List Comment) : allScopes modules (cs.map .comment) = [] :=
  allScopes_eq_nil fun d hd => by
    obtain ⟨c, -, rfl⟩ := List.mem_map.1 hd
    rfl

theorem allScopes_module (name : String) (body : List Declaration) :
    allScopes modules [.module name body] = ⟨modules ++ [name], body⟩ :: allScopes (modules ++ [name]) body := by
  rw [allScopes, scopes, allScopes, List.append_nil]

mutual

/-- A body in a module has more modules around it than the declaration. -/
theorem length_lt_of_mem_scopes : ∀ (modules : List String) (d : Declaration),
    ∀ scope ∈ scopes modules d, modules.length < scope.modules.length
  | modules, .module name body => by
    intro scope hmem
    rw [scopes] at hmem
    rcases List.mem_cons.1 hmem with rfl | hmem
    · simp
    · have hlt := length_lt_of_mem_allScopes _ body scope hmem
      rw [List.length_append, List.length_singleton] at hlt
      omega
  | modules, .comment _ | modules, .imported _ | modules, .typedef .. | modules, .record .. | modules, .enum ..
  | modules, .interface .. => by simp [scopes]

theorem length_lt_of_mem_allScopes : ∀ (modules : List String) (ds : List Declaration),
    ∀ scope ∈ allScopes modules ds, modules.length < scope.modules.length
  | modules, [] => by simp [allScopes]
  | modules, d :: ds => by
    intro scope hmem
    rw [allScopes] at hmem
    rcases List.mem_append.1 hmem with hmem | hmem
    · exact length_lt_of_mem_scopes modules d scope hmem
    · exact length_lt_of_mem_allScopes modules ds scope hmem

end

theorem allClosing_eq_nil {ds : List Declaration} (h : ∀ d ∈ ds, d.isModule = false) : allClosing modules ds = [] := by
  have hperm := allClosing_perm modules ds
  rw [allScopes_eq_nil h] at hperm
  exact List.perm_nil.1 hperm

theorem allClosing_comments (cs : List Comment) : allClosing modules (cs.map .comment) = [] :=
  allClosing_eq_nil fun d hd => by
    obtain ⟨c, -, rfl⟩ := List.mem_map.1 hd
    rfl

/-- A body ends among those with the same modules around it where it starts: none of them is inside of it. -/
theorem filter_concat_eq {body : List Declaration} (wanted : List String)
    (ih : (allClosing modules body).filter (·.modules = wanted) =
      (allScopes modules body).filter (·.modules = wanted)) :
    (allClosing modules body ++ [Scope.mk modules body]).filter (·.modules = wanted) =
      (Scope.mk modules body :: allScopes modules body).filter (·.modules = wanted) := by
  rw [List.filter_append, ih]
  by_cases hmodules : modules = wanted
  · subst hmodules
    have hnone : (allScopes modules body).filter (·.modules = modules) = [] := by
      refine List.filter_eq_nil_iff.2 fun scope hmem heq => ?_
      have hlt := length_lt_of_mem_allScopes modules body scope hmem
      rw [of_decide_eq_true heq] at hlt
      omega
    simp [hnone]
  · simp [hmodules]

mutual

theorem filter_closing (wanted : List String) : ∀ (modules : List String) (d : Declaration),
    (closing modules d).filter (·.modules = wanted) = (scopes modules d).filter (·.modules = wanted)
  | modules, .module name body => by
    rw [closing, scopes]
    exact filter_concat_eq wanted (filter_allClosing wanted (modules ++ [name]) body)
  | modules, .comment _ | modules, .imported _ | modules, .typedef .. | modules, .record .. | modules, .enum ..
  | modules, .interface .. => by rw [closing, scopes]

/-- The bodies with the same modules around them end in the order in which they start. -/
theorem filter_allClosing (wanted : List String) : ∀ (modules : List String) (ds : List Declaration),
    (allClosing modules ds).filter (·.modules = wanted) = (allScopes modules ds).filter (·.modules = wanted)
  | modules, [] => by rw [allClosing, allScopes]
  | modules, d :: ds => by
    rw [allClosing, allScopes, List.filter_append, List.filter_append, filter_closing wanted modules d,
      filter_allClosing wanted modules ds]

end

theorem fileClosing_perm (ds : List Declaration) : (fileClosing ds).Perm (fileScopes ds) :=
  List.perm_append_comm.trans ((allClosing_perm [] ds).cons _)

theorem filter_fileClosing (wanted : List String) (ds : List Declaration) :
    (fileClosing ds).filter (·.modules = wanted) = (fileScopes ds).filter (·.modules = wanted) :=
  filter_concat_eq wanted (filter_allClosing wanted [] ds)

end Order

end Declaration

/-! ## Outputs -/

theorem Path.Spelled.names {dir : List Component} {modules : List String} (h : Path.Spelled dir)
    (hmodules : ∀ n ∈ modules, IsName n) : Path.Spelled (dir ++ modules.map .name) := by
  induction modules generalizing dir with
  | nil => simpa using h
  | cons name modules ih =>
    obtain ⟨hname, hmodules⟩ := List.forall_mem_cons.1 hmodules
    simpa using ih (h.snoc (c := .name name) hname.plainName) hmodules

namespace Placement

open Idl.Path

/-- The output for what is declared in some modules, where the output around them is `base`. -/
def ofModules (base : Path) (modules : List String) : Path := modules.foldl ofModule base

theorem ofModules_nil (base : Path) : ofModules base [] = base := rfl

theorem ofModules_concat (base : Path) (modules : List String) (name : String) :
    ofModules base (modules ++ [name]) = ofModule (ofModules base modules) name := List.foldl_concat ..

/-- The path of a file with its extension replaced, in a directory for each of some modules. -/
def located (p : Path) (modules : List String) : Path :=
  (modules.foldl (fun dir name => dir.join ⟨name⟩) p.directory).join
    ⟨outputName (splitExtension (p.fileName?.getD "").toList).1⟩

section Modules

variable {dir : List Component} {modules modules' : List String} {p : Path}

/-- Each module adds a directory. -/
theorem ofModules_ofComponents {file : String} (hdir : Spelled dir) (hfile : PlainName file.toList)
    (hmodules : ∀ n ∈ modules, IsName n) :
    ofModules (ofComponents (dir ++ [.name file])) modules =
      ofComponents (dir ++ modules.map .name ++ [.name file]) := by
  induction modules generalizing dir with
  | nil => simp [ofModules]
  | cons name modules ih =>
    obtain ⟨hname, hmodules⟩ := List.forall_mem_cons.1 hmodules
    have hinner := ih (hdir.snoc (c := .name name) hname.plainName) hmodules
    rw [ofModules, List.foldl_cons, ofModule_ofComponents hdir hfile hname]
    simpa [ofModules] using hinner

/-- Where the output is the directory above, the first module gives its name to the outputs, and the others
add a directory each. -/
theorem ofModules_ofComponents_parent {name : String} (hdir : Spelled dir) (hname : IsName name)
    (hmodules : ∀ n ∈ modules, IsName n) :
    ofModules (ofComponents (dir ++ [.parent])) (name :: modules) =
      ofComponents (dir ++ modules.map .name ++ [.name (outputName name.toList)]) := by
  rw [ofModules, List.foldl_cons, ofModule_ofComponents_parent hdir hname]
  exact ofModules_ofComponents hdir (plainName_outputName hname.ne_nil hname.notMem_slash) hmodules

theorem foldl_join (hdir : Spelled dir) (hmodules : ∀ n ∈ modules, IsName n) :
    modules.foldl (fun dir name => dir.join ⟨name⟩) (ofComponents dir) = ofComponents (dir ++ modules.map .name) := by
  induction modules generalizing dir with
  | nil => simp
  | cons name modules ih =>
    obtain ⟨hname, hmodules⟩ := List.forall_mem_cons.1 hmodules
    rw [List.foldl_cons, join_ofComponents hdir hname.plainName,
      ih (hdir.snoc (c := .name name) hname.plainName) hmodules]
    simp

theorem plainName_stem {n : String} (hn : PlainName n.toList) :
    PlainName (outputName (splitExtension n.toList).1).toList :=
  plainName_outputName (ne_nil_of_splitExtension hn.ne_nil) fun hslash =>
    hn.no_slash (subset_of_splitExtension _ hslash)

theorem located_ofComponents {n : String} (hdir : Spelled dir) (hn : PlainName n.toList)
    (hmodules : ∀ n ∈ modules, IsName n) :
    located (ofComponents (dir ++ [.name n])) modules =
      ofComponents (dir ++ modules.map .name ++ [.name (outputName (splitExtension n.toList).1)]) := by
  unfold located
  rw [directory_ofComponents hdir (c := .name n) hn, fileName?_ofComponents hdir hn, foldl_join hdir hmodules]
  exact join_ofComponents (hdir.names hmodules) (plainName_stem hn)

/-- The outputs of a file are where its directory, the modules and its stem say, unless its name is stray. -/
theorem ofModules_eq_located (h : Readable p) (hstray : isStray p = false) (hmodules : ∀ n ∈ modules, IsName n) :
    ofModules (ofSource p) modules = located p modules := by
  obtain ⟨dir, n, hp, hdir, -, hn, hdotted, hsource⟩ := h.ofSource_eq_snoc
  rw [hstray] at hdotted
  rw [hsource, ← hdotted, hp, located_ofComponents hdir hn hmodules]
  exact ofModules_ofComponents hdir (plainName_stem hn) hmodules

/-- Paths that are made of a directory, of modules and of a file name are equal if those are. -/
theorem eq_of_ofComponents {file file' : String} (hdir : Spelled dir) (hmodules : ∀ n ∈ modules, IsName n)
    (hmodules' : ∀ n ∈ modules', IsName n) (hfile : PlainName file.toList) (hfile' : PlainName file'.toList)
    (h : ofComponents (dir ++ modules.map .name ++ [.name file]) =
      ofComponents (dir ++ modules'.map .name ++ [.name file'])) : modules = modules' ∧ file = file' := by
  have hname : Function.Injective (List.map Component.name) := List.map_injective_iff.2 fun _ _ => Component.name.inj
  have hcs := congrArg components h
  rw [components_ofComponents ((hdir.names hmodules).snoc (c := .name file) hfile),
    components_ofComponents ((hdir.names hmodules').snoc (c := .name file') hfile')] at hcs
  obtain ⟨hdirs, hfiles⟩ := List.append_inj' hcs rfl
  exact ⟨hname (List.append_cancel_left hdirs), by simpa using hfiles⟩

/-- The directory above is no path of a file. -/
theorem ofComponents_parent_ne {file : String} (hdir : Spelled dir) (hmodules : ∀ n ∈ modules, IsName n)
    (hfile : PlainName file.toList) :
    ofComponents (dir ++ [.parent]) ≠ ofComponents (dir ++ modules.map .name ++ [.name file]) := by
  intro h
  have hcs := congrArg components h
  rw [components_ofComponents (hdir.snoc (c := .parent) trivial),
    components_ofComponents ((hdir.names hmodules).snoc (c := .name file) hfile)] at hcs
  have hlast := (List.append_inj' hcs rfl).2
  simp at hlast

/-- The output of a file with a stray name is elsewhere. -/
theorem ofSource_ne_located (h : Readable p) (hstray : isStray p = true) : ofSource p ≠ located p [] := by
  obtain ⟨dir, n, hp, hdir, -, hn, hdotted, hsource⟩ := h.ofSource_eq_snoc
  rw [hstray] at hdotted
  rw [hsource, ← hdotted, hp, located_ofComponents hdir hn (by simp)]
  exact ofComponents_parent_ne hdir (by simp) (plainName_stem hn)

/-- Different modules have different outputs. -/
theorem ofModules_inj (h : Readable p) (hmodules : ∀ n ∈ modules, IsName n) (hmodules' : ∀ n ∈ modules', IsName n) :
    ofModules (ofSource p) modules = ofModules (ofSource p) modules' ↔ modules = modules' := by
  refine ⟨fun heq => ?_, fun heq => by rw [heq]⟩
  obtain ⟨dir, n, -, hdir, -, hn, -, hsource⟩ := h.ofSource_eq_snoc
  rw [hsource] at heq
  cases hdotted : isDotted n with
  | false =>
    rw [hdotted, if_neg (by simp), ofModules_ofComponents hdir (plainName_stem hn) hmodules,
      ofModules_ofComponents hdir (plainName_stem hn) hmodules'] at heq
    exact (eq_of_ofComponents hdir hmodules hmodules' (plainName_stem hn) (plainName_stem hn) heq).1
  | true =>
    rw [hdotted, if_pos rfl] at heq
    have hplain {name : String} (hname : IsName name) : PlainName (outputName name.toList).toList :=
      plainName_outputName hname.ne_nil hname.notMem_slash
    cases modules with
    | nil =>
      cases modules' with
      | nil => rfl
      | cons name' modules' =>
        obtain ⟨hname', hmodules'⟩ := List.forall_mem_cons.1 hmodules'
        rw [ofModules_ofComponents_parent hdir hname' hmodules'] at heq
        exact absurd heq (ofComponents_parent_ne hdir hmodules' (hplain hname'))
    | cons name modules =>
      obtain ⟨hname, hmodules⟩ := List.forall_mem_cons.1 hmodules
      rw [ofModules_ofComponents_parent hdir hname hmodules] at heq
      cases modules' with
      | nil => exact absurd heq.symm (ofComponents_parent_ne hdir hmodules (hplain hname))
      | cons name' modules' =>
        obtain ⟨hname', hmodules'⟩ := List.forall_mem_cons.1 hmodules'
        rw [ofModules_ofComponents_parent hdir hname' hmodules'] at heq
        obtain ⟨rfl, hfile⟩ := eq_of_ofComponents hdir hmodules hmodules' (hplain hname) (hplain hname') heq
        obtain rfl : name = name' := by simpa [outputName] using hfile
        rfl

end Modules

end Placement

/-! ## Compiling -/

/-- A body of a file is declared as a body in the same modules, with what it declares in the same order. -/
structure SameScope (a : Scope Item) (b : Scope Declaration) : Prop where
  modules : a.modules = b.modules
  headings : Item.allHeadings a.body = b.body.filterMap Declaration.heading?

/-- A body with the output that it goes to. -/
def Scope.emission (base : Path) (scope : Scope Declaration) : Emission :=
  ⟨Placement.ofModules base scope.modules, scope.body⟩

theorem Scope.emission_nil (base : Path) (body : List Declaration) : emission base ⟨[], body⟩ = ⟨base, body⟩ := rfl

namespace Compilation

section Compiling

variable {sources : Sources} {path target base : Path} {item : Item} {items : List Item}
  {ds : List Declaration} {events : List Event} {s s' : Compilation} {modules : List String}

theorem headings_comments (cs : List Comment) :
    (cs.map Declaration.comment).filterMap Declaration.heading? = [] := by
  induction cs with
  | nil => rfl
  | cons c cs ih => exact ih

theorem headings_imported (imports : List Import) :
    (imports.map Declaration.imported).filterMap Declaration.heading? = [] := by
  induction imports with
  | nil => rfl
  | cons i imports ih => exact ih

/-- What declares a name is no module. -/
theorem Declares.isModule_eq_false (h : Declares path target s item ds s') : ∀ d ∈ ds, d.isModule = false := by
  intro d hd
  cases h with
  | typedef resolves registers | record registers declared | enum registers | interface registers declared =>
    simp only [List.mem_append, List.mem_map, List.mem_singleton] at hd
    grind [Declaration.isModule]

theorem Declares.headings_eq (h : Declares path target s item ds s') :
    ds.filterMap Declaration.heading? = item.headings := by
  cases h with
  | typedef resolves registers | record registers declared | enum registers | interface registers declared =>
    simp only [List.filterMap_append, headings_comments, headings_imported, Item.headings]
    rfl

/-- The bodies of a file without includes are declared one by one. -/
theorem Traced.sameScopes (h : Traced sources path target items s events s')
    (hincludes : Item.allIncludes items = []) (kept : Event.keepsAll events = true) :
    Item.allHeadings items = (Event.declarations events).filterMap Declaration.heading? ∧
      List.Forall₂ SameScope (Item.allScopes modules items)
        (Declaration.allScopes modules (Event.declarations events)) := by
  induction h generalizing modules with
  | nil =>
    rw [Event.declarations, Item.allScopes, Declaration.allScopes, Item.allHeadings]
    exact ⟨rfl, .nil⟩
  | comment rest ih =>
    rw [Item.allIncludes_cons, List.append_eq_nil_iff] at hincludes
    obtain ⟨hheadings, hscopes⟩ := ih hincludes.2 (by simpa [Event.keepsAll] using kept)
    rw [Event.declarations, Item.allScopes, Declaration.allScopes, Item.allHeadings, Item.headings, Item.scopes,
      Declaration.scopes]
    exact ⟨hheadings, hscopes⟩
  | define new quiet rest ih =>
    rw [Item.allIncludes_cons, List.append_eq_nil_iff] at hincludes
    obtain ⟨hheadings, hscopes⟩ := ih hincludes.2 (by simpa [Event.keepsAll] using kept)
    rw [Event.declarations, Item.allScopes, Item.allHeadings, Item.headings, Item.scopes]
    exact ⟨hheadings, hscopes⟩
  | skip named old quiet rest ih => simp [Item.includes] at hincludes
  | file named fresh opens within closes rest _ ih => simp [Item.includes] at hincludes
  | guarded quiet within rest ihbody ih =>
    rw [Item.allIncludes_cons, Item.includes, List.append_eq_nil_iff] at hincludes
    simp only [Event.keepsAll, Event.keepsAllIn, Event.keepsIn, Bool.and_eq_true, Bool.not_eq_true'] at kept
    obtain ⟨⟨hundefined, hbody⟩, hrest⟩ := kept
    obtain ⟨hheadings, hscopes⟩ := ihbody hincludes.1 hbody
    obtain ⟨hheadings', hscopes'⟩ := ih hincludes.2 hrest
    rw [Event.declarations, hundefined, Item.allScopes, Item.allHeadings, Item.headings, Item.scopes, hheadings,
      hheadings']
    exact ⟨by simp, by simpa using List.rel_append hscopes hscopes'⟩
  | module quiet within emits rest ihbody ih =>
    rw [Item.allIncludes_cons, Item.includes, List.append_eq_nil_iff] at hincludes
    simp only [Event.keepsAll, Event.keepsAllIn, Event.keepsIn, Bool.and_eq_true] at kept
    obtain ⟨hheadings, hscopes⟩ := ihbody hincludes.1 kept.1
    obtain ⟨hheadings', hscopes'⟩ := ih hincludes.2 kept.2
    rw [Event.declarations, Item.allScopes, Item.scopes, Item.allHeadings, Item.headings, hheadings',
      Declaration.allScopes_append, Declaration.allScopes_append, Declaration.allScopes_comments,
      Declaration.allScopes_module, List.filterMap_append, List.filterMap_append, headings_comments]
    exact ⟨rfl, List.rel_append (.cons ⟨rfl, hheadings⟩ hscopes) hscopes'⟩
  | declared at_path names gives rest ih =>
    rw [Item.allIncludes_cons, List.append_eq_nil_iff] at hincludes
    obtain ⟨hheadings, hscopes⟩ := ih hincludes.2 (by simpa [Event.keepsAll] using kept)
    have hdeclares := declares_of_gives names gives
    rw [Event.declarations, Item.allHeadings, hheadings, List.filterMap_append, hdeclares.headings_eq, Item.allScopes,
      Item.scopes_of_declares names, Declaration.allScopes_append,
      Declaration.allScopes_eq_nil hdeclares.isModule_eq_false]
    exact ⟨rfl, hscopes⟩

/-- What a file without includes emits are its bodies, in the order in which they end. -/
theorem Traced.emissions_eq_closing (h : Traced sources path target items s events s')
    (hincludes : Item.allIncludes items = []) (kept : Event.keepsAll events = true)
    (htarget : target = Placement.ofModules base modules) :
    Event.emissions events =
      (Declaration.allClosing modules (Event.declarations events)).map (Scope.emission base) := by
  induction h generalizing modules with
  | nil => rw [Event.emissions, Event.declarations, Declaration.allClosing, List.map_nil]
  | comment rest ih =>
    rw [Item.allIncludes_cons, List.append_eq_nil_iff] at hincludes
    rw [Event.emissions, Event.declarations, Declaration.allClosing, Declaration.closing]
    exact ih hincludes.2 (by simpa [Event.keepsAll] using kept) htarget
  | define new quiet rest ih =>
    rw [Item.allIncludes_cons, List.append_eq_nil_iff] at hincludes
    rw [Event.emissions, Event.declarations]
    exact ih hincludes.2 (by simpa [Event.keepsAll] using kept) htarget
  | skip named old quiet rest ih => simp [Item.includes] at hincludes
  | file named fresh opens within closes rest _ ih => simp [Item.includes] at hincludes
  | guarded quiet within rest ihbody ih =>
    rw [Item.allIncludes_cons, Item.includes, List.append_eq_nil_iff] at hincludes
    simp only [Event.keepsAll, Event.keepsAllIn, Event.keepsIn, Bool.and_eq_true, Bool.not_eq_true'] at kept
    obtain ⟨⟨hundefined, hbody⟩, hrest⟩ := kept
    rw [Event.emissions, Event.declarations, hundefined, Declaration.allClosing_append, List.map_append,
      ihbody hincludes.1 hbody htarget, ih hincludes.2 hrest htarget]
    rfl
  | module quiet within emits rest ihbody ih =>
    rw [Item.allIncludes_cons, Item.includes, List.append_eq_nil_iff] at hincludes
    simp only [Event.keepsAll, Event.keepsAllIn, Event.keepsIn, Bool.and_eq_true] at kept
    subst htarget
    have hinner (name : String) := (Placement.ofModules_concat base modules name).symm
    rw [Event.emissions, Event.declarations, ihbody hincludes.1 kept.1 (hinner _), ih hincludes.2 kept.2 rfl, hinner]
    simp [Declaration.allClosing_comments, Declaration.allClosing, Declaration.closing, Scope.emission]
  | declared at_path names gives rest ih =>
    rw [Item.allIncludes_cons, List.append_eq_nil_iff] at hincludes
    have hdeclares := declares_of_gives names gives
    rw [Event.emissions, Event.declarations, Declaration.allClosing_append,
      Declaration.allClosing_eq_nil hdeclares.isModule_eq_false]
    exact ih hincludes.2 (by simpa [Event.keepsAll] using kept) htarget

theorem modules_eq_of_sameScopes {as : List (Scope Item)} {bs : List (Scope Declaration)}
    (h : List.Forall₂ SameScope as bs) : as.map (·.modules) = bs.map (·.modules) := by
  induction h with
  | nil => rfl
  | cons hsame _ ih => rw [List.map_cons, List.map_cons, hsame.modules, ih]

/-- What is emitted in the bodies of a file goes to the outputs of their modules. -/
theorem emitted_perm_scopes (base : Path) (ds : List Declaration) :
    (emitted ((Declaration.fileClosing ds).map (Scope.emission base))).Perm
      ((Declaration.fileScopes ds).flatMap fun scope =>
        (scope.body.filter (!·.isModule)).map (Placement.ofModules base scope.modules, ·)) := by
  rw [emitted, List.flatMap_map]
  exact (Declaration.fileClosing_perm ds).flatMap_right _

/-- The outputs of the bodies of a file, if different modules have different outputs. -/
theorem mem_outputs_iff (hinj : ∀ a ∈ Declaration.fileScopes ds, ∀ b ∈ Declaration.fileScopes ds,
      Placement.ofModules base a.modules = Placement.ofModules base b.modules ↔ a.modules = b.modules)
    (spelled : ∀ e ∈ (Declaration.fileClosing ds).map (Scope.emission base),
      e.target = .ofComponents e.target.components) {o : Output} :
    o ∈ Output.ofEmissions ((Declaration.fileClosing ds).map (Scope.emission base)) ↔
      ∃ b ∈ Declaration.fileScopes ds, o = ⟨Placement.ofModules base b.modules,
        Output.contentsOf (((Declaration.fileScopes ds).filter (·.modules = b.modules)).map (·.body))⟩ := by
  have hmem {scope : Scope Declaration} : scope ∈ Declaration.fileClosing ds ↔ scope ∈ Declaration.fileScopes ds :=
    (Declaration.fileClosing_perm ds).mem_iff
  have hbodies {b : Scope Declaration} (hb : b ∈ Declaration.fileScopes ds) :
      (((Declaration.fileClosing ds).map (Scope.emission base)).filter (·.target = (b.emission base).target)).map
        (·.body) = ((Declaration.fileScopes ds).filter (·.modules = b.modules)).map (·.body) := by
    rw [← Declaration.filter_fileClosing, List.filter_map, List.map_map]
    congr 1
    refine List.filter_congr fun a ha => ?_
    exact decide_eq_decide.2 (hinj a (hmem.1 ha) b hb)
  rw [Output.mem_ofEmissions_iff spelled]
  constructor
  · rintro ⟨e, he, rfl⟩
    obtain ⟨b, hb, rfl⟩ := List.mem_map.1 he
    exact ⟨b, hmem.1 hb, by rw [hbodies (hmem.1 hb)]; rfl⟩
  · rintro ⟨b, hb, rfl⟩
    exact ⟨b.emission base, List.mem_map_of_mem (hmem.2 hb), by rw [hbodies hb]; rfl⟩

/-- The modules of a file have the names that its items give them. -/
theorem isName_of_sameScopes {source : SourceText} {tokens : List Token} {bs : List (Scope Declaration)}
    (h : List.Forall₂ SameScope (Item.fileScopes (Item.ofTokens source tokens)) bs) :
    ∀ b ∈ bs, ∀ n ∈ b.modules, IsName n := by
  have hitems : ∀ item ∈ Item.ofTokens source tokens, item.Sound fun _ => True :=
    Item.sound_ofTokens (fun _ => id) (fun _ _ _ => trivial)
  have hfile : ∀ a ∈ Item.fileScopes (Item.ofTokens source tokens), ∀ n ∈ a.modules, IsName n :=
    List.forall_mem_cons.2 ⟨by simp, Item.isName_of_mem_allScopes (by simp) hitems⟩
  intro b hb
  have hmem : b.modules ∈ (Item.fileScopes (Item.ofTokens source tokens)).map (·.modules) :=
    modules_eq_of_sameScopes h ▸ List.mem_map_of_mem hb
  obtain ⟨a, ha, hmodules⟩ := List.mem_map.1 hmem
  exact hmodules ▸ hfile a ha

/-- What is emitted by a file without includes, from its start to its end. -/
theorem emissions_eq_fileClosing {s₁ s₂ : Compilation} (opened : s₁.emissions = [])
    (traced : Traced sources path (Placement.ofSource path) items s₁ events s₂) (closes : Closes path events s₂ s)
    (hincludes : Item.allIncludes items = []) (kept : Event.keepsAll events = true) :
    s.emissions = (Declaration.fileClosing (Event.declarations events)).map
      (Scope.emission (Placement.ofSource path)) := by
  have hclosing : Event.emissions events = (Declaration.allClosing [] (Event.declarations events)).map
      (Scope.emission (Placement.ofSource path)) :=
    traced.emissions_eq_closing hincludes kept (Placement.ofModules_nil _).symm
  rw [closes.emissions_eq, traced.emissions_eq, opened, hclosing, Declaration.fileClosing, List.map_append,
    List.map_singleton, Scope.emission_nil, List.nil_append]

/-- The bodies of a file are placed by its directory and its stem just if its name is not stray. -/
theorem places_located_iff (readable : Placement.Readable path)
    (hnames : ∀ b ∈ Declaration.fileScopes ds, ∀ n ∈ b.modules, IsName n) :
    (∀ b ∈ Declaration.fileScopes ds, Placement.ofModules (Placement.ofSource path) b.modules =
      Placement.located path b.modules) ↔ Placement.isStray path = false := by
  constructor
  · intro hplaces
    have htop : Placement.ofModules (Placement.ofSource path) [] = Placement.located path [] :=
      hplaces ⟨[], ds⟩ List.mem_cons_self
    rw [Placement.ofModules_nil] at htop
    rw [Bool.eq_false_iff]
    intro hstray
    exact Placement.ofSource_ne_located readable hstray htop
  · intro hstray b hb
    exact Placement.ofModules_eq_located readable hstray (hnames b hb)

/-- A file without includes, none of whose guarded blocks is dropped, is split by its modules. Its bodies are
declared one by one in the order of the text. There is one output for each list of modules around a body, and it
holds the bodies in those modules in this order. What is declared in a body goes to the output of its modules
once. That output is in the directory of the file, in one more directory for each module, and has the stem of the
file, unless the name of the file is two dots and an extension without dots. -/
theorem splits_by_modules {text : String} {tokens : List Token} (run : Gives (compileFile sources path) .empty ds s)
    (read : sources.texts.lookup path.normalize = some text)
    (lexed : Token.ofSource Compilation.empty.library.nextId text = .ok tokens) (noInclude : Item.NoInclude tokens)
    (kept : Event.keepsAll (history sources path) = true) :
    let items := Item.ofTokens (.ofFile Compilation.empty.library.nextId text) tokens
    let scopes := Declaration.fileScopes ds
    let place := Placement.ofModules (Placement.ofSource path.normalize)
    List.Forall₂ SameScope (Item.fileScopes items) scopes ∧
    (s.finish.1.map (·.path)).Nodup ∧
    (∀ o, o ∈ s.finish.1 ↔ ∃ b ∈ scopes, o = ⟨place b.modules,
      Output.contentsOf ((scopes.filter (·.modules = b.modules)).map (·.body))⟩) ∧
    (∀ a ∈ scopes, ∀ b ∈ scopes, place a.modules = place b.modules ↔ a.modules = b.modules) ∧
    (emitted s.emissions).Perm
      (scopes.flatMap fun b => (b.body.filter (!·.isModule)).map (place b.modules, ·)) ∧
    ((∀ b ∈ scopes, place b.modules = Placement.located path.normalize b.modules) ↔
      Placement.isStray path.normalize = false) := by
  intro items scopes place
  obtain ⟨hds, items', s₁, s₂, opens, traced, closes⟩ := fileTraced_of_compileFile run
  generalize history sources path = events at hds traced closes kept
  subst hds
  have hopened : s₁.emissions = [] := opens.emissions_eq
  obtain @⟨text', tokens', _, -, apart, read', lexed', -⟩ := opens
  obtain rfl : text' = text := Option.some.inj (read'.symm.trans read)
  obtain rfl : tokens' = tokens := Except.ok.inj (lexed'.symm.trans lexed)
  have readable : Placement.Readable path.normalize := ⟨Path.normalize_normalize path, apart⟩
  have hincludes : Item.allIncludes items = [] := Item.allIncludes_ofTokens _ noInclude
  have hsame : List.Forall₂ SameScope (Item.fileScopes items) scopes := by
    obtain ⟨hheadings, hscopes⟩ := traced.sameScopes hincludes kept
    exact .cons ⟨rfl, hheadings⟩ hscopes
  have hnames : ∀ b ∈ scopes, ∀ n ∈ b.modules, IsName n := isName_of_sameScopes hsame
  have hemissions := emissions_eq_fileClosing hopened traced closes hincludes kept
  have hinj : ∀ a ∈ scopes, ∀ b ∈ scopes, place a.modules = place b.modules ↔ a.modules = b.modules :=
    fun a ha b hb => Placement.ofModules_inj readable (hnames a ha) (hnames b hb)
  refine ⟨hsame, ?_, fun o => ?_, hinj, ?_, places_located_iff readable hnames⟩
  · rw [finish]
    exact Output.nodup_paths s.emissions
  · have spelled := targets_spelled run
    rw [hemissions] at spelled
    rw [finish, hemissions]
    exact mem_outputs_iff hinj spelled
  · rw [hemissions]
    exact emitted_perm_scopes _ _

/-- Modules in modules, modules of one name in different ones, and a module that is opened twice. -/
def reopenedText : String :=
  "module A\x7bmodule B\x7b\x7d;typedef long S;\x7d;module B\x7b\x7d;\n#ifndef G\nmodule A\x7btypedef S T;\x7d;\n#endif"

def reopenedSources : Sources where
  texts := [(⟨"d/m.idl"⟩, reopenedText)]
  failure _ := ""

theorem splits_by_modules_reopened : ∃ ds s, Gives (compileFile reopenedSources ⟨"d/m.idl"⟩) .empty ds s ∧
    (Declaration.fileScopes ds).map (fun b => (b.modules, b.body.filterMap (·.name?))) =
      [([], ["A", "B", "A"]), (["A"], ["B", "S"]), (["A", "B"], []), (["B"], []), (["A"], ["T"])] ∧
    ∀ o, o ∈ s.finish.1 ↔ ∃ b ∈ Declaration.fileScopes ds, o =
      ⟨Placement.ofModules (Placement.ofSource (⟨"d/m.idl"⟩ : Path).normalize) b.modules,
        Output.contentsOf (((Declaration.fileScopes ds).filter (·.modules = b.modules)).map (·.body))⟩ := by
  obtain ⟨ds, run⟩ : ∃ ds, Gives (compileFile reopenedSources ⟨"d/m.idl"⟩) .empty ds
      (outcome (compileFile reopenedSources ⟨"d/m.idl"⟩) .empty).2 := exists_gives (by decide +kernel)
  have hscopes : (outcome (compileFile reopenedSources ⟨"d/m.idl"⟩) .empty).1.toOption.map (fun ds =>
      (Declaration.fileScopes ds).map fun b => (b.modules, b.body.filterMap (·.name?))) =
        some [([], ["A", "B", "A"]), (["A"], ["B", "S"]), (["A", "B"], []), (["B"], []), (["A"], ["T"])] := by
    decide +kernel
  rw [run] at hscopes
  let tokens := (Token.ofSource 1 reopenedText).toOption.getD []
  obtain ⟨lexed, noInclude⟩ : (Token.ofSource 1 reopenedText).toOption = some tokens ∧
      ∀ token ∈ tokens, token.kind ≠ .directive .include := by decide +kernel
  exact ⟨ds, _, run, Option.some.inj hscopes,
    (splits_by_modules run (by decide +kernel) (Token.toOption_eq_some.1 lexed) noInclude (by decide +kernel)).2.2.1⟩

/-- A file whose name is two dots and an extension. -/
def dottedSources : Sources where
  texts := [(⟨"..idl"⟩, "typedef long X;\n")]
  failure _ := ""

/-- What the file declares is not written to the path with the stem of the file, but to the directory above. -/
theorem dotted_file_is_misplaced :
    (outcome (compileFile dottedSources ⟨"..idl"⟩) .empty).1.isOk = true ∧
      Placement.located ⟨"..idl"⟩ [] = ⟨"..ts"⟩ ∧
      (outcome (compileFile dottedSources ⟨"..idl"⟩) .empty).2.finish.1 =
        [⟨⟨".."⟩, some "export type X = number;\n"⟩] := by
  decide +kernel

end Compiling

end Compilation

end Idl
