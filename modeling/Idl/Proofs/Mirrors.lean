import Idl.Proofs.Endings
import Idl.Proofs.Shifts
import Idl.Proofs.Targets
import Idl.Proofs.Trace

/-!
# Runs beside other runs, at other paths

A run can be carried over to another place: to files with other paths and other numbers, and into a
state in which unrelated files were compiled before.

* `Relocation`: a change of paths that the placement of outputs, the includes and the import specifiers go along
  with.
* `Mirrors ρ F s s'`: the state `s'` holds what `s` holds, relocated by `ρ`, next to what `F` holds.
* `Attains m s a P`: the step `m` succeeds in `s` with `a` and leaves a state with the property `P`.
* `Carries ρ F m m'`: if `m` succeeds in a state, then `m'` succeeds in each one that mirrors it, and the states after
  them mirror each other again. A declaration is carried over if its name is not in `F` (`carries_declare`).
-/

namespace Idl

open Placement

theorem lookup_eq_none_iff_notMem {α : Type} {entries : List (String × α)} {name : String} :
    entries.lookup name = none ↔ name ∉ entries.map Prod.fst := by
  rw [List.lookup_eq_none_iff, List.mem_map]
  constructor
  · rintro h ⟨entry, hentry, rfl⟩
    simpa using h entry hentry
  · intro h entry hentry
    exact bne_iff_ne.2 fun heq => h ⟨entry, hentry, heq.symm⟩

/-- The name that an item declares. -/
def Item.name? : Item → Option String
  | .typedef _ typed _ => some typed.name.text
  | .record _ _ name _ | .enum _ name _ | .interface _ name _ => some name.text
  | _ => none

/-! ## Relocations -/

/-- A change of the paths of files and outputs. What a file includes, where its outputs are and how they refer to
each other has to follow from the old paths. -/
structure Relocation where
  path : Path → Path
  /-- The paths of files that can be relocated. -/
  IsFile : Path → Prop
  /-- The paths of outputs that can be relocated. -/
  IsTarget : Path → Prop
  /-- The texts of includes that lead to a relocated file from a relocated file. -/
  Leads : String → Prop
  injective : ∀ {p q}, IsFile p → IsFile q → path p = path q → p = q
  included : ∀ {p written}, IsFile p → Leads written → IsFile (Compilation.included p written) →
    Compilation.included (path p) written = path (Compilation.included p written)
  target_ofSource : ∀ {p}, IsFile p → IsTarget (ofSource p)
  ofSource_path : ∀ {p}, IsFile p → ofSource (path p) = path (ofSource p)
  apart : ∀ {p}, IsFile p → (path (ofSource p)).same (path p) = (ofSource p).same p
  target_ofModule : ∀ {t name}, IsTarget t → IsName name → IsTarget (ofModule t name)
  ofModule_path : ∀ {t name}, IsTarget t → IsName name → ofModule (path t) name = path (ofModule t name)
  same_path : ∀ {t u}, IsTarget t → IsTarget u → (path t).same (path u) = t.same u
  specifier_path : ∀ {t u}, IsTarget t → IsTarget u → importSpecifier (path t) (path u) = importSpecifier t u

/-- Everything stays where it is. -/
def Relocation.identity : Relocation where
  path := id
  IsFile _ := True
  IsTarget _ := True
  Leads _ := True
  injective _ _ h := h
  included _ _ _ := rfl
  target_ofSource _ := trivial
  ofSource_path _ := rfl
  apart _ := rfl
  target_ofModule _ _ := trivial
  ofModule_path _ _ := rfl
  same_path _ _ := rfl
  specifier_path _ _ := rfl

def Relocation.emission (ρ : Relocation) (e : Emission) : Emission := ⟨ρ.path e.target, e.body⟩

@[simp]
theorem Relocation.path_identity : identity.path = id := rfl

@[simp]
theorem Relocation.emission_identity : identity.emission = id := rfl

/-! ## Names among type texts -/

namespace Text

/-- The codes of white space. -/
def blankCodes : List Nat :=
  [0x09, 0x0A, 0x0B, 0x0C, 0x0D, 0x20, 0x85, 0xA0, 0x1680, 0x2000, 0x2001, 0x2002, 0x2003, 0x2004, 0x2005, 0x2006,
    0x2007, 0x2008, 0x2009, 0x200A, 0x2028, 0x2029, 0x202F, 0x205F, 0x3000]

/-- White space is in no name. -/
theorem isBlank_of_continuesName {c : Char} (h : continuesName c = true) : isBlank c = false := by
  have hcodes : ∀ n ∈ blankCodes, continuesName (Char.ofNat n) = false := by decide +kernel
  rw [Bool.eq_false_iff]
  intro hblank
  have hmem : c.toNat ∈ blankCodes := by
    simp only [isBlank, Bool.or_eq_true, Bool.and_eq_true, decide_eq_true_eq, beq_iff_eq] at hblank
    simp only [blankCodes, List.mem_cons, List.not_mem_nil, or_false]
    omega
  have hnot := hcodes _ hmem
  rw [Char.ofNat_toNat, h] at hnot
  cases hnot

theorem wordsFrom_of_not_blank {word cs : List Char} (h : ∀ c ∈ cs, isBlank c = false) (hne : word ≠ [] ∨ cs ≠ []) :
    wordsFrom word cs = [word.reverse ++ cs] := by
  induction cs generalizing word with
  | nil =>
    have hword : word ≠ [] := hne.resolve_right (by simp)
    rw [wordsFrom, if_neg hword, List.append_nil]
  | cons c cs ih =>
    obtain ⟨hc, hcs⟩ := List.forall_mem_cons.1 h
    rw [wordsFrom, if_neg (by simp [hc]), ih hcs (.inl (by simp))]
    simp

end Text

namespace TypeText

/-- Nothing is contracted in a text without the second character of the pair. -/
theorem contract_of_notMem {x y z : Char} {cs : List Char} (h : x ∉ cs ∨ y ∉ cs) : contract x y z cs = cs := by
  fun_induction contract x y z cs with
  | case1 a b cs hpair ih =>
    obtain ⟨rfl, rfl⟩ := hpair
    simp at h
  | case2 a b cs hpair ih => rw [ih (h.imp (fun hx hmem => hx (by simp [hmem])) fun hy hmem => hy (by simp [hmem]))]
  | case3 cs => rfl

/-- A name is its own normal form. -/
theorem normalChars_of_isName {n : String} (h : IsName n) : normalChars n.toList = n.toList := by
  have hblank : ∀ c ∈ n.toList, Text.isBlank c = false := by
    intro c hc
    refine Text.isBlank_of_continuesName ?_
    rw [← Bool.not_eq_false]
    exact fun hnot => h.notMem hnot hc
  have hlow : '<' ∉ n.toList := h.notMem (by decide)
  have hhigh : '>' ∉ n.toList := h.notMem (by decide)
  have hwords : joinWords (Text.words n.toList) = n.toList := by
    rw [Text.words, Text.wordsFrom_of_not_blank hblank (.inr h.ne_nil)]
    rfl
  rw [normalChars, hwords, contract_of_notMem (.inr hlow), contract_of_notMem (.inl hlow),
    contract_of_notMem (.inr hhigh), contract_of_notMem (.inl hhigh)]

/-- An argument stands behind an angle bracket. -/
theorem bracket_of_argument? {constructor : String} {type element : List Char}
    (h : argument? constructor type = some element) : '<' ∈ type := by
  simp only [argument?] at h
  split at h
  · rename_i hcond
    obtain ⟨rest, hrest⟩ := List.isPrefixOf_iff_prefix.1 hcond.1
    rw [← hrest]
    simp
  · cases h

theorem argument?_of_isName {n : String} (h : IsName n) (constructor : String) :
    argument? constructor n.toList = none := by
  cases harg : argument? constructor n.toList with
  | none => rfl
  | some element => exact absurd (bracket_of_argument? harg) (h.notMem (by decide))

end TypeText

namespace SymbolTable

theorem builtin?_of_notMem {name : String} (h : name ∉ builtins) : builtin? name = none := by
  unfold builtin?
  split
  all_goals first | rfl | exact absurd (by simp [builtins]) h

/-- A type text that is a name, apart from blanks, stands for nothing if it is neither declared nor built in. -/
theorem resolveChars_ne_ok {t : SymbolTable} {range : FileRange} {target : Path} {type : List Char}
    {r : ScriptType × List Import} (hfind : t.find? (String.ofList type) = none)
    (hnormal : t.find? (String.ofList (TypeText.normalChars type)) = none)
    (hname : IsName (String.ofList (TypeText.normalChars type)))
    (hbuiltin : String.ofList (TypeText.normalChars type) ∉ builtins) : t.resolveChars range target type ≠ .ok r := by
  have hargument (constructor : String) : TypeText.argument? constructor (TypeText.normalChars type) = none := by
    rw [← String.toList_ofList (l := TypeText.normalChars type)]
    exact TypeText.argument?_of_isName hname constructor
  fun_cases resolveChars t range target type with
  | case1 symbol hsome => simp [hfind] at hsome
  | case2 _ normal symbol hsome => simp [normal, hnormal] at hsome
  | case3 _ normal _ hstring => simp [normal, hargument] at hstring
  | case4 _ normal _ _ hoctets =>
    refine absurd ?_ (hname.notMem (c := '<') (by decide))
    have heq : TypeText.normalChars type = "sequence<octet>".toList := hoctets
    rw [heq]
    decide
  | case5 _ normal _ _ _ element harg => simp [normal, hargument] at harg
  | case6 _ normal _ _ _ element harg => simp [normal, hargument] at harg
  | case7 _ normal _ _ _ _ found hfound => simp [normal, builtin?_of_notMem hbuiltin] at hfound
  | case8 => simp

/-! ## Mirrored tables -/

/-- The declared names. -/
def names (t : SymbolTable) : List String := t.entries.map Prod.fst

theorem find?_eq_none_iff {t : SymbolTable} {name : String} : t.find? name = none ↔ name ∉ t.names :=
  lookup_eq_none_iff_notMem

/-- A name is registered if it can be declared and is not declared yet. -/
theorem register_eq_ok_iff {t t' : SymbolTable} {name : String} {symbol : Symbol} :
    t.register name symbol = .ok t' ↔
      (name ∉ builtins ∧ name ∉ reserved) ∧ name ∉ t.names ∧ t' = ⟨(name, symbol) :: t.entries⟩ := by
  rw [← find?_eq_none_iff, register]
  split
  · rename_i hreserved
    have hno : ¬(name ∉ builtins ∧ name ∉ reserved) := fun h => hreserved.elim h.1 h.2
    simp [hno]
  · rename_i hfree
    rw [not_or] at hfree
    cases t.find? name with
    | some previous => simp
    | none => simp [hfree, eq_comm]

/-- What a table says of each name, without places, and with the outputs at other paths. -/
def outline (f : Path → Path) (t : SymbolTable) : List (String × Symbol.Kind × Path) :=
  t.entries.map fun entry => (entry.1, entry.2.kind, f entry.2.target)

theorem lookup_outline (f : Path → Path) (t : SymbolTable) (name : String) :
    (t.outline f).lookup name = (t.find? name).map fun symbol => (symbol.kind, f symbol.target) := by
  unfold outline find?
  induction t.entries with
  | nil => rfl
  | cons entry entries ih =>
    rw [List.map_cons, List.lookup_cons, List.lookup_cons, ih]
    cases name == entry.1 <;> rfl

/-- A table that holds what another one holds, at other paths, in front of what a third one holds. The names in it
can be declared. -/
structure Mirrors (ρ : Relocation) (F t t' : SymbolTable) : Prop where
  outline_eq : t'.outline id = t.outline ρ.path ++ F.outline id
  targets : ∀ entry ∈ t.entries, ρ.IsTarget entry.2.target
  names : ∀ entry ∈ t'.entries, IsName entry.1
  declarable : ∀ entry ∈ t'.entries, entry.1 ∉ builtins

section Mirrors

variable {ρ : Relocation} {F t t' : SymbolTable} {name : String} {symbol : Symbol} {target : Path}
  {range range' : FileRange}

theorem Mirrors.lookup_eq (h : Mirrors ρ F t t') (name : String) :
    (t'.find? name).map (fun symbol => (symbol.kind, symbol.target)) =
      ((t.find? name).map fun symbol => (symbol.kind, ρ.path symbol.target)).or
        ((F.find? name).map fun symbol => (symbol.kind, symbol.target)) := by
  have hlookup := congrArg (List.lookup name) h.outline_eq
  rw [List.lookup_append, lookup_outline, lookup_outline, lookup_outline] at hlookup
  exact hlookup

/-- What is declared is declared alike. -/
theorem Mirrors.find?_eq_some (h : Mirrors ρ F t t') (hname : t.find? name = some symbol) :
    ∃ symbol', t'.find? name = some symbol' ∧ symbol'.kind = symbol.kind ∧ symbol'.target = ρ.path symbol.target := by
  have heq := h.lookup_eq name
  rw [hname] at heq
  obtain ⟨symbol', hsymbol', hpair⟩ := Option.map_eq_some_iff.1 heq
  exact ⟨symbol', hsymbol', (Prod.mk.inj hpair).1, (Prod.mk.inj hpair).2⟩

theorem Mirrors.find?_eq_none (h : Mirrors ρ F t t') (hname : t.find? name = none) (hF : F.find? name = none) :
    t'.find? name = none := by
  have heq := h.lookup_eq name
  rw [hname, hF] at heq
  exact Option.map_eq_none_iff.1 heq

/-- What the third table declares can be declared. -/
theorem Mirrors.declarable_of_find? (h : Mirrors ρ F t t') (hF : F.find? name ≠ none) :
    IsName name ∧ name ∉ builtins := by
  have heq := h.lookup_eq name
  have hsome : t'.find? name ≠ none := by
    intro hnone
    rw [hnone] at heq
    have hor := Option.or_eq_none_iff.1 heq.symm
    exact hF (Option.map_eq_none_iff.1 hor.2)
  obtain ⟨symbol', hsymbol'⟩ := Option.ne_none_iff_exists'.1 hsome
  obtain ⟨before, after, hentries, -⟩ := List.lookup_eq_some_iff.1 hsymbol'
  have hmem : (name, symbol') ∈ t'.entries := by simp [hentries]
  exact ⟨h.names _ hmem, h.declarable _ hmem⟩

theorem Mirrors.use_eq {symbol' : Symbol} (h : Mirrors ρ F t t') (htarget : ρ.IsTarget target)
    (hname : t.find? name = some symbol) (hsymbol' : symbol'.target = ρ.path symbol.target) :
    use name symbol' (ρ.path target) = use name symbol target := by
  obtain ⟨before, after, hentries, -⟩ := List.lookup_eq_some_iff.1 hname
  have hdeclared : ρ.IsTarget symbol.target := h.targets (name, symbol) (by simp [hentries])
  rw [use, use, hsymbol', ρ.same_path hdeclared htarget, ρ.specifier_path htarget hdeclared]

/-- A type text that stands for something is not a name of the third table only. -/
theorem Mirrors.find?_of_resolveChars (h : Mirrors ρ F t t') {type : List Char} {r : ScriptType × List Import}
    (hresolve : t.resolveChars range target type = .ok r) (hfind : t.find? (String.ofList type) = none) :
    t'.find? (String.ofList type) = none := by
  refine h.find?_eq_none hfind (Decidable.byContradiction fun hF => ?_)
  obtain ⟨hname, hbuiltin⟩ := h.declarable_of_find? hF
  have hnormal := TypeText.normalChars_of_isName hname
  rw [String.toList_ofList] at hnormal
  exact resolveChars_ne_ok hfind (by rwa [hnormal]) (by rwa [hnormal]) (by rwa [hnormal]) hresolve

theorem Mirrors.find?_normal_of_resolveChars (h : Mirrors ρ F t t') {type : List Char} {r : ScriptType × List Import}
    (hresolve : t.resolveChars range target type = .ok r) (hfind : t.find? (String.ofList type) = none)
    (hnormal : t.find? (String.ofList (TypeText.normalChars type)) = none) :
    t'.find? (String.ofList (TypeText.normalChars type)) = none := by
  refine h.find?_eq_none hnormal (Decidable.byContradiction fun hF => ?_)
  obtain ⟨hname, hbuiltin⟩ := h.declarable_of_find? hF
  exact resolveChars_ne_ok hfind hnormal hname hbuiltin hresolve

/-- Types stand for the same in a mirrored table. -/
theorem Mirrors.resolveChars_eq (h : Mirrors ρ F t t') (htarget : ρ.IsTarget target) {type : List Char}
    {r : ScriptType × List Import} (hresolve : t.resolveChars range target type = .ok r) :
    t'.resolveChars range' (ρ.path target) type = .ok r := by
  have hfree := h.find?_of_resolveChars hresolve
  have hfree' := h.find?_normal_of_resolveChars hresolve
  fun_induction resolveChars t range target type generalizing r
  case case1 type symbol hfind =>
    obtain ⟨symbol', hfind', -, htarget'⟩ := h.find?_eq_some hfind
    rw [resolveChars]
    simp only [hfind', h.use_eq htarget hfind htarget']
    exact hresolve
  case case2 type hnone normal symbol hfind =>
    subst normal
    obtain ⟨symbol', hfind', -, htarget'⟩ := h.find?_eq_some hfind
    rw [resolveChars]
    simp only [hfree hnone, hfind', h.use_eq htarget hfind htarget']
    exact hresolve
  case case3 type hnone normal hnone' hstring =>
    subst normal
    rw [resolveChars]
    simp only [hfree hnone, hfree' hnone hnone', if_pos hstring]
    exact hresolve
  case case4 type hnone normal hnone' hstring hoctets =>
    subst normal
    rw [resolveChars]
    simp only [hfree hnone, hfree' hnone hnone', if_neg hstring, if_pos hoctets]
    exact hresolve
  case case5 type hnone normal hnone' hstring hoctets element harg hlt found imports hrec ih =>
    subst normal
    have hrec' := ih hrec (h.find?_of_resolveChars hrec) (h.find?_normal_of_resolveChars hrec)
    rw [resolveChars]
    simp only [hfree hnone, hfree' hnone hnone', if_neg hstring, if_neg hoctets]
    split
    · rename_i element' harg'
      obtain rfl : element = element' := Option.some.inj (harg.symm.trans harg')
      rw [hrec']
      exact hresolve
    · rename_i harg'
      cases harg.symm.trans harg'
  case case6 => cases hresolve
  case case7 type hnone normal hnone' hstring hoctets harg found hbuiltin =>
    subst normal
    rw [resolveChars]
    simp only [hfree hnone, hfree' hnone hnone', if_neg hstring, if_neg hoctets]
    split
    · rename_i element' harg'
      cases harg.symm.trans harg'
    · simp only [hbuiltin]
      exact hresolve
  case case8 => cases hresolve

theorem Mirrors.resolve_eq (h : Mirrors ρ F t t') (htarget : ρ.IsTarget target) {type : String}
    {r : ScriptType × List Import} (hresolve : t.resolve range target type = .ok r) :
    t'.resolve range' (ρ.path target) type = .ok r := h.resolveChars_eq htarget hresolve

theorem Mirrors.resolveReturn_eq (h : Mirrors ρ F t t') (htarget : ρ.IsTarget target) {type : String}
    {r : ScriptType × List Import} (hresolve : t.resolveReturn range target type = .ok r) :
    t'.resolveReturn range' (ρ.path target) type = .ok r := by
  unfold resolveReturn at hresolve ⊢
  split at hresolve
  · rw [if_pos (by assumption)]
    exact hresolve
  · rw [if_neg (by assumption)]
    exact h.resolve_eq htarget hresolve

theorem Mirrors.checkException_eq (h : Mirrors ρ F t t') {u : Unit} (hcheck : t.checkException name range = .ok u) :
    t'.checkException name range' = .ok u := by
  unfold checkException at hcheck ⊢
  split at hcheck
  · rename_i symbol hfind
    obtain ⟨symbol', hfind', hkind, -⟩ := h.find?_eq_some hfind
    simp only [hfind', hkind]
    split at hcheck
    · exact if_pos (by assumption)
    · cases hcheck
  · cases hcheck

/-- A name that is declared in both tables keeps them mirrored. -/
theorem Mirrors.register (h : Mirrors ρ F t t') {t₁ : SymbolTable} (hname : IsName name) (hF : name ∉ F.names)
    (htarget : ρ.IsTarget symbol.target) (hregister : t.register name symbol = .ok t₁) {symbol' : Symbol}
    (hkind : symbol'.kind = symbol.kind) (htarget' : symbol'.target = ρ.path symbol.target) :
    ∃ t₁', t'.register name symbol' = .ok t₁' ∧ Mirrors ρ F t₁ t₁' := by
  obtain ⟨hallowed, hfresh, rfl⟩ := register_eq_ok_iff.1 hregister
  have hfresh' : name ∉ t'.names := by
    rw [← find?_eq_none_iff] at hfresh hF ⊢
    exact h.find?_eq_none hfresh hF
  refine ⟨_, register_eq_ok_iff.2 ⟨hallowed, hfresh', rfl⟩, ?_, ?_, ?_, ?_⟩
  · have houtline := h.outline_eq
    simp only [outline, List.map_cons, List.cons_append] at houtline ⊢
    rw [houtline, hkind, htarget']
    rfl
  · exact List.forall_mem_cons.2 ⟨htarget, h.targets⟩
  · exact List.forall_mem_cons.2 ⟨hname, h.names⟩
  · exact List.forall_mem_cons.2 ⟨hallowed.1, h.declarable⟩

end Mirrors

end SymbolTable

namespace Defines

/-- The defined names. -/
def names (d : Defines) : List String := d.entries.map Prod.fst

theorem isDefined_iff {d : Defines} {name : String} : d.isDefined name = true ↔ name ∈ d.names := by
  have hnone : d.find? name = none ↔ name ∉ d.names := lookup_eq_none_iff_notMem
  rw [isDefined, Option.isSome_iff_ne_none, ne_eq, hnone, Decidable.not_not]

theorem define_eq_ok_iff {d d' : Defines} {name : String} {range : FileRange} :
    d.define name range = .ok d' ↔ name ∉ d.names ∧ d' = ⟨(name, range) :: d.entries⟩ := by
  rw [← isDefined_iff, isDefined, define]
  cases d.find? name with
  | some previous => simp
  | none => simp [eq_comm]

end Defines

namespace Compilation

/-! ## Steps that succeed -/

/-- The step `m`, started in `s`, succeeds with `a` and leaves a state with the property `P`. -/
def Attains {α : Type} (m : CompileM α) (s : Compilation) (a : α) (P : Compilation → Prop) : Prop :=
  ∃ s', Gives m s a s' ∧ P s'

section Attains

variable {α β : Type} {s : Compilation} {a : α} {b : β} {P Q : Compilation → Prop}

theorem Attains.mono {m : CompileM α} (h : Attains m s a P) (himp : ∀ t, P t → Q t) : Attains m s a Q := by
  obtain ⟨t, hgives, ht⟩ := h
  exact ⟨t, hgives, himp t ht⟩

theorem attains_pure (h : P s) : Attains (pure a) s a P := ⟨s, gives_pure.2 ⟨rfl, rfl⟩, h⟩

theorem Attains.bind {m : CompileM α} {k : α → CompileM β} (hm : Attains m s a P)
    (hk : ∀ t, P t → Attains (k a) t b Q) : Attains (m >>= k) s b Q := by
  obtain ⟨t, ha, ht⟩ := hm
  obtain ⟨u, hb, hu⟩ := hk t ht
  exact ⟨u, gives_bind.2 ⟨a, t, ha, hb⟩, hu⟩

theorem Attains.discard {m : CompileM α} (h : Attains m s a P) : Attains (discard m) s () P := by
  rw [Functor.discard, map_const, Function.comp_apply, map_eq_pure_bind]
  exact h.bind fun _ => attains_pure

theorem Attains.congr {m m' : CompileM α} (heq : outcome m s = outcome m' s) (h : Attains m' s a P) :
    Attains m s a P := by
  obtain ⟨t, ha, ht⟩ := h
  exact ⟨t, heq.trans ha, ht⟩

/-- A step that runs while a file is being compiled. -/
theorem Attains.during {m : CompileM α} {path : Path} (h : Attains m (s.enter path) a P) :
    Attains (during path m) s a fun t => ∃ t₁, P t₁ ∧ t₁.leave = t := by
  obtain ⟨t, ha, ht⟩ := h
  exact ⟨t.leave, gives_during.2 ⟨t, ha, rfl⟩, t, ht, rfl⟩

theorem attains_modify {f : Compilation → Compilation} (hf : P (f s)) : Attains (modify f) s () P :=
  ⟨f s, gives_modify.2 rfl, hf⟩

theorem attains_get {k : Compilation → CompileM β} (hk : Attains (k s) s b P) : Attains (get >>= k) s b P := by
  obtain ⟨t, hb, ht⟩ := hk
  exact ⟨t, gives_bind.2 ⟨s, s, gives_get.2 ⟨rfl, rfl⟩, hb⟩, ht⟩

theorem attains_ofExcept {x : Except Error α} (hx : x = .ok a) (h : P s) : Attains (MonadExcept.ofExcept x) s a P :=
  ⟨s, gives_ofExcept.2 ⟨hx, rfl⟩, h⟩

theorem attains_note (level : LogLevel) (message : String) : Attains (note level message) s () (Quiet s) :=
  attains_modify ⟨_, rfl⟩

theorem attains_emit (target : Path) (body : List Declaration) :
    Attains (emit target body) s () (Quiet { s with emissions := s.emissions ++ [⟨target, body⟩] }) := by
  refine (attains_note ..).bind fun t ht => attains_modify ?_
  obtain ⟨log, rfl⟩ := ht
  exact ⟨log, rfl⟩

end Attains

/-! ## Mirrored states -/

/-- The state `s'` holds what `s` holds, relocated by `ρ`, and what `F` holds. What `F` holds was there first. -/
structure Mirrors (ρ : Relocation) (F s s' : Compilation) : Prop where
  symbols : SymbolTable.Mirrors ρ F.symbols s.symbols s'.symbols
  defines : s'.defines.names = s.defines.names ++ F.defines.names
  emissions : s'.emissions = F.emissions ++ s.emissions.map ρ.emission
  targets : ∀ e ∈ s.emissions, ρ.IsTarget e.target
  compiled : s'.compiled = s.compiled.map ρ.path ++ F.compiled
  compiling : s'.compiling = s.compiling.map ρ.path ++ F.compiling

/-- What the step `m` attains in a state, the step `m'` attains in a mirrored one. -/
def Carries {α : Type} (ρ : Relocation) (F : Compilation) (m m' : CompileM α) : Prop :=
  ∀ ⦃s s' : Compilation⦄ ⦃a : α⦄ ⦃s₁ : Compilation⦄, Mirrors ρ F s s' → Gives m s a s₁ →
    Attains m' s' a (Mirrors ρ F s₁)

section Mirrors

variable {ρ : Relocation} {F s s' s₁ : Compilation}

theorem Mirrors.of_quiet (h : Mirrors ρ F s s') (hq : Quiet s s₁) : Mirrors ρ F s₁ s' := by
  obtain ⟨log, rfl⟩ := hq
  exact ⟨h.symbols, h.defines, h.emissions, h.targets, h.compiled, h.compiling⟩

theorem Mirrors.quiet {s₁' : Compilation} (h : Mirrors ρ F s s') (hq : Quiet s' s₁') : Mirrors ρ F s s₁' := by
  obtain ⟨log, rfl⟩ := hq
  exact ⟨h.symbols, h.defines, h.emissions, h.targets, h.compiled, h.compiling⟩

theorem Attains.of_quiet {α : Type} {m : CompileM α} {a : α} (h : Attains m s' a (Mirrors ρ F s)) (hq : Quiet s s₁) :
    Attains m s' a (Mirrors ρ F s₁) := h.mono fun _ ht => ht.of_quiet hq

theorem Mirrors.note (h : Mirrors ρ F s s') (level : LogLevel) (message : String) :
    Attains (note level message) s' () (Mirrors ρ F s) := (attains_note level message).mono fun _ => h.quiet

theorem Mirrors.emit (h : Mirrors ρ F s s') {target : Path} (htarget : ρ.IsTarget target) (body : List Declaration) :
    Attains (emit (ρ.path target) body) s' ()
      (Mirrors ρ F { s with emissions := s.emissions ++ [⟨target, body⟩] }) := by
  refine (attains_emit ..).mono fun t => Mirrors.quiet ⟨h.symbols, h.defines, ?_, ?_, h.compiled, h.compiling⟩
  · simp [h.emissions, Relocation.emission]
  · exact List.forall_mem_append.2 ⟨h.targets, List.forall_mem_singleton.2 htarget⟩

theorem Mirrors.define (h : Mirrors ρ F s s') {name name' : Name} {defines : Defines}
    (hnew : s.defines.define name.text name.range = .ok defines) (htext : name'.text = name.text)
    (hF : name.text ∉ F.defines.names) : Attains (define name') s' () (Mirrors ρ F { s with defines }) := by
  obtain ⟨hfresh, rfl⟩ := Defines.define_eq_ok_iff.1 hnew
  refine (h.note ..).bind fun t₁ h₁ => attains_get ?_
  have hfresh' : name'.text ∉ t₁.defines.names := by
    rw [htext, h₁.defines, List.mem_append, not_or]
    exact ⟨hfresh, hF⟩
  refine (attains_ofExcept (Defines.define_eq_ok_iff.2 ⟨hfresh', rfl⟩) h₁).bind fun t₂ h₂ => ?_
  refine attains_modify ⟨h₂.symbols, ?_, h₂.emissions, h₂.targets, h₂.compiled, h₂.compiling⟩
  have hdefines := h₁.defines
  simp only [Defines.names, List.map_cons, List.cons_append] at hdefines ⊢
  rw [hdefines, htext]

/-- Whether a name is defined does not depend on the names of `F`, if it is none of them. -/
theorem Mirrors.isDefined_eq (h : Mirrors ρ F s s') {name : String} (hF : name ∉ F.defines.names) :
    s'.defines.isDefined name = s.defines.isDefined name := by
  rw [Bool.eq_iff_iff, Defines.isDefined_iff, Defines.isDefined_iff, h.defines, List.mem_append]
  exact or_iff_left hF

end Mirrors

/-! ## Steps of a declaration -/

section Carries

variable {α β γ : Type} {ρ : Relocation} {F s s' : Compilation}

theorem carries_pure (a : α) : Carries ρ F (pure a) (pure a) := by
  intro s s' b s₁ h hgives
  obtain ⟨rfl, rfl⟩ := gives_pure.1 hgives
  exact attains_pure h

theorem Carries.bind {m m' : CompileM α} {k k' : α → CompileM β} (hm : Carries ρ F m m')
    (hk : ∀ a, Carries ρ F (k a) (k' a)) : Carries ρ F (m >>= k) (m' >>= k') := by
  intro s s' b s₂ h hgives
  obtain ⟨a, s₁, ha, hb⟩ := gives_bind.1 hgives
  exact (hm h ha).bind fun s₁' h₁ => hk a h₁ hb

theorem carries_reach (path path' : Path) (head head' : Token) : Carries ρ F (reach path head) (reach path' head') := by
  intro s s' u s₁ h hgives
  exact (h.note ..).of_quiet (quiet_of_reach hgives)

theorem carries_stopAt (fault : Option Error) (f : Error → Error) :
    Carries ρ F (stopAt fault) (stopAt (fault.map f)) := by
  intro s s' u s₁ h hgives
  obtain ⟨rfl, rfl⟩ := gives_stopAt.1 hgives
  exact attains_pure h

variable (σ : Shift) {target : Path}

theorem carries_register (kind : Symbol.Kind) (path path' : Path) {name : Name} (htarget : ρ.IsTarget target)
    (hname : IsName name.text) (hF : name.text ∉ F.symbols.names) :
    Carries ρ F (register kind path target name) (register kind path' (ρ.path target) (σ.name name)) := by
  intro s s' u s₁ h hgives
  obtain ⟨symbols, hregister, hquiet⟩ := gives_register hgives
  obtain ⟨symbols', hregister', hsymbols⟩ : ∃ symbols',
      s'.symbols.register name.text ⟨kind, path', ρ.path target, (σ.name name).range⟩ = .ok symbols' ∧
        SymbolTable.Mirrors ρ F.symbols symbols symbols' := h.symbols.register hname hF htarget hregister rfl rfl
  refine Attains.of_quiet (attains_get ?_) hquiet
  refine (attains_ofExcept hregister' h).bind fun s₁' h₁ => (h₁.note ..).bind fun s₂' h₂ => ?_
  exact attains_modify ⟨hsymbols, h₂.defines, h₂.emissions, h₂.targets, h₂.compiled, h₂.compiling⟩

theorem carries_resolve (htarget : ρ.IsTarget target) (type : TypeExpr) :
    Carries ρ F (resolve target type) (resolve (ρ.path target) (σ.type type)) := by
  intro s s' r s₁ h hgives
  obtain ⟨hresolve, rfl⟩ := gives_resolve hgives
  exact attains_get (attains_ofExcept (h.symbols.resolve_eq htarget hresolve) h)

theorem carries_resolveReturn (htarget : ρ.IsTarget target) (type : TypeExpr) :
    Carries ρ F (resolveReturn target type) (resolveReturn (ρ.path target) (σ.type type)) := by
  intro s s' r s₁ h hgives
  obtain ⟨hresolve, rfl⟩ := gives_resolveReturn hgives
  exact attains_get (attains_ofExcept (h.symbols.resolveReturn_eq htarget hresolve) h)

theorem carries_resolveException (name : Name) :
    Carries ρ F (resolveException name) (resolveException (σ.name name)) := by
  intro s s' text s₁ h hgives
  obtain ⟨rfl, hcheck, rfl⟩ := gives_resolveException hgives
  exact attains_get ((attains_ofExcept (h.symbols.checkException_eq hcheck) h).bind fun _ => attains_pure)

/-! ## Members -/

theorem carries_declareMembers {f : α → CompileM (β × List Import)} {f' : γ → CompileM (β × List Import)} {g : α → γ}
    (hf : ∀ a, Carries ρ F (f a) (f' (g a))) (members : List (Member α)) :
    Carries ρ F (declareMembers f members) (declareMembers f' (Shift.members g members)) := by
  induction members with
  | nil => exact carries_pure _
  | cons member members ih =>
    cases member with
    | comment c => exact ih.bind fun _ => carries_pure _
    | item a => exact (hf a).bind fun _ => ih.bind fun _ => carries_pure _

theorem carries_declareField (htarget : ρ.IsTarget target) (f : Field TypeExpr) :
    Carries ρ F (declareField target f) (declareField (ρ.path target) (σ.field f)) :=
  (carries_resolve σ htarget f.type).bind fun _ => carries_pure _

theorem carries_declareParameters (htarget : ρ.IsTarget target) (ps : List (Parameter TypeExpr)) :
    Carries ρ F (declareParameters target ps) (declareParameters (ρ.path target) (ps.map σ.parameter)) := by
  induction ps with
  | nil => exact carries_pure _
  | cons p ps ih => exact (carries_resolve σ htarget p.type).bind fun _ => ih.bind fun _ => carries_pure _

theorem carries_resolveExceptions (names : List Name) :
    Carries ρ F (names.mapM resolveException) ((names.map σ.name).mapM resolveException) := by
  induction names with
  | nil => exact carries_pure _
  | cons name names ih =>
    rw [List.map_cons, List.mapM_cons, List.mapM_cons]
    exact (carries_resolveException σ name).bind fun _ => ih.bind fun _ => carries_pure _

theorem carries_declareMethod (htarget : ρ.IsTarget target) (m : MethodItem) :
    Carries ρ F (declareMethod target m) (declareMethod (ρ.path target) (σ.methodItem m)) := by
  refine (carries_resolveReturn σ htarget m.method.returns).bind fun _ => ?_
  refine (carries_declareParameters σ htarget m.method.parameters).bind fun _ => ?_
  refine (carries_resolveExceptions σ m.method.raises).bind fun _ => ?_
  exact (carries_stopAt m.fault σ.error).bind fun _ => carries_pure _

/-! ## Declarations -/

/-- An item that declares a name is carried over, if its name is free. -/
theorem carries_declare {ctx ctx' : Context} (htarget : ρ.IsTarget target) :
    ∀ {item : Item}, item.Sound (fun _ => True) → (∀ name ∈ item.name?, name ∉ F.symbols.names) →
      item.declares = true → Carries ρ F (declare ctx target item) (declare ctx' (ρ.path target) (σ.item item))
  | .typedef head typed comments, .typedef hname _, hF, _ => by
    rw [Shift.item, declare, declare]
    refine (carries_reach ..).bind fun _ => (carries_resolve σ htarget typed.type).bind fun _ => ?_
    exact (carries_register σ _ _ _ htarget hname (hF _ rfl)).bind fun _ => carries_pure _
  | .record head kind name block, .record hname _, hF, _ => by
    rw [Shift.item, declare, declare]
    refine (carries_reach ..).bind fun _ => (carries_register σ _ _ _ htarget hname (hF _ rfl)).bind fun _ => ?_
    refine (carries_declareMembers (carries_declareField σ htarget) block.members).bind fun _ => ?_
    exact (carries_stopAt block.fault σ.error).bind fun _ => carries_pure _
  | .enum head name block, .enum hname _, hF, _ => by
    rw [Shift.item, declare, declare]
    refine (carries_reach ..).bind fun _ => (carries_register σ _ _ _ htarget hname (hF _ rfl)).bind fun _ => ?_
    exact (carries_stopAt block.fault σ.error).bind fun _ => carries_pure _
  | .interface head name block, .interface hname _, hF, _ => by
    rw [Shift.item, declare, declare]
    refine (carries_reach ..).bind fun _ => (carries_register σ _ _ _ htarget hname (hF _ rfl)).bind fun _ => ?_
    refine (carries_declareMembers (carries_declareMethod σ htarget) block.members).bind fun _ => ?_
    exact (carries_stopAt block.fault σ.error).bind fun _ => carries_pure _
  | .comment .., _, _, hdeclares | .define .., _, _, hdeclares | .include .., _, _, hdeclares
  | .guarded .., _, _, hdeclares | .module .., _, _, hdeclares | .fault .., _, _, hdeclares => by cases hdeclares

end Carries

end Compilation

end Idl
