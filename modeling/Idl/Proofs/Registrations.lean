import Idl.Proofs.Mirrors
import Idl.Proofs.Resolution

/-!
# Names that are declared later

Names are declared one after the other. A call that cannot declare its name leaves everything as it
is, so what is known of a name is the first call for it, and further calls only add to a table. What
a type text stands for is told by what is declared and by the built-in types, and no built-in type
can be declared. So a text goes on to stand for what it stood for, whatever is declared later.

* `registering s calls`: the state after calls that declare names, some of them without success.
* `find?_registering`: what is known of a name is the first call for it.
* `Registered.resolve_mono`: what a table finds in a type text is found by each table that extends it.
* `meaning_kept`: declaring names does not change what types mean.
-/

namespace Idl

namespace SymbolTable

open TypeText

/-- With nothing declared, the text stands for the type. -/
def IsBuiltin (text : String) (type : ScriptType) : Prop := empty.Denotes (normalize text) type

/-! ## Tables that grow -/

section Extends

variable {t t' : SymbolTable} {type : ScriptType} {text : String}

theorem extends_empty (t : SymbolTable) : Extends empty t := by
  intro name symbol h
  cases h

theorem Denotes.mono (h : t.Denotes text type) (hext : Extends t t') : t'.Denotes text type := by
  induction h with
  | named declared => exact .named (hext _ _ declared)
  | string bound => exact .string bound
  | wstring bound => exact .wstring bound
  | octets => exact .octets
  | sequence ne inner ih => exact .sequence ne ih
  | builtin listed => exact .builtin listed

/-- A type needs the same imports when more is declared. -/
theorem Denotes.importsFor_eq (h : t.Denotes text type) (hext : Extends t t') (target : Path) :
    t'.importsFor target type = t.importsFor target type := by
  induction h with
  | named declared => rw [importsFor, importsFor, declared, hext _ _ declared]
  | string bound | wstring bound | octets => rfl
  | sequence ne inner ih =>
    rw [importsFor, importsFor]
    exact ih
  | builtin listed =>
    have hall : ∀ entry ∈ builtinTypes, t'.importsFor target entry.2 = t.importsFor target entry.2 := by
      simp [builtinTypes, importsFor]
    exact hall _ listed

variable {range range' : FileRange} {target : Path} {r : ScriptType × List Import}

/-- What is found in a type text is found when more is declared. -/
theorem Registered.resolve_mono (ht : t.Registered) (ht' : t'.Registered) (hext : Extends t t')
    (h : t.resolve range target text = .ok r) : t'.resolve range' target text = .ok r := by
  obtain ⟨hdenotes, himports⟩ := ht.resolve_eq_ok.1 h
  apply ht'.resolve_eq_ok.2
  refine ⟨hdenotes.mono hext, ?_⟩
  rw [himports, hdenotes.importsFor_eq hext]

theorem Registered.resolveReturn_mono (ht : t.Registered) (ht' : t'.Registered) (hext : Extends t t')
    (h : t.resolveReturn range target text = .ok r) : t'.resolveReturn range' target text = .ok r := by
  unfold resolveReturn at h ⊢
  by_cases hvoid : normalize text = "void"
  · rw [if_pos hvoid] at h ⊢
    exact h
  · rw [if_neg hvoid] at h ⊢
    exact ht.resolve_mono ht' hext h

theorem importsFor_empty (target : Path) (type : ScriptType) : empty.importsFor target type = [] := by
  induction type with
  | array element ih => exact ih
  | number | string | boolean | buffer | any | void | named name => rfl

/-- A built-in type is found in every table, and needs no imports. -/
theorem Registered.resolve_of_isBuiltin (ht : t.Registered) (range : FileRange) (target : Path)
    (h : IsBuiltin text type) :
    t.resolve range target text = .ok (type, []) ∧ t.resolveReturn range target text = .ok (type, []) := by
  have himports : t.importsFor target type = [] := by
    rw [h.importsFor_eq (extends_empty t), importsFor_empty]
  have hdenotes := h.mono (extends_empty t)
  constructor
  · exact ht.resolve_eq_ok.2 ⟨hdenotes, himports.symm⟩
  · exact ht.resolveReturn_eq_ok.2 (.inr ⟨hdenotes, himports.symm⟩)

end Extends

/-- A table refuses a name that cannot be declared, or that it knows. -/
theorem register_eq_error {t : SymbolTable} {name : String} {symbol : Symbol} {e : Error}
    (h : t.register name symbol = .error e) :
    (name ∈ builtins ∨ name ∈ reserved) ∧ e = .reservedName name symbol.range ∨
      ∃ first, t.find? name = some first ∧ e = .duplicateSymbol name symbol.range first.range := by
  unfold register at h
  split at h
  · rename_i hreserved
    cases h
    exact .inl ⟨hreserved, rfl⟩
  · split at h
    · rename_i first hfound
      cases h
      exact .inr ⟨first, hfound, rfl⟩
    · cases h

end SymbolTable

namespace Compilation

open SymbolTable

/-! ## Calls that declare names -/

/-- Declares a name as the given symbol. -/
def registerAs (call : String × Symbol) : CompileM Unit :=
  register call.2.kind call.2.file call.2.target ⟨call.1, call.2.range⟩

/-- The state after calls that declare names one after the other, each with success or without. -/
def registering (s : Compilation) (calls : List (String × Symbol)) : Compilation :=
  calls.foldl (fun s call => (outcome (registerAs call) s).2) s

section Call

variable (call : String × Symbol) (s : Compilation)

/-- A call declares its name, or else the table refuses it and nothing changes. -/
theorem outcome_registerAs :
    (∃ symbols log, s.symbols.register call.1 call.2 = .ok symbols ∧
        outcome (registerAs call) s = (.ok (), { s with symbols, log })) ∨
      ∃ e, s.symbols.register call.1 call.2 = .error e ∧ outcome (registerAs call) s = (.error e, s) := by
  rw [registerAs, register, outcome_bind]
  change (∃ symbols log, _ ∧ outcome (MonadExcept.ofExcept (s.symbols.register call.1 call.2) >>= _) s = _) ∨
    ∃ e, _ ∧ outcome (MonadExcept.ofExcept (s.symbols.register call.1 call.2) >>= _) s = _
  rw [outcome_bind]
  cases s.symbols.register call.1 call.2 with
  | ok symbols => exact .inl ⟨symbols, _, rfl, rfl⟩
  | error e => exact .inr ⟨e, rfl, rfl⟩

/-- A call tells what its name is, unless the name is built in or something is known of it. -/
theorem find?_registerAs (name : String) :
    (outcome (registerAs call) s).2.symbols.find? name =
      (s.symbols.find? name).or (if name ∈ builtins ∨ name ∈ reserved then none else [call].lookup name) := by
  obtain ⟨declared, symbol⟩ := call
  by_cases hname : name = declared
  · have hsingle : [(declared, symbol)].lookup declared = some symbol := List.lookup_cons_self
    rw [hname, hsingle]
    obtain ⟨symbols, log, hok, houtcome⟩ | ⟨e, herror, houtcome⟩ := outcome_registerAs (declared, symbol) s
    · obtain ⟨hallowed, hfresh, rfl⟩ := register_eq_ok_iff.1 hok
      rw [houtcome, if_neg (not_or.2 hallowed), find?_eq_none_iff.2 hfresh]
      exact List.lookup_cons_self
    · rw [houtcome]
      obtain ⟨hreserved, -⟩ | ⟨first, hfound, -⟩ := register_eq_error herror
      · simp [hreserved]
      · simp [hfound]
  · have hother : (name == declared) = false := by simpa using hname
    have hsingle : [(declared, symbol)].lookup name = none := by simp [List.lookup_cons, hother]
    rw [hsingle, ite_self, Option.or_none]
    obtain ⟨symbols, log, hok, houtcome⟩ | ⟨e, -, houtcome⟩ := outcome_registerAs (declared, symbol) s
    · obtain ⟨-, -, rfl⟩ := register_eq_ok_iff.1 hok
      rw [houtcome, find?, find?, List.lookup_cons, hother]
    · rw [houtcome]

theorem registered_registerAs (hs : s.symbols.Registered) (isName : IsName call.1) :
    (outcome (registerAs call) s).2.symbols.Registered := by
  obtain ⟨symbols, log, hok, houtcome⟩ | ⟨e, -, houtcome⟩ := outcome_registerAs call s
  · rw [houtcome]
    exact .declared hs isName hok
  · rw [houtcome]
    exact hs

end Call

/-! ## Calls one after the other -/

section Calls

variable (s : Compilation) (calls : List (String × Symbol))

/-- What is known of a name is what was known before the calls, or else the first call for it. -/
theorem find?_registering (name : String) :
    (s.registering calls).symbols.find? name =
      (s.symbols.find? name).or (if name ∈ builtins ∨ name ∈ reserved then none else calls.lookup name) := by
  induction calls generalizing s with
  | nil => simp [registering]
  | cons call rest ih =>
    rw [registering, List.foldl_cons, ← registering, ih, find?_registerAs, Option.or_assoc]
    split
    · rfl
    · rw [← List.lookup_append, List.singleton_append]

theorem extends_registering : Extends s.symbols (s.registering calls).symbols := by
  intro name symbol h
  rw [find?_registering, h, Option.some_or]

variable {s calls}

theorem registered_registering (hs : s.symbols.Registered) (names : ∀ call ∈ calls, IsName call.1) :
    (s.registering calls).symbols.Registered := by
  induction calls generalizing s with
  | nil => exact hs
  | cons call rest ih =>
    obtain ⟨isName, hrest⟩ := List.forall_mem_cons.1 names
    exact ih (registered_registerAs call s hs isName) hrest

end Calls

/-- Declaring names does not change what types mean. A type text that is found after some calls is
found to be the same type with the same imports after more calls. A call that fails changes nothing:
its name cannot be declared, or the error points to the first call for it. A built-in type is found
after all calls. -/
theorem meaning_kept {calls more : List (String × Symbol)} (names : ∀ call ∈ calls, IsName call.1)
    (names' : ∀ call ∈ more, IsName call.1) :
    (∀ range range' target text r,
      ((empty.registering calls).symbols.resolve range target text = .ok r →
        ((empty.registering calls).registering more).symbols.resolve range' target text = .ok r) ∧
      ((empty.registering calls).symbols.resolveReturn range target text = .ok r →
        ((empty.registering calls).registering more).symbols.resolveReturn range' target text = .ok r)) ∧
    (∀ call e s', outcome (registerAs call) (empty.registering calls) = (.error e, s') →
      s' = empty.registering calls ∧
        ((call.1 ∈ builtins ∨ call.1 ∈ reserved) ∧ e = .reservedName call.1 call.2.range ∨
          ∃ first, calls.lookup call.1 = some first ∧ e = .duplicateSymbol call.1 call.2.range first.range)) ∧
    ∀ range target text,
      (∀ type, IsBuiltin text type →
        (empty.registering calls).symbols.resolve range target text = .ok (type, []) ∧
        (empty.registering calls).symbols.resolveReturn range target text = .ok (type, [])) ∧
      (TypeText.normalize text = "void" →
        (empty.registering calls).symbols.resolveReturn range target text = .ok (.void, [])) := by
  have hbefore : (empty.registering calls).symbols.Registered := registered_registering .empty names
  have hafter := registered_registering hbefore names'
  have hext := extends_registering (empty.registering calls) more
  refine ⟨fun range range' target text r => ⟨?_, ?_⟩, ?_, fun range target text => ⟨?_, ?_⟩⟩
  · exact hbefore.resolve_mono hafter hext
  · exact hbefore.resolveReturn_mono hafter hext
  · intro call e s' h
    obtain ⟨symbols, log, hok, houtcome⟩ | ⟨e', herror, houtcome⟩ := outcome_registerAs call (empty.registering calls)
    · rw [houtcome] at h
      cases h
    · rw [houtcome] at h
      cases h
      refine ⟨rfl, ?_⟩
      obtain hreserved | ⟨first, hfound, he⟩ := register_eq_error herror
      · exact .inl hreserved
      · rw [find?_registering] at hfound
        refine .inr ⟨first, ?_, he⟩
        split at hfound
        · cases hfound
        · exact hfound
  · intro type h
    exact hbefore.resolve_of_isBuiltin range target h
  · intro hvoid
    rw [SymbolTable.resolveReturn, if_pos hvoid]

/-- Three calls, of which only the first one declares its name. -/
def pointCalls : List (String × Symbol) :=
  [("P", ⟨.struct, ⟨"p.idl"⟩, ⟨"p.ts"⟩, ⟨1, 7, 8⟩⟩), ("any", ⟨.enum, ⟨"p.idl"⟩, ⟨"p.ts"⟩, ⟨1, 20, 23⟩⟩),
    ("P", ⟨.enum, ⟨"q.idl"⟩, ⟨"q.ts"⟩, ⟨2, 5, 6⟩⟩)]

/-- A call from another file. -/
def octetsCall : String × Symbol := ("octets", ⟨.typedef, ⟨"q.idl"⟩, ⟨"q.ts"⟩, ⟨2, 9, 15⟩⟩)

/-- A sequence of a declared name keeps its import when another file declares more. The name cannot be declared
again, and a sequence of octets is a buffer. -/
theorem meaning_kept_points :
    ((empty.registering pointCalls).registering [octetsCall]).symbols.resolve ⟨2, 30, 31⟩ ⟨"q.ts"⟩ "sequence< P >" =
        .ok (.array (.named "P"), [⟨"P", "./p"⟩]) ∧
      (∀ symbol e s', outcome (registerAs ("P", symbol)) (empty.registering pointCalls) = (.error e, s') →
        e = .duplicateSymbol "P" symbol.range ⟨1, 7, 8⟩) ∧
      (empty.registering pointCalls).symbols.resolve ⟨1, 0, 1⟩ ⟨"q.ts"⟩ "sequence<octet>" = .ok (.buffer, []) := by
  have names : ∀ call ∈ pointCalls, IsName call.1 := by
    show ∀ call ∈ pointCalls, Text.isName _ = true
    decide +kernel
  have names' : ∀ call ∈ [octetsCall], IsName call.1 := by
    show ∀ call ∈ [octetsCall], Text.isName _ = true
    decide +kernel
  obtain ⟨hkept, hfails, hbuiltin⟩ := meaning_kept names names'
  refine ⟨(hkept ⟨1, 0, 1⟩ _ _ _ _).1 ?_, ?_, ?_⟩
  · have hnormal : TypeText.normalize "sequence< P >" = "sequence<" ++ "P" ++ ">" := by decide +kernel
    have hdeclared : (empty.registering pointCalls).symbols.find? "P" =
        some ⟨.struct, ⟨"p.idl"⟩, ⟨"p.ts"⟩, ⟨1, 7, 8⟩⟩ := by decide +kernel
    refine (registered_registering .empty names).resolve_eq_ok.2 ⟨?_, by decide +kernel⟩
    rw [hnormal]
    exact .sequence (by decide) (.named hdeclared)
  · intro symbol e s' h
    obtain ⟨-, ⟨hreserved, -⟩ | ⟨first, hfirst, he⟩⟩ := hfails _ _ _ h
    · have hallowed : ¬("P" ∈ builtins ∨ "P" ∈ reserved) := by decide +kernel
      exact absurd hreserved hallowed
    · cases hfirst
      exact he
  · have hnormal : TypeText.normalize "sequence<octet>" = "sequence<octet>" := by decide +kernel
    apply ((hbuiltin _ _ _).1 .buffer _).1
    rw [IsBuiltin, hnormal]
    exact .octets

end Compilation

end Idl
