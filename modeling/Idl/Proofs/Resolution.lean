import Idl.Proofs.TypeWords
import Idl.Proofs.Values

/-!
# What type texts stand for

A type text is resolved by peeling it from both ends. What comes out can be said by rules on its
normal form instead (`Denotes`): a declared name stands for itself, strings may have a bound, a
sequence is an array of what its element stands for, or a buffer, and there are the built-in types.
A table of declared names finds just this (`Registered.resolve_of_denotes`, `Registered.resolve_cases`),
and where there is nothing to find, it is the innermost element that is reported.
-/

namespace Idl

namespace TypeText

/-! ## Arguments -/

theorem argument?_eq_some {constructor : String} {type element : List Char} :
    argument? constructor type = some element ↔ type = constructor.toList ++ '<' :: (element ++ ['>']) := by
  unfold argument?
  dsimp only
  constructor
  · intro h
    split at h
    · rename_i hcond
      obtain ⟨rest, rfl⟩ := List.isPrefixOf_iff_prefix.1 hcond.1
      rw [List.drop_left] at h hcond
      obtain ⟨init, rfl⟩ := List.getLast?_eq_some_iff.1 hcond.2
      rw [List.dropLast_concat] at h
      rw [← Option.some.inj h]
      simp
    · cases h
  · rintro rfl
    have hsplit : constructor.toList ++ '<' :: (element ++ ['>']) =
        constructor.toList ++ ['<'] ++ (element ++ ['>']) := by simp
    rw [hsplit, List.drop_left, if_pos ⟨List.isPrefixOf_iff_prefix.2 (List.prefix_append ..), by simp⟩,
      List.dropLast_concat]

theorem ofList_of_argument? {constructor : String} {type element : List Char}
    (h : argument? constructor type = some element) :
    String.ofList type = constructor ++ "<" ++ String.ofList element ++ ">" := by
  rw [argument?_eq_some.1 h, ← String.toList_inj]
  simp

theorem argument?_eq_none {constructor : String} {type : List Char} (h : '<' ∉ type) :
    argument? constructor type = none := by
  cases hargument : argument? constructor type with
  | none => rfl
  | some element => exact absurd (bracket_of_argument? hargument) h

theorem squeeze_snoc (before : Option Char) (gap : Bool) (cs : List Char) :
    squeeze parts before gap (cs ++ ['>']) = squeeze parts before gap cs ++ ['>'] := by
  induction cs generalizing before gap with
  | nil =>
    have hparts : (gap && parts before '>') = false := by simp [parts_bracket (c := '>') rfl]
    rw [List.nil_append, squeeze_drop (by decide) hparts]
    rfl
  | cons c cs ih =>
    rw [List.cons_append]
    cases hc : Text.isBlank c with
    | true => rw [squeeze_blank hc, squeeze_blank hc, ih]
    | false =>
      cases hkeeps : gap && parts before c with
      | false => rw [squeeze_drop hc hkeeps, squeeze_drop hc hkeeps, ih]; rfl
      | true => rw [squeeze_keep hc hkeeps, squeeze_keep hc hkeeps, ih]; rfl

theorem squeeze_start {before : Option Char} (h : before.any (!isBracket ·) = false) (gap : Bool) (cs : List Char) :
    squeeze parts before gap cs = squeeze parts none gap cs := by
  induction cs generalizing gap with
  | nil => rfl
  | cons c cs ih =>
    cases hc : Text.isBlank c with
    | true => rw [squeeze_blank hc, squeeze_blank hc, ih]
    | false => rw [squeeze_drop hc (by simp [parts, h]), squeeze_drop hc (by simp [parts])]

/-- The element of a normal sequence is normal. -/
theorem normalChars_element {type element : List Char} (helement : argument? "sequence" type = some element)
    (h : normalChars type = type) : normalChars element = element := by
  have hword : squeeze parts none false ("sequence".toList ++ '<' :: (element ++ ['>'])) =
      "sequence".toList ++ '<' :: squeeze parts (some '<') false (element ++ ['>']) := rfl
  rw [argument?_eq_some.1 helement, normalChars_eq_squeeze, hword, squeeze_snoc, squeeze_start (by decide)] at h
  have hrest := (List.cons.inj (List.append_cancel_left h)).2
  rw [normalChars_eq_squeeze]
  exact List.append_cancel_right hrest

end TypeText

namespace SymbolTable

open TypeText

/-! ## Rules for types -/

/-- The built-in types. -/
def builtinTypes : List (String × ScriptType) :=
  [("octet", .number), ("short", .number), ("long", .number), ("long long", .number), ("unsigned short", .number),
    ("unsigned long", .number), ("unsigned long long", .number), ("float", .number), ("double", .number),
    ("long double", .number), ("string", .string), ("wstring", .string), ("char", .string), ("wchar", .string),
    ("boolean", .boolean), ("any", .any)]

/-- The type that a normal type text stands for. -/
inductive Denotes (t : SymbolTable) : String → ScriptType → Prop
  | named {name : String} {symbol : Symbol} (declared : t.find? name = some symbol) : Denotes t name (.named name)
  | string (bound : String) : Denotes t ("string<" ++ bound ++ ">") .string
  | wstring (bound : String) : Denotes t ("wstring<" ++ bound ++ ">") .string
  | octets : Denotes t "sequence<octet>" .buffer
  | sequence {element : String} {type : ScriptType} (ne : element ≠ "octet") (inner : Denotes t element type) :
      Denotes t ("sequence<" ++ element ++ ">") (.array type)
  | builtin {name : String} {type : ScriptType} (listed : (name, type) ∈ builtinTypes) : Denotes t name type

/-- The imports that a type needs in an output: one for the name under its sequences, if this one is declared for
another output. -/
def importsFor (t : SymbolTable) (target : Path) : ScriptType → List Import
  | .array element => t.importsFor target element
  | .named name =>
    match t.find? name with
    | some symbol =>
      if symbol.target.same target then [] else [⟨name, Placement.importSpecifier target symbol.target⟩]
    | none => []
  | .number | .string | .boolean | .buffer | .any | .void => []

/-- `element` is what is left of a type text when its sequences are peeled off, all of them. -/
inductive Innermost : String → String → Prop
  | here {element : String} (peeled : ∀ inner, element ≠ "sequence<" ++ inner ++ ">") : Innermost element element
  | sequence {text element : String} (inner : Innermost text element) : Innermost ("sequence<" ++ text ++ ">") element

section Rules

variable {t : SymbolTable} {name text element element' : String} {type : ScriptType}

theorem builtin?_eq_some : builtin? name = some type ↔ (name, type) ∈ builtinTypes := by
  constructor
  · intro h
    unfold builtin? at h
    split at h <;> cases h <;> simp [builtinTypes]
  · intro h
    have hall : ∀ entry ∈ builtinTypes, builtin? entry.1 = some entry.2 := by decide +kernel
    exact hall _ h

theorem mem_builtins (h : (name, type) ∈ builtinTypes) : name ∈ builtins ∧ '<' ∉ name.toList := by
  have hall : ∀ entry ∈ builtinTypes, entry.1 ∈ builtins ∧ '<' ∉ entry.1.toList := by decide +kernel
  exact hall _ h

theorem sequence_inj (h : "sequence<" ++ text ++ ">" = "sequence<" ++ element ++ ">") : text = element := by
  have hchars := congrArg String.toList h
  exact String.toList_inj.1 (by simpa using hchars)

theorem Innermost.unique (h : Innermost text element) (h' : Innermost text element') : element = element' := by
  induction h with
  | here peeled =>
    cases h' with
    | here => rfl
    | sequence inner => exact absurd rfl (peeled _)
  | @sequence text element inner ih =>
    generalize hwhole : "sequence<" ++ text ++ ">" = whole at h'
    cases h' with
    | here peeled => exact absurd hwhole.symm (peeled text)
    | sequence inner' =>
      rw [← sequence_inj hwhole] at inner'
      exact ih inner'

end Rules

/-! ## Soundness and completeness -/

section Registered

variable {t : SymbolTable} {type : ScriptType}

/-- What is found in a normal text. -/
theorem Registered.resolveChars_normal (ht : t.Registered) (range : FileRange) (target : Path) {cs : List Char}
    (h : normalChars cs = cs) :
    t.resolveChars range target cs = t.resolveNormal range target (t.resolveChars range target) cs := by
  rw [ht.named.resolveChars_eq, h]

/-- A text with a bracket is not declared. -/
theorem Registered.find?_bracket (ht : t.Registered) {cs : List Char} (h : '<' ∈ cs) :
    t.find? (String.ofList cs) = none := by
  cases hfind : t.find? (String.ofList cs) with
  | none => rfl
  | some symbol =>
    have hname := ht.named.isName_of_find? hfind
    refine absurd h ?_
    rw [← String.toList_ofList (l := cs)]
    exact hname.notMem (by decide)

/-- What the rules give is found. -/
theorem Registered.resolve_of_denotes (ht : t.Registered) (range : FileRange) (target : Path) {text : String}
    (h : t.Denotes text type) (hnormal : normalChars text.toList = text.toList) :
    t.resolveChars range target text.toList = .ok (type, t.importsFor target type) := by
  rw [ht.resolveChars_normal range target hnormal]
  induction h with
  | named declared => rw [resolveNormal, String.ofList_toList, declared, importsFor, declared]; rfl
  | string bound =>
    have hargument : argument? "string" ("string<" ++ bound ++ ">").toList = some bound.toList :=
      argument?_eq_some.2 (by simp)
    rw [resolveNormal, ht.find?_bracket (bracket_of_argument? hargument), hargument]
    rfl
  | wstring bound =>
    have hargument : argument? "wstring" ("wstring<" ++ bound ++ ">").toList = some bound.toList :=
      argument?_eq_some.2 (by simp)
    rw [resolveNormal, ht.find?_bracket (bracket_of_argument? hargument), hargument]
    exact if_pos (.inr rfl)
  | octets =>
    rw [resolveNormal, ht.find?_bracket (by decide)]
    rfl
  | @sequence element type ne inner ih =>
    have hargument : argument? "sequence" ("sequence<" ++ element ++ ">").toList = some element.toList :=
      argument?_eq_some.2 (by simp)
    have hstring : ¬ ((argument? "string" ("sequence<" ++ element ++ ">").toList).isSome ∨
        (argument? "wstring" ("sequence<" ++ element ++ ">").toList).isSome) := by
      rintro (hsome | hsome)
      all_goals
        obtain ⟨bound, hbound⟩ := Option.isSome_iff_exists.1 hsome
        simpa using argument?_eq_some.1 hbound
    have hoctets : ("sequence<" ++ element ++ ">").toList ≠ "sequence<octet>".toList := fun heq =>
      ne (sequence_inj (String.toList_inj.1 heq))
    have helement := normalChars_element hargument hnormal
    rw [resolveNormal, ht.find?_bracket (bracket_of_argument? hargument), hargument]
    dsimp only
    rw [if_neg hstring, if_neg hoctets, ht.resolveChars_normal range target helement, ih helement]
    rfl
  | @builtin name type listed =>
    obtain ⟨hbuiltin, hbracket⟩ := mem_builtins listed
    have hoctets : name.toList ≠ "sequence<octet>".toList := fun heq => hbracket (by rw [heq]; decide)
    have himports : t.importsFor target type = [] := by
      have hall : ∀ entry ∈ builtinTypes, t.importsFor target entry.2 = [] := by simp [builtinTypes, importsFor]
      exact hall _ listed
    rw [resolveNormal, String.ofList_toList, ht.find?_eq_none (.inl hbuiltin), argument?_eq_none hbracket,
      argument?_eq_none hbracket, argument?_eq_none hbracket]
    dsimp only
    rw [if_neg (by simp), if_neg hoctets, builtin?_eq_some.2 listed, himports]

/-- A normal text is given by the rules, or it is a sequence of what its element stands for, or it stands for
nothing. -/
theorem Registered.resolve_step (ht : t.Registered) (range : FileRange) (target : Path) {cs : List Char}
    (hnormal : normalChars cs = cs) :
    (∃ type, t.Denotes (String.ofList cs) type) ∨
      (∃ element, argument? "sequence" cs = some element ∧ String.ofList element ≠ "octet" ∧
        t.resolveChars range target cs =
          (t.resolveChars range target element).map fun (type, imports) => (.array type, imports)) ∨
      (argument? "sequence" cs = none ∧ t.resolveChars range target cs =
        .error (.unknownType (String.ofList cs) range (t.suggestion? (String.ofList cs)))) := by
  have hresolve := ht.resolveChars_normal range target hnormal
  unfold resolveNormal at hresolve
  split at hresolve
  · rename_i symbol hsymbol
    exact .inl ⟨_, .named hsymbol⟩
  split at hresolve
  · rename_i hstring
    refine .inl ⟨.string, ?_⟩
    rcases hstring with hsome | hsome
    all_goals obtain ⟨bound, hbound⟩ := Option.isSome_iff_exists.1 hsome
    · rw [ofList_of_argument? hbound]
      exact .string _
    · rw [ofList_of_argument? hbound]
      exact .wstring _
  split at hresolve
  · rename_i hoctets
    rw [hoctets, String.ofList_toList]
    exact .inl ⟨_, .octets⟩
  rename_i hoctets
  split at hresolve
  · rename_i element helement
    refine .inr (.inl ⟨element, helement, fun heq => hoctets ?_, hresolve⟩)
    rw [argument?_eq_some.1 helement, ← String.toList_ofList (l := element), heq]
    rfl
  rename_i hnone
  split at hresolve
  · rename_i type htype
    exact .inl ⟨type, .builtin (builtin?_eq_some.1 htype)⟩
  · exact .inr (.inr ⟨hnone, hresolve⟩)

/-- What is found is given by the rules, and what is not found has an innermost element for which there is none. -/
theorem Registered.resolve_cases (ht : t.Registered) (range : FileRange) (target : Path) {cs : List Char}
    (hnormal : normalChars cs = cs) :
    (∃ type, t.Denotes (String.ofList cs) type ∧
        t.resolveChars range target cs = .ok (type, t.importsFor target type)) ∨
      ∃ element, Innermost (String.ofList cs) element ∧ (∀ type, ¬ t.Denotes element type) ∧
        t.resolveChars range target cs = .error (.unknownType element range (t.suggestion? element)) := by
  induction hn : cs.length using Nat.strongRecOn generalizing cs with
  | _ n ih =>
    subst hn
    have hfound {type : ScriptType} (h : t.Denotes (String.ofList cs) type) :
        t.resolveChars range target cs = .ok (type, t.importsFor target type) := by
      have hresolve := ht.resolve_of_denotes range target h (by rwa [String.toList_ofList])
      rwa [String.toList_ofList] at hresolve
    rcases ht.resolve_step range target hnormal with
      ⟨type, hdenotes⟩ | ⟨element, helement, hne, hresolve⟩ | ⟨hpeeled, hresolve⟩
    · exact .inl ⟨type, hdenotes, hfound hdenotes⟩
    · have hwhole := ofList_of_argument? helement
      have hinner := normalChars_element helement hnormal
      rcases ih _ (length_argument?_lt helement) hinner rfl with ⟨type, hdenotes, -⟩ | ⟨inner, hlast, hnone, herror⟩
      · have hsequence : t.Denotes (String.ofList cs) (.array type) := hwhole ▸ hdenotes.sequence hne
        exact .inl ⟨_, hsequence, hfound hsequence⟩
      · refine .inr ⟨inner, hwhole ▸ hlast.sequence, hnone, ?_⟩
        rw [hresolve, herror]
        rfl
    · refine .inr ⟨_, .here fun inner heq => ?_, fun type hdenotes => ?_, hresolve⟩
      · have hsome : argument? "sequence" cs = some inner.toList := by
          rw [argument?_eq_some, ← String.toList_ofList (l := cs), heq]
          simp
        rw [hpeeled] at hsome
        cases hsome
      · rw [hfound hdenotes] at hresolve
        cases hresolve

/-- An element of a sequence for which there is something stands for something. -/
theorem Registered.denotes_element (ht : t.Registered) {element : String}
    (h : t.Denotes ("sequence<" ++ element ++ ">") type) : ∃ type, t.Denotes element type := by
  generalize htext : "sequence<" ++ element ++ ">" = text at h
  have hbracket : '<' ∈ text.toList := by simp [← htext]
  cases h with
  | named declared => exact absurd hbracket ((ht.named.isName_of_find? declared).notMem (by decide))
  | string bound => exact absurd (congrArg String.toList htext) (by simp)
  | wstring bound => exact absurd (congrArg String.toList htext) (by simp)
  | octets =>
    obtain rfl : element = "octet" := sequence_inj htext
    exact ⟨.number, .builtin (by decide)⟩
  | sequence ne inner =>
    rw [sequence_inj htext]
    exact ⟨_, inner⟩
  | builtin listed => exact absurd hbracket (mem_builtins listed).2

theorem Registered.denotes_innermost (ht : t.Registered) {text element : String} (hinner : Innermost text element)
    (h : t.Denotes text type) : ∃ type, t.Denotes element type := by
  induction hinner generalizing type with
  | here => exact ⟨type, h⟩
  | sequence inner ih =>
    obtain ⟨inner, hinner⟩ := ht.denotes_element h
    exact ih hinner

theorem Registered.resolve_eq (ht : t.Registered) (range : FileRange) (target : Path) (text : String) :
    t.resolve range target text = t.resolveChars range target (normalChars text.toList) := by
  rw [resolve, ht.named.resolveChars_eq, ht.named.resolveChars_eq range target (normalChars text.toList),
    normalChars_normalChars]

theorem Registered.resolve_eq_ok (ht : t.Registered) {range : FileRange} {target : Path} {text : String}
    {imports : List Import} : t.resolve range target text = .ok (type, imports) ↔
      t.Denotes (normalize text) type ∧ imports = t.importsFor target type := by
  have hnormal := normalChars_normalChars text.toList
  rw [ht.resolve_eq]
  constructor
  · intro h
    rcases ht.resolve_cases range target hnormal with ⟨type', hdenotes, hok⟩ | ⟨element, -, -, herror⟩
    · rw [h] at hok
      cases hok
      exact ⟨hdenotes, rfl⟩
    · rw [h] at herror
      cases herror
  · rintro ⟨hdenotes, rfl⟩
    rw [← String.toList_ofList (l := normalChars text.toList)] at hnormal ⊢
    exact ht.resolve_of_denotes range target hdenotes hnormal

theorem Registered.resolve_eq_error (ht : t.Registered) {range : FileRange} {target : Path} {text : String}
    {e : Error} : t.resolve range target text = .error e ↔ ∃ element, Innermost (normalize text) element ∧
      (∀ type, ¬ t.Denotes element type) ∧ e = .unknownType element range (t.suggestion? element) := by
  have hcases := ht.resolve_cases range target (normalChars_normalChars text.toList)
  rw [ht.resolve_eq]
  constructor
  · intro h
    rcases hcases with ⟨type, -, hok⟩ | ⟨element, hinner, hnone, herror⟩
    · rw [h] at hok
      cases hok
    · rw [h] at herror
      exact ⟨element, hinner, hnone, Except.error.inj herror⟩
  · rintro ⟨element, hinner, hnone, rfl⟩
    rcases hcases with ⟨type, hdenotes, -⟩ | ⟨element', hinner', -, herror⟩
    · obtain ⟨type', hdenotes'⟩ := ht.denotes_innermost hinner hdenotes
      exact absurd hdenotes' (hnone type')
    · rw [herror, hinner.unique hinner']

/-- Nothing but a result can be void. -/
theorem Registered.not_denotes_void (ht : t.Registered) : ¬ t.Denotes "void" type := by
  intro h
  generalize htext : "void" = text at h
  cases h with
  | named declared =>
    rw [← htext, ht.find?_eq_none (.inr (by decide))] at declared
    cases declared
  | string bound | wstring bound | sequence ne inner => exact absurd (congrArg String.toList htext) (by simp)
  | octets => exact absurd htext (by decide)
  | builtin listed =>
    rw [← htext] at listed
    exact absurd (mem_builtins listed).1 (by decide)

theorem Registered.resolveReturn_eq_ok (ht : t.Registered) {range : FileRange} {target : Path} {text : String}
    {imports : List Import} : t.resolveReturn range target text = .ok (type, imports) ↔
      (normalize text = "void" ∧ type = .void ∧ imports = []) ∨
        (t.Denotes (normalize text) type ∧ imports = t.importsFor target type) := by
  unfold resolveReturn
  split
  · rename_i hvoid
    rw [hvoid]
    refine ⟨fun h => ?_, fun h => ?_⟩
    · cases h
      exact .inl ⟨rfl, rfl, rfl⟩
    · rcases h with ⟨-, rfl, rfl⟩ | ⟨hdenotes, -⟩
      · rfl
      · exact absurd hdenotes ht.not_denotes_void
  · rename_i hvoid
    rw [ht.resolve_eq_ok]
    exact ⟨.inr, fun h => h.resolve_left fun hleft => hvoid hleft.1⟩

end Registered

/-- In a table of declared names, a type text stands for what the rules give for its normal form, with one import at
most, and if they give nothing, the innermost element is reported. Results may be void too. Whatever was compiled and
however it ended, there is no void in what was emitted but for results. -/
theorem types_follow_rules {t : SymbolTable} (ht : t.Registered) (range : FileRange) (target : Path) (text : String) :
    (∀ type imports, t.resolve range target text = .ok (type, imports) ↔
        t.Denotes (normalize text) type ∧ imports = t.importsFor target type) ∧
      (∀ e, t.resolve range target text = .error e ↔ ∃ element, Innermost (normalize text) element ∧
        (∀ type, ¬ t.Denotes element type) ∧ e = .unknownType element range (t.suggestion? element)) ∧
      (∀ type imports, t.resolveReturn range target text = .ok (type, imports) ↔
        (normalize text = "void" ∧ type = .void ∧ imports = []) ∨
          (t.Denotes (normalize text) type ∧ imports = t.importsFor target type)) ∧
      (∀ type, t.Denotes (normalize text) type → type.isValue = true) ∧
      ∀ calls, (Compilation.session calls).symbols.Registered ∧
        ∀ e ∈ (Compilation.session calls).emissions, ∀ d ∈ e.body, d.Valued := by
  refine ⟨fun type imports => ht.resolve_eq_ok, fun e => ht.resolve_eq_error,
    fun type imports => ht.resolveReturn_eq_ok, fun type h => ?_, fun calls => ?_⟩
  · have hok : t.resolve range target text = .ok (type, t.importsFor target type) := ht.resolve_eq_ok.2 ⟨h, rfl⟩
    exact isValue_of_resolve hok
  · have hvalued := Compilation.valued_session calls
    exact ⟨hvalued.registered, hvalued.bodies⟩

/-- Two sequences of a declared name, and of one that is not declared. -/
theorem types_follow_rules_nested :
    declaredOnce.resolve ⟨1, 0, 1⟩ ⟨"b.ts"⟩ "sequence<sequence < T>>" =
        .ok (.array (.array (.named "T")), [⟨"T", "./a"⟩]) ∧
      declaredOnce.resolve ⟨1, 0, 1⟩ ⟨"b.ts"⟩ "sequence<sequence<unsigned U> >" =
        .error (.unknownType "unsigned U" ⟨1, 0, 1⟩ none) := by
  have hname : IsName "T" := by
    show Text.isName _ = true
    decide +kernel
  have ht : declaredOnce.Registered := .declared .empty hname rfl
  constructor
  · have hnormal : normalize "sequence<sequence < T>>" = "sequence<" ++ ("sequence<" ++ "T" ++ ">") ++ ">" := by
      decide +kernel
    have hdeclared : declaredOnce.find? "T" = some ⟨.struct, ⟨"a.idl"⟩, ⟨"a.ts"⟩, ⟨1, 0, 1⟩⟩ := rfl
    refine ((types_follow_rules ht _ _ _).1 _ _).2 ⟨?_, by decide +kernel⟩
    rw [hnormal]
    exact .sequence (by decide) (.sequence (by decide) (.named hdeclared))
  · have hnormal : normalize "sequence<sequence<unsigned U> >" =
        "sequence<" ++ ("sequence<" ++ "unsigned U" ++ ">") ++ ">" := by decide +kernel
    have hfails : (declaredOnce.resolve ⟨1, 0, 1⟩ ⟨"b.ts"⟩ "sequence<sequence<unsigned U> >").toOption = none := by
      decide +kernel
    have hpeeled : Innermost "unsigned U" "unsigned U" := .here fun inner heq => by
      simpa using congrArg String.toList heq
    cases hresolve : declaredOnce.resolve ⟨1, 0, 1⟩ ⟨"b.ts"⟩ "sequence<sequence<unsigned U> >" with
    | ok r =>
      rw [hresolve] at hfails
      cases hfails
    | error e =>
      obtain ⟨element, hinner, -, rfl⟩ := ((types_follow_rules ht _ _ _).2.1 e).1 hresolve
      rw [hnormal] at hinner
      have hsuggestion : declaredOnce.suggestion? "unsigned U" = none := by decide +kernel
      rw [hinner.unique hpeeled.sequence.sequence, hsuggestion]

end SymbolTable

end Idl
