import Idl.Proofs.Edits
import Idl.Proofs.Registrations
import Mathlib.Data.Prod.Lex
import Mathlib.Data.String.Basic
import Mathlib.Order.Bounds.Basic

/-!
# Suggestions

For a type that is not known, a known name is suggested: a built-in type or a declared name that the
text is turned into by two edits at most (`near`). Of these it is the one with the fewest edits, and
then the first one in the order of names, so it does not matter in which order they were declared.

* `suggestion?_eq_some_iff`: what is suggested is the least one of the near names.
* `exists_unknown`: where a type text stands for nothing, it has a part that is no known name. All
  tables of the same names report this part.
* `exists_resolve_of_knows`: a known name stands for something.
* `suggestion_is_nearest`: a suggestion is the nearest known name. It is another text than the one
  reported, and stands for something.
-/

namespace Idl.SymbolTable

open TypeText

/-- A name that a type can have: that of a built-in type, or a declared one. -/
def Knows (t : SymbolTable) (name : String) : Prop := name ∈ builtins ∨ name ∈ t.names

/-- The known names within two edits of a text, each with the least number of edits that turn the text
into it. The order is by the number of edits, and then by the name. -/
def near (t : SymbolTable) (text : String) : Set (Nat ×ₗ String) :=
  {p | t.Knows (ofLex p).2 ∧ IsLeast {n | Text.Edits n text.toList (ofLex p).2.toList} (ofLex p).1 ∧ (ofLex p).1 ≤ 2}

/-! ## The best candidate -/

theorem toLex_better (a b : Nat × String) : toLex (better a b) = min (toLex a) (toLex b) := by
  by_cases h : b.1 < a.1 ∨ b.1 = a.1 ∧ b.2 < a.2
  · rw [better, if_pos h, min_eq_right (le_of_lt (Prod.Lex.toLex_lt_toLex.2 h))]
  · rw [better, if_neg h, min_eq_left (not_lt.1 (mt Prod.Lex.toLex_lt_toLex.1 h))]

theorem toLex_foldl_better (a : Nat × String) (rest : List (Nat × String)) :
    toLex (rest.foldl better a) = (rest.map toLex).foldl min (toLex a) := by
  induction rest generalizing a with
  | nil => rfl
  | cons b rest ih => rw [List.foldl_cons, ih, List.map_cons, List.foldl_cons, toLex_better]

/-- The best candidate is the least one. -/
theorem map_toLex_best? (candidates : List (Nat × String)) :
    (best? candidates).map toLex = (candidates.map toLex).min? := by
  cases candidates with
  | nil => rfl
  | cons a rest => rw [best?, List.map_cons, List.min?_cons', Option.map_some, toLex_foldl_better]

theorem best?_eq_some_iff {candidates : List (Nat × String)} {a : Nat × String} :
    best? candidates = some a ↔ a ∈ candidates ∧ ∀ b ∈ candidates, toLex a ≤ toLex b := by
  rw [← (Option.map_injective toLex.injective).eq_iff, map_toLex_best?, Option.map_some, List.min?_eq_some_iff,
    List.mem_map_of_injective toLex.injective, List.forall_mem_map]

theorem best?_eq_none_iff {candidates : List (Nat × String)} : best? candidates = none ↔ candidates = [] := by
  cases candidates <;> simp [best?]

/-! ## What is suggested -/

section Suggestion

variable {t u : SymbolTable} {text name : String}

theorem toLex_mem_near {p : Nat × String} : toLex p ∈ t.near text ↔
    p ∈ ((builtins ++ t.names).map fun name => (Text.editDistance text.toList name.toList, name)).filter
      (·.1 ≤ nearness) := by
  constructor
  · rintro ⟨hknows, hleast, hle⟩
    have hdistance := (Text.isLeast_editDistance text.toList p.2.toList).unique hleast
    exact List.mem_filter.2 ⟨List.mem_map.2 ⟨p.2, List.mem_append.2 hknows, Prod.ext hdistance rfl⟩, decide_eq_true hle⟩
  · intro h
    obtain ⟨hcandidate, hle⟩ := List.mem_filter.1 h
    obtain ⟨name, hname, rfl⟩ := List.mem_map.1 hcandidate
    exact ⟨List.mem_append.1 hname, Text.isLeast_editDistance text.toList name.toList, of_decide_eq_true hle⟩

/-- What is suggested is the least one of the near names. -/
theorem suggestion?_eq_some_iff :
    t.suggestion? text = some name ↔ ∃ n, IsLeast (t.near text) (toLex (n, name)) := by
  rw [suggestion?, Option.map_eq_some_iff]
  constructor
  · rintro ⟨⟨n, name⟩, hbest, rfl⟩
    obtain ⟨hmem, hleast⟩ := best?_eq_some_iff.1 hbest
    exact ⟨n, toLex_mem_near.2 hmem, fun p hp => hleast (ofLex p) (toLex_mem_near.1 hp)⟩
  · rintro ⟨n, hmem, hleast⟩
    exact ⟨(n, name), best?_eq_some_iff.2 ⟨toLex_mem_near.1 hmem, fun b hb => hleast (toLex_mem_near.2 hb)⟩, rfl⟩

/-- Something is suggested if a name is near. -/
theorem isSome_suggestion?_iff : (t.suggestion? text).isSome ↔ (t.near text).Nonempty := by
  constructor
  · intro h
    obtain ⟨name, hname⟩ := Option.isSome_iff_exists.1 h
    obtain ⟨n, hmem, -⟩ := suggestion?_eq_some_iff.1 hname
    exact ⟨_, hmem⟩
  · rintro ⟨p, hp⟩
    rw [suggestion?, Option.isSome_map, Option.isSome_iff_ne_none, Ne, best?_eq_none_iff]
    exact List.ne_nil_of_mem (toLex_mem_near.1 hp)

/-- Tables of the same names suggest the same. -/
theorem suggestion?_congr (h : ∀ name, name ∈ u.names ↔ name ∈ t.names) (text : String) :
    u.suggestion? text = t.suggestion? text := by
  have hnear : u.near text = t.near text := by
    ext p
    simp only [near, Knows, h]
  ext name
  rw [suggestion?_eq_some_iff, suggestion?_eq_some_iff, hnear]

end Suggestion

/-! ## What stands for nothing -/

section Unknown

variable {t u : SymbolTable} {range : FileRange} {target : Path} {cs : List Char} {e : Error}

theorem resolveNormal_eq_error_iff {inner : List Char → Except Error (ScriptType × List Import)} :
    t.resolveNormal range target inner cs = .error e ↔
      t.find? (String.ofList cs) = none ∧
        ¬((argument? "string" cs).isSome ∨ (argument? "wstring" cs).isSome) ∧ cs ≠ "sequence<octet>".toList ∧
        ((∃ element, argument? "sequence" cs = some element ∧ inner element = .error e) ∨
          argument? "sequence" cs = none ∧ builtin? (String.ofList cs) = none ∧
            e = .unknownType (String.ofList cs) range (t.suggestion? (String.ofList cs))) := by
  rw [resolveNormal]
  constructor
  · intro h
    split at h
    · cases h
    rename_i hfind
    split at h
    · cases h
    rename_i hstring
    split at h
    · cases h
    rename_i hoctets
    refine ⟨hfind, hstring, hoctets, ?_⟩
    split at h
    · rename_i element hargument
      cases hinner : inner element with
      | ok r =>
        rw [hinner] at h
        cases h
      | error e' =>
        rw [hinner] at h
        cases h
        exact .inl ⟨element, hargument, hinner⟩
    · rename_i hargument
      split at h
      · cases h
      · rename_i hbuiltin
        cases h
        exact .inr ⟨hargument, hbuiltin, rfl⟩
  · rintro ⟨hfind, hstring, hoctets, ⟨element, hargument, hinner⟩ | ⟨hargument, hbuiltin, rfl⟩⟩
    · simp only [hfind, if_neg hstring, if_neg hoctets, hargument, hinner]
      rfl
    · simp only [hfind, if_neg hstring, if_neg hoctets, hargument, hbuiltin]

theorem resolveChars_eq_error_iff :
    t.resolveChars range target cs = .error e ↔
      t.find? (String.ofList cs) = none ∧
        t.resolveNormal range target (t.resolveChars range target) (normalChars cs) = .error e := by
  cases hfind : t.find? (String.ofList cs) with
  | none => simp only [resolveChars_of_find?_eq_none range target hfind, true_and]
  | some symbol =>
    rw [resolveChars, hfind]
    simp

/-- A built-in type is written as it is read, it is no sequence, and it stands for something. -/
theorem builtins_resolve : ∀ name ∈ builtins,
    normalChars name.toList = name.toList ∧ argument? "sequence" name.toList = none ∧ (builtin? name).isSome := by
  decide

/-- Where a type text stands for nothing, it has a part that is no known name. All tables of the same names report
this part. -/
theorem exists_unknown (h : t.resolveChars range target cs = .error e) :
    ∃ text, ¬ t.Knows text ∧ ∀ u : SymbolTable, (∀ name, name ∈ u.names ↔ name ∈ t.names) → ∀ range target,
      u.resolveChars range target cs = .error (.unknownType text range (u.suggestion? text)) := by
  have hsame {u : SymbolTable} (hu : ∀ name, name ∈ u.names ↔ name ∈ t.names) {name : String}
      (hname : t.find? name = none) : u.find? name = none := by
    rw [find?_eq_none_iff] at hname ⊢
    rwa [hu]
  induction hn : cs.length using Nat.strongRecOn generalizing cs with
  | _ n ih =>
    subst hn
    obtain ⟨hraw, hnormal⟩ := resolveChars_eq_error_iff.1 h
    obtain ⟨hfind, hstring, hoctets, hrest⟩ := resolveNormal_eq_error_iff.1 hnormal
    -- what is reported lies in the element of a sequence, or else it is the whole text
    rcases hrest with ⟨element, hargument, hinner⟩ | ⟨hargument, hbuiltin, -⟩
    · have hlength := Nat.lt_of_lt_of_le (length_argument?_lt hargument) (length_normalChars_le cs)
      obtain ⟨text, hunknown, hall⟩ := ih element.length hlength hinner rfl
      refine ⟨text, hunknown, fun u hu range target => ?_⟩
      have helement := hall u hu range target
      exact resolveChars_eq_error_iff.2 ⟨hsame hu hraw,
        resolveNormal_eq_error_iff.2 ⟨hsame hu hfind, hstring, hoctets, .inl ⟨element, hargument, helement⟩⟩⟩
    · refine ⟨String.ofList (normalChars cs), ?_, fun u hu range target => ?_⟩
      · rintro (hlisted | hdeclared)
        · have hsome := (builtins_resolve _ hlisted).2.2
          rw [hbuiltin] at hsome
          cases hsome
        · exact find?_eq_none_iff.1 hfind hdeclared
      · exact resolveChars_eq_error_iff.2 ⟨hsame hu hraw,
          resolveNormal_eq_error_iff.2 ⟨hsame hu hfind, hstring, hoctets, .inr ⟨hargument, hbuiltin, rfl⟩⟩⟩

/-- A known name stands for something. -/
theorem exists_resolve_of_knows {name : String} (h : t.Knows name) (range : FileRange) (target : Path) :
    ∃ r, t.resolve range target name = .ok r := by
  cases hresolve : t.resolve range target name with
  | ok r => exact ⟨r, rfl⟩
  | error e =>
    obtain ⟨hraw, hnormal⟩ := resolveChars_eq_error_iff.1 hresolve
    rw [String.ofList_toList, find?_eq_none_iff] at hraw
    obtain ⟨hwritten, hargument, hsome⟩ := builtins_resolve name (h.resolve_right hraw)
    rw [hwritten] at hnormal
    obtain ⟨-, -, -, ⟨element, helement, -⟩ | ⟨-, hbuiltin, -⟩⟩ := resolveNormal_eq_error_iff.1 hnormal
    · rw [hargument] at helement
      cases helement
    · rw [String.ofList_toList] at hbuiltin
      rw [hbuiltin] at hsome
      cases hsome

end Unknown

/-- Where a type is not known, something is suggested if a known name is within two edits of it. It is the nearest one
of these names, by the number of edits and then in the order of names. It is another text than the one reported, and
stands for something. Whatever the order in which the same names were declared, the same is reported. -/
theorem suggestion_is_nearest {t : SymbolTable} {range range' : FileRange} {target : Path} {text type : String}
    {suggestion : Option String} (h : t.resolve range target text = .error (.unknownType type range' suggestion)) :
    (suggestion.isSome ↔ (t.near type).Nonempty) ∧
      (∀ name, suggestion = some name → (∃ n, IsLeast (t.near type) (toLex (n, name))) ∧ name ≠ type ∧
        ∀ range target, ∃ r, t.resolve range target name = .ok r) ∧
      ∀ u : SymbolTable, (∀ name, name ∈ u.names ↔ name ∈ t.names) → ∀ range target,
        u.resolve range target text = .error (.unknownType type range suggestion) := by
  obtain ⟨part, hunknown, hall⟩ := exists_unknown h
  have hown := hall t (fun _ => Iff.rfl) range target
  obtain ⟨rfl, rfl, rfl⟩ : type = part ∧ range' = range ∧ suggestion = t.suggestion? type := by
    rw [resolve, hown] at h
    cases h
    exact ⟨rfl, rfl, rfl⟩
  refine ⟨isSome_suggestion?_iff, fun name hname => ?_, fun u hu range target => ?_⟩
  · obtain ⟨n, hleast⟩ := suggestion?_eq_some_iff.1 hname
    have hknows : t.Knows name := hleast.1.1
    refine ⟨⟨n, hleast⟩, ?_, exists_resolve_of_knows hknows⟩
    rintro rfl
    exact hunknown hknows
  · rw [resolve, hall u hu range target, suggestion?_congr hu]

/-- Two names that are equally near to a misspelled one. -/
def lookalikes : List (String × Symbol) :=
  [("Point", ⟨.struct, ⟨"p.idl"⟩, ⟨"p.ts"⟩, ⟨1, 7, 12⟩⟩), ("Paint", ⟨.enum, ⟨"p.idl"⟩, ⟨"p.ts"⟩, ⟨1, 20, 25⟩⟩)]

/-- The first one of two equally near names is suggested for the element of a sequence, also if they are declared the
other way round. -/
theorem suggestion_is_nearest_lookalikes :
    (Compilation.empty.registering lookalikes).symbols.resolve ⟨1, 40, 45⟩ ⟨"p.ts"⟩ "sequence< Piont >" =
        .error (.unknownType "Piont" ⟨1, 40, 45⟩ (some "Paint")) ∧
      (∃ n, IsLeast ((Compilation.empty.registering lookalikes).symbols.near "Piont") (toLex (n, "Paint"))) ∧
      (Compilation.empty.registering lookalikes.reverse).symbols.resolve ⟨1, 40, 45⟩ ⟨"p.ts"⟩ "sequence< Piont >" =
        .error (.unknownType "Piont" ⟨1, 40, 45⟩ (some "Paint")) := by
  have hreported : (Compilation.empty.registering lookalikes).symbols.resolve ⟨1, 40, 45⟩ ⟨"p.ts"⟩ "sequence< Piont >" =
      .error (.unknownType "Piont" ⟨1, 40, 45⟩ (some "Paint")) := by decide +kernel
  have hnames : (Compilation.empty.registering lookalikes).symbols.names = ["Paint", "Point"] := by decide +kernel
  have hreversed : (Compilation.empty.registering lookalikes.reverse).symbols.names = ["Point", "Paint"] := by
    decide +kernel
  obtain ⟨-, hnearest, horder⟩ := suggestion_is_nearest hreported
  refine ⟨hreported, (hnearest "Paint" rfl).1, horder _ (fun name => ?_) _ _⟩
  rw [hnames, hreversed, List.mem_pair, List.mem_pair, or_comm]

end Idl.SymbolTable
