import Idl.Proofs.Resolution

/-!
# How types are written

In the generated code a word is a built-in type if it is the name of one, and else a declared name
(`ScriptType.ofWord`). So a type is read as it was written, unless a declared name is spelled like a
built-in type (`ScriptType.reread`). Two types are written alike just when they are read alike.

The names that cannot be declared are those of the types in the sources. They cover `string`,
`boolean`, `any` and `void`, but neither `number` nor `Buffer`.

* `ScriptType.Named.text_eq_iff`: two types are written alike if and only if they are read alike.
* `SymbolTable.Registered.text_injective_iff`: the text tells the type if and only if neither
  `number` nor `Buffer` is declared.
-/

namespace Idl

namespace ScriptType

/-! ## Types as they are read -/

/-- The built-in types of the generated code. -/
def words : List ScriptType := [.number, .string, .boolean, .buffer, .any, .void]

/-- What a word of the generated code is: a built-in type, or else a declared name. -/
def ofWord (word : String) : ScriptType := (words.find? (·.text = word)).getD (.named word)

/-- What is read where the type is written. -/
def reread : ScriptType → ScriptType
  | .array element => .array element.reread
  | type => ofWord type.text

theorem text_ofWord (word : String) : (ofWord word).text = word := by
  rw [ofWord]
  cases hfind : words.find? (·.text = word) with
  | none => rfl
  | some type => simpa using List.find?_some hfind

theorem ofWord_eq_named {word : String} (h : ∀ type ∈ words, type.text ≠ word) : ofWord word = .named word := by
  have hnone : words.find? (·.text = word) = none := by
    apply List.find?_eq_none.2
    intro type hmem
    simpa using h type hmem
  rw [ofWord, hnone, Option.getD_none]

@[simp]
theorem text_reread (type : ScriptType) : type.reread.text = type.text := by
  induction type with
  | array element ih => rw [reread, text, text, ih]
  | number | string | boolean | buffer | any | void | named name => exact text_ofWord _

/-- What is not an array is written as one word. -/
theorem reread_cases (type : ScriptType) : (∃ element, type = .array element) ∨ type.reread = ofWord type.text := by
  cases type with
  | array element => exact .inl ⟨element, rfl⟩
  | number | string | boolean | buffer | any | void | named name => exact .inr rfl

/-- A type is read as it was written if no name in it is spelled like a built-in type. -/
theorem reread_eq_self {type : ScriptType} (h : ∀ name ∈ type.names, ∀ word ∈ words, word.text ≠ name) :
    type.reread = type := by
  induction type with
  | array element ih => rw [reread, ih h]
  | named name => exact ofWord_eq_named (h name (List.mem_singleton.2 rfl))
  | number | string | boolean | buffer | any | void => simp [reread, ofWord, words, text]

section Named

variable {type type' element : ScriptType}

/-- Only arrays are written like arrays. -/
theorem Named.exists_array (h : type.Named) (heq : type.text = (array element).text) :
    ∃ element', type = .array element' ∧ element'.text = element.text := by
  have hbracket : '<' ∈ type.text.toList := by simp [heq, text]
  cases type with
  | array element' =>
    refine ⟨element', rfl, ?_⟩
    simpa [text, ← String.toList_inj] using heq
  | named name => exact absurd hbracket ((h name (List.mem_singleton.2 rfl)).notMem (by decide))
  | number | string | boolean | buffer | any | void => simp [text] at hbracket

theorem Named.reread_eq (h : type.Named) (h' : type'.Named) (heq : type.text = type'.text) :
    type.reread = type'.reread := by
  induction type' generalizing type with
  | array element ih =>
    obtain ⟨element', rfl, helement⟩ := h.exists_array heq
    have hnamed : element'.Named := h
    rw [reread, reread, ih hnamed h' helement]
  | number | string | boolean | buffer | any | void | named name =>
    obtain ⟨element, rfl⟩ | hword := type.reread_cases
    · obtain ⟨_, harray, -⟩ := h'.exists_array heq.symm
      cases harray
    · rw [hword, heq]
      rfl

/-- Two types are written alike if and only if they are read alike. -/
theorem Named.text_eq_iff (h : type.Named) (h' : type'.Named) :
    type.text = type'.text ↔ type.reread = type'.reread := by
  constructor
  · exact h.reread_eq h'
  · intro heq
    rw [← text_reread type, heq, text_reread]

end Named

end ScriptType

namespace SymbolTable

/-! ## Types that occur -/

/-- The type is what a type text stands for, or the type of a result. -/
def Occurs (t : SymbolTable) (type : ScriptType) : Prop :=
  ∃ range target text imports,
    t.resolve range target text = .ok (type, imports) ∨ t.resolveReturn range target text = .ok (type, imports)

section Occurs

variable {t : SymbolTable} {type : ScriptType}

theorem Occurs.found (h : t.Occurs type) : ∀ name ∈ type.names, (t.find? name).isSome = true := by
  obtain ⟨range, target, text, imports, hresolve | hresolve⟩ := h
  · exact (resolves_of_resolve hresolve).found
  · exact (resolves_of_resolveReturn hresolve).found

theorem Occurs.named (ht : t.Registered) (h : t.Occurs type) : type.Named := by
  intro name hname
  obtain ⟨symbol, hsymbol⟩ := Option.isSome_iff_exists.1 (h.found name hname)
  exact ht.named.isName_of_find? hsymbol

/-- A type occurs if it stands for a text in normal form. -/
theorem Registered.occurs (ht : t.Registered) (text : String) (hnormal : TypeText.normalize text = text)
    (h : t.Denotes text type) : t.Occurs type := by
  refine ⟨⟨1, 0, 0⟩, ⟨""⟩, text, t.importsFor ⟨""⟩ type, .inl (ht.resolve_eq_ok.2 ⟨?_, rfl⟩)⟩
  rw [hnormal]
  exact h

/-- Of the built-in types of the generated code, only `number` and `Buffer` can be declared. -/
theorem Registered.declared_word (ht : t.Registered) {word : ScriptType} (hword : word ∈ ScriptType.words)
    (h : (t.find? word.text).isSome = true) : word.text = "number" ∨ word.text = "Buffer" := by
  have hall : ∀ word ∈ ScriptType.words,
      (word.text = "number" ∨ word.text = "Buffer") ∨ word.text ∈ builtins ∨ word.text ∈ reserved := by
    simp [ScriptType.words, ScriptType.text, builtins, reserved]
  obtain hfree | hreserved := hall word hword
  · exact hfree
  · rw [ht.find?_eq_none hreserved] at h
    cases h

/-- Where neither `number` nor `Buffer` is declared, every type is read as it was written. -/
theorem Occurs.reread_eq_self (ht : t.Registered) (hnumber : t.find? "number" = none)
    (hbuffer : t.find? "Buffer" = none) (h : t.Occurs type) : type.reread = type := by
  apply ScriptType.reread_eq_self
  rintro name hname word hword rfl
  have hfound := h.found _ hname
  obtain heq | heq := ht.declared_word hword hfound
  · rw [heq, hnumber] at hfound
    cases hfound
  · rw [heq, hbuffer] at hfound
    cases hfound

/-- The text tells the type if and only if neither `number` nor `Buffer` is declared. -/
theorem Registered.text_injective_iff (ht : t.Registered) :
    (∀ type type', t.Occurs type → t.Occurs type' → type.text = type'.text → type = type') ↔
      t.find? "number" = none ∧ t.find? "Buffer" = none := by
  constructor
  · intro h
    -- A declared name occurs as itself, and the type `long` or `sequence<octet>` occurs in any case.
    constructor
    · have hnumber : t.Occurs .number := ht.occurs "long" (by decide) (.builtin (by decide))
      cases hfind : t.find? "number" with
      | none => rfl
      | some symbol => cases h _ _ hnumber (ht.occurs "number" (by decide) (.named hfind)) rfl
    · have hbuffer : t.Occurs .buffer := ht.occurs "sequence<octet>" (by decide) .octets
      cases hfind : t.find? "Buffer" with
      | none => rfl
      | some symbol => cases h _ _ hbuffer (ht.occurs "Buffer" (by decide) (.named hfind)) rfl
  · rintro ⟨hnumber, hbuffer⟩ type type' h h' heq
    have hread := ((h.named ht).text_eq_iff (h'.named ht)).1 heq
    rwa [h.reread_eq_self ht hnumber hbuffer, h'.reread_eq_self ht hnumber hbuffer] at hread

end Occurs

end SymbolTable

namespace Compilation

/-! ## Types of a compilation -/

/-- Whatever was compiled, two types are written alike if and only if they are read alike, and the text tells the
type if and only if neither `number` nor `Buffer` was declared. -/
theorem types_written_apart (calls : List Call) :
    (∀ type type', (session calls).symbols.Occurs type → (session calls).symbols.Occurs type' →
      (type.text = type'.text ↔ type.reread = type'.reread)) ∧
    ((∀ type type', (session calls).symbols.Occurs type → (session calls).symbols.Occurs type' →
        type.text = type'.text → type = type') ↔
      (session calls).symbols.find? "number" = none ∧ (session calls).symbols.find? "Buffer" = none) := by
  have ht := (valued_session calls).registered
  refine ⟨fun type type' h h' => ?_, ht.text_injective_iff⟩
  exact (h.named ht).text_eq_iff (h'.named ht)

/-- A structure with bytes in it, and sequences of the structure. -/
def bytesSources : Sources where
  texts := [(⟨"m.idl"⟩, "struct B \x7b sequence<octet> a; \x7d;\ntypedef sequence<B> Bs;\n")]
  failure _ := ""

/-- The structure, its sequences and the buffers are all told apart. -/
theorem types_written_apart_bytes :
    (session [.compile bytesSources ⟨"m.idl"⟩]).symbols.Occurs (.array (.named "B")) ∧
      ∀ type type', (session [.compile bytesSources ⟨"m.idl"⟩]).symbols.Occurs type →
        (session [.compile bytesSources ⟨"m.idl"⟩]).symbols.Occurs type' → type.text = type'.text → type = type' := by
  have ht := (valued_session [.compile bytesSources ⟨"m.idl"⟩]).registered
  have hsymbols : (session [.compile bytesSources ⟨"m.idl"⟩]).symbols =
      ⟨[("Bs", ⟨.typedef, ⟨"m.idl"⟩, ⟨"m.ts"⟩, ⟨1, 53, 55⟩⟩), ("B", ⟨.struct, ⟨"m.idl"⟩, ⟨"m.ts"⟩, ⟨1, 7, 8⟩⟩)]⟩ := by
    decide +kernel
  constructor
  · apply ht.occurs ("sequence<" ++ "B" ++ ">") (by decide +kernel)
    rw [hsymbols]
    exact .sequence (by decide) (.named rfl)
  · apply (types_written_apart _).2.2
    rw [hsymbols]
    decide +kernel

/-- A structure that is named like the type of its neighbour's first field. -/
def bufferSources : Sources where
  texts := [(⟨"m.idl"⟩, "struct Buffer \x7b long x; \x7d;\nstruct S \x7b sequence<octet> a; Buffer b; \x7d;\n")]
  failure _ := ""

/-- The bytes and the structure are written alike. -/
theorem declared_buffer_written_alike :
    (outcome (compileFile bufferSources ⟨"m.idl"⟩) .empty).1.isOk = true ∧
      (outcome (compileFile bufferSources ⟨"m.idl"⟩) .empty).2.finish.1 =
        [⟨⟨"m.ts"⟩, some ("export interface Buffer \x7b\n    x: number;\n\x7d\n" ++
          "export interface S \x7b\n    a: Buffer;\n    b: Buffer;\n\x7d\n")⟩] ∧
      (session [.compile bufferSources ⟨"m.idl"⟩]).symbols.Occurs .buffer ∧
      (session [.compile bufferSources ⟨"m.idl"⟩]).symbols.Occurs (.named "Buffer") ∧
      ScriptType.buffer.text = (ScriptType.named "Buffer").text := by
  have ht := (valued_session [.compile bufferSources ⟨"m.idl"⟩]).registered
  refine ⟨by decide +kernel, by decide +kernel, ht.occurs "sequence<octet>" (by decide +kernel) .octets, ?_, rfl⟩
  have hdeclared : (session [.compile bufferSources ⟨"m.idl"⟩]).symbols.find? "Buffer" =
      some ⟨.struct, ⟨"m.idl"⟩, ⟨"m.ts"⟩, ⟨1, 7, 13⟩⟩ := by decide +kernel
  exact ht.occurs "Buffer" (by decide +kernel) (.named hdeclared)

end Compilation

end Idl
