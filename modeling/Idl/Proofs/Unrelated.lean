import Idl.Proofs.Batches
import Idl.Proofs.Prepending
import Idl.Proofs.Transfers
import Mathlib.Data.List.Nodup

/-!
# Unrelated includes

An include of a file that has nothing to do with the rest can be put in front of a file: the outputs stay as they are,
and those of the included file are added.

* `Mirrors.exchange`: a run after nothing is nothing after a run.
* `Output.perm_ofEmissions_append`: what is emitted to different targets makes different outputs.
* `unrelated_include`: the outputs of a file with an unrelated include in front of it.
-/

namespace Idl

open Relation

/-! ## Outputs of two runs -/

namespace Output

variable {es fs : List Emission}

theorem filter_target_eq_nil {target : Path} (h : ∀ e ∈ es, e.target ≠ target) :
    es.filter (·.target = target) = [] := by
  rw [List.filter_eq_nil_iff]
  intro e he heq
  exact h e he (of_decide_eq_true heq)

theorem mem_ofEmissions_append (hes : ∀ e ∈ es, e.target = .ofComponents e.target.components)
    (hfs : ∀ f ∈ fs, f.target = .ofComponents f.target.components)
    (apart : ∀ e ∈ es, ∀ f ∈ fs, e.target ≠ f.target) {o : Output} :
    o ∈ ofEmissions (es ++ fs) ↔ o ∈ ofEmissions es ∨ o ∈ ofEmissions fs := by
  have hleft : ∀ e ∈ es, (es ++ fs).filter (·.target = e.target) = es.filter (·.target = e.target) := by
    intro e he
    rw [List.filter_append, filter_target_eq_nil fun f hf => (apart e he f hf).symm, List.append_nil]
  have hright : ∀ f ∈ fs, (es ++ fs).filter (·.target = f.target) = fs.filter (·.target = f.target) := by
    intro f hf
    rw [List.filter_append, filter_target_eq_nil fun e he => apart e he f hf, List.nil_append]
  rw [mem_ofEmissions_iff (List.forall_mem_append.2 ⟨hes, hfs⟩), mem_ofEmissions_iff hes, mem_ofEmissions_iff hfs]
  constructor
  · rintro ⟨e, he, rfl⟩
    rcases List.mem_append.1 he with he | he
    · exact .inl ⟨e, he, by rw [hleft e he]⟩
    · exact .inr ⟨e, he, by rw [hright e he]⟩
  · rintro (⟨e, he, rfl⟩ | ⟨e, he, rfl⟩)
    · exact ⟨e, List.mem_append_left _ he, by rw [hleft e he]⟩
    · exact ⟨e, List.mem_append_right _ he, by rw [hright e he]⟩

theorem nodup_ofEmissions (es : List Emission) : (ofEmissions es).Nodup := (nodup_paths es).of_map _

/-- What is emitted to different targets makes different outputs. -/
theorem perm_ofEmissions_append (hes : ∀ e ∈ es, e.target = .ofComponents e.target.components)
    (hfs : ∀ f ∈ fs, f.target = .ofComponents f.target.components)
    (apart : ∀ e ∈ es, ∀ f ∈ fs, e.target ≠ f.target) :
    (ofEmissions (es ++ fs)).Perm (ofEmissions es ++ ofEmissions fs) := by
  rw [List.perm_ext_iff_of_nodup (nodup_ofEmissions _)]
  · intro o
    rw [List.mem_append, mem_ofEmissions_append hes hfs apart]
  · refine (nodup_ofEmissions es).append (nodup_ofEmissions fs) fun o ho ho' => ?_
    obtain ⟨e, he, rfl⟩ := (mem_ofEmissions_iff hes).1 ho
    obtain ⟨f, hf, heq⟩ := (mem_ofEmissions_iff hfs).1 ho'
    exact apart e he f hf (congrArg Output.path heq)

end Output

/-! ## A line in front -/

/-- The kind of the first token of a text. -/
def Token.firstKind? (text : String) : Option Kind :=
  match first (text.toList.dropWhile isGap) with
  | .token kind _ _ => some kind
  | _ => none

theorem Token.firstKind?_of_ofSource {file : Nat} {text : String} {tokens : List Token}
    (h : ofSource file text = .ok tokens) : firstKind? text = tokens.head?.map (·.kind) := by
  rw [ofSource, scan_eq] at h
  rw [firstKind?]
  split at h <;> rename_i hfirst <;> rw [hfirst]
  · cases h
    rfl
  · cases h
  · obtain ⟨rest, -, heq⟩ := Except.bind_eq_ok.1 h
    cases heq
    rfl

/-- A text that does not start with a comment has no comment as its first token. -/
theorem Token.isComment_head {file : Nat} {text : String} {tokens : List Token} (h : ofSource file text = .ok tokens)
    (bare : ∀ kind ∈ firstKind? text, kind.isComment = false) : ∀ token ∈ tokens.head?, token.kind.isComment = false := by
  intro token htoken
  apply bare
  rw [firstKind?_of_ofSource h]
  exact Option.mem_map_of_mem _ htoken

/-- The sources with another text at one path. -/
def Sources.put (sources : Sources) (path : Path) (text : String) : Sources :=
  { sources with texts := (path, text) :: sources.texts }

@[simp]
theorem Sources.lookup_put_self (sources : Sources) (path : Path) (text : String) :
    (sources.put path text).texts.lookup path = some text := by
  simp [put]

theorem Sources.lookup_put_of_ne (sources : Sources) {path p : Path} (text : String) (h : p ≠ path) :
    (sources.put path text).texts.lookup p = sources.texts.lookup p := by
  have hbeq : (p == path) = false := by simpa using h
  simp [put, List.lookup_cons, hbeq]

namespace Compilation

variable {sources : Sources} {root q : Path} {written text : String} {s u t : Compilation} {body other : List Event}

/-- A run after nothing is nothing after a run. -/
theorem Mirrors.exchange {library : Library} {stack : List Path} (h : Mirrors .identity (starting stack) u t)
    (hu : u.compiling = []) (hs : Quiet { starting stack with library } s) : Mirrors .identity u s t := by
  refine Mirrors.of_quiet ?_ hs
  refine ⟨⟨?_, ?_, h.symbols.names, h.symbols.declarable⟩, ?_, ?_, fun _ _ => trivial, ?_, ?_⟩
  · simpa [SymbolTable.outline, starting, Compilation.empty, SymbolTable.empty] using h.symbols.outline_eq
  · simp [starting, Compilation.empty, SymbolTable.empty]
  · simpa [starting, Compilation.empty, Defines.names, Defines.empty] using h.defines
  · simpa [starting, Compilation.empty] using h.emissions
  · simpa [starting, Compilation.empty] using h.compiled
  · simpa [starting, hu] using h.compiling

/-- A file that is compiled apart from everything else can be included while another one is being compiled. -/
theorem FileTraced.carried_within (h : FileTraced sources q .empty other u) (hroot : root ∉ u.compiled)
    (line : String) (ht : Mirrors .identity (starting [root]) .empty t) (origin : Option FileRange) :
    Attains (compile (sources.put root line) origin q) t (Event.declarations other)
      (Mirrors .identity (starting [root]) u) := by
  have hne : ∀ p ∈ u.compiled, p ≠ root := fun p hp heq => hroot (heq ▸ hp)
  have hclear : Clear .identity (starting [root]) sources (sources.put root line) u := by
    refine ⟨?_, ?_, fun _ _ => trivial, fun p hp => ?_, fun p hp => ?_, fun _ _ => trivial⟩
    · simp [starting, Compilation.empty, SymbolTable.names, SymbolTable.empty]
    · simp [starting, Compilation.empty, Defines.names, Defines.empty]
    · simpa [starting, Compilation.empty] using hne p hp
    · exact sources.lookup_put_of_ne line (hne p hp)
  exact h.carried rfl hclear (by simp [starting, Compilation.empty, Defines.names, Defines.empty]) ht origin

/-- Nothing of a run that has nothing in common with another one is in the way of it. -/
structure Unrelated (u s : Compilation) (events : List Event) : Prop where
  files : ∀ p ∈ s.compiled, p ∉ u.compiled
  symbols : ∀ name ∈ s.symbols.names, name ∉ u.symbols.names
  defines : ∀ name ∈ s.defines.names, name ∉ u.defines.names
  tested : ∀ name ∈ Event.testedAll events, name ∉ u.defines.names

theorem Unrelated.clear (h : Unrelated u s body) (hu : u.compiling = []) (hc : Continues t s)
    (hroot : root ∉ t.compiled) (line : String) : Clear .identity u sources (sources.put root line) t where
  symbols name hname := h.symbols name (hc.symbols hname)
  defines name hname := h.defines name (hc.defines hname)
  files _ _ := trivial
  new p hp := ⟨h.files p (hc.compiled.subset hp), by simp [hu]⟩
  texts _ hp := sources.lookup_put_of_ne line fun heq => hroot (heq ▸ hp)
  leads _ _ := trivial

/-- A file is compiled with an include of an unrelated file in front of it. -/
theorem FileTraced.carried_behind (hroot : FileTraced sources root .empty body s)
    (hfile : FileTraced sources q .empty other u) (hq : included root written = q)
    (read : sources.texts.lookup root = some text) (plain : Token.IsPlain written.toList)
    (inLine : ∀ c ∈ written.toList, c ≠ '"' ∧ Token.isLineEnd c = false)
    (bare : ∀ kind ∈ Token.firstKind? text, kind.isComment = false) (apart : Unrelated u s body)
    (ht : Quiet .empty t) :
    Attains (compile (sources.put root (includeLine written ++ text)) none root) t
      (Event.declarations body) (Mirrors .identity u s) := by
  have hmem := apart.files root hroot.mem_compiled
  have hne : q ≠ root := fun heq => hmem (heq ▸ hfile.mem_compiled)
  have hu : u.compiling = [] := hfile.compiling_eq
  obtain ⟨items, s₁, s₂, opens, within, closes⟩ := hroot
  have hstack : s₁.compiling = [root] := opens.compiling_eq
  have hopen := opens.open_of_fresh (List.forall_mem_nil _)
  have hlast : root ∉ s₂.compiled := within.notMem_compiled (by simp [hstack]) (hopen root (by simp [hstack]))
  have hsound := opens.items_sound
  obtain @⟨text', tokens, _, -, hapart, hread, hlexed, hquiet⟩ := opens
  obtain rfl : text' = text := Option.some.inj (hread.symm.trans read)
  obtain ⟨log, rfl⟩ := ht
  obtain ⟨tokens', head, range, σ, hlexed', hitems⟩ :=
    Item.ofTokens_include plain inLine hlexed (Token.isComment_head hlexed bare)
  refine (attains_compile_of_notMem (s := { Compilation.empty with log }) (P := Mirrors .identity u s₂) none
    List.not_mem_nil List.not_mem_nil hapart (sources.lookup_put_self ..) hlexed' fun t ht => ?_).mono ?_
  · rw [hitems, declareAll]
    -- first the unrelated file, after nothing, then the items of the file, after the unrelated one
    refine Attains.bind (P := Mirrors .identity (starting [root]) u) (a := []) ?_ fun t₁ h₁ => ?_
    · refine attains_include (mirrors_empty [root] ht) hq fun t ht =>
        ⟨?_, _, hfile.carried_within hmem _ ht (some range)⟩
      rw [ht.compiling]
      simpa [starting, Compilation.empty] using hne
    · refine Attains.bind ?_ fun _ => attains_pure
      exact within.carried trivial (fun _ _ => trivial) trivial hsound (fun _ _ => trivial) hopen
        (apart.clear hu closes.continues hlast _) apart.tested σ (h₁.exchange hu hquiet)
  · rintro t ⟨t₁, h₁, ht⟩
    exact h₁.closed trivial (by simp [within.compiling_eq, hstack]) closes ht

/-- An include of an unrelated file can be put in front of a file that does not start with a comment: the file still
compiles, to the same declarations and with the same outputs, and the other outputs are those of the included file. They
are unrelated if no file is reached from both by includes, and what the included file declares, defines and emits to is
neither declared, nor defined or tested, nor emitted to by the other one. -/
theorem unrelated_include {path : Path} {ds ds' : List Declaration} (run : Gives (compileFile sources path) .empty ds s)
    (read : sources.texts.lookup path.normalize = some text)
    (bare : ∀ kind ∈ Token.firstKind? text, kind.isComment = false) (plain : Token.IsPlain written.toList)
    (inLine : ∀ c ∈ written.toList, c ≠ '"' ∧ Token.isLineEnd c = false)
    (alone : Gives (compileFile sources (includedPath path.normalize written)) .empty ds' u)
    (files : ∀ p, ReflTransGen (u.library.Includes 0) (included path.normalize written) p →
      ¬ReflTransGen (s.library.Includes 0) path.normalize p)
    (symbols : ∀ name ∈ u.symbols.names, name ∉ s.symbols.names)
    (defines : ∀ name ∈ u.defines.names, name ∉ s.defines.names ∧ name ∉ Event.testedAll (history sources path))
    (targets : ∀ e ∈ u.emissions, ∀ e' ∈ s.emissions, e.target ≠ e'.target) :
    ∃ s', Gives (compileFile (sources.put path.normalize (includeLine written ++ text)) path) .empty ds s' ∧
      (Output.ofEmissions s'.emissions).Perm (Output.ofEmissions s.emissions ++ Output.ofEmissions u.emissions) := by
  obtain ⟨rfl, hroot⟩ := fileTraced_of_compileFile run
  obtain ⟨-, hfile⟩ := fileTraced_of_compileFile alone
  have apart : Unrelated u s (history sources path) := by
    refine ⟨fun p hp hu => ?_, fun name hname hu => ?_, fun name hname hu => ?_, fun name hname hu => ?_⟩
    · apply files p
      · exact ((traversed_of_gives alone).mem_compiled_iff p).1 hu
      · exact ((traversed_of_gives run).mem_compiled_iff p).1 hp
    · exact symbols name hu hname
    · exact (defines name hu).1 hname
    · exact (defines name hu).2 hname
  obtain ⟨s', hgives, hs'⟩ := attains_compileFile rfl fun t ht =>
    hroot.carried_behind hfile rfl read plain inLine bare apart ht
  refine ⟨s', hgives, ?_⟩
  have hemissions : s'.emissions = u.emissions ++ s.emissions := by simpa using hs'.emissions
  rw [hemissions]
  exact (Output.perm_ofEmissions_append (targets_spelled alone) (targets_spelled run) targets).trans
    List.perm_append_comm

/-- A file with a guarded block, and a file that includes another one and defines a name. -/
def strangers : Sources where
  texts := [(⟨"m.idl"⟩, "#ifndef A\ntypedef long X;\n#endif\n"),
    (⟨"u.idl"⟩, "#define B\n#include \"v.idl\"\ntypedef Y Z;\n"), (⟨"v.idl"⟩, "typedef long Y;\n")]
  failure _ := "not found"

/-- The one file is compiled with the other one in front of it. -/
theorem unrelated_include_strangers :
    ∃ ds s', Gives (compileFile strangers ⟨"m.idl"⟩) .empty ds (outcome (compileFile strangers ⟨"m.idl"⟩) .empty).2 ∧
      Gives (compileFile (strangers.put ⟨"m.idl"⟩ (includeLine "u.idl" ++ "#ifndef A\ntypedef long X;\n#endif\n"))
        ⟨"m.idl"⟩) .empty ds s' ∧
      (Output.ofEmissions s'.emissions).Perm
        (Output.ofEmissions (outcome (compileFile strangers ⟨"m.idl"⟩) .empty).2.emissions ++
          Output.ofEmissions (outcome (compileFile strangers ⟨"u.idl"⟩) .empty).2.emissions) := by
  obtain ⟨ds, run⟩ := exists_gives (m := compileFile strangers ⟨"m.idl"⟩) (s := .empty) (by decide +kernel)
  obtain ⟨ds', alone⟩ := exists_gives (m := compileFile strangers ⟨"u.idl"⟩) (s := .empty) (by decide +kernel)
  have hroot : (⟨"m.idl"⟩ : Path).normalize = ⟨"m.idl"⟩ := by decide +kernel
  have hpath : includedPath ⟨"m.idl"⟩ "u.idl" = ⟨"u.idl"⟩ := by decide +kernel
  have hmem : ∀ p ∈ (outcome (compileFile strangers ⟨"u.idl"⟩) .empty).2.compiled,
      p ∉ (outcome (compileFile strangers ⟨"m.idl"⟩) .empty).2.compiled := by decide +kernel
  have hmain := (traversed_of_gives run).mem_compiled_iff
  have hother := (traversed_of_gives alone).mem_compiled_iff
  rw [hroot] at hmain
  have inLine : ∀ c ∈ "u.idl".toList, c ≠ '"' ∧ Token.isLineEnd c = false := by simp [Token.isLineEnd]
  have happly := @unrelated_include strangers "u.idl" "#ifndef A\ntypedef long X;\n#endif\n" _
    (outcome (compileFile strangers ⟨"u.idl"⟩) .empty).2 ⟨"m.idl"⟩ ds ds' run
  rw [hroot, included, hpath] at happly
  obtain ⟨s', hgives, hperm⟩ := happly (by decide +kernel) (by decide +kernel) ⟨by decide +kernel, by decide +kernel⟩
    inLine alone (fun p hu hs => hmem p ((hother p).2 hu) ((hmain p).2 hs)) (by decide +kernel)
    (by decide +kernel) (by decide +kernel)
  exact ⟨ds, s', run, hgives, hperm⟩

end Compilation

end Idl
