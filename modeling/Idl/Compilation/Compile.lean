import Idl.Compilation.Declare
import Idl.Item.Reader
import Idl.Path.Normal

/-!
# Compiling files

A file is compiled at most once, and before the rest of the file that includes it. The files that are
being compiled form a stack, and none of them can be included again. So they are all different, and
since only finitely many paths can be read, a compilation ends.
-/

namespace Idl

/-- What can be read: finitely many paths have a text, and for each other path there is a reason why
it has none. -/
structure Sources where
  texts : List (Path × String)
  failure : Path → String

/-- The number of texts that are not on a stack of files. -/
def Sources.unread (sources : Sources) (stack : List Path) : Nat :=
  (sources.texts.filter fun entry => entry.1 ∉ stack).length

theorem Sources.unread_cons_lt {sources : Sources} {stack : List Path} {path : Path} {text : String}
    (h : sources.texts.lookup path = some text) (fresh : path ∉ stack) :
    sources.unread (path :: stack) < sources.unread stack := by
  obtain ⟨pre, post, hsplit, -⟩ := List.lookup_eq_some_iff.1 h
  have hle (entries : List (Path × String)) : (entries.filter fun entry => entry.1 ∉ path :: stack).length ≤
      (entries.filter fun entry => entry.1 ∉ stack).length := by
    induction entries with
    | nil => simp
    | cons entry entries ih =>
      by_cases hstack : entry.1 ∈ stack
      · simpa [hstack] using ih
      · by_cases hpath : entry.1 = path
        · simp only [List.mem_cons, hpath, true_or, not_true_eq_false, decide_false, List.filter_cons_of_neg,
            Bool.false_eq_true, not_false_eq_true]
          rw [List.filter_cons_of_pos (by simpa [hpath] using fresh)]
          simp only [List.length_cons]
          simp only [List.mem_cons] at ih
          omega
        · simpa [hstack, hpath] using ih
  have hpre := hle pre
  have hpost := hle post
  simp only [unread, hsplit, List.filter_append, List.length_append]
  rw [List.filter_cons_of_neg (by simp), List.filter_cons_of_pos (by simpa using fresh)]
  simp only [List.length_cons]
  omega

namespace Compilation

/-- Compiles the text of a file: reads it as tokens and as items, declares them, and emits what is
outside of modules. -/
def compileText (includeFile : Path → FileRange → CompileM Unit) (path target : Path) (text : String) :
    CompileM (List Declaration) := do
  let id := (← get).library.nextId
  modify fun s => { s with library := s.library.add ⟨path.text, text⟩ }
  let tokens ← MonadExcept.ofExcept (Token.ofSource id text)
  note .debug s!"compiling `{path.text}` ({tokens.length} tokens)"
  let body ← during path (declareAll ⟨path, includeFile⟩ target (Item.ofTokens (.ofFile id text) tokens))
  modify fun s => { s with compiled := path :: s.compiled }
  emit target body
  return body

/-- Compiles the file at a normal path, unless it was compiled already. -/
def compileOnce (includeFile : Path → FileRange → CompileM Unit) (sources : Sources) (origin : Option FileRange)
    (path : Path) : CompileM (List Declaration) := do
  if path ∈ (← get).compiled then
    note .debug s!"skipping `{path.text}`, compiled already"
    return []
  let target := Placement.ofSource path
  if target.same path then throw (.overwritesSource path origin)
  match sources.texts.lookup path with
  | none => throw (.unreadable path origin (sources.failure path))
  | some text => compileText includeFile path target text

/-- Compiles the file at a normal path, where `stack` are the files being compiled at that point. -/
def compileFrom (sources : Sources) (stack : List Path) (origin : Option FileRange) (path : Path) :
    CompileM (List Declaration) :=
  let includeFile (written : Path) (range : FileRange) : CompileM Unit := do
    let s ← get
    -- the file itself is on the stack by now, so there is less to read and only a cycle stops here
    if _ : written.normalize ∉ s.compiling ∧ sources.unread s.compiling < sources.unread stack then
      discard (compileFrom sources s.compiling (some range) written.normalize)
    else throw (.includeCycle written.normalize range)
  compileOnce includeFile sources origin path
termination_by sources.unread stack

/-- Compiles the file at a normal path. -/
def compile (sources : Sources) (origin : Option FileRange) (path : Path) : CompileM (List Declaration) := do
  compileFrom sources (← get).compiling origin path

/-- Compiles the file that an include at `range` names, unless it is being compiled. -/
def includeFile (sources : Sources) (path : Path) (range : FileRange) : CompileM Unit := do
  if path.normalize ∈ (← get).compiling then throw (.includeCycle path.normalize range)
  else discard (compile sources (some range) path.normalize)

/-- Compiles the file at a path and returns what it declares. -/
def compileFile (sources : Sources) (path : Path) : CompileM (List Declaration) := do
  if path.extension? ≠ some Placement.sourceExtension then
    note .warn s!"`{path.text}` does not have an `.idl` extension"
  compile sources none path.normalize

end Compilation

end Idl
