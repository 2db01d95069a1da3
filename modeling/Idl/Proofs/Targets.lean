import Idl.Proofs.Items
import Idl.Proofs.Paths

/-!
# The paths of outputs

A file is read under a normal path, and only if its output is another path. Then the output for what
it declares outside of modules has the extension of outputs, in the directory of the file
(`IsProper`), unless the file name is two dots and an extension without dots: then it is the
directory above (`isProper_or_stray`). The output for a module has the extension of outputs in
either case (`IsTarget.ofModule`).
-/

namespace Idl

open Idl.Path

/-! ## Names in paths -/

theorem IsName.ne_nil {n : String} (h : IsName n) : n.toList ≠ [] := by
  rintro hnil
  rw [IsName, hnil] at h
  cases h

/-- A character that cannot continue a name is in no name. -/
theorem IsName.notMem {n : String} (h : IsName n) {c : Char} (hc : Text.continuesName c = false) : c ∉ n.toList := by
  intro hmem
  unfold IsName Text.isName at h
  split at h
  · cases h
  · rename_i first rest htext
    obtain ⟨-, hall⟩ := Bool.and_eq_true_iff.1 h
    exact absurd (List.all_eq_true.1 hall c (htext ▸ hmem)) (by simp [hc])

theorem IsName.notMem_slash {n : String} (h : IsName n) : '/' ∉ n.toList := h.notMem (by decide)

theorem IsName.notMem_dot {n : String} (h : IsName n) : '.' ∉ n.toList := h.notMem (by decide)

theorem IsName.plainName {n : String} (h : IsName n) : PlainName n.toList where
  ne_nil := h.ne_nil
  no_slash := h.notMem_slash
  ne_dot hdot := h.notMem_dot (by simp [hdot])
  ne_dots hdots := h.notMem_dot (by simp [hdots])

namespace Placement

/-! ## Files that are read -/

/-- Whether a file name is two dots and an extension without dots. -/
def isStray (p : Path) : Bool := p.fileName?.any Path.isDotted

/-- A path under which a file is read: it is normal, and the output is another path. -/
structure Readable (p : Path) : Prop where
  normal : p.normalize = p
  apart : (ofSource p).same p = false

/-- The name of a proper output. -/
def outputName (stem : List Char) : String := String.ofList stem ++ "." ++ outputExtension

theorem splitExtension_outputName {stem : List Char} (hnil : stem ≠ []) :
    splitExtension (outputName stem).toList = (stem, some outputExtension.toList) := by
  have hname : (outputName stem).toList = stem ++ '.' :: outputExtension.toList := by simp [outputName]
  rw [hname]
  exact splitExtension_append hnil (by decide)

theorem plainName_outputName {stem : List Char} (hnil : stem ≠ []) (hslash : '/' ∉ stem) :
    PlainName (outputName stem).toList := plainName_extension hnil hslash (by decide) (by decide)

/-- The path of an output in a normal directory, with the extension of outputs. -/
inductive IsProper : Path → Prop
  | intro {dir : List Component} {stem : List Char} (spelled : Spelled dir) (normal : resolve dir = dir)
      (ne_nil : stem ≠ []) (ne_dot : stem ≠ ['.']) (no_slash : '/' ∉ stem) :
      IsProper (ofComponents (dir ++ [.name (outputName stem)]))

/-- A path that is read ends in a name. -/
theorem Readable.eq_snoc {p : Path} (h : Readable p) : ∃ dir n, p = ofComponents (dir ++ [.name n]) ∧ Spelled dir ∧
    resolve dir = dir ∧ PlainName n.toList := by
  have hp : p = ofComponents (resolve p.components) := h.normal.symm
  have hresolve := resolve_resolve p.components
  -- a path that does not end in a name would be its own output
  have happart : ∀ cs, p = ofComponents cs → ofSource (ofComponents cs) ≠ ofComponents cs := by
    rintro cs rfl hsame
    have := h.apart
    simp [hsame, same] at this
  rcases p.spelled_resolve.cases_snoc with hcs | hcs | ⟨dir, c, hcs, hdir, hc⟩
  · rw [hcs] at hp
    exact absurd (by decide) (happart [] hp)
  · rw [hcs] at hp
    exact absurd (by decide) (happart [.root] hp)
  · rw [hcs] at hp hresolve
    cases c with
    | root | current => exact absurd hc id
    | parent =>
      refine absurd ?_ (happart _ hp)
      unfold ofSource withExtension
      rw [last?_ofComponents hdir hc]
      rfl
    | name n =>
      rw [resolve_snoc_name] at hresolve
      exact ⟨dir, n, hp, hdir, List.append_cancel_right hresolve, hc⟩

theorem Readable.eq_ofComponents {p : Path} (h : Readable p) : p = ofComponents p.components := by
  obtain ⟨dir, n, rfl, hdir, -, hn⟩ := h.eq_snoc
  rw [components_ofComponents (hdir.snoc (c := .name n) hn)]

/-- The output for a file that is read has the same directory. -/
theorem Readable.ofSource_eq_snoc {p : Path} (h : Readable p) : ∃ dir n, p = ofComponents (dir ++ [.name n]) ∧
    Spelled dir ∧ resolve dir = dir ∧ PlainName n.toList ∧ isStray p = isDotted n ∧
    ofSource p = ofComponents (dir ++ [if isDotted n then .parent
      else .name (outputName (splitExtension n.toList).1)]) := by
  obtain ⟨dir, n, rfl, hdir, hnormal, hn⟩ := h.eq_snoc
  refine ⟨dir, n, rfl, hdir, hnormal, hn, ?_, withExtension_ofComponents hdir hn (by decide) (by decide)⟩
  unfold isStray
  rw [fileName?_ofComponents hdir hn]
  rfl

/-- The output for a file that is read is a proper one, or the directory above. -/
theorem Readable.ofSource_cases {p : Path} (h : Readable p) : (isStray p = false ∧ IsProper (ofSource p)) ∨
    (isStray p = true ∧ ∃ dir, Spelled dir ∧ resolve dir = dir ∧ ofSource p = ofComponents (dir ++ [.parent])) := by
  obtain ⟨dir, n, -, hdir, hnormal, hn, hstray, hsource⟩ := h.ofSource_eq_snoc
  rw [hstray, hsource]
  cases hdotted : isDotted n with
  | true => exact .inr ⟨rfl, dir, hdir, hnormal, rfl⟩
  | false =>
    refine .inl ⟨rfl, ?_⟩
    have hdot : (splitExtension n.toList).1 ≠ ['.'] := fun hdot => by
      simp [fst_splitExtension_eq_dot hn hdot] at hdotted
    exact .intro hdir hnormal (ne_nil_of_splitExtension hn.ne_nil) hdot
      fun hslash => hn.no_slash (subset_of_splitExtension _ hslash)

/-! ## Proper outputs -/

section Proper

variable {t : Path}

/-- A proper output is spelled by its components, which are normal. -/
theorem IsProper.eq_ofComponents (h : IsProper t) : ∃ cs, t = ofComponents cs ∧ Spelled cs ∧ resolve cs = cs := by
  obtain ⟨hdir, hnormal, hnil, hdot, hslash⟩ := h
  refine ⟨_, rfl, hdir.snoc ?_, by rw [resolve_snoc_name, hnormal]⟩
  exact plainName_outputName hnil hslash

theorem IsProper.normalize_eq (h : IsProper t) : t.normalize = t := by
  obtain ⟨cs, rfl, hcs, hnormal⟩ := h.eq_ofComponents
  rw [Path.normalize, components_ofComponents hcs, hnormal]

theorem IsProper.extension?_eq (h : IsProper t) : t.extension? = some outputExtension := by
  obtain ⟨hdir, hnormal, hnil, hdot, hslash⟩ := h
  unfold extension?
  rw [fileName?_ofComponents hdir (plainName_outputName hnil hslash), Option.bind_some, splitExtension_outputName hnil]
  rfl

/-- A proper output would be its own output, if it were read. -/
theorem IsProper.ofSource_eq (h : IsProper t) : ofSource t = t := by
  obtain ⟨hdir, hnormal, hnil, hdot, hslash⟩ := h
  rename_i dir stem
  have hdotted : isDotted (outputName stem) = false := by
    unfold isDotted
    simp [splitExtension_outputName hnil, hdot]
  have hreplace : replaceExtension (outputName stem) outputExtension = outputName stem := by
    unfold replaceExtension
    rw [splitExtension_outputName hnil]
    rfl
  unfold ofSource
  rw [withExtension_ofComponents hdir (plainName_outputName hnil hslash) (by decide) (by decide), hdotted, hreplace]
  rfl

/-- A module has a directory of its own, in which the output has the same name. -/
theorem ofModule_ofComponents {dir : List Component} {file name : String} (hdir : Spelled dir)
    (hfile : PlainName file.toList) (hname : IsName name) :
    ofModule (ofComponents (dir ++ [.name file])) name = ofComponents (dir ++ [.name name] ++ [.name file]) := by
  have hinner := hdir.snoc (c := .name name) hname.plainName
  unfold ofModule
  rw [fileName?_ofComponents hdir hfile, directory_ofComponents hdir (c := .name _) hfile]
  dsimp only
  rw [join_ofComponents hdir hname.plainName, join_ofComponents hinner hfile]

/-- Where the output is the directory above, a module has an output with its own name. -/
theorem ofModule_ofComponents_parent {dir : List Component} {name : String} (hdir : Spelled dir)
    (hname : IsName name) :
    ofModule (ofComponents (dir ++ [.parent])) name = ofComponents (dir ++ [.name (outputName name.toList)]) := by
  have hsplit : splitExtension name.toList = (name.toList, none) := by
    rcases splitExtension_cases name.toList with hnone | ⟨stem, ext, htext, -⟩
    · exact hnone
    · exact absurd (by simp [htext]) hname.notMem_dot
  have hdotted : isDotted name = false := by simp [isDotted, hsplit]
  unfold ofModule
  rw [fileName?_ofComponents_parent hdir, directory_ofComponents hdir (c := .parent) trivial]
  dsimp only
  rw [join_ofComponents hdir hname.plainName,
    withExtension_ofComponents hdir hname.plainName (by decide) (by decide), hdotted]
  have hreplace : replaceExtension name outputExtension = outputName name.toList := by
    simp [replaceExtension, outputName, hsplit]
  rw [hreplace]
  rfl

/-- The output for a module is in a directory of its own. -/
theorem IsProper.ofModule {name : String} (h : IsProper t) (hname : IsName name) : IsProper (ofModule t name) := by
  obtain ⟨hdir, hnormal, hnil, hdot, hslash⟩ := h
  have hinner := hdir.snoc (c := .name name) hname.plainName
  rw [ofModule_ofComponents hdir (plainName_outputName hnil hslash) hname]
  exact .intro hinner (by rw [resolve_snoc_name, hnormal]) hnil hdot hslash

/-- The output for a module of a file whose own output is the directory above. -/
theorem isProper_ofModule_parent {dir : List Component} {name : String} (hdir : Spelled dir)
    (hnormal : resolve dir = dir) (hname : IsName name) :
    IsProper (ofModule (ofComponents (dir ++ [.parent])) name) := by
  rw [ofModule_ofComponents_parent hdir hname]
  exact .intro hdir hnormal hname.ne_nil (fun hdot => hname.notMem_dot (by simp [hdot])) hname.notMem_slash

end Proper

/-! ## Targets -/

/-- The path of an output, where `files` are the paths that were read. -/
inductive IsTarget (files : List Path) : Path → Prop
  | proper {t : Path} (h : IsProper t) : IsTarget files t
  | stray {t p : Path} (read : p ∈ files) (readable : Readable p) (stray : isStray p = true) (eq : t = ofSource p) :
      IsTarget files t

section Targets

variable {files : List Path} {t : Path}

theorem IsTarget.mono {more : List Path} (h : IsTarget files t) (hsub : files ⊆ more) : IsTarget more t := by
  cases h with
  | proper h => exact .proper h
  | stray read readable stray eq => exact .stray (hsub read) readable stray eq

theorem Readable.isTarget {p : Path} (h : Readable p) (read : p ∈ files) : IsTarget files (ofSource p) := by
  rcases h.ofSource_cases with ⟨-, hproper⟩ | ⟨hstray, -⟩
  · exact .proper hproper
  · exact .stray read h hstray rfl

/-- The output for a module has the extension of outputs. -/
theorem IsTarget.ofModule {name : String} (h : IsTarget files t) (hname : IsName name) :
    IsProper (ofModule t name) := by
  cases h with
  | proper h => exact h.ofModule hname
  | stray read readable stray eq =>
    rcases readable.ofSource_cases with ⟨hnot, -⟩ | ⟨-, dir, hdir, hnormal, hsource⟩
    · simp [stray] at hnot
    · rw [eq, hsource]
      exact isProper_ofModule_parent hdir hnormal hname

/-- Targets are spelled by their components, so they are equal if those are. -/
theorem IsTarget.eq_ofComponents (h : IsTarget files t) : t = ofComponents t.components := by
  cases h with
  | proper h =>
    obtain ⟨cs, rfl, hcs, -⟩ := h.eq_ofComponents
    rw [components_ofComponents hcs]
  | stray read readable stray eq =>
    rcases readable.ofSource_cases with ⟨hnot, -⟩ | ⟨-, dir, hdir, -, hsource⟩
    · simp [stray] at hnot
    · rw [eq, hsource, components_ofComponents (hdir.snoc (c := .parent) trivial)]

/-- A target is no path under which a file is read. -/
theorem IsTarget.ne_readable {p : Path} (h : IsTarget files t) (hp : Readable p) : t ≠ p := by
  rintro rfl
  cases h with
  | proper h =>
    have happart := hp.apart
    simp [h.ofSource_eq, same] at happart
  | stray read readable stray eq =>
    rcases readable.ofSource_cases with ⟨hnot, -⟩ | ⟨-, dir, hdir, -, hsource⟩
    · simp [stray] at hnot
    · -- one of them ends in two dots, the other one in a name
      obtain ⟨dir', n, hsnoc, hdir', -, hn⟩ := hp.eq_snoc
      have hcs := congrArg components ((eq.trans hsource).symm.trans hsnoc)
      rw [components_ofComponents (hdir.snoc (c := .parent) trivial),
        components_ofComponents (hdir'.snoc (c := .name n) hn)] at hcs
      simp at hcs

/-- The output for a file with a stray name has no extension. -/
theorem Readable.extension?_of_isStray {p : Path} (h : Readable p) (hstray : isStray p = true) :
    (ofSource p).extension? = none := by
  rcases h.ofSource_cases with ⟨hnot, -⟩ | ⟨-, dir, hdir, -, hsource⟩
  · simp [hstray] at hnot
  · unfold extension?
    rw [hsource, fileName?_ofComponents_parent hdir]
    rfl

/-- A target is normal and has the extension of outputs, unless it is the output for a file with a
stray name. -/
theorem IsTarget.isProper_iff (h : IsTarget files t) (hfiles : ∀ p ∈ files, Readable p) :
    (t.normalize = t ∧ t.extension? = some outputExtension) ↔ ∀ p ∈ files, isStray p = true → t ≠ ofSource p := by
  constructor
  · rintro ⟨-, hext⟩ p hp hstray rfl
    rw [(hfiles p hp).extension?_of_isStray hstray] at hext
    cases hext
  · intro hne
    cases h with
    | proper h => exact ⟨h.normalize_eq, h.extension?_eq⟩
    | stray read readable stray eq => exact absurd eq (hne _ read stray)

end Targets

end Placement

end Idl
