import Idl.Proofs.Endings
import Idl.Proofs.Pieces
import Idl.Proofs.Sessions
import Mathlib.Logic.Relation

/-!
# The files that include each other

Compiling a file goes through the files that it includes, and through those that these include, each
of them once. What holds all the way is `Underway`: of the files that were read, those that are not
compiled yet are the ones that are being compiled, and a file is compiled after all the files that it
includes. A run that stops leaves this behind as well (`Stops`), so it is seen from the outside which
files were being compiled then.
-/

namespace Idl

open Relation

/-- The includes in the items of the file `path`, with the files that they lead to. -/
def Item.inclusions (path : Path) (items : List Item) : List (Path × Path) :=
  (Item.allIncludes items).map fun written => (path, Compilation.included path written)

@[simp]
theorem Item.inclusions_nil (path : Path) : Item.inclusions path [] = [] := rfl

@[simp]
theorem Item.inclusions_cons (path : Path) (item : Item) (items : List Item) : Item.inclusions path (item :: items) =
    (item.includes.map fun written => (path, Compilation.included path written)) ++ Item.inclusions path items := by
  simp [inclusions, allIncludes]

theorem Item.includes_of_declares {item : Item} (h : item.declares = true) : item.includes = [] := by
  cases item <;> simp_all [declares, includes]

/-! ## Numbered files -/

@[simp]
theorem SourceFile.path_mk (path : Path) (text : String) : (⟨path.text, text⟩ : SourceFile).path = path := rfl

namespace Library

variable {l l' : Library} {id : Nat} {file : SourceFile}

theorem get_eq_ok : l.get id = .ok file ↔ 0 < id ∧ l.files[id - 1]? = some file := by
  unfold get
  split
  · simp_all
  · split
    · rename_i hfile
      simp [hfile]
      omega
    · simp_all

theorem get_of_initial (h : l.files <+: l'.files) (hget : l.get id = .ok file) : l'.get id = .ok file := by
  obtain ⟨hpos, hfile⟩ := get_eq_ok.1 hget
  obtain ⟨rest, hrest⟩ := h
  refine get_eq_ok.2 ⟨hpos, ?_⟩
  rw [← hrest, List.getElem?_append_left (List.getElem?_eq_some_iff.1 hfile).1]
  exact hfile

theorem get_add (l : Library) (file : SourceFile) : (l.add file).get l.nextId = .ok file :=
  get_eq_ok.2 ⟨by simp [nextId], by simp [add, nextId]⟩

/-- A file of a library with one more file is the new one or an old one. -/
theorem get_add_cases {new : SourceFile} (h : (l.add new).get id = .ok file) :
    (id = l.nextId ∧ file = new) ∨ l.get id = .ok file := by
  obtain ⟨hpos, hfile⟩ := get_eq_ok.1 h
  by_cases hlt : id - 1 < l.files.length
  · rw [add, List.getElem?_append_left hlt] at hfile
    exact .inr (get_eq_ok.2 ⟨hpos, hfile⟩)
  · rw [add, List.getElem?_append_right (by omega)] at hfile
    obtain ⟨hle, heq⟩ := List.getElem?_eq_some_iff.1 hfile
    simp only [List.length_singleton] at hle
    refine .inl ⟨by simp only [nextId]; omega, ?_⟩
    simpa using heq.symm

/-- The paths of the files that were read after the first `known` ones. -/
def pathsSince (l : Library) (known : Nat) : List Path := (l.files.map SourceFile.path).drop known

theorem pathsSince_add {known : Nat} (h : known ≤ l.files.length) (file : SourceFile) :
    (l.add file).pathsSince known = l.pathsSince known ++ [file.path] := by
  simp [pathsSince, add, List.drop_append_of_le_length, h]

@[simp]
theorem pathsSince_length (l : Library) : l.pathsSince l.files.length = [] := by
  simp [pathsSince, List.drop_eq_nil_of_le]

theorem getElem?_pathsSince {known : Nat} (h : l.get id = .ok file) (hknown : known < id) :
    (l.pathsSince known)[id - 1 - known]? = some file.path := by
  obtain ⟨-, hfile⟩ := get_eq_ok.1 h
  rw [pathsSince, List.getElem?_drop, show known + (id - 1 - known) = id - 1 by omega, List.getElem?_map, hfile]
  rfl

theorem mem_pathsSince {known : Nat} (h : l.get id = .ok file) (hknown : known < id) :
    file.path ∈ l.pathsSince known := List.mem_of_getElem? (getElem?_pathsSince h hknown)

/-- The file `p`, as it was read after the first `known` files, includes `q`. -/
inductive Includes (l : Library) (known : Nat) : Path → Path → Prop
  | intro {id : Nat} {file : SourceFile} {tokens : List Token} {written : String} (since : known < id)
      (get : l.get id = .ok file) (lexed : Token.ofSource id file.text = .ok tokens)
      (mem : written ∈ Item.allIncludes (Item.ofTokens (.ofFile id file.text) tokens)) :
      Includes l known file.path (Compilation.included file.path written)

theorem Includes.mono {known : Nat} {p q : Path} (hinitial : l.files <+: l'.files) (h : l.Includes known p q) :
    l'.Includes known p q := by
  obtain ⟨since, get, lexed, mem⟩ := h
  exact .intro since (get_of_initial hinitial get) lexed mem

theorem Includes.mem {known : Nat} {p q : Path} (h : l.Includes known p q) : p ∈ l.pathsSince known := by
  obtain ⟨since, get, -, -⟩ := h
  exact mem_pathsSince get since

/-- The includes in some files stand in the first ones of them or in the others. -/
theorem includes_split (known : Nat) {p q : Path} (hinitial : l.files <+: l'.files) (hknown : known ≤ l.files.length) :
    l'.Includes known p q ↔ l.Includes known p q ∨ l'.Includes l.files.length p q := by
  constructor
  · rintro @⟨id, file, tokens, written, since, get, lexed, mem⟩
    by_cases hid : id ≤ l.files.length
    · refine .inl (.intro since ?_ lexed mem)
      obtain ⟨rest, hrest⟩ := hinitial
      obtain ⟨hpos, hfile⟩ := get_eq_ok.1 get
      rw [← hrest, List.getElem?_append_left (by omega)] at hfile
      exact get_eq_ok.2 ⟨hpos, hfile⟩
    · exact .inr (.intro (by omega) get lexed mem)
  · rintro (h | ⟨since, get, lexed, mem⟩)
    · exact h.mono hinitial
    · exact .intro (Nat.lt_of_le_of_lt hknown since) get lexed mem

/-- The includes in a file that was just read. -/
theorem includes_add {p q : Path} {tokens : List Token} (new : SourceFile)
    (hlexed : Token.ofSource l.nextId new.text = .ok tokens) : (l.add new).Includes l.files.length p q ↔
      (p, q) ∈ Item.inclusions new.path (Item.ofTokens (.ofFile l.nextId new.text) tokens) := by
  constructor
  · rintro ⟨since, get, lexed, mem⟩
    rcases get_add_cases get with ⟨rfl, rfl⟩ | hold
    · obtain rfl := Except.ok.inj (lexed.symm.trans hlexed)
      exact List.mem_map_of_mem mem
    · obtain ⟨hpos, hfile⟩ := get_eq_ok.1 hold
      have := (List.getElem?_eq_some_iff.1 hfile).1
      omega
  · intro h
    obtain ⟨written, mem, heq⟩ := List.mem_map.1 h
    obtain ⟨rfl, rfl⟩ := Prod.mk.inj heq
    exact .intro (Nat.lt_succ_self _) (get_add ..) hlexed mem

/-- A file that is read once includes what it says. -/
theorem Includes.exists_written {known : Nat} {q : Path} {tokens : List Token} (file : SourceFile)
    (h : l.Includes known file.path q)
    (honce : (l.pathsSince known).Nodup) (since : known < id) (hget : l.get id = .ok file)
    (hlexed : Token.ofSource id file.text = .ok tokens) :
    ∃ written ∈ Item.allIncludes (Item.ofTokens (.ofFile id file.text) tokens),
      Compilation.included file.path written = q := by
  generalize hp : file.path = p at h
  obtain @⟨id', file', tokens', written, since', get', lexed', mem'⟩ := h
  have hindex : id - 1 - known = id' - 1 - known := by
    refine (List.getElem?_inj ?_ honce).1 ?_
    · exact (List.getElem?_eq_some_iff.1 (getElem?_pathsSince hget since)).1
    · rw [getElem?_pathsSince hget since, getElem?_pathsSince get' since', hp]
  obtain rfl : id = id' := by omega
  obtain rfl : file' = file := Except.ok.inj (get'.symm.trans hget)
  obtain rfl : tokens' = tokens := Except.ok.inj (lexed'.symm.trans hlexed)
  exact ⟨written, mem', rfl⟩

end Library

/-! ## Ways -/

/-- From `root`, the relation leads to a path through the ones in the list, the last of them first. -/
inductive Way (R : Path → Path → Prop) (root : Path) : Path → List Path → Prop
  | start : Way R root root []
  | step {p q : Path} {chain : List Path} (way : Way R root p chain) (next : R p q) : Way R root q (p :: chain)

namespace Way

variable {R R' : Path → Path → Prop} {root p q : Path} {chain : List Path}

theorem mono (h : ∀ p q, R p q → R' p q) (hway : Way R root p chain) : Way R' root p chain := by
  induction hway with
  | start => exact .start
  | step _ next ih => exact .step ih (h _ _ next)

theorem reflTransGen (h : Way R root p chain) : ReflTransGen R root p := by
  induction h with
  | start => exact .refl
  | step _ next ih => exact ih.tail next

end Way

/-! ## Files underway -/

/-- What holds while files are compiled, with `compiled` being the compiled ones, latest first. The
library had `known` files when `root` was to be compiled, and the files in `chain` are being compiled
now. -/
structure Underway (known : Nat) (root : Path) (chain : List Path) (l : Library) (compiled : List Path) : Prop where
  known_le : known ≤ l.files.length
  /-- No file is read twice. -/
  once : (l.pathsSince known).Nodup
  held : ∀ p ∈ l.pathsSince known, p ∈ compiled ∨ p ∈ chain
  read : ∀ p ∈ chain, p ∈ l.pathsSince known
  apart : ∀ p ∈ chain, p ∉ compiled
  reached : ∀ p ∈ l.pathsSince known, ReflTransGen (l.Includes known) root p
  nodup : compiled.Nodup
  /-- What a compiled file includes was compiled before. -/
  closed : ∀ newer p older, compiled = newer ++ p :: older → ∀ q, l.Includes known p q → q ∈ older

namespace Underway

variable {known : Nat} {root path : Path} {chain compiled : List Path} {l : Library}

/-- Before anything is read. -/
theorem start (hnodup : compiled.Nodup) : Underway l.files.length root [] l compiled where
  known_le := Nat.le_refl _
  once := by simp
  held := by simp
  read := by simp
  apart := by simp
  reached := by simp
  nodup := hnodup
  closed _ p _ _ q h := absurd h.mem (by simp)

/-- Another file is read. -/
theorem add (h : Underway known root chain l compiled) (text : String) (hway : Way (l.Includes known) root path chain)
    (hchain : path ∉ chain) (hcompiled : path ∉ compiled) :
    Underway known root (path :: chain) (l.add ⟨path.text, text⟩) compiled := by
  have hpaths : (l.add ⟨path.text, text⟩).pathsSince known = l.pathsSince known ++ [path] :=
    Library.pathsSince_add h.known_le _
  have hnew : path ∉ l.pathsSince known := fun hmem => (h.held path hmem).elim hcompiled hchain
  have hmono : ∀ p q, l.Includes known p q → (l.add ⟨path.text, text⟩).Includes known p q :=
    fun p q => .mono (List.prefix_append ..)
  constructor
  case known_le => exact Nat.le_trans h.known_le (by simp [Library.add])
  case once =>
    rw [hpaths]
    refine List.nodup_append.2 ⟨h.once, by simp, fun p hp q hq heq => hnew ?_⟩
    rwa [← List.mem_singleton.1 hq, ← heq]
  case held =>
    intro p hp
    rw [hpaths] at hp
    rcases List.mem_append.1 hp with hp | hp
    · exact (h.held p hp).imp_right (List.mem_cons_of_mem _)
    · exact .inr (List.mem_cons.2 (.inl (List.mem_singleton.1 hp)))
  case read =>
    rw [hpaths]
    intro p hp
    rcases List.mem_cons.1 hp with rfl | hp
    · simp
    · exact List.mem_append_left _ (h.read p hp)
  case apart => exact List.forall_mem_cons.2 ⟨hcompiled, h.apart⟩
  case reached =>
    intro p hp
    rw [hpaths] at hp
    rcases List.mem_append.1 hp with hp | hp
    · exact ReflTransGen.mono hmono _ _ (h.reached p hp)
    · rw [List.mem_singleton.1 hp]
      exact ReflTransGen.mono hmono _ _ hway.reflTransGen
  case nodup => exact h.nodup
  case closed =>
    intro newer p older heq q hq
    -- the new file is none of the compiled ones, so the include stands in an old one
    obtain ⟨since, get, lexed, mem⟩ := hq
    rcases Library.get_add_cases get with ⟨-, rfl⟩ | hold
    · exact absurd (heq ▸ List.mem_append_right _ (List.mem_cons_self ..)) hcompiled
    · exact h.closed newer _ older heq _ (.intro since hold lexed mem)

/-- A file is compiled to its end, after what it includes. -/
theorem close (h : Underway known root (path :: chain) l compiled) (hchain : path ∉ chain)
    (hincludes : ∀ q, l.Includes known path q → q ∈ compiled) : Underway known root chain l (path :: compiled) where
  known_le := h.known_le
  once := h.once
  held p hp := by
    rcases h.held p hp with hp | hp
    · exact .inl (List.mem_cons_of_mem _ hp)
    · rcases List.mem_cons.1 hp with rfl | hp
      · exact .inl (List.mem_cons_self ..)
      · exact .inr hp
  read p hp := h.read p (List.mem_cons_of_mem _ hp)
  apart p hp := by
    intro hmem
    rcases List.mem_cons.1 hmem with rfl | hmem
    · exact hchain hp
    · exact h.apart p (List.mem_cons_of_mem _ hp) hmem
  reached := h.reached
  nodup := List.nodup_cons.2 ⟨h.apart path (List.mem_cons_self ..), h.nodup⟩
  closed newer p older heq q hq := by
    rcases newer with _ | ⟨p', newer⟩
    · obtain ⟨rfl, rfl⟩ := List.cons.inj heq
      exact hincludes q hq
    · exact h.closed newer p older (List.cons.inj heq).2 q hq

section Done

variable {p q : Path} {newer older : List Path}

theorem mem_of_transGen (h : Underway known root chain l compiled) (hreach : TransGen (l.Includes known) p q)
    (heq : compiled = newer ++ p :: older) : q ∈ older := by
  induction hreach with
  | single hq => exact h.closed newer p older heq _ hq
  | @tail b c _ hq ih =>
    obtain ⟨newer', older', rfl⟩ := List.append_of_mem ih
    have hsplit : compiled = (newer ++ p :: newer') ++ b :: older' := by simpa using heq
    exact List.mem_append_right _ (List.mem_cons_of_mem _ (h.closed _ b older' hsplit c hq))

/-- No compiled file leads back to itself. -/
theorem not_transGen (h : Underway known root chain l compiled) (hp : p ∈ compiled) :
    ¬TransGen (l.Includes known) p p := by
  intro hreach
  obtain ⟨newer, older, heq⟩ := List.append_of_mem hp
  have hnodup := h.nodup
  rw [heq, List.nodup_append] at hnodup
  exact (List.nodup_cons.1 hnodup.2.1).1 (h.mem_of_transGen hreach heq)

theorem mem_of_reflTransGen (h : Underway known root chain l compiled) (hroot : root ∈ compiled)
    (hreach : ReflTransGen (l.Includes known) root p) : p ∈ compiled := by
  rcases reflTransGen_iff_eq_or_transGen.1 hreach with rfl | hreach
  · exact hroot
  · obtain ⟨newer, older, heq⟩ := List.append_of_mem hroot
    rw [heq]
    exact List.mem_append_right _ (List.mem_cons_of_mem _ (h.mem_of_transGen hreach heq))

end Done

end Underway

namespace Compilation

/-- What holds underway to `root`, where the files being compiled are the ones on the stack. -/
def IsUnderway (known : Nat) (root : Path) (s : Compilation) : Prop :=
  Underway known root s.compiling s.library s.compiled

/-- How a run stops: with the files that were being compiled in `chain`, where an include of one of
them would have to be compiled again, or where a file that cannot be read was not read before. -/
def Stops (known : Nat) (root : Path) (e : Error) (s : Compilation) : Prop :=
  ∃ chain, Underway known root chain s.library s.compiled ∧
    (∀ q range, e = .includeCycle q range → Way (s.library.Includes known) root q chain ∧ q ∈ chain) ∧
    ∀ q range reason, e = .unreadable q range reason → q ∉ s.library.pathsSince known

section Files

variable {known : Nat} {root path : Path} {s : Compilation} {sources : Sources}

theorem Stops.of_isLocal {chain : List Path} {e : Error} (h : Underway known root chain s.library s.compiled)
    (he : e.isLocal = true) : Stops known root e s := by
  refine ⟨chain, h, ?_, ?_⟩
  · rintro q range rfl
    cases he
  · rintro q range reason rfl
    cases he

theorem IsUnderway.of_same {s' : Compilation} (h : IsUnderway known root s) (hsame : SameFiles s s') :
    IsUnderway known root s' := by
  rw [IsUnderway, hsame.library, hsame.compiled, hsame.compiling]
  exact h

/-- The text of a file is compiled after what it includes, if each include adds what it leads to. -/
theorem underway_compileText {includeFile : Path → FileRange → CompileM Unit} {text : String}
    (hs : IsUnderway known root s) (hway : Way (s.library.Includes known) root path s.compiling)
    (hstack : path ∉ s.compiling) (hcompiled : path ∉ s.compiled)
    (hinclude : ∀ written range s', s'.compiling = path :: s.compiling → IsUnderway known root s' →
      Way (s'.library.Includes known) root (included path written) s'.compiling →
      Ends (includeFile (includedPath path written) range) s' (fun _ s'' => s''.compiling = s'.compiling ∧
        Follows (IsUnderway known root) path [written] s' s'') (Stops known root)) :
    Ends (compileText includeFile path (Placement.ofSource path) text) s
      (fun _ s' => s'.compiling = s.compiling ∧ IsUnderway known root s' ∧ AddsFiles s s' ∧ path ∈ s'.compiled)
      (Stops known root) := by
  have hadd : IsUnderway known root { s.enter path with library := s.library.add ⟨path.text, text⟩ } :=
    hs.add text hway hstack hcompiled
  have hsince : known < s.library.nextId := Nat.lt_succ_of_le hs.known_le
  refine ends_compileText (fun e he => .of_isLocal hadd (Token.isLocal_of_scan he)) fun tokens s₁ hlexed hquiet => ?_
  have hsame : SameFiles { s.enter path with library := s.library.add ⟨path.text, text⟩ } (s₁.enter path) := by
    obtain ⟨log, rfl⟩ := hquiet
    exact ⟨rfl, rfl, rfl⟩
  -- the file stays on top of the stack, and in the library under its number, while its items are declared
  let I (s' : Compilation) : Prop := s'.compiling = path :: s.compiling ∧ IsUnderway known root s' ∧
    (s.library.add ⟨path.text, text⟩).files <+: s'.library.files
  have hget {s' : Compilation} (h : I s') : s'.library.get s.library.nextId = .ok ⟨path.text, text⟩ :=
    Library.get_of_initial h.2.2 (Library.get_add ..)
  have hfiles (written : String)
      (hwritten : written ∈ Item.allIncludes (Item.ofTokens (.ofFile s.library.nextId text) tokens)) (range : FileRange)
      (s' : Compilation) (h : I s') : Ends (includeFile (includedPath path written) range) s'
        (fun _ s'' => Follows I path [written] s' s'') fun e s'' => Stops known root e s''.leave := by
    have hway' : Way (s'.library.Includes known) root (included path written) s'.compiling := by
      rw [h.1]
      refine .step (hway.mono fun _ _ => .mono ((List.prefix_append ..).trans h.2.2)) ?_
      exact .intro hsince (hget h) hlexed hwritten
    refine (hinclude written range s' h.1 h.2.1 hway').mono (fun _ s'' hs'' => ?_) fun _ _ he => he
    obtain ⟨hstack', hunderway, hadds, hincluded⟩ := hs''
    exact ⟨⟨hstack'.trans h.1, hunderway, h.2.2.trans hadds.library⟩, hadds, hincluded⟩
  have hitems : Ends (declareAll ⟨path, includeFile⟩ (Placement.ofSource path)
      (Item.ofTokens (.ofFile s.library.nextId text) tokens)) (s₁.enter path) (fun _ s' => Follows I path
        (Item.allIncludes (Item.ofTokens (.ofFile s.library.nextId text) tokens)) (s₁.enter path) s')
      fun e s' => Stops known root e s'.leave :=
    ends_declareAll (fun _ _ h hsame => ⟨hsame.compiling.trans h.1, h.2.1.of_same hsame, hsame.library ▸ h.2.2⟩)
      (fun _ _ h he => .of_isLocal h.2.1 he) (Item.faultsIn_isLocal _ _) hfiles
      ⟨hsame.compiling, hadd.of_same hsame, hsame.library ▸ List.prefix_rfl⟩
  refine hitems.mono (fun body s₂ h₂ s' hs' => ?_) fun _ _ h => h
  obtain ⟨hI₂, hadds, hincluded⟩ := h₂
  have hleft : s₂.leave.compiling = s.compiling := congrArg List.tail hI₂.1
  have hclosed : Underway known root s.compiling s₂.library (path :: s₂.compiled) := by
    refine Underway.close (hI₂.1 ▸ hI₂.2.1) hstack fun q hq => ?_
    obtain ⟨written, hwritten, rfl⟩ := hq.exists_written ⟨path.text, text⟩ hI₂.2.1.once hsince (hget hI₂) hlexed
    exact hincluded written hwritten
  obtain ⟨log, rfl⟩ := hs'
  refine ⟨hleft, hleft ▸ hclosed, ⟨(List.prefix_append ..).trans hI₂.2.2, ?_⟩, List.mem_cons_self ..⟩
  exact (hsame.compiled ▸ hadds.compiled).trans (List.suffix_cons ..)

/-- An include stops at a file that is being compiled, and compiles any other. -/
theorem underway_includeFile {written : Path} {range : FileRange} (hs : IsUnderway known root s)
    (hway : Way (s.library.Includes known) root written.normalize s.compiling)
    (hfile : written.normalize ∉ s.compiling → Ends (compile sources (some range) written.normalize) s
      (fun _ s' => s'.compiling = s.compiling ∧ IsUnderway known root s' ∧ AddsFiles s s' ∧
        written.normalize ∈ s'.compiled) (Stops known root)) :
    Ends (includeFile sources written range) s
      (fun _ s' => s'.compiling = s.compiling ∧ IsUnderway known root s' ∧ AddsFiles s s' ∧
        written.normalize ∈ s'.compiled) (Stops known root) := by
  refine ends_get_bind ?_
  split
  · rename_i hmem
    refine ends_throw ⟨s.compiling, hs, ?_, by simp⟩
    rintro q range' ⟨rfl, -⟩
    exact ⟨hway, hmem⟩
  · rename_i hnew
    exact (hfile hnew).discard

/-- A file that is compiled keeps what holds underway, and is compiled after all that it includes. -/
theorem underway_compile (sources : Sources) (origin : Option FileRange) (fresh : path ∉ s.compiling)
    (hs : IsUnderway known root s) (hway : Way (s.library.Includes known) root path s.compiling) :
    Ends (compile sources origin path) s
      (fun _ s' => s'.compiling = s.compiling ∧ IsUnderway known root s' ∧ AddsFiles s s' ∧ path ∈ s'.compiled)
      (Stops known root) := by
  induction hn : sources.unread s.compiling using Nat.strongRecOn generalizing origin path s with
  | _ n ih =>
    subst hn
    refine Ends.congr (outcome_compile sources fresh) (ends_compileOnce ?_ ?_ ?_ ?_)
    · rintro hmem s' ⟨log, rfl⟩
      exact ⟨rfl, hs, ⟨List.prefix_rfl, List.suffix_rfl⟩, hmem⟩
    · intro _
      exact ⟨s.compiling, hs, by simp, by simp⟩
    · intro hcompiled _
      refine ⟨s.compiling, hs, by simp, ?_⟩
      rintro _ _ _ ⟨rfl, -⟩ hmem
      exact (hs.held path hmem).elim hcompiled fresh
    · intro text hcompiled _ htext
      refine underway_compileText hs hway fresh hcompiled fun written range s₁ hstack h₁ hway₁ => ?_
      have hlt : sources.unread s₁.compiling < sources.unread s.compiling := by
        rw [hstack]
        exact sources.unread_cons_lt htext fresh
      have hfile := underway_includeFile h₁ hway₁ fun hnew => ih _ hlt (some range) hnew h₁ hway₁ rfl
      refine hfile.mono (fun _ s' h' => ?_) fun _ _ h => h
      exact ⟨h'.1, h'.2.1, h'.2.2.1, by simpa [included] using h'.2.2.2⟩

/-- Before a file, where no other is being compiled. -/
theorem IsUnderway.start (root : Path) (hstack : s.compiling = []) (h : s.compiled.Nodup) :
    IsUnderway s.library.files.length root s ∧
      Way (s.library.Includes s.library.files.length) root root s.compiling := by
  rw [IsUnderway, hstack]
  exact ⟨.start h, .start⟩

theorem underway_compileFile (sources : Sources) (path : Path) (hstack : s.compiling = []) (h : s.compiled.Nodup) :
    Ends (compileFile sources path) s
      (fun _ s' => Underway s.library.files.length path.normalize [] s'.library s'.compiled ∧ AddsFiles s s' ∧
        path.normalize ∈ s'.compiled)
      (Stops s.library.files.length path.normalize) := by
  have hcompile {s₁ : Compilation} (hquiet : Quiet s s₁) : Ends (compile sources none path.normalize) s₁
      (fun _ s' => Underway s.library.files.length path.normalize [] s'.library s'.compiled ∧ AddsFiles s s' ∧
        path.normalize ∈ s'.compiled) (Stops s.library.files.length path.normalize) := by
    obtain ⟨log, rfl⟩ := hquiet
    obtain ⟨hunderway, hway⟩ := IsUnderway.start (s := { s with log }) path.normalize hstack h
    refine (underway_compile sources none (by simp [hstack]) hunderway hway).mono (fun _ s' h' => ?_) fun _ _ he => he
    obtain ⟨hstack', hunderway', hadds, hmem⟩ := h'
    rw [IsUnderway, hstack'.trans hstack] at hunderway'
    exact ⟨hunderway', ⟨hadds.library, hadds.compiled⟩, hmem⟩
  unfold compileFile
  split
  · exact (ends_note (Q := fun _ s₁ => Quiet s s₁) fun _ => id).bind fun _ _ hquiet => hcompile hquiet
  · exact hcompile ⟨s.log, rfl⟩

/-- No file is compiled twice, whatever was compiled before and however it ended. -/
theorem nodup_compiled_session (calls : List Call) : (session calls).compiled.Nodup := by
  have hcall {s : Compilation} (hstack : s.compiling = []) (h : s.compiled.Nodup) (call : Call) :
      (call.perform s).compiled.Nodup := by
    cases call with
    | compile sources path =>
      exact (underway_compileFile sources path hstack h).after (fun _ _ h => h.1.nodup) fun _ _ ⟨_, h, _⟩ => h.nodup
    | included sources path range =>
      obtain ⟨hunderway, hway⟩ := IsUnderway.start path.normalize hstack h
      have hfile := underway_includeFile hunderway hway fun fresh =>
        underway_compile sources (some range) fresh hunderway hway
      exact hfile.after (fun _ _ h => h.2.1.nodup) fun _ _ ⟨_, h, _⟩ => h.nodup
    | finish => exact h
  have hrun {s : Compilation} (hstack : s.compiling = []) (h : s.compiled.Nodup) :
      (calls.foldl Call.perform s).compiled.Nodup := by
    induction calls generalizing s with
    | nil => exact h
    | cons call calls ih => exact ih ((call.compiling_perform s).trans hstack) (hcall hstack h call)
  exact hrun rfl List.nodup_nil

end Files

end Compilation

/-! ## Emissions -/

namespace Event

/-- What was emitted, in order, each with the file whose own body it is, if it is one. -/
def origins : List Event → List (Option Path × Emission)
  | [] => []
  | .file path body :: rest =>
    origins body ++ [(some path, ⟨Placement.ofSource path, declarations body⟩)] ++ origins rest
  | .guarded _ _ body :: rest => origins body ++ origins rest
  | .module _ target body _ :: rest => origins body ++ [(none, ⟨target, declarations body⟩)] ++ origins rest
  | .comment _ :: rest | .define _ :: rest | .skip _ :: rest | .declared _ :: rest => origins rest

theorem target_of_mem_origins {path : Path} {e : Emission} {events : List Event} (h : (some path, e) ∈ origins events) :
    e.target = Placement.ofSource path := by
  fun_induction origins events <;> grind

theorem origins_map_snd (events : List Event) : (origins events).map Prod.snd = emissions events := by
  fun_induction origins events <;> simp_all [emissions]

/-- The includes that were reached: the file in which each stands, and the file that it leads to. -/
def includes (path : Path) : List Event → List (Path × Path)
  | [] => []
  | .skip q :: rest => (path, q) :: includes path rest
  | .file q body :: rest => (path, q) :: (includes q body ++ includes path rest)
  | .guarded _ _ body :: rest | .module _ _ body _ :: rest => includes path body ++ includes path rest
  | .comment _ :: rest | .define _ :: rest | .declared _ :: rest => includes path rest

end Event

namespace Compilation

section Traced

variable {sources : Sources} {path target : Path} {s s' : Compilation} {items : List Item}
  {events : List Event}

theorem Quiet.sameFiles (h : Quiet s s') : SameFiles s s' := by
  obtain ⟨log, rfl⟩ := h
  exact ⟨rfl, rfl, rfl⟩

theorem Declares.sameFiles {item : Item} {ds : List Declaration} (h : Declares path target s item ds s') :
    SameFiles s s' := by
  have hregisters {kind : Symbol.Kind} {name : Name} (h : Registers kind path target name s s') : SameFiles s s' :=
    ⟨h.quiet.sameFiles.library, h.quiet.sameFiles.compiled, h.quiet.sameFiles.compiling⟩
  cases h with
  | typedef resolves registers => exact hregisters registers
  | record registers declared => exact hregisters registers
  | enum registers => exact hregisters registers
  | interface registers declared => exact hregisters registers

theorem Opens.files_eq (h : Opens sources path s items s') : ∃ text tokens,
    Token.ofSource s.library.nextId text = .ok tokens ∧
      items = Item.ofTokens (.ofFile s.library.nextId text) tokens ∧
      s'.library = s.library.add ⟨path.text, text⟩ ∧ s'.compiled = s.compiled := by
  obtain ⟨-, -, -, lexed, quiet⟩ := h
  exact ⟨_, _, lexed, rfl, quiet.sameFiles.library, quiet.sameFiles.compiled⟩

theorem Closes.files_eq {body : List Event} (h : Closes path body s s') :
    s'.library = s.library ∧ s'.compiled = path :: s.compiled :=
  ⟨(Quiet.sameFiles h).library, (Quiet.sameFiles h).compiled⟩

/-- The compiled files are those whose own bodies were emitted. -/
theorem Traced.compiled_eq (h : Traced sources path target items s events s') :
    s'.compiled = ((Event.origins events).filterMap Prod.fst).reverse ++ s.compiled := by
  induction h with
  | nil => simp [Event.origins]
  | comment rest ih => rw [ih, Event.origins]
  | define new quiet rest ih => rw [ih, quiet.sameFiles.compiled, Event.origins]
  | skip named old quiet rest ih => rw [ih, quiet.sameFiles.compiled, Event.origins]
  | file named fresh opens within closes rest ihbody ih =>
    obtain ⟨_, _, _, _, _, hopens⟩ := opens.files_eq
    rw [ih, closes.files_eq.2, ihbody, hopens, Event.origins]
    simp
  | guarded quiet within rest ihbody ih =>
    rw [ih, ihbody, quiet.sameFiles.compiled, Event.origins]
    simp
  | module quiet within emits rest ihbody ih =>
    rw [ih, emits.sameFiles.compiled, ihbody, quiet.sameFiles.compiled, Event.origins]
    simp
  | declared at_path names gives rest ih =>
    rw [ih, (declares_of_gives names gives).sameFiles.compiled, Event.origins]

theorem Traced.library_prefix (h : Traced sources path target items s events s') :
    s.library.files <+: s'.library.files := by
  induction h with
  | nil => exact List.prefix_rfl
  | comment rest ih => exact ih
  | define new quiet rest ih => exact quiet.sameFiles.library ▸ ih
  | skip named old quiet rest ih => exact quiet.sameFiles.library ▸ ih
  | file named fresh opens within closes rest ihbody ih =>
    obtain ⟨text, _, _, _, hopens, _⟩ := opens.files_eq
    rw [closes.files_eq.1] at ih
    rw [hopens] at ihbody
    exact ((List.prefix_append ..).trans ihbody).trans ih
  | guarded quiet within rest ihbody ih => exact (quiet.sameFiles.library ▸ ihbody).trans ih
  | module quiet within emits rest ihbody ih =>
    exact (quiet.sameFiles.library ▸ ihbody).trans (emits.sameFiles.library ▸ ih)
  | declared at_path names gives rest ih => exact (declares_of_gives names gives).sameFiles.library ▸ ih

theorem Traced.paths_subset (h : Traced sources path target items s events s') : s.paths ⊆ s'.paths :=
  List.map_subset _ h.library_prefix.subset

/-- A compiled file was compiled before or has been read. -/
theorem Traced.mem_of_compiled (h : Traced sources path target items s events s') {p : Path}
    (hp : p ∈ s'.compiled) : p ∈ s.compiled ∨ p ∈ s'.paths := by
  induction h with
  | nil => exact .inl hp
  | comment rest ih => exact ih hp
  | define new quiet rest ih => exact quiet.sameFiles.compiled ▸ ih hp
  | skip named old quiet rest ih => exact quiet.sameFiles.compiled ▸ ih hp
  | @file _ _ q _ _ _ _ _ _ _ s s₁ s₂ s₃ s' named fresh opens within closes rest ihbody ih =>
    obtain ⟨text, _, _, _, hlibrary, hcompiled⟩ := opens.files_eq
    have hread : s₂.paths ⊆ s'.paths := by
      have := rest.paths_subset
      rwa [paths, closes.files_eq.1] at this
    rcases ih hp with hp | hp
    · rw [closes.files_eq.2] at hp
      rcases List.mem_cons.1 hp with rfl | hp
      · have hnew : p ∈ s₁.paths := by simp [paths, hlibrary, Library.add]
        exact .inr (hread (within.paths_subset hnew))
      · exact (ihbody hp).imp (fun hp => hcompiled ▸ hp) fun hp => hread hp
    · exact .inr hp
  | guarded quiet within rest ihbody ih =>
    rcases ih hp with hp | hp
    · exact (ihbody hp).imp (fun hp => quiet.sameFiles.compiled ▸ hp) fun hp => rest.paths_subset hp
    · exact .inr hp
  | module quiet within emits rest ihbody ih =>
    rcases ih hp with hp | hp
    · refine (ihbody (emits.sameFiles.compiled ▸ hp)).imp (fun hp => quiet.sameFiles.compiled ▸ hp) fun hp => ?_
      refine rest.paths_subset ?_
      rwa [paths, emits.sameFiles.library]
    · exact .inr hp
  | declared at_path names gives rest ih => exact (declares_of_gives names gives).sameFiles.compiled ▸ ih hp

/-- The includes that are reached are those that stand in the items and in the files that are read. -/
theorem Traced.mem_includes (h : Traced sources path target items s events s') {p q : Path} :
    (p, q) ∈ Event.includes path events ↔
      (p, q) ∈ Item.inclusions path items ∨ s'.library.Includes s.library.files.length p q := by
  induction h with
  | nil =>
    have hnone (l : Library) : ¬l.Includes l.files.length p q := fun h => by simpa using h.mem
    simp [Event.includes, hnone]
  | comment rest ih => simpa [Event.includes, Item.includes] using ih
  | define new quiet rest ih =>
    rw [quiet.sameFiles.library] at ih
    simpa [Event.includes, Item.includes] using ih
  | skip named old quiet rest ih =>
    subst named
    rw [quiet.sameFiles.library] at ih
    simp only [Event.includes, List.mem_cons, ih, Item.inclusions_cons, Item.includes, List.map_cons, List.map_nil,
      List.singleton_append, included, or_assoc]
  | @file path target q' head written range inner items body events s s₁ s₂ s₃ s' named fresh opens within closes
      rest ihbody ih =>
    subst named
    obtain ⟨text, tokens, hlexed, rfl, hopens, -⟩ := opens.files_eq
    have hread := within.library_prefix
    have hrest := rest.library_prefix
    rw [closes.files_eq.1] at ih hrest
    rw [hopens] at ihbody hread
    -- the new file, the files that it leads to, and those that are read after it
    have hlater := Library.includes_split s.library.files.length (p := p) (q := q) hrest
      ((List.prefix_append ..).trans hread).length_le
    have hinner := Library.includes_split s.library.files.length (p := p) (q := q) hread
      (List.prefix_append ..).length_le
    rw [Library.includes_add _ hlexed, SourceFile.path_mk] at hinner
    rw [hlater, hinner]
    simp only [Event.includes, List.mem_cons, List.mem_append, ih, ihbody, Item.inclusions_cons, Item.includes,
      List.map_cons, List.map_nil, List.singleton_append, included]
    grind
  | guarded quiet within rest ihbody ih =>
    have hread := within.library_prefix
    rw [quiet.sameFiles.library] at ihbody hread
    rw [Library.includes_split _ rest.library_prefix hread.length_le]
    simp only [Event.includes, List.mem_append, ih, ihbody, Item.inclusions_cons, Item.includes]
    grind [Item.inclusions]
  | module quiet within emits rest ihbody ih =>
    have hread := within.library_prefix
    have hrest := rest.library_prefix
    rw [quiet.sameFiles.library] at ihbody hread
    rw [emits.sameFiles.library] at ih hrest
    rw [Library.includes_split _ hrest hread.length_le]
    simp only [Event.includes, List.mem_append, ih, ihbody, Item.inclusions_cons, Item.includes]
    grind [Item.inclusions]
  | declared at_path names gives rest ih =>
    rw [(declares_of_gives names gives).sameFiles.library] at ih
    simpa [Event.includes, Item.includes_of_declares names] using ih

end Traced

/-! ## Runs -/

/-- The files of a run that succeeded: `root` is the first one, and `events` are what became of it. -/
structure Traversed (root : Path) (events : List Event) (s : Compilation) : Prop where
  /-- The includes in the files that were read are those that were reached. -/
  includes_iff : ∀ p q, s.library.Includes 0 p q ↔ (p, q) ∈ Event.includes root events
  mem_compiled_iff : ∀ p, p ∈ s.compiled ↔ ReflTransGen (s.library.Includes 0) root p
  acyclic : ∀ p ∈ s.compiled, ¬TransGen (s.library.Includes 0) p p
  emissions_eq : (Event.origins [.file root events]).map Prod.snd = s.emissions
  /-- Each compiled file has its own body emitted, once. -/
  compiled_eq : (Event.origins [.file root events]).filterMap Prod.fst = s.compiled.reverse
  nodup : s.compiled.Nodup
  /-- The own body of a file comes after those of the files that it includes. -/
  ordered : ∀ before p e after, Event.origins [.file root events] = before ++ (some p, e) :: after →
    e.target = Placement.ofSource p ∧ ∀ q, s.library.Includes 0 p q → some q ∈ before.map Prod.fst

theorem traversed_of_gives {sources : Sources} {path : Path} {ds : List Declaration} {s : Compilation}
    (h : Gives (compileFile sources path) .empty ds s) : Traversed path.normalize (history sources path) s := by
  obtain ⟨hs, -, hroot⟩ := (underway_compileFile sources path (s := .empty) rfl List.nodup_nil).success ds s h
  obtain ⟨-, items, s₁, s₂, opens, traced, closes⟩ := fileTraced_of_compileFile h
  obtain ⟨text, tokens, hlexed, rfl, hlibrary, hcompiled⟩ := opens.files_eq
  have horigins : (Event.origins [.file path.normalize (history sources path)]).filterMap Prod.fst =
      s.compiled.reverse := by
    rw [closes.files_eq.2, traced.compiled_eq, hcompiled]
    simp [Event.origins, Compilation.empty]
  refine ⟨fun p q => ?_, fun p => ⟨fun hp => ?_, hs.mem_of_reflTransGen hroot⟩, fun p hp => hs.not_transGen hp, ?_,
    horigins, hs.nodup, fun before p e after heq => ⟨?_, fun q hq => ?_⟩⟩
  · have hinitial := traced.library_prefix
    have hfile := Library.includes_add ⟨path.normalize.text, text⟩ (p := p) (q := q) hlexed
    rw [SourceFile.path_mk] at hfile
    rw [traced.mem_includes, closes.files_eq.1, ← hfile]
    rw [hlibrary] at hinitial ⊢
    exact Library.includes_split 0 hinitial (Nat.zero_le _)
  · rw [closes.files_eq.2] at hp
    rcases List.mem_cons.1 hp with rfl | hp
    · exact .refl
    · rcases traced.mem_of_compiled hp with hp | hp
      · rw [hcompiled] at hp
        cases hp
      · refine hs.reached p ?_
        rwa [paths, ← closes.files_eq.1] at hp
  · rw [closes.emissions_eq, traced.emissions_eq, opens.emissions_eq]
    simp [Event.origins, Event.origins_map_snd, Compilation.empty]
  · exact Event.target_of_mem_origins (heq ▸ List.mem_append_right _ (List.mem_cons_self ..))
  · have hsplit : s.compiled = (after.filterMap Prod.fst).reverse ++ p :: (before.filterMap Prod.fst).reverse := by
      rw [heq] at horigins
      rw [← List.reverse_reverse s.compiled, ← horigins]
      simp
    have hmem := List.mem_reverse.1 (hs.closed _ p _ hsplit q hq)
    obtain ⟨entry, hentry, hfst⟩ := List.mem_filterMap.1 hmem
    exact List.mem_map.2 ⟨entry, hentry, hfst⟩

/-- A run leaves the stack of the files that are being compiled as it was, whether it succeeds or fails,
so nothing is being compiled between two runs. It reads every path at most once, under its normal
name, also the one that cannot be read. It fails with a cycle only if the files that are being
compiled lead from a file back to it. If it succeeds, then the compiled files are those that the
includes lead to from the first one; the includes have no cycle; and the own body of each file is
emitted once, after those of the files that it includes. -/
theorem files_traversed (sources : Sources) (path : Path) (calls : List Call) :
    (∀ s, (outcome (compileFile sources path) s).2.compiling = s.compiling) ∧
    (∀ result s, outcome (compileFile sources path) (session calls) = (result, s) →
      let known := (session calls).library.files.length
      s.compiling = [] ∧
      (s.library.pathsSince known).Nodup ∧ (∀ p ∈ s.library.pathsSince known, p.normalize = p) ∧
      (∀ ds, result = .ok ds → ∀ p ∈ s.library.pathsSince known, p ∈ s.compiled) ∧
      (∀ q range reason, result = .error (.unreadable q range reason) → q ∉ s.library.pathsSince known) ∧
      ∀ q range, result = .error (.includeCycle q range) →
        ∃ chain, Way (s.library.Includes known) path.normalize q chain ∧ q ∈ chain ∧
          ∀ p, p ∈ chain ↔ p ∈ s.library.pathsSince known ∧ p ∉ s.compiled) ∧
    ∀ ds s, Gives (compileFile sources path) .empty ds s → Traversed path.normalize (history sources path) s := by
  refine ⟨compiling_compileFile sources path, fun result s hrun => ?_, fun ds s => traversed_of_gives⟩
  have hends := underway_compileFile sources path (compiling_session calls) (nodup_compiled_session calls)
  have hstate : session (calls ++ [.compile sources path]) = s := by
    rw [session, List.foldl_append]
    exact congrArg Prod.snd hrun
  have hstack : s.compiling = [] := hstate ▸ compiling_session _
  have hnormal (p : Path) (hp : p ∈ s.library.pathsSince (session calls).library.files.length) : p.normalize = p := by
    have hconsistent := consistent_session (calls ++ [.compile sources path])
    rw [hstate] at hconsistent
    exact (hconsistent.readable_paths p (List.mem_of_mem_drop hp)).normal
  cases result with
  | ok ds =>
    have hs := (hends.success ds s hrun).1
    exact ⟨hstack, hs.once, hnormal, fun _ _ p hp => (hs.held p hp).resolve_right List.not_mem_nil, by simp, by simp⟩
  | error e =>
    obtain ⟨chain, hs, hcycle, hunreadable⟩ := hends.failure e s hrun
    refine ⟨hstack, hs.once, hnormal, by simp,
      fun q range reason he => hunreadable q range reason (Except.error.inj he), ?_⟩
    intro q range he
    obtain ⟨hway, hq⟩ := hcycle q range (Except.error.inj he)
    refine ⟨chain, hway, hq, fun p => ⟨fun hp => ⟨hs.read p hp, hs.apart p hp⟩, fun hp => ?_⟩⟩
    exact (hs.held p hp.1).resolve_left hp.2

/-- A file that includes two files, which both include the same one. -/
def diamond : Sources where
  texts := [(⟨"a.idl"⟩, "#include \"b.idl\"\n#include \"c.idl\"\n"), (⟨"b.idl"⟩, "#include \"d.idl\"\n"),
    (⟨"c.idl"⟩, "module M \x7b\n#include \"./d.idl\"\n\x7d;\n"), (⟨"d.idl"⟩, "typedef long X;\n")]
  failure _ := "not found"

/-- Two files that include each other. -/
def ring : Sources where
  texts := [(⟨"a.idl"⟩, "#include \"b.idl\"\n"), (⟨"b.idl"⟩, "#include \"./a.idl\"\n")]
  failure _ := "not found"

/-- The last one of the files is compiled first, and once. Where two files include each other, the run
stops while both are being compiled, and none is afterwards. -/
theorem files_traversed_diamond :
    (outcome (compileFile diamond ⟨"a.idl"⟩) .empty).2.compiled = [⟨"a.idl"⟩, ⟨"c.idl"⟩, ⟨"b.idl"⟩, ⟨"d.idl"⟩] ∧
      Traversed ⟨"a.idl"⟩ (history diamond ⟨"a.idl"⟩) (outcome (compileFile diamond ⟨"a.idl"⟩) .empty).2 ∧
      (outcome (compileFile ring ⟨"a.idl"⟩) .empty).1.isOk = false ∧
      (outcome (compileFile ring ⟨"a.idl"⟩) .empty).2.paths = [⟨"a.idl"⟩, ⟨"b.idl"⟩] ∧
      (outcome (compileFile ring ⟨"a.idl"⟩) .empty).2.compiling = [] := by
  refine ⟨by decide +kernel, ?_, by decide +kernel, by decide +kernel, (files_traversed ring ⟨"a.idl"⟩ []).1 .empty⟩
  obtain ⟨ds, hgives⟩ := exists_gives (m := compileFile diamond ⟨"a.idl"⟩) (s := .empty) (by decide +kernel)
  have hroot : (⟨"a.idl"⟩ : Path).normalize = ⟨"a.idl"⟩ := by decide +kernel
  have htraversed := (files_traversed diamond ⟨"a.idl"⟩ []).2.2 ds _ hgives
  rwa [hroot] at htraversed

end Compilation

end Idl
