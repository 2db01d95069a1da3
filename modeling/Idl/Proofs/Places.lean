import Idl.Proofs.Includes
import Idl.Proofs.Origins

/-!
# Errors point into texts

An error says where it is by a range of a file, and some errors repeat the text that stands there. The
ranges come from tokens, directly or through the defined and declared names of the compilation.

* `Library.textAt? l r`: the text at a range of a loaded file.
* `Library.Holds l r`: a range of a loaded file, from one end of a character to another.
* `Error.Cites l e`: what the error says of the text at its ranges is what stands there.
* `Points l m`: a step that starts with the files of `l`, and with names that stand where their entries
  say, fails only with errors that point into texts, and keeps both.
-/

namespace Idl

/-- A byte offset between two characters of a text, or at one of its ends. -/
def Text.IsBoundary (cs : List Char) (n : Nat) : Prop := ∃ before after, before ++ after = cs ∧ size before = n

/-! ## Ranges of loaded files -/

namespace Library

/-- The text at a range of a loaded file, if it starts and ends between characters. -/
def textAt? (l : Library) (r : FileRange) : Option String :=
  (l.get r.file).toOption.bind fun file => (Text.slice? r.start r.stop file.text.toList).map String.ofList

/-- A range of a loaded file that starts and ends between characters. -/
inductive Holds (l : Library) (r : FileRange) : Prop
  | intro {file : SourceFile} (loaded : l.get r.file = .ok file) (ordered : r.start ≤ r.stop)
      (inside : r.stop ≤ Text.byteLength file.text) (start : Text.IsBoundary file.text.toList r.start)
      (stop : Text.IsBoundary file.text.toList r.stop) : Holds l r

section Ranges

variable {l l' : Library} {r s : FileRange} {text : String}

theorem textAt?_eq_some : l.textAt? r = some text ↔
    ∃ file, l.get r.file = .ok file ∧ Text.slice? r.start r.stop file.text.toList = some text.toList := by
  unfold textAt?
  cases l.get r.file with
  | error e => simp [Except.toOption]
  | ok file =>
    simp only [Except.toOption, Option.bind_some, Option.map_eq_some_iff, Except.ok.injEq, exists_eq_left']
    constructor
    · rintro ⟨cs, hslice, rfl⟩
      rw [hslice, String.toList_ofList]
    · intro hslice
      exact ⟨text.toList, hslice, String.ofList_toList⟩

theorem holds_of_textAt? (h : l.textAt? r = some text) : l.Holds r := by
  obtain ⟨file, hfile, hslice⟩ := textAt?_eq_some.1 h
  obtain ⟨before, after, hsplit, hbefore, htext⟩ := Text.slice?_eq_some.1 hslice
  have hsize := congrArg Text.size hsplit
  simp only [Text.size_append] at hsize
  refine .intro hfile (by omega) ?_ ⟨before, text.toList ++ after, ?_, hbefore⟩
    ⟨before ++ text.toList, after, hsplit, ?_⟩
  · rw [Text.byteLength]
    omega
  · rw [← hsplit, List.append_assoc]
  · rw [Text.size_append]
    omega

theorem textAt?_of_initial (hinitial : l.files <+: l'.files) (h : l.textAt? r = some text) :
    l'.textAt? r = some text := by
  obtain ⟨file, hfile, hslice⟩ := textAt?_eq_some.1 h
  exact textAt?_eq_some.2 ⟨file, get_of_initial hinitial hfile, hslice⟩

theorem Holds.of_initial (hinitial : l.files <+: l'.files) (h : l.Holds r) : l'.Holds r := by
  obtain ⟨hfile, ordered, inside, start, stop⟩ := h
  exact .intro (get_of_initial hinitial hfile) ordered inside start stop

/-- From one range to another one of the same file. -/
theorem Holds.extend (hr : l.Holds r) (hs : l.Holds s) : l.Holds (r.extend s) := by
  unfold FileRange.extend FileRange.merge?
  split
  · rename_i hfile
    obtain @⟨file, hload, ordered, inside, start, stop⟩ := hr
    obtain @⟨file', hload', ordered', inside', start', stop'⟩ := hs
    obtain rfl : file = file' := Except.ok.inj (hload.symm.trans (hfile ▸ hload'))
    refine .intro hload ?_ ?_ ?_ ?_
    · simp only [Option.getD_some]
      omega
    · simp only [Option.getD_some]
      omega
    · rcases Nat.le_total r.start s.start with h | h
      · simpa [Nat.min_eq_left h] using start
      · simpa [Nat.min_eq_right h] using start'
    · rcases Nat.le_total r.stop s.stop with h | h
      · simpa [Nat.max_eq_right h] using stop'
      · simpa [Nat.max_eq_left h] using stop
  · exact hr

/-- The end of a file. -/
theorem holds_finish {id : Nat} {file : SourceFile} (h : l.get id = .ok file) :
    l.Holds (SourceText.ofFile id file.text).finish :=
  .intro h (Nat.le_refl _) (Nat.le_refl _) ⟨file.text.toList, [], by simp, rfl⟩
    ⟨file.text.toList, [], by simp, rfl⟩

end Ranges

end Library

/-! ## What errors say -/

namespace Error

/-- The ranges of an error: its own, and that of an earlier declaration. -/
def ranges (e : Error) : List FileRange :=
  match e with
  | duplicateDefine _ range previous | duplicateSymbol _ range previous => [range, previous]
  | _ => e.range?.toList

/-- The text that an error repeats stands at its ranges. -/
def Cites (l : Library) : Error → Prop
  | unexpectedToken range found _ => ∃ text, l.textAt? range = some text ∧ found = "`" ++ text ++ "`"
  | invalidDirection range found => l.textAt? range = some found
  | duplicateDefine name range previous | duplicateSymbol name range previous =>
    l.textAt? range = some name ∧ l.textAt? previous = some name
  | reservedName name range | notException name range _ => l.textAt? range = some name
  | unclosedComment _ | unexpectedCharacter _ | unexpectedEnd _ _ | malformedInclude _ | unknownType _ _ _
  | includeCycle _ _ | unreadable _ _ _ | overwritesSource _ _ => True

/-- The ranges of an error are in loaded files, and what it repeats stands there. -/
structure Placed (l : Library) (e : Error) : Prop where
  holds : ∀ r ∈ e.ranges, l.Holds r
  cites : e.Cites l

end Error

section Placed

variable {l : Library} {range previous : FileRange} {name : String}

theorem placed_redefined (h : l.textAt? range = some name) (h' : l.textAt? previous = some name) :
    (Error.duplicateDefine name range previous).Placed l ∧ (Error.duplicateSymbol name range previous).Placed l := by
  have hranges : ∀ r ∈ [range, previous], l.Holds r := by
    simpa using ⟨Library.holds_of_textAt? h, Library.holds_of_textAt? h'⟩
  exact ⟨⟨hranges, h, h'⟩, hranges, h, h'⟩

theorem Error.Placed.of_initial {l' : Library} {e : Error} (hinitial : l.files <+: l'.files) (h : e.Placed l) :
    e.Placed l' := by
  have htext {r : FileRange} {text : String} (h : l.textAt? r = some text) := Library.textAt?_of_initial hinitial h
  refine ⟨fun r hr => (h.holds r hr).of_initial hinitial, ?_⟩
  have hcites := h.cites
  cases e with
  | unexpectedToken range found expected =>
    obtain ⟨text, hat, hfound⟩ := hcites
    exact ⟨text, htext hat, hfound⟩
  | invalidDirection range found => exact htext hcites
  | duplicateDefine name range previous => exact ⟨htext hcites.1, htext hcites.2⟩
  | duplicateSymbol name range previous => exact ⟨htext hcites.1, htext hcites.2⟩
  | reservedName name range => exact htext hcites
  | notException name range kind => exact htext hcites
  | _ => trivial

/-- An error with one range. -/
theorem placed_of_holds {e : Error} (hranges : e.ranges = [range]) (hcites : e.Cites l) (h : l.Holds range) :
    e.Placed l := ⟨by simpa [hranges] using h, hcites⟩

end Placed

/-! ## Texts -/

section Texts

variable {l : Library} {id : Nat} {file : SourceFile} {all : List Token}

/-- A token stands where its range says. -/
theorem Token.textAt?_of_mem {token : Token} (hfile : l.get id = .ok file)
    (hall : Token.ofSource id file.text = .ok all) (hmem : token ∈ all) : l.textAt? token.range = some token.text := by
  obtain ⟨before, after, rfl⟩ := List.append_of_mem hmem
  obtain ⟨hid, htext, -⟩ := Token.slices_of_scan hall
  exact Library.textAt?_eq_some.2 ⟨file, hid ▸ hfile, htext⟩

/-- A name that stands where its range says. -/
def Library.Names (l : Library) (name : Name) : Prop := l.textAt? name.range = some name.text

theorem draws_ofSource (hfile : l.get id = .ok file) (hall : Token.ofSource id file.text = .ok all) :
    Draws l.Names l.Holds all := by
  have htext {token : Token} (hmem : token ∈ all) := Token.textAt?_of_mem hfile hall hmem
  exact ⟨fun token hmem => htext hmem, fun first hfirst last hlast =>
    (Library.holds_of_textAt? (htext hfirst)).extend (Library.holds_of_textAt? (htext hlast))⟩

/-- A fault among the tokens of a file, or at its end. -/
theorem IsFault.placed {e : Error} (hfile : l.get id = .ok file) (hall : Token.ofSource id file.text = .ok all)
    (h : IsFault (SourceText.ofFile id file.text).finish all e) : e.Placed l := by
  have htext {token : Token} (hmem : token ∈ all) := Token.textAt?_of_mem hfile hall hmem
  cases h with
  | ended expected => exact placed_of_holds rfl trivial (Library.holds_finish hfile)
  | unexpected mem expected =>
    exact placed_of_holds rfl ⟨_, htext mem, rfl⟩ (Library.holds_of_textAt? (htext mem))
  | direction mem => exact placed_of_holds rfl (htext mem) (Library.holds_of_textAt? (htext mem))
  | malformed mem mem' => exact placed_of_holds rfl trivial ((draws_ofSource hfile hall).ranges _ mem _ mem')

/-- The range of an include is from its first token to its closing quote. -/
theorem drawn_include {head : Token} {tokens : List Token} (hfile : l.get id = .ok file)
    (hall : Token.ofSource id file.text = .ok all) (hsuffix : head :: tokens <:+ all) (read : List Item) (rest : Cursor)
    (h : Item.includeStep (.ofFile id file.text) head tokens = .items read rest) :
    ∀ item ∈ read, item.Drawn l.Names l.Holds := by
  obtain ⟨before, rfl⟩ := hsuffix
  have hhead := Library.holds_of_textAt? (Token.textAt?_of_mem hfile hall (by simp : head ∈ before ++ head :: tokens))
  have hid := (Token.slices_of_scan hall).1
  obtain ⟨passed, cs, hpassed, hstop, hscan⟩ := Token.exists_of_scan_after hall
  obtain ⟨gap, written, after, more, hquoted, rfl, -⟩ := Item.exists_of_includeStep hpassed.symm hscan h
  have htext : passed ++ (gap ++ ['"'] ++ written ++ ['"']) ++ after = file.text.toList := by
    rw [← hpassed, ← hquoted.text]
    simp
  have hsize := congrArg Text.size htext
  obtain @⟨file', hload, ordered, inside, start, -⟩ := hhead
  obtain rfl : file' = file := Except.ok.inj (hload.symm.trans (hid ▸ hfile))
  simp only [Text.size_append, Text.size_cons, Text.size_nil, show '"'.utf8Size = 1 from rfl] at hsize
  intro item hitem
  obtain rfl := List.mem_singleton.1 hitem
  refine .included (.intro hload ?_ ?_ start ⟨_, after, htext, ?_⟩)
  · dsimp only
    omega
  · simp only [Text.byteLength, Text.size_append, Text.size_cons, Text.size_nil, show '"'.utf8Size = 1 from rfl]
    omega
  · simp only [Text.size_append, Text.size_cons, Text.size_nil, show '"'.utf8Size = 1 from rfl]
    omega

theorem placed_of_scan_error {e : Error} (hfile : l.get id = .ok file)
    (h : Token.ofSource id file.text = .error e) : e.Placed l := by
  obtain ⟨passed, after, htext, rfl⟩ := Token.exists_of_scan_error h
  have hslice : Text.slice? (Text.size passed) (Text.size passed + 2) file.text.toList = some "/*".toList :=
    Text.slice?_eq_some.2 ⟨passed, after, by rw [← htext]; simp, rfl, rfl⟩
  rw [Nat.zero_add]
  refine placed_of_holds rfl trivial (Library.holds_of_textAt? (Library.textAt?_eq_some.2 ⟨file, hfile, hslice⟩))

end Texts

/-! ## Steps -/

namespace Compilation

/-- The files of `l` were read, and the defined and declared names stand where their entries say. -/
structure Recorded (l : Library) (s : Compilation) : Prop where
  initial : l.files <+: s.library.files
  defines : ∀ entry ∈ s.defines.entries, s.library.textAt? entry.2 = some entry.1
  symbols : ∀ entry ∈ s.symbols.entries, s.library.textAt? entry.2.range = some entry.1

/-- A step that starts with what is recorded keeps it, and fails with errors that point into texts. -/
def Points {α : Type} (l : Library) (m : CompileM α) : Prop :=
  ∀ s, Recorded l s → Ends m s (fun _ s' => Recorded l s') fun e s' => e.Placed s'.library

section Points

variable {α β : Type} {l : Library} {s s' : Compilation}

theorem recorded_empty : Recorded .empty .empty := ⟨List.prefix_rfl, by simp [empty, Defines.empty],
  by simp [empty, SymbolTable.empty]⟩

theorem Recorded.of_initial {l' : Library} (h : Recorded l' s) (hinitial : l.files <+: l'.files) : Recorded l s :=
  ⟨hinitial.trans h.initial, h.defines, h.symbols⟩

/-- One more file was read. -/
theorem Recorded.add (h : Recorded l s) (file : SourceFile) :
    Recorded (s.library.add file) { s with library := s.library.add file } := by
  have hinitial : s.library.files <+: (s.library.add file).files := List.prefix_append _ _
  exact ⟨List.prefix_rfl, fun entry he => Library.textAt?_of_initial hinitial (h.defines entry he),
    fun entry he => Library.textAt?_of_initial hinitial (h.symbols entry he)⟩

theorem points_pure (a : α) : Points l (pure a) := fun _ hs => ends_pure hs

theorem points_throw {e : Error} (h : e.Placed l) : Points l (throw e : CompileM α) :=
  fun _ hs => ends_throw (h.of_initial hs.initial)

theorem Points.then {m : CompileM α} {f : α → CompileM β} (h : Points l m) (hf : ∀ a, Points l (f a)) :
    Points l (m >>= f) := fun s hs => (h s hs).bind fun a s₁ h₁ => hf a s₁ h₁

theorem points_modify {f : Compilation → Compilation} (h : ∀ s, Recorded l s → Recorded l (f s)) :
    Points l (modify f) := fun s hs => ends_modify (h s hs)

theorem points_note (level : LogLevel) (message : String) : Points l (note level message) :=
  points_modify fun _ hs => ⟨hs.initial, hs.defines, hs.symbols⟩

theorem points_reach (path : Path) (head : Token) : Points l (reach path head) := points_note _ _

theorem points_emit (target : Path) (body : List Declaration) : Points l (emit target body) :=
  (points_note _ _).then fun _ => points_modify fun _ hs => ⟨hs.initial, hs.defines, hs.symbols⟩

theorem points_stopAt {fault : Option Error} (h : ∀ e, fault = some e → e.Placed l) : Points l (stopAt fault) := by
  cases fault with
  | none => exact points_pure ()
  | some e => exact points_throw (h e rfl)

/-- A step that looks something up. -/
theorem points_lookup {look : Compilation → Except Error α}
    (h : ∀ s, Recorded l s → ∀ e, look s = .error e → e.Placed s.library) :
    Points l (do let s ← get; MonadExcept.ofExcept (look s)) := by
  intro s hs
  refine ends_get_bind ?_
  exact ends_ofExcept (fun _ _ => hs) (h s hs)

theorem mem_of_lookup {κ γ : Type} [BEq κ] [LawfulBEq κ] {entries : List (κ × γ)} {key : κ} {value : γ}
    (h : entries.lookup key = some value) : (key, value) ∈ entries := by
  obtain ⟨before, after, rfl, -⟩ := List.lookup_eq_some_iff.1 h
  simp

theorem points_define {name : Name} (h : l.Names name) : Points l (define name) := by
  refine (points_note _ _).then fun _ s hs => ?_
  have hname : s.library.Names name := Library.textAt?_of_initial hs.initial h
  refine ends_get_bind ?_
  refine (ends_ofExcept (Q := fun defines s₁ => s.defines.define name.text name.range = .ok defines ∧ s = s₁)
    (fun _ hdefine => ⟨hdefine, rfl⟩) fun e he => ?_).bind ?_
  · unfold Defines.define at he
    split at he
    · rename_i previous hprevious
      cases he
      exact (placed_redefined hname (hs.defines _ (mem_of_lookup hprevious))).1
    · cases he
  · rintro defines _ ⟨hdefine, rfl⟩
    unfold Defines.define at hdefine
    split at hdefine
    · cases hdefine
    · cases hdefine
      exact ends_modify ⟨hs.initial, List.forall_mem_cons.2 ⟨hname, hs.defines⟩, hs.symbols⟩

theorem points_register (kind : Symbol.Kind) (path target : Path) {name : Name} (h : l.Names name) :
    Points l (register kind path target name) := by
  intro s hs
  have hname : s.library.Names name := Library.textAt?_of_initial hs.initial h
  refine ends_get_bind ?_
  refine (ends_ofExcept (Q := fun symbols s₁ =>
    s.symbols.register name.text ⟨kind, path, target, name.range⟩ = .ok symbols ∧ s = s₁)
    (fun _ hregister => ⟨hregister, rfl⟩) fun e he => ?_).bind ?_
  · unfold SymbolTable.register at he
    split at he
    · cases he
      exact placed_of_holds rfl hname (Library.holds_of_textAt? hname)
    · split at he
      · rename_i previous hprevious
        cases he
        exact (placed_redefined hname (hs.symbols _ (mem_of_lookup hprevious))).2
      · cases he
  · rintro symbols _ ⟨hregister, rfl⟩
    refine (ends_note (Q := fun _ s₁ => Quiet s s₁) fun _ => id).bind ?_
    rintro _ _ ⟨log, rfl⟩
    unfold SymbolTable.register at hregister
    split at hregister
    · cases hregister
    · split at hregister
      · cases hregister
      · cases hregister
        exact ends_modify ⟨hs.initial, hs.defines, List.forall_mem_cons.2 ⟨hname, hs.symbols⟩⟩

/-- A type that is not known is reported where it stands. -/
theorem exists_of_resolve_error {t : SymbolTable} {range : FileRange} {target : Path} {type : List Char} {e : Error}
    (h : t.resolveChars range target type = .error e) : ∃ name suggestion, e = .unknownType name range suggestion := by
  fun_induction SymbolTable.resolveChars t range target type generalizing e with
  | case6 => rename_i hrec ih; exact ih (hrec.trans h)
  | case8 => cases h; exact ⟨_, _, rfl⟩
  | _ => cases h

theorem points_resolve (target : Path) {type : TypeExpr} (h : l.Holds type.range) : Points l (resolve target type) := by
  refine points_lookup fun s hs e he => ?_
  obtain ⟨name, suggestion, rfl⟩ := exists_of_resolve_error he
  exact placed_of_holds rfl trivial (h.of_initial hs.initial)

theorem points_resolveReturn (target : Path) {type : TypeExpr} (h : l.Holds type.range) :
    Points l (resolveReturn target type) := by
  refine points_lookup fun s hs e he => ?_
  unfold SymbolTable.resolveReturn at he
  split at he
  · cases he
  · obtain ⟨name, suggestion, rfl⟩ := exists_of_resolve_error he
    exact placed_of_holds rfl trivial (h.of_initial hs.initial)

theorem points_resolveException {name : Name} (h : l.Names name) : Points l (resolveException name) := by
  intro s hs
  have hname : s.library.Names name := Library.textAt?_of_initial hs.initial h
  refine ends_get_bind ?_
  refine (ends_ofExcept (Q := fun _ s₁ => Recorded l s₁) (fun _ _ => hs) fun e he => ?_).bind fun _ _ h => ends_pure h
  unfold SymbolTable.checkException at he
  split at he
  · split at he
    · cases he
    · cases he
      exact placed_of_holds rfl hname (Library.holds_of_textAt? hname)
  · cases he
    exact placed_of_holds rfl hname (Library.holds_of_textAt? hname)

/-! ## Items -/

theorem points_mapM {f : α → CompileM β} {as : List α} (h : ∀ a ∈ as, Points l (f a)) : Points l (as.mapM f) := by
  induction as with
  | nil => exact points_pure []
  | cons a as ih =>
    obtain ⟨ha, has⟩ := List.forall_mem_cons.1 h
    rw [List.mapM_cons]
    exact ha.then fun _ => (ih has).then fun _ => points_pure _

theorem points_declareMembers {f : α → CompileM (β × List Import)} {members : List (Member α)}
    (h : ∀ a ∈ Member.items members, Points l (f a)) : Points l (declareMembers f members) := by
  induction members with
  | nil => exact points_pure _
  | cons m members ih =>
    cases m with
    | comment c => exact (ih h).then fun _ => points_pure _
    | item a =>
      obtain ⟨ha, h⟩ := List.forall_mem_cons.1 h
      exact ha.then fun _ => (ih h).then fun _ => points_pure _

theorem points_declareField (target : Path) {f : Field TypeExpr} (h : l.Holds f.type.range) :
    Points l (declareField target f) := (points_resolve target h).then fun _ => points_pure _

theorem points_declareParameters (target : Path) {ps : List (Parameter TypeExpr)}
    (h : ∀ p ∈ ps, l.Holds p.type.range) : Points l (declareParameters target ps) := by
  induction ps with
  | nil => exact points_pure _
  | cons p ps ih =>
    obtain ⟨hp, hps⟩ := List.forall_mem_cons.1 h
    exact (points_resolve target hp).then fun _ => (ih hps).then fun _ => points_pure _

theorem points_declareMethod (target : Path) {m : MethodItem} (h : m.method.Drawn l.Names l.Holds)
    (hfault : ∀ e, m.fault = some e → e.Placed l) : Points l (declareMethod target m) := by
  refine (points_resolveReturn target h.returns).then fun _ => ?_
  refine (points_declareParameters target h.parameters).then fun _ => ?_
  refine (points_mapM fun name hname => points_resolveException (h.raises name hname)).then fun _ => ?_
  exact (points_stopAt hfault).then fun _ => points_pure _

mutual

theorem points_declare {ctx : Context}
    (hinclude : ∀ path range, l.Holds range → Points l (ctx.includeFile path range)) :
    ∀ {target : Path} {item : Item}, item.Drawn l.Names l.Holds → item.FaultsIn (·.Placed l) →
      Points l (declare ctx target item)
  | _, .comment _, _, _ => points_pure _
  | _, .define .., .define named, _ =>
    (points_reach _ _).then fun _ => (points_define named).then fun _ => points_pure _
  | _, .include .., .included placed, _ => by
    refine (points_reach _ _).then fun _ => (points_note _ _).then fun _ => ?_
    exact (hinclude _ _ placed).then fun _ => points_pure _
  | _, .guarded .., .guarded within, .guarded within' => by
    refine (points_reach _ _).then fun _ => ?_
    refine Points.then (fun s hs => ends_get hs) fun _ => ?_
    exact (points_declareAll hinclude within within').then fun _ => points_pure _
  | _, .module .., .module within, .module within' own => by
    refine (points_reach _ _).then fun _ => ?_
    refine (points_declareAll hinclude within within').then fun _ => ?_
    exact (points_stopAt own).then fun _ => (points_emit _ _).then fun _ => points_pure _
  | target, .typedef .., .typedef named type, _ => by
    refine (points_reach _ _).then fun _ => (points_resolve target type).then fun _ => ?_
    exact (points_register _ _ _ named).then fun _ => points_pure _
  | target, .record .., .record named fields, .record own => by
    refine (points_reach _ _).then fun _ => (points_register _ _ _ named).then fun _ => ?_
    refine (points_declareMembers fun f hf => points_declareField target (fields f hf)).then fun _ => ?_
    exact (points_stopAt own).then fun _ => points_pure _
  | _, .enum .., .enum named, .enum own => by
    refine (points_reach _ _).then fun _ => (points_register _ _ _ named).then fun _ => ?_
    exact (points_stopAt own).then fun _ => points_pure _
  | target, .interface .., .interface named drawn, .interface methods own => by
    refine (points_reach _ _).then fun _ => (points_register _ _ _ named).then fun _ => ?_
    refine (points_declareMembers fun m hm => points_declareMethod target (drawn m hm) (methods m hm)).then fun _ => ?_
    exact (points_stopAt own).then fun _ => points_pure _
  | _, .fault none _, _, .fault own => (points_pure _).then fun _ => points_throw own
  | _, .fault (some _) _, _, .fault own => (points_reach _ _).then fun _ => points_throw own

theorem points_declareAll {ctx : Context}
    (hinclude : ∀ path range, l.Holds range → Points l (ctx.includeFile path range)) :
    ∀ {target : Path} {items : List Item}, (∀ item ∈ items, item.Drawn l.Names l.Holds) →
      (∀ item ∈ items, item.FaultsIn (·.Placed l)) → Points l (declareAll ctx target items)
  | _, [], _, _ => points_pure _
  | _, item :: items, hdrawn, hfaults => by
    obtain ⟨hitem, hitems⟩ := List.forall_mem_cons.1 hdrawn
    obtain ⟨hitem', hitems'⟩ := List.forall_mem_cons.1 hfaults
    refine (points_declare hinclude hitem hitem').then fun _ => ?_
    exact (points_declareAll hinclude hitems hitems').then fun _ => points_pure _

end

/-! ## Files -/

theorem points_compileText {includeFile : Path → FileRange → CompileM Unit} {path target : Path} {text : String}
    (hinclude : ∀ l', l.files <+: l'.files → ∀ path range, l'.Holds range → Points l' (includeFile path range)) :
    Points l (compileText includeFile path target text) := by
  intro s hs
  have hfile := s.library.get_add ⟨path.text, text⟩
  have hadd := hs.add ⟨path.text, text⟩
  have hinitial : l.files <+: (s.library.add ⟨path.text, text⟩).files := hs.initial.trans (List.prefix_append _ _)
  generalize hlibrary : s.library.add ⟨path.text, text⟩ = l' at hfile hadd hinitial
  refine ends_compileText (fun e he => ?_) fun tokens s₁ hlexed hquiet => ?_
  · rw [hlibrary]
    exact placed_of_scan_error hfile he
  · rw [hlibrary] at hquiet
    obtain ⟨log, rfl⟩ := hquiet
    have hdrawn : ∀ item ∈ Item.ofTokens (.ofFile s.library.nextId text) tokens, item.Drawn l'.Names l'.Holds :=
      Item.drawn_ofTokens (draws_ofSource hfile hlexed) fun hsuffix read rest hread =>
        drawn_include hfile hlexed hsuffix read rest hread
    have hfaults : ∀ item ∈ Item.ofTokens (.ofFile s.library.nextId text) tokens, item.FaultsIn (·.Placed l') :=
      Item.faultsIn_ofTokens fun e he => IsFault.placed hfile hlexed he
    have hbody : Points l' (declareAll ⟨path, includeFile⟩ target
        (Item.ofTokens (.ofFile s.library.nextId text) tokens)) :=
      points_declareAll (hinclude l' hinitial) hdrawn hfaults
    have hrun := hbody ({ s with library := l', log }.enter path) ⟨hadd.initial, hadd.defines, hadd.symbols⟩
    refine hrun.mono ?_ fun _ _ h => h
    rintro body s₂ h₂ _ ⟨log', rfl⟩
    have hend := h₂.of_initial hinitial
    exact ⟨hend.initial, hend.defines, hend.symbols⟩

theorem points_compileFrom (sources : Sources) {stack : List Path} {origin : Option FileRange} {path : Path}
    (horigin : ∀ r, origin = some r → l.Holds r) : Points l (compileFrom sources stack origin path) := by
  induction hn : sources.unread stack using Nat.strongRecOn generalizing stack origin path l with
  | _ n ih =>
    subst hn
    intro s hs
    have hranges : ∀ r ∈ origin.toList, s.library.Holds r :=
      fun r hr => (horigin r (by simpa using hr)).of_initial hs.initial
    rw [compileFrom]
    refine ends_compileOnce ?_ (fun _ => ⟨hranges, trivial⟩) (fun _ _ => ⟨hranges, trivial⟩) fun text _ _ _ => ?_
    · rintro - _ ⟨log, rfl⟩
      exact ⟨hs.initial, hs.defines, hs.symbols⟩
    · refine points_compileText (fun l' _ written range hrange s₁ h₁ => ?_) s hs
      refine ends_get_bind ?_
      split
      · rename_i h
        have hrun : Points l' (compileFrom sources s₁.compiling (some range) written.normalize) :=
          ih _ h.2 (fun r hr => by cases hr; exact hrange) rfl
        exact (hrun s₁ h₁).discard
      · have hplaced : (Error.includeCycle written.normalize range).Placed l' := placed_of_holds rfl trivial hrange
        exact ends_throw (hplaced.of_initial h₁.initial)

/-- However compiling a file fails, it points into texts. -/
theorem points_compileFile (sources : Sources) (path : Path) : Points .empty (compileFile sources path) := by
  have hcompile : Points .empty (compile sources none path.normalize) := by
    intro s hs
    refine ends_get_bind ?_
    exact points_compileFrom sources (by simp) s hs
  unfold compileFile
  split
  · exact (points_note _ _).then fun _ => hcompile
  · exact hcompile

/-- If compiling a file fails, each range of the error lies in the text of a file that was read, from one end of a
character to another, and what the error repeats is the text there. -/
theorem errors_point_into_texts {sources : Sources} {path : Path} {e : Error} {s : Compilation}
    (failed : outcome (compileFile sources path) .empty = (.error e, s)) :
    (∀ r ∈ e.ranges, s.library.Holds r) ∧ e.Cites s.library := by
  obtain ⟨holds, cites⟩ := (points_compileFile sources path .empty recorded_empty).failure e s failed
  exact ⟨holds, cites⟩

/-- What a step failed with. -/
def failure? {α : Type} : Except Error α × Compilation → Option Error
  | (.error e, _) => some e
  | (.ok _, _) => none

theorem eq_of_failure? {m : CompileM α} {e : Error} (h : failure? (outcome m s) = some e) :
    outcome m s = (.error e, (outcome m s).2) := by
  rcases hm : outcome m s with ⟨e' | a, s'⟩
  · rw [hm] at h
    cases h
    rfl
  · rw [hm] at h
    cases h

/-- A name that is declared in two files, in one of them behind a character of two bytes. -/
def declaredTwice : Sources where
  texts := [(⟨"m.idl"⟩, "#include \"a.idl\" /* é */ typedef long S;\n"), (⟨"a.idl"⟩, "struct S \x7b long x; \x7d;\n")]
  failure _ := ""

theorem errors_point_into_texts_declared_twice : ∃ s,
    outcome (compileFile declaredTwice ⟨"m.idl"⟩) .empty =
        (.error (.duplicateSymbol "S" ⟨1, 39, 40⟩ ⟨2, 7, 8⟩), s) ∧
      s.library.Holds ⟨1, 39, 40⟩ ∧ s.library.textAt? ⟨1, 39, 40⟩ = some "S" ∧
      s.library.textAt? ⟨2, 7, 8⟩ = some "S" := by
  have failed : outcome (compileFile declaredTwice ⟨"m.idl"⟩) .empty =
      (.error (.duplicateSymbol "S" ⟨1, 39, 40⟩ ⟨2, 7, 8⟩), (outcome (compileFile declaredTwice ⟨"m.idl"⟩) .empty).2) :=
    eq_of_failure? (by decide +kernel)
  obtain ⟨holds, cites⟩ := errors_point_into_texts failed
  exact ⟨_, failed, holds _ List.mem_cons_self, cites.1, cites.2⟩

end Points

end Compilation

end Idl
