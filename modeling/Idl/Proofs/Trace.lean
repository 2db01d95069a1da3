import Idl.Proofs.Steps

/-!
# What becomes of the items

The trace of a compilation keeps what became of every item: which includes compiled a file, which
guarded blocks were dropped, which declarations came out of which body. Both the declarations of a
body and the bodies that were emitted can be read off the trace.
-/

namespace Idl

/-- Whether an item declares a name. -/
def Item.declares : Item → Bool
  | .typedef .. | .record .. | .enum .. | .interface .. => true
  | _ => false

/-- What became of an item. -/
inductive Event where
  | comment (c : Comment)
  | define (name : Name)
  /-- An include of a file that was compiled before. -/
  | skip (path : Path)
  /-- A file that was compiled. -/
  | file (path : Path) (body : List Event)
  /-- A guarded block, and whether its name was defined when it was reached. -/
  | guarded (name : Name) (defined : Bool) (body : List Event)
  /-- A module, and the output that its body was emitted to. -/
  | module (name : String) (target : Path) (body : List Event) (trailing : List Comment)
  /-- A declaration, after the comments and the imports that belong in front of it. -/
  | declared (ds : List Declaration)

namespace Event

/-- The declarations of a body with the given events. -/
def declarations : List Event → List Declaration
  | [] => []
  | .comment c :: rest => .comment c :: declarations rest
  | .guarded _ defined body :: rest => (if defined then [] else declarations body) ++ declarations rest
  | .module name _ body trailing :: rest =>
    trailing.map .comment ++ [.module name (declarations body)] ++ declarations rest
  | .declared ds :: rest => ds ++ declarations rest
  | .define _ :: rest | .skip _ :: rest | .file _ _ :: rest => declarations rest

theorem declarations_cons (event : Event) (rest : List Event) :
    declarations (event :: rest) = declarations [event] ++ declarations rest := by
  cases event <;> simp [declarations]

/-- The bodies that were emitted, in order. -/
def emissions : List Event → List Emission
  | [] => []
  | .file path body :: rest => emissions body ++ [⟨Placement.ofSource path, declarations body⟩] ++ emissions rest
  | .guarded _ _ body :: rest => emissions body ++ emissions rest
  | .module _ target body _ :: rest => emissions body ++ [⟨target, declarations body⟩] ++ emissions rest
  | .comment _ :: rest | .define _ :: rest | .skip _ :: rest | .declared _ :: rest => emissions rest

mutual

/-- Whether no guarded block was dropped in an event. Those of included files count if `included` says so. -/
@[simp]
def keepsIn (included : Bool) : Event → Bool
  | .file _ body => !included || keepsAllIn included body
  | .module _ _ body _ => keepsAllIn included body
  | .guarded _ defined body => !defined && keepsAllIn included body
  | .comment _ | .define _ | .skip _ | .declared _ => true

/-- Whether no guarded block was dropped in any of some events. -/
@[simp]
def keepsAllIn (included : Bool) : List Event → Bool
  | [] => true
  | event :: rest => keepsIn included event && keepsAllIn included rest

end

/-- Whether no guarded block was dropped. -/
def keepsAll (events : List Event) : Bool := keepsAllIn true events

/-- Whether no guarded block of the file itself was dropped; those of the files that it includes may be. -/
def keepsAllOwn (events : List Event) : Bool := keepsAllIn false events

end Event

namespace Compilation

/-! ## Tracing -/

/-- The file whose items are traced, and what becomes of an include in it: the events of the file
that it names, unless that file was compiled before. -/
structure Tracing where
  path : Path
  includeFile : Path → FileRange → CompileM (Option (List Event))

/-- The file whose items are declared, without the trace of the files that it includes. -/
def Tracing.context (ctx : Tracing) : Context := ⟨ctx.path, fun path range => discard (ctx.includeFile path range)⟩

@[simp]
theorem Tracing.path_context (ctx : Tracing) : ctx.context.path = ctx.path := rfl

mutual

/-- Declares an item and says what became of it. -/
def trace (ctx : Tracing) (target : Path) : Item → CompileM Event
  | .comment c => pure (.comment c)
  | .define head name => do
    reach ctx.path head
    define name
    return .define name
  | .include head written range => do
    reach ctx.path head
    let path := includedPath ctx.path written
    note .debug s!"including `{path.text}` from `{ctx.path.text}`"
    let body? ← ctx.includeFile path range
    return match body? with
      | none => .skip path.normalize
      | some body => .file path.normalize body
  | .guarded head name items => do
    reach ctx.path head
    let defined := (← get).defines.isDefined name.text
    let body ← traceAll ctx target items
    return .guarded name defined body
  | .module head name items trailing fault => do
    reach ctx.path head
    let inner := Placement.ofModule target name.text
    let body ← traceAll ctx inner items
    stopAt fault
    emit inner (Event.declarations body)
    return .module name.text inner body trailing
  | item => .declared <$> declare ctx.context target item

/-- Declares items one after the other and says what became of each. -/
def traceAll (ctx : Tracing) (target : Path) : List Item → CompileM (List Event)
  | [] => pure []
  | item :: items => do
    let event ← trace ctx target item
    let events ← traceAll ctx target items
    return event :: events

end

/-- Compiles the text of a file and says what became of its items. -/
def traceText (includeFile : Path → FileRange → CompileM (Option (List Event))) (path target : Path) (text : String) :
    CompileM (List Event) := do
  let id := (← get).library.nextId
  modify fun s => { s with library := s.library.add ⟨path.text, text⟩ }
  let tokens ← MonadExcept.ofExcept (Token.ofSource id text)
  note .debug s!"compiling `{path.text}` ({tokens.length} tokens)"
  let body ← during path (traceAll ⟨path, includeFile⟩ target (Item.ofTokens (.ofFile id text) tokens))
  modify fun s => { s with compiled := path :: s.compiled }
  emit target (Event.declarations body)
  return body

/-- Compiles the file at a normal path, unless it was compiled already, and says what became of it. -/
def traceOnce (includeFile : Path → FileRange → CompileM (Option (List Event))) (sources : Sources)
    (origin : Option FileRange) (path : Path) : CompileM (Option (List Event)) := do
  if path ∈ (← get).compiled then
    note .debug s!"skipping `{path.text}`, compiled already"
    return none
  let target := Placement.ofSource path
  if target.same path then throw (.overwritesSource path origin)
  match sources.texts.lookup path with
  | none => throw (.unreadable path origin (sources.failure path))
  | some text => some <$> traceText includeFile path target text

/-- Compiles the file at a normal path, where `stack` are the files being compiled at that point, and
says what became of it. -/
def traceFrom (sources : Sources) (stack : List Path) (origin : Option FileRange) (path : Path) :
    CompileM (Option (List Event)) :=
  let includeFile (written : Path) (range : FileRange) : CompileM (Option (List Event)) := do
    let s ← get
    if _ : written.normalize ∉ s.compiling ∧ sources.unread s.compiling < sources.unread stack then
      traceFrom sources s.compiling (some range) written.normalize
    else throw (.includeCycle written.normalize range)
  traceOnce includeFile sources origin path
termination_by sources.unread stack

/-- Compiles the file at a path and says what became of it. -/
def traceFile (sources : Sources) (path : Path) : CompileM (Option (List Event)) := do
  if path.extension? ≠ some Placement.sourceExtension then
    note .warn s!"`{path.text}` does not have an `.idl` extension"
  traceFrom sources (← get).compiling none path.normalize

/-! ## The trace says what is declared -/

mutual

theorem declare_eq_trace (ctx : Tracing) (target : Path) :
    ∀ item, declare ctx.context target item = (fun event => Event.declarations [event]) <$> trace ctx target item
  | .comment c => by simp [declare, trace, Event.declarations]
  | .define head name => by simp [declare, trace, Event.declarations]
  | .include head written range => by
    -- neither a file nor a skipped one leaves anything in the body that includes it
    have hnil (body? : Option (List Event)) : Event.declarations [match body? with
        | none => .skip (includedPath ctx.path written).normalize
        | some body => .file (includedPath ctx.path written).normalize body] = [] := by
      cases body? <;> simp [Event.declarations]
    simp [declare, trace, Tracing.context, discard, map_const, hnil]
  | .guarded head name items => by
    have ih := declareAll_eq_traceAll ctx target items
    simp [declare, trace, Event.declarations, ih]
  | .module head name items trailing fault => by
    have ih := declareAll_eq_traceAll ctx (Placement.ofModule target name.text) items
    simp [declare, trace, Event.declarations, ih]
  | .typedef head typed comments => by simp [trace, Event.declarations]
  | .record head kind name block => by simp [trace, Event.declarations]
  | .enum head name block => by simp [trace, Event.declarations]
  | .interface head name block => by simp [trace, Event.declarations]
  | .fault head error => by simp [trace, Event.declarations]

theorem declareAll_eq_traceAll (ctx : Tracing) (target : Path) :
    ∀ items, declareAll ctx.context target items = Event.declarations <$> traceAll ctx target items
  | [] => by simp [declareAll, traceAll, Event.declarations]
  | item :: items => by
    have ih := declareAll_eq_traceAll ctx target items
    simp [declareAll, traceAll, declare_eq_trace ctx target item, ih, ← Event.declarations_cons]

end

theorem compileText_eq_traceText (includeFile : Path → FileRange → CompileM (Option (List Event))) (path target : Path)
    (text : String) : compileText (fun p range => discard (includeFile p range)) path target text =
      Event.declarations <$> traceText includeFile path target text := by
  have hbody := declareAll_eq_traceAll ⟨path, includeFile⟩ target
  simp only [Tracing.context] at hbody
  simp [compileText, traceText, hbody, during_map]

theorem compileOnce_eq_traceOnce (includeFile : Path → FileRange → CompileM (Option (List Event))) (sources : Sources)
    (origin : Option FileRange) (path : Path) :
    compileOnce (fun p range => discard (includeFile p range)) sources origin path =
      (fun body? => body?.elim [] Event.declarations) <$> traceOnce includeFile sources origin path := by
  simp only [compileOnce, traceOnce, map_bind]
  congr 1
  funext s
  split
  · simp
  · split
    · rfl
    · cases sources.texts.lookup path with
      | none => rfl
      | some text => exact (compileText_eq_traceText includeFile path _ text).trans (by simp)

/-- The trace of a file says what it declares. -/
theorem compileFrom_eq_traceFrom (sources : Sources) (stack : List Path) (origin : Option FileRange) (path : Path) :
    compileFrom sources stack origin path =
      (fun body? => body?.elim [] Event.declarations) <$> traceFrom sources stack origin path := by
  induction hn : sources.unread stack using Nat.strongRecOn generalizing stack origin path with
  | _ n ih =>
    subst hn
    rw [compileFrom, traceFrom, ← compileOnce_eq_traceOnce]
    congr 1
    funext written range
    simp only [discard, map_const, map_bind, Function.comp_apply]
    congr 1
    funext s
    split
    · rename_i h
      rw [ih _ h.2 _ _ _ rfl]
      simp
    · rfl

theorem compileFile_eq_traceFile (sources : Sources) (path : Path) :
    compileFile sources path = (fun body? => body?.elim [] Event.declarations) <$> traceFile sources path := by
  simp only [compileFile, compile, traceFile, compileFrom_eq_traceFrom]
  split <;> simp

/-- The events of the file at a path, compiled on its own; none if it fails. -/
def history (sources : Sources) (path : Path) : List Event :=
  match (outcome (traceFile sources path) .empty).1 with
  | .ok (some body) => body
  | _ => []

/-- The events of the file at a path, compiled in the given state; none if it fails or was compiled before. -/
def historyIn (sources : Sources) (path : Path) (s : Compilation) : List Event :=
  match (outcome (traceFile sources path) s).1 with
  | .ok (some body) => body
  | _ => []

/-! ## Successful runs -/

/-- The file at `path` is read: its items, and the state in which they are declared. -/
inductive Opens (sources : Sources) (path : Path) (s : Compilation) : List Item → Compilation → Prop
  | intro {text : String} {tokens : List Token} {s₁ : Compilation} (fresh : path ∉ s.compiled)
      (apart : (Placement.ofSource path).same path = false) (read : sources.texts.lookup path = some text)
      (lexed : Token.ofSource s.library.nextId text = .ok tokens)
      (quiet : Quiet { s.enter path with library := s.library.add ⟨path.text, text⟩ } s₁) :
      Opens sources path s (Item.ofTokens (.ofFile s.library.nextId text) tokens) s₁

/-- The file at `path`, whose items became `body`, is compiled to its end. -/
def Closes (path : Path) (body : List Event) (s s' : Compilation) : Prop :=
  Quiet { s.leave with
    compiled := path :: s.compiled
    emissions := s.emissions ++ [⟨Placement.ofSource path, Event.declarations body⟩] } s'

/-- The items of the file `path`, in a body that is written to `target`, become events. -/
inductive Traced (sources : Sources) : Path → Path → List Item → Compilation → List Event → Compilation → Prop
  | nil {path target : Path} {s : Compilation} : Traced sources path target [] s [] s
  | comment {path target : Path} {c : Comment} {items : List Item} {events : List Event}
      {s s' : Compilation} (rest : Traced sources path target items s events s') :
      Traced sources path target (.comment c :: items) s (.comment c :: events) s'
  | define {path target : Path} {head : Token} {name : Name} {items : List Item}
      {events : List Event} {s s₁ s' : Compilation} {defines : Defines}
      (new : s.defines.define name.text name.range = .ok defines) (quiet : Quiet { s with defines } s₁)
      (rest : Traced sources path target items s₁ events s') :
      Traced sources path target (.define head name :: items) s (.define name :: events) s'
  | skip {path target q : Path} {head : Token} {written : String} {range : FileRange}
      {items : List Item} {events : List Event} {s s₁ s' : Compilation}
      (named : (includedPath path written).normalize = q) (old : q ∈ s.compiled) (quiet : Quiet s s₁)
      (rest : Traced sources path target items s₁ events s') :
      Traced sources path target (.include head written range :: items) s (.skip q :: events) s'
  | file {path target q : Path} {head : Token} {written : String} {range : FileRange}
      {inner items : List Item} {body events : List Event} {s s₁ s₂ s₃ s' : Compilation}
      (named : (includedPath path written).normalize = q) (fresh : q ∉ s.compiling)
      (opens : Opens sources q s inner s₁)
      (within : Traced sources q (Placement.ofSource q) inner s₁ body s₂)
      (closes : Closes q body s₂ s₃) (rest : Traced sources path target items s₃ events s') :
      Traced sources path target (.include head written range :: items) s (.file q body :: events) s'
  | guarded {path target : Path} {head : Token} {name : Name} {inner items : List Item}
      {body events : List Event} {s s₁ s₂ s' : Compilation} (quiet : Quiet s s₁)
      (within : Traced sources path target inner s₁ body s₂)
      (rest : Traced sources path target items s₂ events s') :
      Traced sources path target (.guarded head name inner :: items) s
        (.guarded name (s.defines.isDefined name.text) body :: events) s'
  | module {path target : Path} {head : Token} {name : Name} {inner items : List Item}
      {trailing : List Comment} {body events : List Event} {s s₁ s₂ s₃ s' : Compilation} (quiet : Quiet s s₁)
      (within : Traced sources path (Placement.ofModule target name.text) inner s₁ body s₂)
      (emits : Quiet { s₂ with
        emissions := s₂.emissions ++ [⟨Placement.ofModule target name.text, Event.declarations body⟩] } s₃)
      (rest : Traced sources path target items s₃ events s') :
      Traced sources path target (.module head name inner trailing none :: items) s
        (.module name.text (Placement.ofModule target name.text) body trailing :: events) s'
  | declared {path target : Path} {item : Item} {items : List Item} {ctx : Context}
      {ds : List Declaration} {events : List Event} {s s₁ s' : Compilation} (at_path : ctx.path = path)
      (names : item.declares = true) (gives : Gives (declare ctx target item) s ds s₁)
      (rest : Traced sources path target items s₁ events s') :
      Traced sources path target (item :: items) s (.declared ds :: events) s'

/-- The file at `path` is compiled from its start to its end. -/
def FileTraced (sources : Sources) (path : Path) (s : Compilation) (body : List Event)
    (s' : Compilation) : Prop :=
  ∃ items s₁ s₂, Opens sources path s items s₁ ∧
    Traced sources path (Placement.ofSource path) items s₁ body s₂ ∧ Closes path body s₂ s'

/-- The file at `path` was compiled before, or it is compiled now. -/
def Outcome (sources : Sources) (path : Path) (s : Compilation) (body? : Option (List Event))
    (s' : Compilation) : Prop :=
  (body? = none ∧ path ∈ s.compiled ∧ Quiet s s') ∨ ∃ body, body? = some body ∧ FileTraced sources path s body s'

section Runs

variable {sources : Sources} {path target : Path} {s s₁ s' : Compilation}

theorem Opens.of_quiet {items : List Item} (hq : Quiet s s₁) (h : Opens sources path s₁ items s') :
    Opens sources path s items s' := by
  obtain ⟨log, rfl⟩ := hq
  obtain ⟨fresh, apart, read, lexed, quiet⟩ := h
  exact ⟨fresh, apart, read, lexed, quiet⟩

theorem Outcome.of_quiet {body? : Option (List Event)} (hq : Quiet s s₁)
    (h : Outcome sources path s₁ body? s') : Outcome sources path s body? s' := by
  rcases h with ⟨rfl, hmem, hq'⟩ | ⟨body, rfl, items, s₂, s₃, hopens, hbody, hcloses⟩
  · refine .inl ⟨rfl, ?_, hq.trans hq'⟩
    obtain ⟨log, rfl⟩ := hq
    exact hmem
  · exact .inr ⟨body, rfl, items, s₂, s₃, hopens.of_quiet hq, hbody, hcloses⟩

mutual

/-- An item that is traced goes in front of items that are traced after it. -/
theorem traced_cons {ctx : Tracing} (hpath : ctx.path = path)
    (hinclude : ∀ written range s body? s', Gives (ctx.includeFile written range) s body? s' →
      written.normalize ∉ s.compiling ∧ Outcome sources written.normalize s body? s') :
    ∀ {target : Path} {item : Item} {items : List Item} {event : Event} {events : List Event} {s s₁ s' : Compilation},
      Gives (trace ctx target item) s event s₁ → Traced sources path target items s₁ events s' →
      Traced sources path target (item :: items) s (event :: events) s'
  | target, .comment c, items, event, events, s, s₁, s', h, rest => by
    obtain ⟨rfl, rfl⟩ := gives_pure.1 h
    exact .comment rest
  | target, .define head name, items, event, events, s, s₁, s', h, rest => by
    simp only [trace, gives_bind, gives_pure] at h
    obtain ⟨_, s₂, hreach, _, s₃, hdefine, rfl, rfl⟩ := h
    obtain ⟨log, rfl⟩ := quiet_of_reach hreach
    obtain ⟨defines, hnew, hquiet⟩ := gives_define hdefine
    exact .define hnew hquiet rest
  | target, .include head written range, items, event, events, s, s₁, s', h, rest => by
    simp only [trace, gives_bind, gives_pure] at h
    obtain ⟨_, s₂, hreach, _, s₃, hnote, body?, s₄, hfile, rfl, rfl⟩ := h
    obtain ⟨hfresh, houtcome⟩ := hinclude _ _ _ _ _ hfile
    have hquiet := (quiet_of_reach hreach).trans (quiet_of_note hnote)
    rw [hquiet.compiling] at hfresh
    rcases houtcome.of_quiet hquiet with ⟨rfl, hmem, hq⟩ | ⟨body, rfl, inner, s₅, s₆, hopens, hbody, hcloses⟩
    · exact .skip (by rw [hpath]) hmem hq rest
    · exact .file (by rw [hpath]) hfresh hopens hbody hcloses rest
  | target, .guarded head name inner, items, event, events, s, s₁, s', h, rest => by
    simp only [trace, gives_bind, gives_get, gives_pure] at h
    obtain ⟨_, s₂, hreach, _, _, ⟨rfl, rfl⟩, body, s₃, hbody, rfl, rfl⟩ := h
    obtain ⟨log, rfl⟩ := quiet_of_reach hreach
    exact .guarded ⟨log, rfl⟩ (traced_of_traceAll hpath hinclude hbody) rest
  | target, .module head name inner trailing fault, items, event, events, s, s₁, s', h, rest => by
    simp only [trace, gives_bind, gives_stopAt, gives_pure] at h
    obtain ⟨_, s₂, hreach, body, s₃, hbody, _, _, ⟨rfl, rfl⟩, _, s₄, hemit, rfl, rfl⟩ := h
    exact .module (quiet_of_reach hreach) (traced_of_traceAll hpath hinclude hbody) (gives_emit hemit) rest
  | target, .typedef .., items, event, events, s, s₁, s', h, rest
  | target, .record .., items, event, events, s, s₁, s', h, rest
  | target, .enum .., items, event, events, s, s₁, s', h, rest
  | target, .interface .., items, event, events, s, s₁, s', h, rest => by
    simp only [trace, gives_map] at h
    obtain ⟨ds, rfl, hds⟩ := h
    exact .declared hpath rfl hds rest
  | target, .fault head error, items, event, events, s, s₁, s', h, rest => by
    simp [trace, declare] at h

/-- The items of a body that are traced become events. -/
theorem traced_of_traceAll {ctx : Tracing} (hpath : ctx.path = path)
    (hinclude : ∀ written range s body? s', Gives (ctx.includeFile written range) s body? s' →
      written.normalize ∉ s.compiling ∧ Outcome sources written.normalize s body? s') :
    ∀ {target : Path} {items : List Item} {events : List Event} {s s' : Compilation},
      Gives (traceAll ctx target items) s events s' → Traced sources path target items s events s'
  | target, [], events, s, s', h => by
    obtain ⟨rfl, rfl⟩ := gives_pure.1 h
    exact .nil
  | target, item :: items, events, s, s', h => by
    simp only [traceAll, gives_bind, gives_pure] at h
    obtain ⟨event, s₁, hitem, rest, s₂, hrest, rfl, rfl⟩ := h
    exact traced_cons hpath hinclude hitem (traced_of_traceAll hpath hinclude hrest)

end

/-- The text of a file is compiled from its start to its end. -/
theorem fileTraced_of_traceText {includeFile : Path → FileRange → CompileM (Option (List Event))} {text : String}
    {body : List Event} (fresh : path ∉ s.compiled) (apart : (Placement.ofSource path).same path = false)
    (read : sources.texts.lookup path = some text)
    (hinclude : ∀ written range s body? s', Gives (includeFile written range) s body? s' →
      written.normalize ∉ s.compiling ∧ Outcome sources written.normalize s body? s')
    (h : Gives (traceText includeFile path (Placement.ofSource path) text) s body s') :
    FileTraced sources path s body s' := by
  simp only [traceText, gives_bind, gives_get, gives_modify, gives_ofExcept, gives_during, gives_pure] at h
  obtain ⟨_, _, ⟨rfl, rfl⟩, _, _, rfl, tokens, _, ⟨hlex, rfl⟩, _, s₂, hnote, events, _, ⟨s₃, hbody, rfl⟩, _, _, rfl, _,
    s₄, hemit, rfl, rfl⟩ := h
  obtain ⟨log, rfl⟩ := quiet_of_note hnote
  exact ⟨_, _, s₃, ⟨fresh, apart, read, hlex, log, rfl⟩, traced_of_traceAll rfl hinclude hbody, gives_emit hemit⟩

/-- A file that is traced was compiled before, or it is compiled now. -/
theorem outcome_of_traceFrom {stack : List Path} {origin : Option FileRange} {body? : Option (List Event)}
    (h : Gives (traceFrom sources stack origin path) s body? s') : Outcome sources path s body? s' := by
  induction hn : sources.unread stack using Nat.strongRecOn generalizing stack origin path s body? s' with
  | _ n ih =>
    subst hn
    rw [traceFrom] at h
    obtain ⟨_, _, hget, h⟩ := gives_bind.1 h
    obtain ⟨rfl, rfl⟩ := gives_get.1 hget
    split at h
    · rename_i hmem
      simp only [gives_bind, gives_pure] at h
      obtain ⟨_, s₁, hnote, rfl, rfl⟩ := h
      exact .inl ⟨rfl, hmem, quiet_of_note hnote⟩
    · rename_i hmem
      dsimp only at h
      split at h
      · simp at h
      · rename_i hsame
        split at h
        · exact absurd h gives_throw
        · rename_i text htext
          obtain ⟨body, rfl, htrace⟩ := gives_map.1 h
          refine .inr ⟨body, rfl, fileTraced_of_traceText hmem (by simpa using hsame) htext ?_ htrace⟩
          intro written range s₁ body?₁ s₁' hincl
          obtain ⟨_, _, hget, hincl⟩ := gives_bind.1 hincl
          obtain ⟨rfl, rfl⟩ := gives_get.1 hget
          split at hincl
          · rename_i hq
            exact ⟨hq.1, ih _ hq.2 hincl rfl⟩
          · exact absurd hincl gives_throw

/-- A file that was not compiled before is compiled from its start to its end, and its history are the
events of it. -/
theorem fileTraced_of_fresh {ds : List Declaration} (fresh : path.normalize ∉ s.compiled)
    (h : Gives (compileFile sources path) s ds s') :
    ds = Event.declarations (historyIn sources path s) ∧
      FileTraced sources path.normalize s (historyIn sources path s) s' := by
  rw [compileFile_eq_traceFile, gives_map] at h
  obtain ⟨body?, rfl, htrace⟩ := h
  have houtcome : Outcome sources path.normalize s body? s' := by
    have htrace' := htrace
    unfold traceFile at htrace'
    split at htrace'
    · simp only [gives_bind, gives_get] at htrace'
      obtain ⟨_, s₁, hnote, _, _, ⟨rfl, rfl⟩, hfrom⟩ := htrace'
      exact (outcome_of_traceFrom hfrom).of_quiet (quiet_of_note hnote)
    · simp only [gives_bind, gives_get] at htrace'
      obtain ⟨_, _, ⟨rfl, rfl⟩, hfrom⟩ := htrace'
      exact outcome_of_traceFrom hfrom
  rcases houtcome with ⟨_, hmem, _⟩ | ⟨body, rfl, hfile⟩
  · exact absurd hmem fresh
  · have hhistory : historyIn sources path s = body := by
      unfold historyIn
      rw [htrace]
    rw [hhistory]
    exact ⟨rfl, hfile⟩

/-- A file that is compiled on its own is compiled from its start to its end, and its history are the
events of it. -/
theorem fileTraced_of_compileFile {ds : List Declaration} (h : Gives (compileFile sources path) .empty ds s) :
    ds = Event.declarations (history sources path) ∧
      FileTraced sources path.normalize .empty (history sources path) s :=
  fileTraced_of_fresh (by simp [Compilation.empty]) h

end Runs

end Compilation

end Idl
