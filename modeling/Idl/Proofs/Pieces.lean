import Idl.Proofs.Contents
import Idl.Proofs.Declaring

/-!
# Where the pieces of a run land

A run is made of pieces: declarations other than modules, imports and comments. Around each of them
there are files, modules and guarded blocks. The innermost file or module decides in which output a
piece lands, but a dropped block on the way there keeps it from landing at all (`landing`). What is
emitted are exactly the pieces that land, each where it lands (`emitted_perm_pieces`).
-/

namespace Idl

/-- What is around a piece. -/
inductive Enclosure where
  | file (path : Path)
  /-- The body of a module, and the output that it goes to. -/
  | module (target : Path)
  /-- A guarded block, and whether its name was defined. -/
  | guarded (name : Name) (defined : Bool)
deriving DecidableEq

/-- A declaration, an import or a comment, and what is around it, from the inside to the outside. -/
structure Piece where
  within : List Enclosure
  declaration : Declaration

/-- The output in which something lands. -/
def landing : List Enclosure → Option Path
  | [] => none
  | .file path :: _ => some (Placement.ofSource path)
  | .module target :: _ => some target
  | .guarded _ defined :: outer => if defined then none else landing outer

/-- The pieces of some declarations. -/
def Piece.ofBody (within : List Enclosure) (ds : List Declaration) : List Piece :=
  (ds.filter (!·.isModule)).map (⟨within, ·⟩)

/-- A piece with the output that it lands in. -/
def Piece.landed? (p : Piece) : Option (Path × Declaration) := (landing p.within).map (·, p.declaration)

mutual

/-- The pieces of an event. -/
def Event.pieces (within : List Enclosure) : Event → List Piece
  | .comment c => Piece.ofBody within [.comment c]
  | .file path body => piecesAll (.file path :: within) body
  | .guarded name defined body => piecesAll (.guarded name defined :: within) body
  | .module _ target body trailing =>
    piecesAll (.module target :: within) body ++ Piece.ofBody within (trailing.map .comment)
  | .declared ds => Piece.ofBody within ds
  | .define _ | .skip _ => []

/-- The pieces of a body. -/
def Event.piecesAll (within : List Enclosure) : List Event → List Piece
  | [] => []
  | event :: rest => pieces within event ++ piecesAll within rest

end

/-- The pieces that were emitted, each with its output. -/
def emitted (es : List Emission) : List (Path × Declaration) :=
  es.flatMap fun e => (e.body.filter (!·.isModule)).map (e.target, ·)

/-! ## Emitted pieces -/

section Perm

variable {within : List Enclosure}

theorem emitted_append (es fs : List Emission) : emitted (es ++ fs) = emitted es ++ emitted fs := by simp [emitted]

theorem mem_emitted {es : List Emission} {target : Path} {d : Declaration} :
    (target, d) ∈ emitted es ↔ d.isModule = false ∧ ∃ e ∈ es, e.target = target ∧ d ∈ e.body := by
  simp only [emitted, List.mem_flatMap, List.mem_map, List.mem_filter, Prod.mk.injEq]
  constructor
  · rintro ⟨e, he, d', ⟨hd, hmodule⟩, rfl, rfl⟩
    exact ⟨by simpa using hmodule, e, he, rfl, hd⟩
  · rintro ⟨hmodule, e, he, rfl, hd⟩
    exact ⟨e, he, d, ⟨hd, by simpa using hmodule⟩, rfl, rfl⟩

theorem ofBody_append (ds es : List Declaration) :
    Piece.ofBody within (ds ++ es) = Piece.ofBody within ds ++ Piece.ofBody within es := by simp [Piece.ofBody]

/-- The pieces of some declarations that land. -/
def landed (within : List Enclosure) (ds : List Declaration) : List (Path × Declaration) :=
  (Piece.ofBody within ds).filterMap Piece.landed?

theorem landed_append (ds es : List Declaration) : landed within (ds ++ es) = landed within ds ++ landed within es := by
  simp [landed, ofBody_append]

@[simp]
theorem landed_nil : landed within [] = [] := rfl

/-- A module is no piece. -/
@[simp]
theorem landed_module (name : String) (body : List Declaration) : landed within [.module name body] = [] := rfl

/-- The pieces of a body that lands are emitted along with it. -/
theorem landed_eq_emitted (within : List Enclosure) {target : Path} (h : landing within = some target)
    (ds : List Declaration) : landed within ds = emitted [⟨target, ds⟩] := by
  have hland (d : Declaration) : Piece.landed? ⟨within, d⟩ = some (target, d) := by simp [Piece.landed?, h]
  simp [landed, Piece.ofBody, emitted, List.filterMap_map, hland]

/-- The pieces of a body that does not land are lost. -/
theorem landed_eq_nil (h : landing within = none) (ds : List Declaration) : landed within ds = [] := by
  simp [landed, Piece.ofBody, List.filterMap_map, Piece.landed?, h]

theorem mem_landed {ds : List Declaration} {target : Path} {d : Declaration} :
    (target, d) ∈ landed within ds ↔ landing within = some target ∧ d ∈ ds ∧ d.isModule = false := by
  cases h : landing within with
  | none => simp [landed_eq_nil h]
  | some place =>
    rw [landed_eq_emitted within h, mem_emitted]
    constructor
    · rintro ⟨hmodule, e, he, rfl, hd⟩
      obtain rfl := List.mem_singleton.1 he
      exact ⟨rfl, hd, hmodule⟩
    · rintro ⟨htarget, hd, hmodule⟩
      exact ⟨hmodule, _, List.mem_singleton.2 rfl, Option.some.inj htarget, hd⟩

/-- What is in a guarded block lands along with the block, unless it is dropped. -/
theorem landed_guarded (name : Name) (defined : Bool) (ds : List Declaration) :
    landed (.guarded name defined :: within) ds = if defined then [] else landed within ds := by
  cases defined with
  | true => exact landed_eq_nil rfl ds
  | false =>
    have hland (d : Declaration) : Piece.landed? ⟨.guarded name false :: within, d⟩ = Piece.landed? ⟨within, d⟩ := rfl
    simp [landed, Piece.ofBody, List.filterMap_map, hland]

/-- The emissions of a body and its own pieces together are all of its pieces. -/
theorem emitted_perm_pieces (within : List Enclosure) (events : List Event) :
    (emitted (Event.emissions events) ++ landed within (Event.declarations events)).Perm
      ((Event.piecesAll within events).filterMap Piece.landed?) := by
  have hswap (a b c d : List (Path × Declaration)) : (a ++ b ++ (c ++ d)).Perm (a ++ c ++ (b ++ d)) := by
    simp only [List.append_assoc]
    exact (List.perm_append_comm_assoc b c d).append_left a
  -- the emissions follow the nesting of the events
  fun_induction Event.emissions events generalizing within with
  | case1 =>
    rw [Event.declarations, Event.piecesAll]
    exact .refl []
  | case2 path body rest ihbody ih =>
    rw [Event.declarations, Event.piecesAll, Event.pieces, List.filterMap_append, emitted_append, emitted_append,
      List.append_assoc, ← landed_eq_emitted (.file path :: within) rfl]
    exact (ihbody _).append (ih within)
  | case3 name defined body rest ihbody ih =>
    rw [Event.declarations, Event.piecesAll, Event.pieces, List.filterMap_append, emitted_append, landed_append]
    refine (hswap ..).trans (.append ?_ (ih within))
    have hbody := ihbody (.guarded name defined :: within)
    rw [landed_guarded] at hbody
    cases defined with
    | true => simpa using hbody
    | false => simpa using hbody
  | case4 name target body trailing rest ihbody ih =>
    rw [Event.declarations, Event.piecesAll, Event.pieces, List.filterMap_append, List.filterMap_append, emitted_append,
      emitted_append, landed_append, landed_append, landed_module, List.append_nil,
      ← landed_eq_emitted (.module target :: within) rfl]
    exact (hswap ..).trans (((ihbody _).append_right _).append (ih within))
  | case5 c rest ih =>
    rw [Event.declarations, Event.piecesAll, Event.pieces, List.filterMap_append, ← List.singleton_append,
      landed_append]
    exact (List.perm_append_comm_assoc ..).trans ((ih within).append_left _)
  | case6 name rest ih =>
    rw [Event.declarations, Event.piecesAll, Event.pieces]
    exact ih within
  | case7 path rest ih =>
    rw [Event.declarations, Event.piecesAll, Event.pieces]
    exact ih within
  | case8 ds rest ih =>
    rw [Event.declarations, Event.piecesAll, Event.pieces, List.filterMap_append, landed_append]
    exact (List.perm_append_comm_assoc ..).trans ((ih within).append_left _)

end Perm

/-- The pieces of an output. -/
def Batch.pieces (b : Batch) : List Declaration := b.bodies.flatten.filter (!·.isModule)

theorem emitted_filter {es : List Emission} {target : Path} {key : List Component}
    (h : ∀ e ∈ es, e.target = target ↔ e.target.components = key) :
    ((emitted es).filter (·.1 = target)).map (·.2) = (Batch.received es key).flatten.filter (!·.isModule) := by
  induction es with
  | nil => rfl
  | cons e es ih =>
    obtain ⟨hhead, htail⟩ := List.forall_mem_cons.1 h
    have ih := ih htail
    have hcons : emitted (e :: es) = emitted [e] ++ emitted es := emitted_append [e] es
    have hreceived : Batch.received (e :: es) key = Batch.received [e] key ++ Batch.received es key :=
      Batch.received_append [e] es key
    rw [hcons, hreceived, List.filter_append, List.map_append, List.flatten_append, List.filter_append, ih]
    congr 1
    by_cases htarget : e.target = target
    · subst htarget
      have hkey : e.target.components = key := hhead.1 rfl
      simp [emitted, Batch.received, hkey, List.filter_map, Function.comp_def]
    · have hkey : e.target.components ≠ key := mt hhead.2 htarget
      simp [emitted, Batch.received, hkey, htarget, List.filter_map, Function.comp_def]

/-- The pieces of an output are those that were emitted to it, if paths are equal as soon as their
components are. -/
theorem Batch.pieces_eq {es : List Emission} {b : Batch}
    (spelled : ∀ e ∈ es, e.target = .ofComponents e.target.components) (hb : b ∈ ofEmissions es) :
    b.pieces = ((emitted es).filter (·.1 = b.target)).map (·.2) := by
  obtain ⟨e₀, he₀, htarget, hkey⟩ := exists_emission b hb
  have hsame : ∀ e ∈ es, e.target = b.target ↔ e.target.components = b.key := by
    intro e he
    constructor
    · intro heq
      rw [heq, htarget, hkey]
    · intro heq
      rw [spelled e he, heq, hkey, htarget, ← spelled e₀ he₀]
  rw [emitted_filter hsame, pieces, bodies_eq_received hb]

theorem Batch.mem_emitted_iff {es : List Emission} {b : Batch} {d : Declaration}
    (spelled : ∀ e ∈ es, e.target = .ofComponents e.target.components) (hb : b ∈ ofEmissions es) :
    (b.target, d) ∈ emitted es ↔ d.isModule = false ∧ d ∈ b.bodies.flatten := by
  have hpieces : d ∈ b.pieces ↔ d.isModule = false ∧ d ∈ b.bodies.flatten := by
    rw [pieces, List.mem_filter, Bool.not_eq_true', and_comm]
  rw [← hpieces, pieces_eq spelled hb]
  simp

/-! ## Runs -/

namespace Compilation

section Runs

variable {sources : Sources} {path target : Path} {s s' : Compilation}

theorem Quiet.emissions_eq (h : Quiet s s') : s'.emissions = s.emissions := by
  obtain ⟨log, rfl⟩ := h
  rfl

theorem Declares.emissions_eq {item : Item} {ds : List Declaration} (h : Declares path target s item ds s') :
    s'.emissions = s.emissions := by
  cases h with
  | typedef resolves registers => exact registers.quiet.emissions_eq
  | record registers declared => exact registers.quiet.emissions_eq
  | enum registers => exact registers.quiet.emissions_eq
  | interface registers declared => exact registers.quiet.emissions_eq

theorem Opens.emissions_eq {items : List Item} (h : Opens sources path s items s') : s'.emissions = s.emissions := by
  obtain ⟨-, -, -, -, quiet⟩ := h
  exact quiet.emissions_eq

theorem Closes.emissions_eq {body : List Event} (h : Closes path body s s') :
    s'.emissions = s.emissions ++ [⟨Placement.ofSource path, Event.declarations body⟩] := Quiet.emissions_eq h

/-- What is emitted in a run can be read off its events. -/
theorem Traced.emissions_eq {items : List Item} {events : List Event}
    (h : Traced sources path target items s events s') :
    s'.emissions = s.emissions ++ Event.emissions events := by
  induction h with
  | nil => simp [Event.emissions]
  | comment rest ih => rw [ih, Event.emissions]
  | define new quiet rest ih => rw [ih, quiet.emissions_eq, Event.emissions]
  | skip named old quiet rest ih => rw [ih, quiet.emissions_eq, Event.emissions]
  | file named fresh opens within closes rest ihbody ih =>
    rw [ih, closes.emissions_eq, ihbody, opens.emissions_eq, Event.emissions]
    simp
  | guarded quiet within rest ihbody ih =>
    rw [ih, ihbody, quiet.emissions_eq, Event.emissions]
    simp
  | module quiet within emits rest ihbody ih =>
    rw [ih, emits.emissions_eq, ihbody, quiet.emissions_eq, Event.emissions]
    simp
  | declared at_path names gives rest ih =>
    rw [ih, (declares_of_gives names gives).emissions_eq, Event.emissions]

/-- The pieces that land in the run of a file are those that are emitted. -/
theorem emitted_perm_history {ds : List Declaration} (h : Gives (compileFile sources path) .empty ds s) :
    (emitted s.emissions).Perm
      ((Event.piecesAll [.file path.normalize] (history sources path)).filterMap Piece.landed?) := by
  obtain ⟨-, items, s₁, s₂, hopens, htraced, hcloses⟩ := fileTraced_of_compileFile h
  rw [hcloses.emissions_eq, htraced.emissions_eq, hopens.emissions_eq, emitted_append, emitted_append,
    ← landed_eq_emitted [.file path.normalize] rfl]
  exact emitted_perm_pieces _ _

end Runs

end Compilation

end Idl
