import Idl.Proofs.Parsing

/-!
# Reading accepts exactly the grammar

The items of a file are read with a stack of the bodies that are open. What the items say, and what the
open bodies still ask for, is held against the grammar of files.

* `Item.phrases? items`: what items say, if there is no fault among them.
* `Grammar.Closes frames ps ls file`: with the bodies `frames` open and `ps` said in the innermost one,
  the terminals `ls` complete the file to `file`.
* `Grammar.phrases?_ofTokens`: the items of a file have no faults if and only if its terminals derive
  from the grammar, and then they say what is derived.
-/

namespace Idl

mutual

/-- What an item says, if there is no fault in it. -/
def Item.phrase? : Item → Option Phrase
  | .define _ name => some (.define name.text)
  | .guarded _ name body => (Item.phrases? body).map (.guarded name.text)
  | .module _ name body _ stopped => if stopped.isSome then none else (Item.phrases? body).map (.module name.text)
  | .typedef _ typed _ => some (.typedef typed.type.text typed.name.text)
  | .record _ kind name block =>
    if block.fault.isSome then none else some (.record kind name.text ((Member.items block.members).map Field.texts))
  | .enum _ name block => if block.fault.isSome then none else some (.enum name.text (Member.items block.members))
  | .interface _ name block =>
    if block.fault.isSome ∨ (Member.items block.members).any (·.fault.isSome) then none
    else some (.interface name.text ((Member.items block.members).map (·.method.texts)))
  | .comment _ | .include _ _ _ | .fault _ _ => none

/-- What items say, if there is no fault among them. Comments say nothing. -/
def Item.phrases? : List Item → Option (List Phrase)
  | [] => some []
  | item :: items =>
    if item.isComment then Item.phrases? items
    else item.phrase?.bind fun p => (Item.phrases? items).map (p :: ·)

end

namespace Item

@[simp]
theorem phrases?_nil : phrases? [] = some [] := by rw [phrases?]

theorem phrases?_cons (item : Item) (items : List Item) : phrases? (item :: items) =
    if item.isComment then phrases? items
    else item.phrase?.bind fun p => (phrases? items).map (p :: ·) := by rw [phrases?]

theorem phrases?_append (items more : List Item) :
    phrases? (items ++ more) = (phrases? items).bind fun ps => (phrases? more).map (ps ++ ·) := by
  induction items with
  | nil => simp
  | cons item items ih =>
    rw [List.cons_append, phrases?_cons, phrases?_cons, ih]
    split
    · rfl
    · cases item.phrase? <;> cases phrases? items <;> cases phrases? more <;> rfl

theorem phrases?_snoc {item : Item} (h : item.isComment = false) (items : List Item) :
    phrases? (items ++ [item]) = (phrases? items).bind fun ps => item.phrase?.map fun p => ps ++ [p] := by
  rw [phrases?_append, phrases?_cons, if_neg (by simp [h])]
  cases phrases? items <;> cases item.phrase? <;> simp

/-! ## Bare items say the same -/

theorem isComment_bare (item : Item) : item.bare.isComment = item.isComment := by
  cases item <;> rw [bare] <;> rfl

theorem texts_bare (m : Method TypeExpr Name) : m.bare.texts = m.texts := by
  simp only [Method.texts, Method.bare, List.map_map]
  rfl

mutual

theorem phrase?_bare : ∀ item : Item, item.bare.phrase? = item.phrase?
  | .comment _ | .include _ _ _ | .fault _ _ => by rw [bare, phrase?, phrase?]
  | .define _ _ => by rw [bare, phrase?, phrase?]; rfl
  | .guarded _ _ body => by rw [bare, phrase?, phrase?, phrases?_bareAll body]; rfl
  | .module _ _ body _ stopped => by
    rw [bare, phrase?, phrase?, phrases?_bareAll body, Option.isSome_map]
    rfl
  | .typedef _ _ _ => by rw [bare, phrase?, phrase?]; rfl
  | .record _ _ _ block => by
    rw [bare, phrase?, phrase?, Block.bare, Option.isSome_map, Member.items_bareAll, List.map_map]
    rfl
  | .enum _ _ block => by
    rw [bare, phrase?, phrase?, Block.bare, Option.isSome_map, Member.items_bareAll, List.map_id]
    rfl
  | .interface _ _ block => by
    rw [bare, phrase?, phrase?, Block.bare, Option.isSome_map, Member.items_bareAll, List.map_map, List.any_map]
    simp only [Function.comp_def, MethodItem.bare, Option.isSome_map, texts_bare]
    rfl

theorem phrases?_bareAll : ∀ items : List Item, phrases? (bareAll items) = phrases? items
  | [] => by rw [bareAll]
  | item :: items => by
    rw [bareAll_cons, phrases?_cons]
    split
    · exact phrases?_bareAll items
    · rename_i hcomment
      rw [phrases?_cons, if_neg (by rwa [isComment_bare]), phrase?_bare item, phrases?_bareAll items]

end

end Item

namespace Grammar

open Cursor

variable {finish : FileRange} {ls : List Terminal} {l : Terminal} {d : Cursor}

/-! ## Declarations -/

open Item

theorem texts_ofText (m : Method String String) : m.ofText.texts = m := by
  have hparameters : (m.parameters.map Parameter.ofText).map Parameter.texts = m.parameters := by
    rw [List.map_map]
    exact List.map_id m.parameters
  have hraises : (m.raises.map Name.ofText).map Name.text = m.raises := by
    rw [List.map_map]
    exact List.map_id m.raises
  rw [Method.texts, Method.ofText, hparameters, hraises]
  rfl

theorem items_map_item {α β : Type} (f : α → β) (as : List α) :
    Member.items (as.map fun a => (.item (f a) : Member β)) = as.map f := by
  induction as with
  | nil => rfl
  | cons a as ih => rw [List.map_cons, Member.items_cons_item, ih, List.map_cons]

theorem phrases?_single {item : Item} {p : Phrase} (hcomment : item.isComment = false) (h : item.phrase? = some p) :
    phrases? [item] = some [p] := by simp [phrases?_cons, hcomment, h]

theorem phrase?_record (head : Token) (kind : RecordKind) (name : String) (fields : List (Field String)) :
    (Item.record head kind (.ofText name) ⟨fields.map fun f => .item f.ofText, [], none⟩).phrase? =
      some (.record kind name fields) := by
  have hfields : (fields.map Field.ofText).map Field.texts = fields := by
    rw [List.map_map]
    exact List.map_id fields
  rw [phrase?, items_map_item, hfields]
  rfl

theorem phrase?_enum (head : Token) (name : String) (values : List String) :
    (Item.enum head (.ofText name) ⟨values.map fun v => .item (id v), [], none⟩).phrase? =
      some (.enum name values) := by
  rw [phrase?, items_map_item, List.map_id]
  rfl

theorem phrase?_interface (head : Token) (name : String) (methods : List (Method String String)) :
    (Item.interface head (.ofText name) ⟨methods.map fun m => .item (.ofText m), [], none⟩).phrase? =
      some (.interface name methods) := by
  have hmethods : ((methods.map MethodItem.ofText).map fun m => m.method.texts) = methods := by
    rw [List.map_map]
    simp [MethodItem.ofText, Function.comp_def, texts_ofText]
  have hfaults : (methods.map MethodItem.ofText).any (·.fault.isSome) = false := by simp [MethodItem.ofText]
  rw [phrase?, items_map_item, hmethods, hfaults]
  rfl

section Steps

variable {head : Terminal} {read : List Item}

/-- A step that needs a reading goes on only if the reading succeeds. -/
theorem after_eq {α : Type} {token : Token} {r : Except Error (α × Cursor)} {k : α → Cursor → Step} {next : Step}
    (hnext : next.rest?.isSome = true) : Step.after token r k = next ↔ ∃ a c, r = .ok (a, c) ∧ k a c = next := by
  rcases r with e | ⟨a, c⟩
  · constructor
    · rintro rfl
      cases hnext
    · rintro ⟨_, _, h, -⟩
      cases h
  · constructor
    · exact fun h => ⟨a, c, rfl, h⟩
    · rintro ⟨_, _, h, hk⟩
      cases h
      exact hk

theorem ofItem_eq_items {α : Type} {r : Block α × Option Cursor} {f : Block α → Item} :
    Step.ofItem (r.map f id) = .items read d ↔ ∃ b, r = (b, some d) ∧ read = [f b] := by
  rcases r with ⟨b, _ | rest⟩
  · simp [Step.ofItem]
  · constructor
    · intro h
      cases h
      exact ⟨b, rfl, rfl⟩
    · rintro ⟨_, h, rfl⟩
      cases h
      rfl

/-- What a declaration in braces is read as. -/
theorem sound_block {α β : Type} {members : Cursor → Reading (Member β)} {grammar : List Terminal → List α → Prop}
    {embed : α → β} (hmembers : ReadsMembers members grammar embed) {token : Token} {closer : String}
    {f : Name → Block β → Item}
    (h : Step.after token ((cursor ls).name finish)
        (fun name c => Step.ofItem ((c.block finish members closer).map (f name) id)) = .items read d) :
    ∃ name used rest as, ls = name :: (used ++ rest) ∧ name.IsName ∧ Braced grammar used as ∧
      read = [f (.ofText name.text) ⟨as.map fun a => .item (embed a), [], none⟩] ∧ d = cursor rest := by
  obtain ⟨n, c, hname, hblock⟩ := (after_eq rfl).1 h
  obtain ⟨name, ls', rfl, hisName, rfl, rfl⟩ := name_cursor.1 hname
  obtain ⟨b, hb, rfl⟩ := ofItem_eq_items.1 hblock
  obtain ⟨used, rest, as, rfl, hbraced, rfl, rfl⟩ := (block_cursor hmembers).1 hb
  exact ⟨name, used, rest, as, rfl, hisName, hbraced, rfl, rfl⟩

theorem complete_block {α β : Type} {members : Cursor → Reading (Member β)} {grammar : List Terminal → List α → Prop}
    {embed : α → β} (hmembers : ReadsMembers members grammar embed) {token : Token} {closer : String}
    {f : Name → Block β → Item} {name : Terminal} {used : List Terminal} {as : List α} (hname : name.IsName)
    (hbraced : Braced grammar used as) (rest : List Terminal) :
    Step.after token ((cursor (name :: (used ++ rest))).name finish)
        (fun name c => Step.ofItem ((c.block finish members closer).map (f name) id)) =
      .items [f (.ofText name.text) ⟨as.map fun a => .item (embed a), [], none⟩] (cursor rest) := by
  refine (after_eq rfl).2 ⟨_, _, name_cursor.2 ⟨name, _, rfl, hname, rfl, rfl⟩, ?_⟩
  exact ofItem_eq_items.2 ⟨_, (block_cursor hmembers).2 ⟨used, rest, as, rfl, hbraced, rfl, rfl⟩, rfl⟩

theorem sound_step (hhead : head.kind ≠ .directive .include) (h : step .blank head.token (cursor ls) = .items read d) :
    ∃ used rest p, ls = used ++ rest ∧ Simple (head :: used) p ∧ phrases? read = some [p] ∧ d = cursor rest := by
  unfold step at h
  simp only [kind_token] at h
  split at h
  · rename_i hkind
    obtain ⟨n, c, hname, hitems⟩ := (after_eq rfl).1 h
    obtain ⟨name, rest, rfl, hisName, rfl, rfl⟩ := name_cursor.1 hname
    cases hitems
    refine ⟨[name], rest, _, rfl, .define hkind hisName, ?_, rfl⟩
    simp [cursor, phrases?_cons, isComment, phrase?, Name.ofText]
  · obtain ⟨n, c, -, henter⟩ := (after_eq rfl).1 h
    cases henter
  · contradiction
  · obtain ⟨n, c, -, henter⟩ := (after_eq rfl).1 h
    split at henter <;> cases henter
  · rename_i hkind
    obtain ⟨typed, c, htyped, hitems⟩ := (after_eq rfl).1 h
    obtain ⟨type, name, stop, rest, rfl, htype, hisName, -, rfl, rfl⟩ := typedName_cursor.1 htyped
    split at hitems
    · cases hitems
    · rename_i c hended
      obtain ⟨semicolon, rest, heq, hsemicolon, rfl⟩ := expect_cursor.1 hended
      cases heq
      cases hitems
      refine ⟨type ++ [name, stop], rest, _, by simp, .typedef hkind htype hisName hsemicolon, ?_, rfl⟩
      simp [phrases?_cons, isComment, phrase?, Name.ofText, TypeExpr.ofText]
  · rename_i hkind
    obtain ⟨name, used, rest, fields, rfl, hname, hbraced, rfl, rfl⟩ := sound_block readsMembers_fields h
    exact ⟨name :: used, rest, .record .struct name.text fields, rfl, .record hkind hname hbraced,
      phrases?_single rfl (phrase?_record ..), rfl⟩
  · rename_i hkind
    obtain ⟨name, used, rest, fields, rfl, hname, hbraced, rfl, rfl⟩ := sound_block readsMembers_fields h
    exact ⟨name :: used, rest, .record .exception name.text fields, rfl, .record hkind hname hbraced,
      phrases?_single rfl (phrase?_record ..), rfl⟩
  · rename_i hkind
    obtain ⟨name, used, rest, values, rfl, hname, hbraced, rfl, rfl⟩ := sound_block readsMembers_enumMembers h
    exact ⟨name :: used, rest, .enum name.text values, rfl, .enum hkind hname hbraced,
      phrases?_single rfl (phrase?_enum ..), rfl⟩
  · rename_i hkind
    obtain ⟨name, used, rest, methods, rfl, hname, hbraced, rfl, rfl⟩ := sound_block readsMembers_methods h
    exact ⟨name :: used, rest, .interface name.text methods, rfl, .interface hkind hname hbraced,
      phrases?_single rfl (phrase?_interface ..), rfl⟩
  · cases h

theorem complete_step {used : List Terminal} {p : Phrase} (h : Simple (head :: used) p) (rest : List Terminal) :
    ∃ item, step .blank head.token (cursor (used ++ rest)) = .items [item] (cursor rest) ∧ item.isComment = false ∧
      item.phrase? = some p := by
  cases h with
  | define hkind hname =>
    rename_i name
    refine ⟨.define head.token (.ofText name.text), ?_, rfl, by rw [phrase?]; rfl⟩
    simp only [step, kind_token, hkind]
    exact (after_eq rfl).2 ⟨_, _, name_cursor.2 ⟨name, rest, rfl, hname, rfl, rfl⟩, rfl⟩
  | typedef hkind htype hname hsemicolon =>
    rename_i name semicolon type
    have hends : Ends [.semicolon] semicolon := ends_iff.2 ⟨_, hsemicolon, by simp⟩
    refine ⟨.typedef head.token ⟨.ofText (spelled type), .ofText name.text⟩ [], ?_, rfl, by rw [phrase?]; rfl⟩
    simp only [step, kind_token, hkind]
    refine (after_eq rfl).2 ⟨_, _,
      typedName_cursor.2 ⟨type, name, semicolon, rest, by simp, htype, hname, hends, rfl, rfl⟩, ?_⟩
    rw [expect_cursor_cons SourceText.blank.finish hsemicolon]
    rfl
  | record hkind hname hbraced =>
    rename_i name kind ls fields
    refine ⟨_, ?_, rfl, phrase?_record head.token kind name.text fields⟩
    cases kind with
    | struct =>
      simp only [step, kind_token, hkind, recordKeyword]
      exact complete_block readsMembers_fields hname hbraced rest
    | exception =>
      simp only [step, kind_token, hkind, recordKeyword]
      exact complete_block readsMembers_fields hname hbraced rest
  | enum hkind hname hbraced =>
    refine ⟨_, ?_, rfl, phrase?_enum head.token _ _⟩
    simp only [step, kind_token, hkind]
    exact complete_block readsMembers_enumMembers hname hbraced rest
  | interface hkind hname hbraced =>
    refine ⟨_, ?_, rfl, phrase?_interface head.token _ _⟩
    simp only [step, kind_token, hkind]
    exact complete_block readsMembers_methods hname hbraced rest

/-- The starts of bodies. -/
theorem sound_enter {opener : Opener} (hhead : head.kind ≠ .directive .include)
    (h : step .blank head.token (cursor ls) = .enter opener d) :
    (∃ name rest, ls = name :: rest ∧ head.kind = .directive .ifndef ∧ name.IsName ∧
      opener = .guarded head.token (.ofText name.text) ∧ d = cursor rest) ∨
    ∃ name opening rest, ls = name :: opening :: rest ∧ head.kind = .keyword .module ∧ name.IsName ∧
      opening.kind = .mark .openBrace ∧ opener = .module head.token (.ofText name.text) ∧ d = cursor rest := by
  have hblock {α : Type} {r : Block α × Option Cursor} {f : Block α → Item} :
      Step.ofItem (r.map f id) ≠ .enter opener d := by
    rcases r with ⟨b, _ | rest⟩ <;> simp [Step.ofItem]
  unfold step at h
  simp only [kind_token] at h
  split at h
  · obtain ⟨n, c, -, hitems⟩ := (after_eq rfl).1 h
    cases hitems
  · rename_i hkind
    obtain ⟨n, c, hname, henter⟩ := (after_eq rfl).1 h
    obtain ⟨name, rest, rfl, hisName, rfl, rfl⟩ := name_cursor.1 hname
    cases henter
    exact .inl ⟨name, rest, rfl, hkind, hisName, rfl, rfl⟩
  · contradiction
  · rename_i hkind
    obtain ⟨n, c, hname, henter⟩ := (after_eq rfl).1 h
    obtain ⟨name, ls, rfl, hisName, rfl, rfl⟩ := name_cursor.1 hname
    split at henter
    · cases henter
    · rename_i c hopening
      obtain ⟨opening, rest, rfl, hopened, rfl⟩ := expect_cursor.1 hopening
      cases henter
      exact .inr ⟨name, opening, rest, rfl, hkind, hisName, hopened, rfl, rfl⟩
  · obtain ⟨typed, c, -, hitems⟩ := (after_eq rfl).1 h
    split at hitems <;> cases hitems
  · obtain ⟨n, c, -, hitem⟩ := (after_eq rfl).1 h
    exact absurd hitem hblock
  · obtain ⟨n, c, -, hitem⟩ := (after_eq rfl).1 h
    exact absurd hitem hblock
  · obtain ⟨n, c, -, hitem⟩ := (after_eq rfl).1 h
    exact absurd hitem hblock
  · obtain ⟨n, c, -, hitem⟩ := (after_eq rfl).1 h
    exact absurd hitem hblock
  · cases h

theorem phrase?_of_stopped {item : Item} (h : Stopped item) : item.phrase? = none := by
  cases h with
  | fault => rw [phrase?]
  | record h => rw [phrase?, if_pos h]
  | enum h => rw [phrase?, if_pos h]
  | interface h => rw [phrase?, if_pos (.inl h)]

end Steps

/-! ## Files -/

/-- What the open bodies and the file around them still ask of the terminals: the innermost body says
`ps` so far, and in the end the file says `file`. -/
inductive Closes : List Frame → List Phrase → List Terminal → List Phrase → Prop
  | file {ps qs : List Phrase} {ls : List Terminal} (rest : Derives ls qs) : Closes [] ps ls (ps ++ qs)
  | guarded {head : Token} {name : Name} {before : List Item} {outer : List Frame} {bs ps qs file : List Phrase}
      {ls more : List Terminal} {closing : Terminal} (said : phrases? before = some bs) (body : Derives ls qs)
      (closed : closing.kind = .directive .endif)
      (rest : Closes outer (bs ++ [.guarded name.text (ps ++ qs)]) more file) :
      Closes (⟨.guarded head name, before⟩ :: outer) ps (ls ++ closing :: more) file
  | module {head : Token} {name : Name} {before : List Item} {outer : List Frame} {bs ps qs file : List Phrase}
      {ls more : List Terminal} {closing semicolon : Terminal} (said : phrases? before = some bs) (body : Derives ls qs)
      (closed : closing.kind = .mark .closeBrace) (ended : semicolon.kind = .mark .semicolon)
      (rest : Closes outer (bs ++ [.module name.text (ps ++ qs)]) more file) :
      Closes (⟨.module head name, before⟩ :: outer) ps (ls ++ closing :: semicolon :: more) file

/-- One more declaration in the innermost body. -/
theorem Closes.cons {frames : List Frame} {ps file : List Phrase} {p : Phrase} {rest : List Terminal}
    (h : Closes frames (ps ++ [p]) rest file) (used : List Terminal)
    (hp : ∀ {ls qs}, Derives ls qs → Derives (used ++ ls) (p :: qs)) : Closes frames ps (used ++ rest) file := by
  generalize hps : ps ++ [p] = ps' at h
  cases h with
  | file hrest =>
    rw [← hps, List.append_assoc]
    exact .file (hp hrest)
  | guarded hsaid hbody hclosed hrest =>
    rw [← hps, List.append_assoc] at hrest
    rw [← List.append_assoc]
    exact .guarded hsaid (hp hbody) hclosed hrest
  | module hsaid hbody hclosed hended hrest =>
    rw [← hps, List.append_assoc] at hrest
    rw [← List.append_assoc]
    exact .module hsaid (hp hbody) hclosed hended hrest

/-- An open block, together with its start. -/
theorem Closes.of_guarded {head name : Terminal} {token : Token} {before : List Item} {frames : List Frame}
    {file : List Phrase} {rest : List Terminal} (hkind : head.kind = .directive .ifndef) (hname : name.IsName)
    (h : Closes (⟨.guarded token (.ofText name.text), before⟩ :: frames) [] rest file) :
    ∃ ps, phrases? before = some ps ∧ Closes frames ps (head :: name :: rest) file := by
  cases h with
  | guarded hsaid hbody hclosed hrest =>
    rename_i bs qs ls more closing
    have hcloses := hrest.cons (head :: name :: (ls ++ [closing])) fun hmore => by
      simpa [Name.ofText] using Derives.guarded hkind hname hbody hclosed hmore
    exact ⟨bs, hsaid, by simpa using hcloses⟩

/-- An open module, together with its start. -/
theorem Closes.of_module {head name opening : Terminal} {token : Token} {before : List Item} {frames : List Frame}
    {file : List Phrase} {rest : List Terminal} (hkind : head.kind = .keyword .module) (hname : name.IsName)
    (hopening : opening.kind = .mark .openBrace)
    (h : Closes (⟨.module token (.ofText name.text), before⟩ :: frames) [] rest file) :
    ∃ ps, phrases? before = some ps ∧ Closes frames ps (head :: name :: opening :: rest) file := by
  cases h with
  | module hsaid hbody hclosed hended hrest =>
    rename_i bs qs ls more closing semicolon
    have hcloses := hrest.cons (head :: name :: opening :: (ls ++ [closing, semicolon])) fun hmore => by
      simpa [Name.ofText] using Derives.module hkind hname hopening hbody hclosed hended hmore
    exact ⟨bs, hsaid, by simpa using hcloses⟩

/-- The end of a block, in front of what the bodies around it ask for. -/
theorem Closes.close_guarded {token : Token} {name : Name} {outside before : List Item} {outer : List Frame}
    {ps file : List Phrase} {closing : Terminal} (h : Closes outer ps ls file)
    (hps : phrases? (outside ++ [.guarded token name before]) = some ps) (hkind : closing.kind = .directive .endif) :
    ∃ qs, phrases? before = some qs ∧ Closes (⟨.guarded token name, outside⟩ :: outer) qs (closing :: ls) file := by
  rw [phrases?_snoc rfl, phrase?] at hps
  cases houtside : phrases? outside with
  | none => simp [houtside] at hps
  | some bs =>
    cases hbefore : phrases? before with
    | none => simp [houtside, hbefore] at hps
    | some qs =>
      obtain rfl : bs ++ [.guarded name.text qs] = ps := by simpa [houtside, hbefore] using hps
      exact ⟨qs, rfl, .guarded houtside .nil hkind (by simpa using h)⟩

/-- The end of a module, in front of what the bodies around it ask for. -/
theorem Closes.close_module {token : Token} {name : Name} {outside before : List Item} {outer : List Frame}
    {ps file : List Phrase} {closing semicolon : Terminal} (h : Closes outer ps ls file)
    (hps : phrases? (outside ++ [.module token name before [] none]) = some ps)
    (hkind : closing.kind = .mark .closeBrace) (hsemicolon : semicolon.kind = .mark .semicolon) :
    ∃ qs, phrases? before = some qs ∧
      Closes (⟨.module token name, outside⟩ :: outer) qs (closing :: semicolon :: ls) file := by
  rw [phrases?_snoc rfl, phrase?] at hps
  cases houtside : phrases? outside with
  | none => simp [houtside] at hps
  | some bs =>
    cases hbefore : phrases? before with
    | none => simp [houtside, hbefore] at hps
    | some qs =>
      obtain rfl : bs ++ [.module name.text qs] = ps := by simpa [houtside, hbefore] using hps
      exact ⟨qs, rfl, .module houtside .nil hkind hsemicolon (by simpa using h)⟩

/-- A fault in an open body is a fault of the file. -/
theorem phrases?_abandonAll {body : List Item} (h : phrases? body = none) (frames : List Frame) :
    phrases? (frames.foldl Frame.abandon body) = none := by
  induction frames generalizing body with
  | nil => exact h
  | cons frame frames ih =>
    refine ih ?_
    rcases frame with ⟨opener, before⟩
    cases opener with
    | guarded head name =>
      rw [Frame.abandon, phrases?_snoc rfl, phrase?, h]
      cases phrases? before <;> rfl
    | module head name =>
      rw [Frame.abandon, phrases?_snoc rfl, phrase?, h]
      cases phrases? before <;> rfl

theorem phrases?_stopped {item : Item} (hcomment : item.isComment = false) (h : item.phrase? = none)
    (items : List Item) : phrases? (items ++ [item]) = none := by
  rw [phrases?_snoc hcomment, h]
  cases phrases? items <;> rfl

theorem readFrom_cursor_nil (frames : List Frame) (before : List Item) :
    readFrom .blank frames before (cursor []) = ended .nowhere frames before := by
  rw [readFrom_eq]
  simp [cursor, skip, SourceText.blank]

theorem readFrom_cursor (frames : List Frame) (before : List Item) (head : Terminal) (ls : List Terminal) :
    readFrom .blank frames before (cursor (head :: ls)) =
      match closing? head.token frames with
      | some (frame, outer) =>
        match frame.opener.close .nowhere before (cursor ls) with
        | (item, some rest) => readFrom .blank outer (frame.before ++ [item]) rest
        | (item, none) => outer.foldl Frame.abandon (frame.before ++ [item])
      | none =>
        match step .blank head.token (cursor ls) with
        | .items read rest => readFrom .blank frames (before ++ read) rest
        | .enter opener rest => readFrom .blank (⟨opener, before⟩ :: frames) [] rest
        | .stop item => frames.foldl Frame.abandon (before ++ [item]) := by
  rw [readFrom_eq, skip_cursor]
  simp only [cursor, List.map_nil, List.append_nil, List.map_cons]
  rfl

theorem kind_of_closing {head : Terminal} {frame : Frame} {frames outer : List Frame}
    (h : closing? head.token frames = some (frame, outer)) : head.kind = frame.opener.closer := by
  unfold closing? at h
  split at h
  · cases h
  · split at h
    · rename_i hkind
      cases h
      exact hkind
    · cases h

theorem closes_of_readFrom {frames : List Frame} {before : List Item} {file : List Phrase}
    (hls : ∀ l ∈ ls, l.kind ≠ .directive .include)
    (h : phrases? (readFrom .blank frames before (cursor ls)) = some file) :
    ∃ ps, phrases? before = some ps ∧ Closes frames ps ls file := by
  induction hn : ls.length using Nat.strongRecOn generalizing ls frames before with
  | _ n ih =>
    subst hn
    cases ls with
    | nil =>
      rw [readFrom_cursor_nil] at h
      cases frames with
      | nil => exact ⟨file, h, by simpa using (.file .nil : Closes [] file [] (file ++ []))⟩
      | cons frame outer =>
        have hstopped : Stopped (.fault none (.unexpectedEnd .nowhere frame.opener.closerText)) := .fault
        rw [ended, phrases?_abandonAll (phrases?_stopped rfl (phrase?_of_stopped hstopped) _)] at h
        cases h
    | cons head ls =>
      obtain ⟨hhead, hls⟩ := List.forall_mem_cons.1 hls
      rw [readFrom_cursor] at h
      rcases hclosing : closing? head.token frames with _ | ⟨frame, outer⟩
      · simp only [hclosing] at h
        cases hstep : step .blank head.token (cursor ls) with
        | items read d =>
          obtain ⟨used, rest, p, rfl, hsimple, hread, rfl⟩ := sound_step hhead hstep
          rw [hstep] at h
          obtain ⟨ps', hps', hcloses⟩ := ih rest.length (by simp only [List.length_cons, List.length_append]; omega)
            (fun l hl => hls l (List.mem_append_right _ hl)) h rfl
          rw [phrases?_append, hread] at hps'
          cases hbefore : phrases? before with
          | none => simp [hbefore] at hps'
          | some ps =>
            obtain rfl : ps ++ [p] = ps' := by simpa [hbefore] using hps'
            exact ⟨ps, rfl, hcloses.cons (head :: used) (.simple hsimple)⟩
        | enter opener d =>
          rw [hstep] at h
          rcases sound_enter hhead hstep with ⟨name, rest, rfl, hkind, hname, rfl, rfl⟩ |
            ⟨name, opening, rest, rfl, hkind, hname, hopening, rfl, rfl⟩
          · obtain ⟨_, hnil, hcloses⟩ := ih rest.length (by simp only [List.length_cons]; omega)
              (fun l hl => hls l (List.mem_cons_of_mem _ hl)) h rfl
            cases phrases?_nil.symm.trans hnil
            exact hcloses.of_guarded hkind hname
          · obtain ⟨_, hnil, hcloses⟩ := ih rest.length (by simp only [List.length_cons]; omega)
              (fun l hl => hls l (List.mem_cons_of_mem _ (List.mem_cons_of_mem _ hl))) h rfl
            cases phrases?_nil.symm.trans hnil
            exact hcloses.of_module hkind hname hopening
        | stop item =>
          have hstopped := stopped_of_step head.token _ hstep
          simp only [hstep,
            phrases?_abandonAll (phrases?_stopped hstopped.isComment (phrase?_of_stopped hstopped) _)] at h
          cases h
      · have hkind := kind_of_closing hclosing
        obtain rfl := eq_cons_of_closing hclosing
        simp only [hclosing] at h
        rcases frame with ⟨opener, outside⟩
        cases opener with
        | guarded token name =>
          obtain ⟨ps, hps, hcloses⟩ := ih ls.length (by simp) hls h rfl
          exact hcloses.close_guarded hps hkind
        | module token name =>
          simp only [Opener.close] at h
          rcases hended : (cursor ls).expect .nowhere (.mark .semicolon) "`;`" with e | c
          · have hmodule : (Item.module token name before [] (some e)).phrase? = none := by rw [phrase?]; rfl
            simp only [hended, phrases?_abandonAll (phrases?_stopped rfl hmodule _)] at h
            cases h
          · obtain ⟨semicolon, rest, rfl, hsemicolon, rfl⟩ := expect_cursor.1 hended
            simp only [hended] at h
            obtain ⟨ps, hps, hcloses⟩ := ih rest.length (by simp only [List.length_cons]; omega)
              (fun l hl => hls l (List.mem_cons_of_mem _ hl)) h rfl
            exact hcloses.close_module hps hkind hsemicolon

theorem closing?_of_ne {token : Token} {frames : List Frame} (hendif : token.kind ≠ .directive .endif)
    (hbrace : token.kind ≠ .mark .closeBrace) : closing? token frames = none := by
  cases frames with
  | nil => rfl
  | cons frame outer =>
    rcases frame with ⟨opener, before⟩
    cases opener with
    | guarded head name => exact if_neg hendif
    | module head name => exact if_neg hbrace

/-- A declaration starts with a terminal that ends no body. -/
theorem Simple.exists_head {p : Phrase} (h : Simple ls p) :
    ∃ head used, ls = head :: used ∧ head.kind ≠ .directive .endif ∧ head.kind ≠ .mark .closeBrace := by
  cases h with
  | define hkind | typedef hkind | enum hkind | interface hkind => exact ⟨_, _, rfl, by simp [hkind], by simp [hkind]⟩
  | record hkind => exact ⟨_, _, rfl, by simp [hkind], by simp [hkind]⟩

section Bodies

variable {head name opening closing semicolon : Terminal} (frames : List Frame) (before inner : List Item)
  (rest : List Terminal)

theorem readFrom_ifndef (hkind : head.kind = .directive .ifndef) (hname : name.IsName) :
    readFrom .blank frames before (cursor (head :: name :: rest)) =
      readFrom .blank (⟨.guarded head.token (.ofText name.text), before⟩ :: frames) [] (cursor rest) := by
  have hstep : step .blank head.token (cursor (name :: rest)) =
      .enter (.guarded head.token (.ofText name.text)) (cursor rest) := by
    simp only [step, kind_token, hkind]
    exact (after_eq rfl).2 ⟨_, _, name_cursor.2 ⟨name, rest, rfl, hname, rfl, rfl⟩, rfl⟩
  rw [readFrom_cursor, closing?_of_ne (by simp [hkind]) (by simp [hkind])]
  simp only [hstep]

theorem readFrom_endif (token : Token) (n : Name) (hclosing : closing.kind = .directive .endif) :
    readFrom .blank (⟨.guarded token n, before⟩ :: frames) inner (cursor (closing :: rest)) =
      readFrom .blank frames (before ++ [.guarded token n inner]) (cursor rest) := by
  rw [readFrom_cursor]
  simp [closing?, Opener.closer, hclosing, Opener.close]

theorem readFrom_module (hkind : head.kind = .keyword .module) (hname : name.IsName)
    (hopening : opening.kind = .mark .openBrace) :
    readFrom .blank frames before (cursor (head :: name :: opening :: rest)) =
      readFrom .blank (⟨.module head.token (.ofText name.text), before⟩ :: frames) [] (cursor rest) := by
  have hstep : step .blank head.token (cursor (name :: opening :: rest)) =
      .enter (.module head.token (.ofText name.text)) (cursor rest) := by
    simp only [step, kind_token, hkind]
    refine (after_eq rfl).2 ⟨_, _, name_cursor.2 ⟨name, _, rfl, hname, rfl, rfl⟩, ?_⟩
    rw [expect_cursor_cons SourceText.blank.finish hopening]
  rw [readFrom_cursor, closing?_of_ne (by simp [hkind]) (by simp [hkind])]
  simp only [hstep]

theorem readFrom_closeBrace (token : Token) (n : Name) (hclosing : closing.kind = .mark .closeBrace)
    (hsemicolon : semicolon.kind = .mark .semicolon) :
    readFrom .blank (⟨.module token n, before⟩ :: frames) inner (cursor (closing :: semicolon :: rest)) =
      readFrom .blank frames (before ++ [.module token n inner [] none]) (cursor rest) := by
  rw [readFrom_cursor]
  simp only [closing?, Opener.closer, kind_token, hclosing, if_true, Opener.close,
    expect_cursor_cons .nowhere hsemicolon]
  rfl

end Bodies

/-- What is derived is read to its end, whatever is open around it and whatever follows. -/
theorem readFrom_of_derives {file : List Phrase} (h : Derives ls file) (frames : List Frame) (before : List Item)
    (more : List Terminal) : ∃ items, phrases? items = some file ∧
      readFrom .blank frames before (cursor (ls ++ more)) = readFrom .blank frames (before ++ items) (cursor more) := by
  induction h generalizing frames before more with
  | nil => exact ⟨[], by simp, by simp⟩
  | @simple ls rest p file hsimple _ ih =>
    obtain ⟨head, used, rfl, hendif, hbrace⟩ := hsimple.exists_head
    obtain ⟨item, hstep, hcomment, hp⟩ := complete_step hsimple (rest ++ more)
    obtain ⟨items, hitems, hread⟩ := ih frames (before ++ [item]) more
    refine ⟨item :: items, by simp [phrases?_cons, hcomment, hp, hitems], ?_⟩
    rw [List.append_assoc, List.cons_append, readFrom_cursor, closing?_of_ne hendif hbrace]
    simp only [hstep, hread, List.append_assoc, List.singleton_append]
  | @guarded head name closing ls rest body file hkind hname _ hclosed _ ihBody ih =>
    obtain ⟨inner, hinner, hbody⟩ := ihBody (⟨.guarded head.token (.ofText name.text), before⟩ :: frames) []
      (closing :: (rest ++ more))
    obtain ⟨items, hitems, hread⟩ := ih frames (before ++ [.guarded head.token (.ofText name.text) inner]) more
    refine ⟨.guarded head.token (.ofText name.text) inner :: items, ?_, ?_⟩
    · simp [phrases?_cons, isComment, phrase?, hinner, hitems, Name.ofText]
    · simp only [List.cons_append, List.append_assoc, List.nil_append] at hbody hread ⊢
      rw [readFrom_ifndef frames before _ hkind hname, hbody, readFrom_endif frames before inner _ _ _ hclosed, hread]
  | @module head name opening closing semicolon ls rest body file hkind hname hopened _ hclosed hended _ ihBody ih =>
    obtain ⟨inner, hinner, hbody⟩ := ihBody (⟨.module head.token (.ofText name.text), before⟩ :: frames) []
      (closing :: semicolon :: (rest ++ more))
    obtain ⟨items, hitems, hread⟩ := ih frames (before ++ [.module head.token (.ofText name.text) inner [] none]) more
    refine ⟨.module head.token (.ofText name.text) inner [] none :: items, ?_, ?_⟩
    · simp [phrases?_cons, isComment, phrase?, hinner, hitems, Name.ofText]
    · simp only [List.cons_append, List.append_assoc, List.nil_append] at hbody hread ⊢
      rw [readFrom_module frames before _ hkind hname hopened, hbody,
        readFrom_closeBrace frames before inner _ _ _ hclosed hended, hread]

/-- The items of a file without includes have no fault if and only if its terminals are derived, and they
say what is derived. -/
theorem phrases?_ofTokens (source : SourceText) {tokens : List Token} (h : NoInclude tokens) {file : List Phrase} :
    phrases? (ofTokens source tokens) = some file ↔ Derives (terminals tokens) file := by
  rw [← phrases?_bareAll, bareAll_ofTokens source h]
  constructor
  · intro hphrases
    have hls : ∀ l ∈ terminals tokens, l.kind ≠ .directive .include := noInclude_iff.1 h
    obtain ⟨_, hnil, hcloses⟩ := closes_of_readFrom hls hphrases
    cases phrases?_nil.symm.trans hnil
    cases hcloses with
    | file hderives => exact hderives
  · intro hderives
    obtain ⟨items, hitems, hread⟩ := readFrom_of_derives hderives [] [] []
    rw [List.append_nil, readFrom_cursor_nil] at hread
    rw [ofTokens]
    exact (congrArg phrases? hread).trans hitems

end Grammar

end Idl
