import Idl.Proofs.Grammar

/-!
# Readers against the grammar

Each reader of a part of a declaration is held against the part of the grammar that it reads. What it
accepts is derived by that part (soundness), and what is derived is read to its end, whatever follows
(completeness).

* `Grammar.typedName_cursor`: a type and a name are split at the last name before the end of the type.
* `Grammar.ReadsMembers`: what a reader of members accepts in front of a closing brace.
* `Grammar.block_cursor`: members in braces are read if and only if they derive from the grammar.
-/

namespace Idl

/-- A type that is written so. -/
def TypeExpr.ofText (text : String) : TypeExpr := ⟨text, .nowhere⟩

def Name.ofText (text : String) : Name := ⟨text, .nowhere⟩

def Field.ofText (f : Field String) : Field TypeExpr := ⟨f.name, .ofText f.type⟩

def Parameter.ofText (p : Parameter String) : Parameter TypeExpr := ⟨p.direction, p.name, .ofText p.type⟩

def Method.ofText (m : Method String String) : Method TypeExpr Name :=
  ⟨m.name, .ofText m.returns, m.parameters.map Parameter.ofText, m.raises.map Name.ofText⟩

def MethodItem.ofText (m : Method String String) : MethodItem := ⟨m.ofText, none⟩

def Field.texts (f : Field TypeExpr) : Field String := ⟨f.name, f.type.text⟩

def Parameter.texts (p : Parameter TypeExpr) : Parameter String := ⟨p.direction, p.name, p.type.text⟩

def Method.texts (m : Method TypeExpr Name) : Method String String :=
  ⟨m.name, m.returns.text, m.parameters.map Parameter.texts, m.raises.map Name.text⟩

namespace Grammar

open Cursor

/-- The place in front of some terminals. -/
def cursor (ls : List Terminal) : Cursor := ⟨ls.map Terminal.token, []⟩

variable {finish : FileRange} {ls : List Terminal} {l : Terminal} {d : Cursor}

@[simp]
theorem kind_token (l : Terminal) : l.token.kind = l.kind := rfl

/-! ## Tokens, names and types -/

@[simp]
theorem skip_cursor (ls : List Terminal) : (cursor ls).skip = cursor ls := by
  cases ls with
  | nil => rfl
  | cons l ls => simp [skip, cursor, l.seen]

@[simp]
theorem fresh_cursor (ls : List Terminal) : (cursor ls).fresh = cursor ls := by
  rw [fresh, skip_cursor]
  rfl

@[simp]
theorem kind?_cursor (ls : List Terminal) : (cursor ls).kind? = ls.head?.map (·.kind) := by
  rw [kind?, skip_cursor]
  cases ls <;> rfl

@[simp]
theorem passedMembers_cursor {α : Type} (ls : List Terminal) : ((cursor ls).passedMembers : List (Member α)) = [] := by
  rw [passedMembers, skip_cursor]
  rfl

@[simp]
theorem hoistedMembers_cursor {α : Type} (ls : List Terminal) :
    ((cursor ls).hoistedMembers : List (Member α)) = [] := rfl

@[simp]
theorem next_cursor_nil (expected : String) :
    (cursor []).next finish expected = .error (.unexpectedEnd finish expected) := rfl

@[simp]
theorem next_cursor_cons (expected : String) (l : Terminal) (ls : List Terminal) :
    (cursor (l :: ls)).next finish expected = .ok (l.token, cursor ls) := by
  rw [next, skip_cursor]
  rfl

theorem expect_cursor {kind : Token.Kind} {expected : String} :
    (cursor ls).expect finish kind expected = .ok d ↔ ∃ l rest, ls = l :: rest ∧ l.kind = kind ∧ d = cursor rest := by
  cases ls with
  | nil => simp [expect, bind, Except.bind]
  | cons l ls =>
    simp only [expect, next_cursor_cons, bind, Except.bind, List.cons.injEq]
    constructor
    · intro h
      split at h
      · rename_i hkind
        cases h
        exact ⟨l, ls, ⟨rfl, rfl⟩, hkind, rfl⟩
      · cases h
    · rintro ⟨_, _, ⟨rfl, rfl⟩, hkind, rfl⟩
      exact if_pos hkind

theorem expect_cursor_cons (finish : FileRange) {kind : Token.Kind} (hkind : l.kind = kind) (expected : String)
    (rest : List Terminal) : (cursor (l :: rest)).expect finish kind expected = .ok (cursor rest) :=
  expect_cursor.2 ⟨l, rest, rfl, hkind, rfl⟩

theorem token_name {name : Name} : l.token.name = .ok name ↔ l.IsName ∧ name = .ofText l.text := by
  unfold Token.name
  constructor
  · intro h
    split at h
    · rename_i hname
      cases h
      exact ⟨hname, rfl⟩
    · cases h
  · rintro ⟨hname, rfl⟩
    exact if_pos hname

theorem name_cursor {name : Name} : (cursor ls).name finish = .ok (name, d) ↔
    ∃ l rest, ls = l :: rest ∧ l.IsName ∧ name = .ofText l.text ∧ d = cursor rest := by
  cases ls with
  | nil => simp [Cursor.name, bind, Except.bind]
  | cons l ls =>
    rw [Cursor.name, next_cursor_cons]
    change (l.token.name >>= fun name => pure (name, cursor ls)) = _ ↔ _
    rw [Except.bind_eq_ok]
    constructor
    · rintro ⟨name', hread, heq⟩
      cases heq
      obtain ⟨hname, rfl⟩ := token_name.1 hread
      exact ⟨l, ls, rfl, hname, rfl, rfl⟩
    · rintro ⟨_, _, heq, hname, rfl, rfl⟩
      cases heq
      exact ⟨_, token_name.2 ⟨hname, rfl⟩, rfl⟩

/-- A terminal that ends a type and a name. -/
def Ends (stops : List Mark) (l : Terminal) : Prop := endsType stops l.token = true

theorem ends_iff {stops : List Mark} :
    Ends stops l ↔ ∃ m, l.kind = .mark m ∧ (m ∈ stops ∨ m = .openBrace ∨ m = .closeBrace) := by
  unfold Ends endsType Terminal.token
  cases hkind : l.kind <;> simp

theorem isType_iff {stops : List Mark} : IsType stops ls ↔ ls ≠ [] ∧ ∀ l ∈ ls, ¬Ends stops l := by
  constructor
  · intro h
    refine ⟨h.nonempty, fun l hl hends => ?_⟩
    obtain ⟨m, hm, hstop⟩ := ends_iff.1 hends
    have := h.unstopped l hl m hm
    grind
  · rintro ⟨hne, h⟩
    refine ⟨hne, fun l hl m hm => ?_⟩
    have := mt ends_iff.2 (h l hl)
    grind

theorem not_ends_of_isName {stops : List Mark} (h : l.IsName) : ¬Ends stops l := by
  rw [ends_iff]
  rintro ⟨m, hm, -⟩
  rw [h.1] at hm
  cases hm

theorem typeExpr_token (first : Terminal) (more : List Terminal) :
    typeExpr first.token (more.map Terminal.token) = .ofText (spelled (first :: more)) := by
  have hrange : ((more.map Terminal.token).getLastD first.token).range = .nowhere := by
    rw [List.getLastD_map]
    rfl
  rw [typeExpr, hrange]
  rfl

/-- A type and a name are read up to where they end. -/
theorem typedName_split (finish : FileRange) {stops : List Mark} {passed : List Terminal} {stop : Terminal}
    (hpassed : ∀ l ∈ passed, ¬Ends stops l) (hstop : Ends stops stop) (rest : List Terminal) :
    (cursor (passed ++ stop :: rest)).typedName finish stops =
      match passed.dropLast, passed.getLast? with
      | first :: more, some name =>
        name.token.name.map fun n => (⟨.ofText (spelled (first :: more)), n⟩, cursor (stop :: rest))
      | _, _ => .error (stop.token.unexpected typedNameText) := by
  have hsplit : (cursor (passed ++ stop :: rest)).tokens =
      passed.map Terminal.token ++ stop.token :: rest.map Terminal.token := by simp [cursor]
  have hwhile : ∀ t ∈ passed.map Terminal.token, (!endsType stops t) = true := by
    intro t ht
    obtain ⟨l, hl, rfl⟩ := List.mem_map.1 ht
    simpa [Ends] using hpassed l hl
  have hseen : (passed.map Terminal.token).filter (!·.kind.isComment) = passed.map Terminal.token := by
    rw [List.filter_eq_self]
    intro t ht
    obtain ⟨l, -, rfl⟩ := List.mem_map.1 ht
    simpa using l.seen
  have hcomments : (passed.map Terminal.token).filter (·.kind.isComment) = [] := by
    rw [List.filter_eq_nil_iff]
    intro t ht
    obtain ⟨l, -, rfl⟩ := List.mem_map.1 ht
    simpa using l.seen
  have htake : (passed.map Terminal.token ++ stop.token :: rest.map Terminal.token).takeWhile (!endsType stops ·) =
      passed.map Terminal.token := by
    rw [List.takeWhile_append_of_pos hwhile, List.takeWhile_cons_of_neg (by simpa [Ends] using hstop), List.append_nil]
  have hdrop : (passed.map Terminal.token ++ stop.token :: rest.map Terminal.token).dropWhile (!endsType stops ·) =
      stop.token :: rest.map Terminal.token := by
    rw [List.dropWhile_append_of_pos hwhile, List.dropWhile_cons_of_neg (by simpa [Ends] using hstop)]
  simp only [typedName, hsplit, htake, hdrop, hseen, hcomments, ← List.map_dropLast, List.getLast?_map]
  cases passed.dropLast with
  | nil => rfl
  | cons first more =>
    cases passed.getLast? with
    | none => rfl
    | some name =>
      simp only [List.map_cons, Option.map_some, typeExpr_token]
      cases name.token.name with
      | error e => rfl
      | ok n => rfl

theorem typedName_cursor {stops : List Mark} {typed : TypedName} : (cursor ls).typedName finish stops = .ok (typed, d) ↔
    ∃ type name stop rest, ls = type ++ name :: stop :: rest ∧ IsType stops type ∧ name.IsName ∧ Ends stops stop ∧
      typed = ⟨.ofText (spelled type), .ofText name.text⟩ ∧ d = cursor (stop :: rest) := by
  constructor
  · intro h
    have hpassed : ∀ l ∈ ls.takeWhile (!endsType stops ·.token), ¬Ends stops l := by
      intro l hl
      simpa [Ends] using List.all_eq_true.1 List.all_takeWhile l hl
    have hsplit := List.takeWhile_append_dropWhile (p := (!endsType stops ·.token)) (l := ls)
    rcases hrest : ls.dropWhile (!endsType stops ·.token) with _ | ⟨stop, rest⟩
    · simp [typedName, cursor, List.dropWhile_map, Function.comp_def, hrest] at h
    · have hstop : Ends stops stop := by
        have hhead := List.head?_dropWhile_not (!endsType stops ·.token) ls
        rw [hrest] at hhead
        simpa [Ends] using hhead
      rw [hrest] at hsplit
      rw [← hsplit, typedName_split finish hpassed hstop] at h
      rcases List.eq_nil_or_concat (ls.takeWhile (!endsType stops ·.token)) with hnil | ⟨type, name, hconcat⟩
      · simp [hnil] at h
      · rw [hconcat, List.concat_eq_append] at h hpassed hsplit
        rw [List.dropLast_concat, List.getLast?_concat] at h
        cases type with
        | nil => cases h
        | cons first more =>
          change Except.map _ name.token.name = _ at h
          cases hname : name.token.name with
          | error e => simp [hname, Except.map] at h
          | ok n =>
            rw [hname] at h
            cases h
            obtain ⟨hisName, rfl⟩ := token_name.1 hname
            have htype : IsType stops (first :: more) :=
              isType_iff.2 ⟨by simp, fun l hl => hpassed l (List.mem_append_left _ hl)⟩
            exact ⟨first :: more, name, stop, rest, by simpa using hsplit.symm, htype, hisName, hstop, rfl, rfl⟩
  · rintro ⟨type, name, stop, rest, rfl, htype, hname, hstop, rfl, rfl⟩
    obtain ⟨hne, htype⟩ := isType_iff.1 htype
    have hpassed : ∀ l ∈ type ++ [name], ¬Ends stops l := by
      intro l hl
      rcases List.mem_append.1 hl with hl | hl
      · exact htype l hl
      · rw [List.mem_singleton.1 hl]
        exact not_ends_of_isName hname
    have hread := typedName_split finish hpassed hstop rest
    rw [List.dropLast_concat, List.getLast?_concat, List.append_assoc] at hread
    cases type with
    | nil => contradiction
    | cons first more =>
      refine hread.trans ?_
      change Except.map _ name.token.name = _
      rw [token_name.2 ⟨hname, rfl⟩]
      rfl

/-! ## Members -/

/-- What the reader accepts in front of a closing brace is what the grammar derives. -/
structure ReadsMembers {α β : Type} (members : Cursor → Reading (Member β)) (grammar : List Terminal → List α → Prop)
    (embed : α → β) : Prop where
  sound : ∀ {ls ms d}, members (cursor ls) = (ms, .ok d) → ∃ left, d = cursor left ∧
    ∀ closing rest, left = closing :: rest → closing.kind = .mark .closeBrace →
      ∃ used as, ls = used ++ closing :: rest ∧ grammar used as ∧ ms = as.map fun a => .item (embed a)
  complete : ∀ {used as closing}, grammar used as → closing.kind = .mark .closeBrace → ∀ rest,
    members (cursor (used ++ closing :: rest)) = (as.map fun a => .item (embed a), .ok (cursor (closing :: rest)))

/-- A reader that reads items up to a closing brace, one after the other. -/
theorem readsMembers_many {α β : Type} {members : Cursor → Reading (Member β)} {item : List Terminal → α → Prop}
    {embed : α → β}
    (hclosed : ∀ ls, ls.head?.map (·.kind) = some (.mark .closeBrace) → members (cursor ls) = ([], .ok (cursor ls)))
    (hsound : ∀ {ls ms d}, ls.head?.map (·.kind) ≠ some (.mark .closeBrace) → members (cursor ls) = (ms, .ok d) →
      ∃ used rest a ms', ls = used ++ rest ∧ item used a ∧ ms = .item (embed a) :: ms' ∧
        members (cursor rest) = (ms', .ok d))
    (hcomplete : ∀ {used a}, item used a → ∀ rest, members (cursor (used ++ rest)) =
      (.item (embed a) :: (members (cursor rest)).1, (members (cursor rest)).2))
    (hne : ∀ {used a}, item used a → used ≠ []) : ReadsMembers members (Many item) embed := by
  constructor
  · intro ls
    -- Each item takes at least one terminal.
    induction hn : ls.length using Nat.strongRecOn generalizing ls with
    | _ n ih =>
      subst hn
      intro ms d h
      by_cases hclose : ls.head?.map (·.kind) = some (.mark .closeBrace)
      · rw [hclosed ls hclose] at h
        cases h
        exact ⟨ls, rfl, fun closing rest hls _ => ⟨[], [], hls, .nil, rfl⟩⟩
      · obtain ⟨used, rest, a, ms', rfl, hitem, rfl, hrest⟩ := hsound hclose h
        have hpos := List.length_pos_iff.2 (hne hitem)
        obtain ⟨left, hd, hleft⟩ := ih rest.length (by rw [List.length_append]; omega) rfl hrest
        refine ⟨left, hd, fun closing more hmore hkind => ?_⟩
        obtain ⟨used', as, rfl, has, rfl⟩ := hleft closing more hmore hkind
        exact ⟨used ++ used', a :: as, by rw [List.append_assoc], .cons hitem has, rfl⟩
  · intro used as closing h hkind rest
    induction h with
    | nil => exact hclosed _ (by simp [hkind])
    | cons first _ ih => rw [List.append_assoc, hcomplete first, ih, List.map_cons]

/-! ## Fields -/

theorem field_cursor {f : Field TypeExpr} : (cursor ls).field finish = .ok (f, d) ↔
    ∃ used rest g, ls = used ++ rest ∧ IsField used g ∧ f = g.ofText ∧ d = cursor rest := by
  rw [field, Except.bind_eq_ok]
  constructor
  · rintro ⟨⟨typed, c⟩, htyped, hmark⟩
    obtain ⟨type, name, stop, rest, rfl, htype, hname, hstop, rfl, rfl⟩ := typedName_cursor.1 htyped
    simp only [next_cursor_cons, bind, Except.bind] at hmark
    split at hmark
    · rename_i hkind
      cases hmark
      exact ⟨type ++ [name, stop], rest, _, by simp, .field htype hname hkind, rfl, rfl⟩
    · cases hmark
  · rintro ⟨_, rest, _, rfl, ⟨htype, hname, hmark⟩, rfl, rfl⟩
    rename_i type name mark
    have hends : Ends fieldStops mark := by
      rw [ends_iff]
      rcases hmark with hmark | hmark <;> exact ⟨_, hmark, by simp [fieldStops]⟩
    refine ⟨_, typedName_cursor.2 ⟨type, name, mark, rest, by simp, htype, hname, hends, rfl, rfl⟩, ?_⟩
    simp only [next_cursor_cons, bind, Except.bind]
    exact if_pos hmark

theorem head_of_isType {stops : List Mark} {type rest : List Terminal} (h : IsType stops type) :
    (type ++ rest).head?.map (·.kind) ≠ some (.mark .closeBrace) := by
  obtain ⟨hne, hunstopped⟩ := h
  cases type with
  | nil => contradiction
  | cons first more =>
    intro hhead
    exact (hunstopped first (List.mem_cons_self ..) .closeBrace (by simpa using hhead)).2.2 rfl

theorem readsMembers_fields : ReadsMembers (·.fields finish) (Many IsField) Field.ofText := by
  refine readsMembers_many (fun ls hclose => ?_) (fun {ls ms d} hclose h => ?_) (fun {used g} hfield rest => ?_)
    fun {used g} hfield => ?_
  · rw [fields_eq, if_pos (by simpa using hclose)]
    simp
  · rw [fields_eq, if_neg (by simpa using hclose), fresh_cursor] at h
    rcases hread : (cursor ls).field finish with e | ⟨f, after⟩
    · simp [hread] at h
    · obtain ⟨used, rest, g, rfl, hfield, rfl, rfl⟩ := field_cursor.1 hread
      rw [hread] at h
      simp only [passedMembers_cursor, hoistedMembers_cursor, List.nil_append, Prod.mk.injEq] at h
      exact ⟨used, rest, g, _, rfl, hfield, h.1.symm, Prod.ext rfl h.2⟩
  · have hclose : (used ++ rest).head?.map (·.kind) ≠ some (.mark .closeBrace) := by
      cases hfield with
      | field htype => rw [List.append_assoc]; exact head_of_isType htype
    rw [fields_eq, if_neg (by simpa using hclose), fresh_cursor,
      field_cursor.2 ⟨used, rest, g, rfl, hfield, rfl, rfl⟩]
    simp only [passedMembers_cursor, hoistedMembers_cursor, List.nil_append]
    rfl
  · cases hfield
    simp

/-! ## Lists -/

/-- What the reader of an item of a list accepts is what the grammar derives. -/
structure ReadsItem {α β : Type} (read : Cursor → Except Error (β × Cursor)) (item : List Terminal → α → Prop)
    (embed : α → β) : Prop where
  sound : ∀ {ls b d}, read (cursor ls) = .ok (b, d) →
    ∃ used rest a, ls = used ++ rest ∧ item used a ∧ b = embed a ∧ d = cursor rest
  complete : ∀ {used a l}, item used a → l.kind = .mark .comma ∨ l.kind = .mark .closeParen → ∀ rest,
    read (cursor (used ++ l :: rest)) = .ok (embed a, cursor (l :: rest))

theorem separated_cursor {α β : Type} {read : Cursor → Except Error (β × Cursor)} {item : List Terminal → α → Prop}
    {embed : α → β} (hread : ReadsItem read item embed) {forward : ∀ c d b, read c = .ok (b, d) → d.size ≤ c.size}
    {bs : List β} : (cursor ls).separated finish read forward = (bs, .ok d) ↔
      ∃ used closing rest as, ls = used ++ closing :: rest ∧ Listed item used as ∧
        closing.kind = .mark .closeParen ∧ bs = as.map embed ∧ d = cursor rest := by
  constructor
  · induction hn : ls.length using Nat.strongRecOn generalizing ls bs with
    | _ n ih =>
      subst hn
      intro h
      rw [separated_eq] at h
      rcases hfirst : read (cursor ls) with e | ⟨b, after⟩
      · simp [hfirst] at h
      · obtain ⟨used, rest, a, rfl, hitem, rfl, rfl⟩ := hread.sound hfirst
        rw [hfirst] at h
        cases rest with
        | nil => simp at h
        | cons l rest =>
          simp only [next_cursor_cons] at h
          split at h
          · rename_i hcomma
            simp only [Prod.mk.injEq] at h
            obtain ⟨used', closing, rest', as, rfl, hlisted, hclosing, hmore, rfl⟩ :=
              ih rest.length (by simp only [List.length_cons, List.length_append]; omega) rfl (Prod.ext rfl h.2)
            refine ⟨used ++ l :: used', closing, rest', a :: as, by simp, .cons hitem hcomma hlisted, hclosing, ?_, rfl⟩
            rw [← h.1]
            simpa using hmore
          · split at h
            · rename_i hclosing
              simp only [Prod.mk.injEq] at h
              cases h.2
              exact ⟨used, l, rest, [a], rfl, .one hitem, hclosing, h.1.symm, rfl⟩
            · simp at h
  · rintro ⟨used, closing, rest, as, rfl, hlisted, hclosing, rfl, rfl⟩
    induction hlisted with
    | one hitem =>
      rw [separated_eq, hread.complete hitem (.inr hclosing)]
      simp [hclosing]
    | cons hitem hcomma _ ih =>
      rw [List.append_assoc, List.cons_append, separated_eq, hread.complete hitem (.inl hcomma)]
      simp [hcomma, ih]

/-! ## Enum values -/

theorem values_cursor (hname : l.IsName) (rest : List Terminal) : (cursor (l :: rest)).values finish =
    match rest with
    | [] => ([.item l.text], .ok (cursor []))
    | next :: more =>
      if next.kind = .mark .comma then
        (.item l.text :: ((cursor more).values finish).1, ((cursor more).values finish).2)
      else ([.item l.text], .ok (cursor (next :: more))) := by
  rw [values_eq, fresh_cursor, name_cursor.2 ⟨l, rest, rfl, hname, rfl, rfl⟩]
  simp only [passedMembers_cursor, skip_cursor, fresh_cursor, List.nil_append]
  cases rest <;> rfl

theorem sound_values {ms : List (Member String)} (h : (cursor ls).values finish = (ms, .ok d)) :
    ∃ used rest vs, ls = used ++ rest ∧ Listed IsNameOf used vs ∧ ms = vs.map .item ∧ d = cursor rest := by
  induction hn : ls.length using Nat.strongRecOn generalizing ls ms with
  | _ n ih =>
    subst hn
    rcases hfirst : (cursor ls).name finish with e | ⟨name, after⟩
    · simp [values_eq, hfirst] at h
    · obtain ⟨l, rest, rfl, hname, rfl, rfl⟩ := name_cursor.1 hfirst
      rw [values_cursor hname] at h
      cases rest with
      | nil =>
        cases h
        exact ⟨[l], [], [l.text], rfl, .one (.name hname), rfl, rfl⟩
      | cons next rest =>
        dsimp only at h
        split at h
        · rename_i hcomma
          simp only [Prod.mk.injEq] at h
          obtain ⟨used, rest', vs, rfl, hlisted, hmore, hd⟩ :=
            ih rest.length (by simp only [List.length_cons]; omega) (Prod.ext rfl h.2) rfl
          refine ⟨l :: next :: used, rest', l.text :: vs, by simp, .cons (.name hname) hcomma hlisted, ?_, hd⟩
          rw [← h.1]
          exact congrArg (Member.item l.text :: ·) hmore
        · cases h
          exact ⟨[l], next :: rest, [l.text], rfl, .one (.name hname), rfl, rfl⟩

theorem complete_values {used : List Terminal} {vs : List String} {closing : Terminal} (h : Listed IsNameOf used vs)
    (hclosing : closing.kind = .mark .closeBrace) (rest : List Terminal) :
    (cursor (used ++ closing :: rest)).values finish = (vs.map .item, .ok (cursor (closing :: rest))) := by
  induction h with
  | one hfirst =>
    cases hfirst with
    | name hname =>
      rw [List.singleton_append, values_cursor hname]
      simp [hclosing]
  | cons hfirst hcomma _ ih =>
    cases hfirst with
    | name hname =>
      rw [List.append_assoc, List.singleton_append, List.cons_append, values_cursor hname]
      simp [hcomma, ih]

theorem readsMembers_enumMembers : ReadsMembers (·.enumMembers finish) (MaybeListed IsNameOf) id := by
  constructor
  · intro ls ms d h
    rw [enumMembers] at h
    split at h
    · simp only [passedMembers_cursor, fresh_cursor, Prod.mk.injEq, Except.ok.injEq] at h
      obtain ⟨rfl, rfl⟩ := h
      exact ⟨ls, rfl, fun closing rest hls _ => ⟨[], [], hls, .nothing, rfl⟩⟩
    · obtain ⟨used, left, vs, rfl, hlisted, rfl, rfl⟩ := sound_values h
      exact ⟨left, rfl, fun closing rest hleft _ => ⟨used, vs, by rw [hleft], .listed hlisted, rfl⟩⟩
  · intro used vs closing h hclosing rest
    rw [enumMembers]
    cases h with
    | nothing => simp [hclosing]
    | listed hlisted =>
      rw [if_neg ?_, complete_values hlisted hclosing]
      · rfl
      · cases hlisted with
        | one hfirst =>
          cases hfirst with
          | name hname => simp [hname.1]
        | cons hfirst =>
          cases hfirst with
          | name hname => simp [hname.1]

/-! ## Methods -/

theorem readsItem_name : ReadsItem (·.name finish) IsNameOf Name.ofText := by
  constructor
  · intro ls name d h
    obtain ⟨l, rest, rfl, hname, rfl, rfl⟩ := name_cursor.1 h
    exact ⟨[l], rest, l.text, rfl, .name hname, rfl, rfl⟩
  · rintro _ _ l ⟨hname⟩ - rest
    exact name_cursor.2 ⟨_, l :: rest, rfl, hname, rfl, rfl⟩

theorem readsItem_parameter : ReadsItem (·.parameter finish) IsParameter Parameter.ofText := by
  constructor
  · intro ls p d h
    cases ls with
    | nil => cases h
    | cons head ls =>
      rw [parameter, next_cursor_cons] at h
      simp only [bind, Except.bind, kind_token] at h
      split at h
      · rename_i direction hdirection
        obtain ⟨⟨typed, c⟩, htyped, heq⟩ := Except.bind_eq_ok.1 h
        obtain ⟨type, name, stop, rest, rfl, htype, hname, -, rfl, rfl⟩ := typedName_cursor.1 htyped
        cases heq
        exact ⟨head :: (type ++ [name]), stop :: rest, _, by simp, .parameter hdirection htype hname, rfl, rfl⟩
      · cases h
  · rintro _ _ l ⟨hdirection, htype, hname⟩ hstop rest
    rename_i head direction type name
    have hends : Ends fieldStops l := by
      rw [ends_iff]
      rcases hstop with hstop | hstop <;> exact ⟨_, hstop, by simp [fieldStops]⟩
    rw [parameter, List.cons_append, next_cursor_cons]
    simp only [bind, Except.bind, kind_token, hdirection]
    have htyped : (cursor (type ++ name :: l :: rest)).typedName finish fieldStops =
        .ok (⟨.ofText (spelled type), .ofText name.text⟩, cursor (l :: rest)) :=
      typedName_cursor.2 ⟨type, name, l, rest, rfl, htype, hname, hends, rfl, rfl⟩
    rw [List.append_assoc, List.singleton_append, htyped]
    rfl

theorem parameters_cursor {ps : List (Parameter TypeExpr)} : (cursor ls).parameters finish = (ps, .ok d) ↔
    ∃ used closing rest qs, ls = used ++ closing :: rest ∧ MaybeListed IsParameter used qs ∧
      closing.kind = .mark .closeParen ∧ ps = qs.map Parameter.ofText ∧ d = cursor rest := by
  rw [parameters, kind?_cursor, skip_cursor]
  constructor
  · intro h
    split at h
    · rename_i hkind
      cases ls with
      | nil => cases hkind
      | cons closing rest =>
        cases h
        exact ⟨[], closing, rest, [], rfl, .nothing, by simpa using hkind, rfl, rfl⟩
    · obtain ⟨used, closing, rest, qs, rfl, hlisted, hclosing, rfl, rfl⟩ := (separated_cursor readsItem_parameter).1 h
      exact ⟨used, closing, rest, qs, rfl, .listed hlisted, hclosing, rfl, rfl⟩
  · rintro ⟨used, closing, rest, qs, rfl, hqs, hclosing, rfl, rfl⟩
    cases hqs with
    | nothing =>
      rw [if_pos (by simp [hclosing])]
      rfl
    | listed hlisted =>
      rw [if_neg ?_]
      · exact (separated_cursor readsItem_parameter).2 ⟨used, closing, rest, qs, rfl, hlisted, hclosing, rfl, rfl⟩
      · cases hlisted with
        | one hfirst =>
          cases hfirst with
          | parameter hdirection => simp [hdirection]
        | cons hfirst =>
          cases hfirst with
          | parameter hdirection => simp [hdirection]

theorem sound_raised {names : List Name} (h : (cursor ls).raised finish = (names, .ok d)) :
    ∃ used rest texts, ls = used ++ rest ∧ Raises used texts ∧ names = texts.map Name.ofText ∧ d = cursor rest := by
  rw [raised, kind?_cursor, skip_cursor] at h
  split at h
  · rename_i hkind
    cases ls with
    | nil => cases hkind
    | cons head ls =>
      change readAfter ((cursor ls).expect finish (.mark .openParen) "`(`") (·.names finish) = _ at h
      rcases hopening : (cursor ls).expect finish (.mark .openParen) "`(`" with e | c
      · simp [hopening, readAfter] at h
      · obtain ⟨opening, ls, rfl, hopened, rfl⟩ := expect_cursor.1 hopening
        rw [hopening] at h
        obtain ⟨used, closing, rest, texts, rfl, hlisted, hclosing, rfl, rfl⟩ := (separated_cursor readsItem_name).1 h
        exact ⟨head :: opening :: (used ++ [closing]), rest, texts, by simp,
          .raises (by simpa using hkind) hopened hlisted hclosing, rfl, rfl⟩
  · cases h
    exact ⟨[], ls, [], rfl, .nothing, rfl, rfl⟩

theorem complete_raised {used : List Terminal} {texts : List String} {semicolon : Terminal} (h : Raises used texts)
    (hsemicolon : semicolon.kind = .mark .semicolon) (rest : List Terminal) :
    (cursor (used ++ semicolon :: rest)).raised finish = (texts.map Name.ofText, .ok (cursor (semicolon :: rest))) := by
  rw [raised, kind?_cursor, skip_cursor]
  cases h with
  | nothing =>
    rw [if_neg (by simp [hsemicolon])]
    rfl
  | raises hhead hopening hlisted hclosing =>
    rename_i head opening closing ls
    rw [if_pos (by simp [hhead])]
    have hnames : (cursor (ls ++ closing :: semicolon :: rest)).names finish =
        (texts.map Name.ofText, .ok (cursor (semicolon :: rest))) :=
      (separated_cursor readsItem_name).2 ⟨ls, closing, _, texts, rfl, hlisted, hclosing, rfl, rfl⟩
    change readAfter
      ((cursor (opening :: (ls ++ [closing] ++ semicolon :: rest))).expect finish (.mark .openParen) "`(`")
      (·.names finish) = _
    rw [List.append_assoc, List.singleton_append, expect_cursor_cons finish hopening]
    exact hnames

/-- Reading on after something gets to an end only if there is no fault before it. -/
theorem readAfter_eq_ok {α : Type} {before : Except Error Cursor} {f : Cursor → Reading α}
    (h : (readAfter before f).2 = .ok d) :
    ∃ c as, before = .ok c ∧ readAfter before f = (as, .ok d) ∧ f c = (as, .ok d) := by
  cases before with
  | error e => cases h
  | ok c =>
    have hread : f c = ((f c).1, .ok d) := by rw [← h]; rfl
    exact ⟨c, _, rfl, hread, hread⟩

theorem method_cursor {m : Method TypeExpr Name} : (cursor ls).method finish = .ok (m, .ok d) ↔
    ∃ used rest n, ls = used ++ rest ∧ IsMethod used n ∧ m = n.ofText ∧ d = cursor rest := by
  rw [method, Except.bind_eq_ok]
  constructor
  · rintro ⟨⟨typed, c⟩, htyped, hrest⟩
    obtain ⟨type, name, stop, rest, rfl, htype, hname, -, rfl, rfl⟩ := typedName_cursor.1 htyped
    simp only [methodRest, pure, Except.pure, Except.ok.injEq, Prod.mk.injEq] at hrest
    obtain ⟨rfl, hended⟩ := hrest
    obtain ⟨c₂, hraised, hsemicolon⟩ := Except.bind_eq_ok.1 hended
    obtain ⟨c₁, names, hlisted, hraisedEq, hraised⟩ := readAfter_eq_ok hraised
    obtain ⟨c₀, read, hopening, hlistedEq, hlisted⟩ := readAfter_eq_ok hlisted
    rw [hraisedEq, hlistedEq]
    obtain ⟨opening, ls₀, heq, hopened, rfl⟩ := expect_cursor.1 hopening
    cases heq
    obtain ⟨ps, closing, ls₁, parameters, rfl, hparameters, hclosing, rfl, rfl⟩ := parameters_cursor.1 hlisted
    obtain ⟨rs, ls₂, raises, rfl, hraises, rfl, rfl⟩ := sound_raised hraised
    obtain ⟨semicolon, rest, rfl, hlast, rfl⟩ := expect_cursor.1 hsemicolon
    exact ⟨_, rest, _, by simp, .method htype hname hopened hparameters hclosing hraises hlast, rfl, rfl⟩
  · rintro ⟨_, rest, _, rfl, ⟨htype, hname, hopening, hparameters, hclosing, hraises, hsemicolon⟩, rfl, rfl⟩
    rename_i type ps rs name opening closing semicolon parameters raises
    have hends : Ends [.openParen] opening := ends_iff.2 ⟨_, hopening, by simp⟩
    refine ⟨_, typedName_cursor.2 ⟨type, name, opening, ps ++ closing :: (rs ++ semicolon :: rest), by simp,
      htype, hname, hends, rfl, rfl⟩, ?_⟩
    have hlisted : (cursor (ps ++ closing :: (rs ++ semicolon :: rest))).parameters finish =
        (parameters.map Parameter.ofText, .ok (cursor (rs ++ semicolon :: rest))) :=
      parameters_cursor.2 ⟨ps, closing, _, parameters, rfl, hparameters, hclosing, rfl, rfl⟩
    simp only [methodRest, expect_cursor_cons finish hopening, readAfter, hlisted, complete_raised hraises hsemicolon,
      Except.bind, expect_cursor_cons finish hsemicolon]
    rfl

theorem readsMembers_methods : ReadsMembers (·.methods finish) (Many IsMethod) MethodItem.ofText := by
  refine readsMembers_many (fun ls hclose => ?_) (fun {ls ms d} hclose h => ?_) (fun {used n} hmethod rest => ?_)
    fun {used n} hmethod => ?_
  · rw [methods_eq, if_pos (by simpa using hclose)]
    simp
  · rw [methods_eq, if_neg (by simpa using hclose), fresh_cursor] at h
    rcases hread : (cursor ls).method finish with e | ⟨m, e | after⟩
    · simp [hread] at h
    · simp [hread] at h
    · obtain ⟨used, rest, n, rfl, hmethod, rfl, rfl⟩ := method_cursor.1 hread
      rw [hread] at h
      simp only [passedMembers_cursor, hoistedMembers_cursor, List.nil_append, Prod.mk.injEq] at h
      exact ⟨used, rest, n, _, rfl, hmethod, h.1.symm, Prod.ext rfl h.2⟩
  · have hclose : (used ++ rest).head?.map (·.kind) ≠ some (.mark .closeBrace) := by
      cases hmethod with
      | method htype =>
        rw [List.append_assoc]
        exact head_of_isType htype
    rw [methods_eq, if_neg (by simpa using hclose), fresh_cursor,
      method_cursor.2 ⟨used, rest, n, rfl, hmethod, rfl, rfl⟩]
    simp only [passedMembers_cursor, hoistedMembers_cursor, List.nil_append]
    rfl
  · cases hmethod
    simp

/-! ## Blocks -/

theorem block_cursor {α β : Type} {members : Cursor → Reading (Member β)} {grammar : List Terminal → List α → Prop}
    {embed : α → β} (hmembers : ReadsMembers members grammar embed) {closer : String} {b : Block β} :
    (cursor ls).block finish members closer = (b, some d) ↔
      ∃ used rest as, ls = used ++ rest ∧ Braced grammar used as ∧
        b = ⟨as.map fun a => .item (embed a), [], none⟩ ∧ d = cursor rest := by
  constructor
  · intro h
    rw [block] at h
    dsimp only at h
    split at h
    · cases h
    · rename_i c hended
      obtain ⟨c₂, hclosing, hsemicolon⟩ := Except.bind_eq_ok.1 hended
      obtain ⟨c₁, hread, hclosing⟩ := Except.bind_eq_ok.1 hclosing
      obtain ⟨c₀, ms, hopening, hreadEq, hread⟩ := readAfter_eq_ok hread
      obtain ⟨opening, ls₀, rfl, hopened, rfl⟩ := expect_cursor.1 hopening
      obtain ⟨left, rfl, hleft⟩ := hmembers.sound hread
      obtain ⟨closing, ls₁, rfl, hclosed, rfl⟩ := expect_cursor.1 hclosing
      obtain ⟨used, as, rfl, has, rfl⟩ := hleft closing ls₁ rfl hclosed
      obtain ⟨semicolon, rest, rfl, hlast, rfl⟩ := expect_cursor.1 hsemicolon
      rw [hreadEq] at h
      cases h
      exact ⟨_, rest, as, by simp, .braced hopened has hclosed hlast, rfl, rfl⟩
  · rintro ⟨_, rest, as, rfl, ⟨hopening, has, hclosing, hsemicolon⟩, rfl, rfl⟩
    rename_i opening closing semicolon ls
    rw [List.cons_append, List.append_assoc, List.cons_append, List.singleton_append, block,
      expect_cursor_cons finish hopening]
    simp only [readAfter, hmembers.complete has hclosing, Except.bind, expect_cursor_cons finish hclosing,
      expect_cursor_cons finish hsemicolon]
    rfl

end Grammar

end Idl
