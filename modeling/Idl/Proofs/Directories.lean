import Idl.Proofs.Paths

/-!
# Paths under a directory

A path with the names `d` in front of it names the same file, seen from further above.

* `resolve_down_append`: names in front stay there when a path is resolved, if it does not lead out of them.
* `resolve_join`: a path that is taken from another one leads where its components lead from there.
* `importSpecifier_append`: the way between two outputs does not depend on what both have in front.
-/

namespace Idl

namespace Component

/-- A component that goes one step down. -/
def IsDown : Component → Prop
  | name n => PlainName n.toList
  | _ => False

theorem IsDown.isStep {c : Component} (h : c.IsDown) : c.IsStep := by
  cases c with
  | name n => exact h
  | root | current | parent => exact absurd h id

end Component

namespace Path

variable {cs d base done : List Component}

theorem spelled_of_isDown (h : ∀ c ∈ cs, c.IsDown) : Spelled cs := .relative fun c hc => (h c hc).isStep

theorem eq_of_toList {p q : Path} (h : p.text.toList = q.text.toList) : p = q := by
  obtain ⟨p⟩ := p
  obtain ⟨q⟩ := q
  exact congrArg Path.mk (String.toList_inj.1 h)

/-! ## Walks -/

/-- Only names are taken back. -/
theorem mem_walk {c e : Component} (hc : ∀ n, c ≠ .name n) (h : c ∈ done) : c ∈ walk done e := by
  unfold walk
  split
  · exact h
  · rename_i n rest
    exact (List.mem_cons.1 h).resolve_left (hc n)
  · exact h
  · exact List.mem_cons_of_mem _ h

theorem mem_foldl_walk {c : Component} (hc : ∀ n, c ≠ .name n) (h : c ∈ done) : c ∈ cs.foldl walk done := by
  induction cs generalizing done with
  | nil => exact h
  | cons e cs ih => exact ih (mem_walk hc h)

/-- A step that does not lead out of what was walked does not see what stands in front of it. -/
theorem walk_append {c : Component} (h : .parent ∉ walk done c) : walk (done ++ base) c = walk done c ++ base := by
  cases c with
  | current => rfl
  | root | name n => cases done with
    | nil => cases base <;> rfl
    | cons e done => cases e <;> rfl
  | parent =>
    cases done with
    | nil => exact absurd List.mem_cons_self h
    | cons e done =>
      cases e with
      | name n | root => rfl
      | current | parent => exact absurd List.mem_cons_self h

theorem foldl_walk_append (h : .parent ∉ cs.foldl walk done) :
    cs.foldl walk (done ++ base) = cs.foldl walk done ++ base := by
  induction cs generalizing done with
  | nil => rfl
  | cons c cs ih =>
    rw [List.foldl_cons] at h
    -- two dots that lead out of what was walked are never taken back
    have hstep : .parent ∉ walk done c := fun hmem => h (mem_foldl_walk (by simp) hmem)
    rw [List.foldl_cons, walk_append hstep]
    exact ih h

theorem foldl_walk_down (h : ∀ c ∈ cs, c.IsDown) : cs.foldl walk done = cs.reverse ++ done := by
  induction cs generalizing done with
  | nil => rfl
  | cons c cs ih =>
    obtain ⟨hc, hcs⟩ := List.forall_mem_cons.1 h
    cases c with
    | root | current | parent => exact absurd hc id
    | name n =>
      have hwalk : walk done (.name n) = .name n :: done := by
        cases done with
        | nil => rfl
        | cons e done => cases e <;> rfl
      rw [List.foldl_cons, hwalk, ih hcs]
      simp

/-- Names in front of a path stay there when it is resolved, if it does not lead out of them. -/
theorem resolve_down_append (hd : ∀ c ∈ d, c.IsDown) (h : .parent ∉ resolve cs) :
    resolve (d ++ cs) = d ++ resolve cs := by
  have hcs : .parent ∉ cs.foldl walk [] := fun hmem => h (List.mem_reverse.2 hmem)
  have happend : cs.foldl walk ([] ++ d.reverse) = cs.foldl walk [] ++ d.reverse := foldl_walk_append hcs
  rw [List.nil_append] at happend
  rw [resolve, List.foldl_append, foldl_walk_down hd, List.append_nil, happend, List.reverse_append,
    List.reverse_reverse, resolve]

theorem resolve_down (hd : ∀ c ∈ d, c.IsDown) : resolve d = d := by
  rw [resolve, foldl_walk_down hd, List.append_nil, List.reverse_reverse]

/-- Two dots after names take back the last one. -/
theorem resolve_down_parent {c : Component} (hd : ∀ e ∈ d, e.IsDown) (hc : c.IsDown) :
    resolve (d ++ [c] ++ [.parent]) = d := by
  cases c with
  | root | current | parent => exact absurd hc id
  | name n =>
    rw [resolve, List.foldl_append, List.foldl_append, foldl_walk_down hd]
    simp [walk]

theorem resolve_current (cs es : List Component) : resolve (cs ++ .current :: es) = resolve (cs ++ es) := by
  rw [resolve, resolve, List.foldl_append, List.foldl_append, List.foldl_cons, walk]

/-! ## Joined paths -/

theorem pieces_ne_nil (cs : List Char) : pieces cs ≠ [] := by
  cases cs with
  | nil => simp [pieces]
  | cons c cs =>
    rw [pieces]
    split
    · simp
    · split <;> simp

/-- A relative path has the components that are written in it, after an optional dot. -/
theorem components_of_relative {q : Path} (h : q.isAbsolute = false) : ∃ dot, (dot = [] ∨ dot = [.current]) ∧
    q.components = dot ++ (pieces q.text.toList).filterMap Component.ofPiece? := by
  unfold components componentsOf
  unfold isAbsolute at h
  generalize q.text.toList = text at h ⊢
  split
  · rename_i hnil
    exact absurd hnil (pieces_ne_nil text)
  · rename_i hone
    exact ⟨[], .inl rfl, by rw [hone]; rfl⟩
  · rename_i rest hrest hpieces
    cases text with
    | nil => simp_all [pieces]
    | cons c text =>
      rw [pieces, if_neg (by simpa using h)] at hpieces
      split at hpieces <;> simp at hpieces
  · rename_i first rest _ _ hpieces
    rw [hpieces]
    by_cases hdot : first = ['.']
    · rw [if_pos hdot, hdot]
      exact ⟨[.current], .inr rfl, rfl⟩
    · rw [if_neg hdot]
      exact ⟨[], .inl rfl, rfl⟩

/-- A dot in front of a path that is taken from another one counts for nothing. -/
theorem resolve_append_relative {q : Path} (hq : q.isAbsolute = false) :
    resolve (d ++ q.components) = resolve (d ++ (pieces q.text.toList).filterMap Component.ofPiece?) := by
  obtain ⟨dot, hdot, hcomponents⟩ := components_of_relative hq
  rw [hcomponents]
  rcases hdot with rfl | rfl
  · rfl
  · exact resolve_current ..

/-- Steps up, and then names. -/
def IsRelative (cs : List Component) : Prop :=
  ∃ k down, cs = List.replicate k .parent ++ down ∧ ∀ c ∈ down, c.IsDown

theorem isRelative_walk {c : Component} (h : IsRelative done.reverse) (hc : c.IsStep) :
    IsRelative (walk done c).reverse := by
  obtain ⟨k, down, hdone, hdown⟩ := h
  have hdone : done = down.reverse ++ List.replicate k .parent := by
    rw [← List.reverse_reverse done, hdone, List.reverse_append, List.reverse_replicate]
  subst hdone
  cases c with
  | root | current => exact absurd hc id
  | name n =>
    have hn : (Component.name n).IsDown := hc
    have hname : [Component.name n].foldl walk (down.reverse ++ List.replicate k .parent) =
        [.name n] ++ (down.reverse ++ List.replicate k .parent) :=
      foldl_walk_down (List.forall_mem_singleton.2 hn)
    rw [List.foldl_cons, List.foldl_nil] at hname
    refine ⟨k, down ++ [.name n], ?_, List.forall_mem_append.2 ⟨hdown, List.forall_mem_singleton.2 hn⟩⟩
    rw [hname]
    simp
  | parent =>
    rcases List.eq_nil_or_concat down with rfl | ⟨names, e, rfl⟩
    · refine ⟨k + 1, [], ?_, List.forall_mem_nil _⟩
      cases k with
      | zero => rfl
      | succ k =>
        show (List.replicate (k + 2) Component.parent).reverse = _
        rw [List.reverse_replicate, List.append_nil]
    · rw [List.concat_eq_append] at hdown ⊢
      obtain ⟨hnames, he⟩ := List.forall_mem_append.1 hdown
      refine ⟨k, names, ?_, hnames⟩
      cases e with
      | root | current | parent => exact absurd (List.forall_mem_singleton.1 he) id
      | name n => simp [walk]

/-- Steps are resolved to steps up, and then names. -/
theorem isRelative_resolve_steps (h : ∀ c ∈ cs, c.IsStep) : IsRelative (resolve cs) := by
  have hrun {done : List Component} (hdone : IsRelative done.reverse) : IsRelative (cs.foldl walk done).reverse := by
    induction cs generalizing done with
    | nil => exact hdone
    | cons c cs ih =>
      obtain ⟨hc, hcs⟩ := List.forall_mem_cons.1 h
      exact ih hcs (isRelative_walk hdone hc)
  exact hrun ⟨0, [], rfl, List.forall_mem_nil _⟩

/-- A relative path is resolved to steps up, and then names. -/
theorem isRelative_resolve {q : Path} (h : q.isAbsolute = false) : IsRelative (resolve q.components) := by
  have hsteps : ∀ c ∈ (pieces q.text.toList).filterMap Component.ofPiece?, c.IsStep := by
    intro c hc
    obtain ⟨piece, hpiece, hof⟩ := List.mem_filterMap.1 hc
    exact Component.isStep_of_ofPiece? (no_slash_of_mem_pieces hpiece) hof
  have hcomponents := resolve_append_relative (d := []) h
  rw [List.nil_append, List.nil_append] at hcomponents
  rw [hcomponents]
  exact isRelative_resolve_steps hsteps

/-- A relative path that does not start with two dots is resolved to names. -/
theorem isDown_resolve {q : Path} (h : q.isAbsolute = false) (hhead : (resolve q.components).head? ≠ some .parent) :
    ∀ c ∈ resolve q.components, c.IsDown := by
  obtain ⟨k, down, heq, hdown⟩ := isRelative_resolve h
  cases k with
  | zero =>
    rw [heq]
    exact hdown
  | succ k => exact absurd (by rw [heq]; rfl) hhead

/-- An absolute path stays absolute when it is resolved. -/
theorem root_mem_resolve {q : Path} (h : q.isAbsolute = true) : .root ∈ resolve q.components := by
  obtain ⟨text, htext⟩ : ∃ text, q.text.toList = '/' :: text := by
    unfold isAbsolute at h
    cases hq : q.text.toList with
    | nil => simp [hq] at h
    | cons c text => exact ⟨text, by simpa [hq] using h⟩
  have hcomponents : ∃ steps, q.components = .root :: steps := by
    unfold components componentsOf
    rw [htext, pieces, if_pos rfl]
    cases hp : pieces text with
    | nil => exact absurd hp (pieces_ne_nil text)
    | cons piece rest => exact ⟨_, rfl⟩
  obtain ⟨steps, hsteps⟩ := hcomponents
  rw [hsteps, resolve, List.mem_reverse, List.foldl_cons]
  exact mem_foldl_walk (by simp) List.mem_cons_self

/-- What is joined to a path is written behind it. -/
theorem toList_join (hd : Spelled d) {q : Path} (hq : q.isAbsolute = false) :
    ((ofComponents d).join q).text.toList = d.flatMap Component.lead ++ q.text.toList := by
  unfold join
  rw [if_neg (by simp [hq])]
  rcases hd.cases_snoc with rfl | rfl | ⟨dir, c, rfl, hdir, hc⟩
  · simp [ofComponents, render]
  · simp [ofComponents, render, Component.lead]
  · obtain ⟨x, hx, hslash⟩ : ∃ x, c.text.toList.getLast? = some x ∧ x ≠ '/' := by
      refine ⟨_, List.getLast?_eq_some_getLast hc.text_ne_nil, fun heq => hc.no_slash ?_⟩
      rw [← heq]
      exact List.getLast_mem _
    have htext := toList_render hdir hc
    have hlast : (ofComponents (dir ++ [c])).text.toList.getLast? = some x := by
      rw [ofComponents, htext, List.getLast?_append, hx]
      rfl
    rw [hlast]
    split
    · rename_i hnone
      cases hnone
    · rename_i hsome
      exact absurd (Option.some.inj hsome) hslash
    · simp [ofComponents, htext, hc.lead_eq]

theorem isAbsolute_join (hd : ∀ c ∈ d, c.IsStep) {q : Path} (hq : q.isAbsolute = false) :
    ((ofComponents d).join q).isAbsolute = false := by
  unfold isAbsolute
  rw [toList_join (.relative hd) hq]
  cases d with
  | nil => exact hq
  | cons c d =>
    have hc := hd c List.mem_cons_self
    rw [List.flatMap_cons, hc.lead_eq]
    cases htext : c.text.toList with
    | nil => exact absurd htext hc.text_ne_nil
    | cons x xs =>
      have hslash := hc.no_slash
      rw [htext, List.mem_cons, not_or] at hslash
      simpa using Ne.symm hslash.1

theorem filterMap_ofPiece? (hd : ∀ c ∈ d, c.IsStep) :
    (d.map (·.text.toList)).filterMap Component.ofPiece? = d := by
  induction d with
  | nil => rfl
  | cons c d ih =>
    obtain ⟨hc, hd⟩ := List.forall_mem_cons.1 hd
    rw [List.map_cons, List.filterMap_cons_some (Component.ofPiece?_text hc), ih hd]

/-- A path that is taken from another one leads where its components lead from there. -/
theorem resolve_join (hd : Spelled d) {q : Path} (hq : q.isAbsolute = false) :
    resolve ((ofComponents d).join q).components = resolve (d ++ q.components) := by
  rw [resolve_append_relative hq]
  cases hd with
  | relative hs =>
    obtain ⟨dot, hdot, hcomponents⟩ := components_of_relative (isAbsolute_join hs hq)
    rw [hcomponents, toList_join (.relative hs) hq, pieces_lead hs, List.filterMap_append, filterMap_ofPiece? hs]
    rcases hdot with rfl | rfl
    · rfl
    · exact resolve_current [] _
  | @absolute steps hs =>
    have hpieces : pieces ((ofComponents (.root :: steps)).join q).text.toList =
        [] :: (steps.map (·.text.toList) ++ pieces q.text.toList) := by
      rw [toList_join (.absolute hs) hq, ← pieces_lead hs]
      rfl
    have hne : steps.map (·.text.toList) ++ pieces q.text.toList ≠ [] := by simp [pieces_ne_nil]
    unfold components componentsOf
    rw [hpieces]
    generalize hrest : steps.map (·.text.toList) ++ pieces q.text.toList = rest at hne
    cases rest with
    | nil => exact absurd rfl hne
    | cons piece rest =>
      dsimp only
      rw [← hrest, List.filterMap_append, filterMap_ofPiece? hs, List.cons_append]

/-! ## Paths without an extension -/

/-- A text without slashes that is neither empty nor a dot is written for a step. -/
theorem exists_step {piece : List Char} (hnil : piece ≠ []) (hslash : '/' ∉ piece) (hdot : piece ≠ ['.']) :
    ∃ c : Component, c.IsStep ∧ c.text.toList = piece := by
  by_cases hdots : piece = ['.', '.']
  · exact ⟨.parent, trivial, hdots.symm⟩
  · refine ⟨.name (String.ofList piece), ?_, String.toList_ofList⟩
    show PlainName (String.ofList piece).toList
    rw [String.toList_ofList]
    exact ⟨hnil, hslash, hdot, hdots⟩

/-- A file name without its extension; a dot that is left over is written twice. -/
def bareName (n : List Char) : List Char :=
  if (splitExtension n).1 = ['.'] then ['.', '.'] else (splitExtension n).1

theorem withExtension_empty {dir : List Component} {n : String} (hdir : Spelled dir) (hn : PlainName n.toList) :
    (ofComponents (dir ++ [.name n])).withExtension "" =
      ⟨String.ofList (dir.flatMap Component.lead ++ bareName n.toList)⟩ := by
  unfold withExtension bareName
  rw [last?_ofComponents hdir (c := .name n) hn]
  simp only [Component.text, hn.ne_dot, hn.ne_dots, or_self, if_false, withExtension.replaced]
  split
  · rename_i ext hsplit
    rw [hsplit]
    rfl
  · rename_i stem ext hno hsplit
    rw [hsplit]
    have hstem : stem ≠ ['.'] := by
      rintro rfl
      cases ext with
      | some ext => exact hno ext rfl rfl
      | none =>
        rcases splitExtension_cases n.toList with hnone | ⟨stem, ext, -, -, -, hsome⟩
        · rw [hsplit] at hnone
          exact hn.ne_dot (Prod.mk.inj hnone).1.symm
        · rw [hsplit] at hsome
          cases hsome
    rw [if_neg hstem]
    rfl

/-- What becomes of the last component when the extension is taken away does not depend on those before. -/
theorem exists_bare {last : Component} (h : last.IsStep) : ∃ c : Component, c.IsStep ∧ ∀ dir, Spelled dir →
    (ofComponents (dir ++ [last])).withExtension "" = ofComponents (dir ++ [c]) := by
  cases last with
  | root | current => exact absurd h id
  | parent =>
    refine ⟨.parent, trivial, fun dir hdir => ?_⟩
    unfold withExtension
    rw [last?_ofComponents hdir (c := .parent) trivial]
    rfl
  | name n =>
    have hn : PlainName n.toList := h
    obtain ⟨c, hc, htext⟩ : ∃ c : Component, c.IsStep ∧ c.text.toList = bareName n.toList := by
      unfold bareName
      split
      · exact ⟨.parent, trivial, rfl⟩
      · rename_i hdot
        apply exists_step (ne_nil_of_splitExtension hn.ne_nil) _ hdot
        exact fun hslash => hn.no_slash (subset_of_splitExtension _ hslash)
    refine ⟨c, hc, fun dir hdir => ?_⟩
    rw [withExtension_empty hdir hn, ← htext, ← toList_render hdir hc, String.ofList_toList, ofComponents]

end Path

namespace Placement

open Idl.Path

/-! ## The way between two outputs -/

/-- The steps from one directory to a place. -/
def stepsBetween (origin goal : List Component) : List String :=
  List.replicate (origin.length - commonLength origin goal) ".." ++
    (goal.drop (commonLength origin goal)).map Component.text

theorem commonLength_append (d origin goal : List Component) :
    commonLength (d ++ origin) (d ++ goal) = d.length + commonLength origin goal := by
  induction d with
  | nil => simp
  | cons c d ih =>
    rw [List.cons_append, List.cons_append, commonLength, if_pos rfl, ih, List.length_cons]
    omega

/-- The way between two places does not depend on what both have in front. -/
theorem stepsBetween_append (d origin goal : List Component) :
    stepsBetween (d ++ origin) (d ++ goal) = stepsBetween origin goal := by
  unfold stepsBetween
  rw [commonLength_append, List.length_append, Nat.add_sub_add_left, List.drop_append]
  simp

/-- Nothing but steps up lead to a place above. -/
theorem stepsBetween_nil (origin : List Component) : stepsBetween origin [] = List.replicate origin.length ".." := by
  cases origin <;> simp [stepsBetween, commonLength]

theorem stepsBetween_parent {origin : List Component} (h : ∀ c ∈ origin, c.IsDown) :
    stepsBetween origin [.parent] = List.replicate (origin.length + 1) ".." := by
  have hcommon : commonLength origin [.parent] = 0 := by
    cases origin with
    | nil => rfl
    | cons c origin =>
      have hc := h c List.mem_cons_self
      cases c with
      | root | current | parent => exact absurd hc id
      | name n => rfl
  rw [stepsBetween, hcommon, List.replicate_succ']
  rfl

/-- The way to a place, also to one that leads out of its own directory, does not depend on the directories that are in
front of both. -/
theorem stepsBetween_resolve {d origin goal : List Component} {c : Component} (hd : ∀ e ∈ d, e.IsDown)
    (horigin : ∀ e ∈ origin, e.IsDown) (hgoal : ∀ e ∈ goal, e.IsDown) (hc : c.IsStep) :
    stepsBetween (d ++ origin) (resolve (d ++ goal ++ [c])) = stepsBetween origin (resolve (goal ++ [c])) := by
  have hdgoal : ∀ e ∈ d ++ goal, e.IsDown := List.forall_mem_append.2 ⟨hd, hgoal⟩
  cases c with
  | root | current => exact absurd hc id
  | name n => rw [resolve_snoc_name, resolve_snoc_name, resolve_down hdgoal, resolve_down hgoal, List.append_assoc,
      stepsBetween_append]
  | parent =>
    rcases List.eq_nil_or_concat goal with rfl | ⟨dir, e, rfl⟩
    · -- two dots lead out of the directory, and of the last one in front of it
      rcases List.eq_nil_or_concat d with rfl | ⟨above, e, rfl⟩
      · rfl
      · rw [List.concat_eq_append] at hd ⊢
        obtain ⟨habove, he⟩ := List.forall_mem_append.1 hd
        have hup : resolve ([] ++ [.parent]) = [.parent] := rfl
        have hleft := stepsBetween_append above ([e] ++ origin) []
        rw [List.append_nil, ← List.append_assoc] at hleft
        rw [List.append_nil, resolve_down_parent habove (List.forall_mem_singleton.1 he), hup,
          stepsBetween_parent horigin, hleft, stepsBetween_nil]
        rfl
    · rw [List.concat_eq_append] at hgoal ⊢
      obtain ⟨hdir, he⟩ := List.forall_mem_append.1 hgoal
      have he := List.forall_mem_singleton.1 he
      rw [resolve_down_parent hdir he, ← List.append_assoc,
        resolve_down_parent (List.forall_mem_append.2 ⟨hd, hdir⟩) he, stepsBetween_append]

/-- How the code in one output refers to that in another one does not depend on the directories that are in front of
both. -/
theorem importSpecifier_append {d origin goal : List Component} {a b : Component} (hd : ∀ e ∈ d, e.IsDown)
    (horigin : ∀ e ∈ origin, e.IsDown) (hgoal : ∀ e ∈ goal, e.IsDown) (ha : a.IsStep) (hb : b.IsStep) :
    importSpecifier (ofComponents (d ++ origin ++ [a])) (ofComponents (d ++ goal ++ [b])) =
      importSpecifier (ofComponents (origin ++ [a])) (ofComponents (goal ++ [b])) := by
  obtain ⟨c, hc, hbare⟩ := exists_bare hb
  -- both sides are written from the steps between the same two places
  have hsteps {cs es : List Component} (hcs : ∀ e ∈ cs, e.IsDown) (hes : ∀ e ∈ es, e.IsDown) :
      stepsBetween (ofComponents (cs ++ [a])).directory.normalize.components
          ((ofComponents (es ++ [b])).withExtension "").normalize.components =
        stepsBetween cs (resolve (es ++ [c])) := by
    have hbelow := spelled_of_isDown hcs
    have hthere := spelled_of_isDown hes
    rw [directory_ofComponents hbelow ha, hbare es hthere, components_normalize, components_normalize,
      components_ofComponents hbelow, components_ofComponents (hthere.snoc hc), resolve_down hcs]
  have hleft := hsteps (List.forall_mem_append.2 ⟨hd, horigin⟩) (List.forall_mem_append.2 ⟨hd, hgoal⟩)
  rw [stepsBetween_resolve hd horigin hgoal hc, ← hsteps horigin hgoal] at hleft
  unfold stepsBetween at hleft
  unfold importSpecifier
  dsimp only
  rw [hleft]

end Placement

end Idl
