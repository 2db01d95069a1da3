import Idl.Output.Placement

/-!
# Paths that are written out from their components

A list of components is `Spelled` if it is an optional root and then names and pairs of dots. Such a
list is read back from the text that is written for it (`components_ofComponents`), and on that text
the operations on paths do to the last component what their names say: `directory_ofComponents`,
`fileName?_ofComponents`, `join_ofComponents`, `withExtension_ofComponents`.

The components of a normal path are spelled (`spelled_resolve`), and resolving them again changes
nothing (`resolve_resolve`).
-/

namespace Idl

/-! ## Components -/

/-- A text that stands for itself between slashes. -/
structure PlainName (n : List Char) : Prop where
  ne_nil : n ≠ []
  no_slash : '/' ∉ n
  ne_dot : n ≠ ['.']
  ne_dots : n ≠ ['.', '.']

namespace Component

/-- A component that goes one step down or up: a name or two dots. -/
def IsStep : Component → Prop
  | root | current => False
  | parent => True
  | name n => PlainName n.toList

/-- A step is written as a text without slashes that is neither empty nor a dot. -/
theorem IsStep.text_spec {c : Component} (h : c.IsStep) :
    c.text.toList ≠ [] ∧ '/' ∉ c.text.toList ∧ c.text.toList ≠ ['.'] := by
  cases c with
  | root | current => exact absurd h id
  | parent => decide
  | name n => exact ⟨PlainName.ne_nil h, PlainName.no_slash h, PlainName.ne_dot h⟩

theorem IsStep.text_ne_nil {c : Component} (h : c.IsStep) : c.text.toList ≠ [] := h.text_spec.1

theorem IsStep.no_slash {c : Component} (h : c.IsStep) : '/' ∉ c.text.toList := h.text_spec.2.1

theorem IsStep.text_ne_dot {c : Component} (h : c.IsStep) : c.text.toList ≠ ['.'] := h.text_spec.2.2

theorem ofPiece?_text {c : Component} (h : c.IsStep) : ofPiece? c.text.toList = some c := by
  cases c with
  | root | current => exact absurd h id
  | parent => decide
  | name n =>
    unfold ofPiece?
    rw [if_neg (by simp [text, h.ne_nil, h.ne_dot]), if_neg (by simpa [text] using h.ne_dots)]
    simp [text]

theorem isStep_of_ofPiece? {piece : List Char} {c : Component} (hslash : '/' ∉ piece) (h : ofPiece? piece = some c) :
    c.IsStep := by
  unfold ofPiece? at h
  split at h
  · cases h
  · split at h
    · cases h
      exact trivial
    · rename_i hne hdots
      cases h
      rw [not_or] at hne
      exact ⟨by simpa using hne.1, by simpa using hslash, by simpa using hne.2, by simpa using hdots⟩

/-- A component as it is written in front of others. -/
def lead : Component → List Char
  | root => ['/']
  | c => c.text.toList ++ ['/']

theorem IsStep.lead_eq {c : Component} (h : c.IsStep) : c.lead = c.text.toList ++ ['/'] := by
  cases c with
  | root => exact absurd h id
  | current | parent | name => rfl

end Component

namespace Path

/-! ## Texts between slashes -/

theorem pieces_of_no_slash {a : List Char} (h : '/' ∉ a) : pieces a = [a] := by
  induction a with
  | nil => rfl
  | cons c a ih =>
    simp only [List.mem_cons, not_or] at h
    simp only [pieces, Ne.symm h.1, ite_false, ih h.2]

theorem pieces_append_slash {a : List Char} (h : '/' ∉ a) (b : List Char) : pieces (a ++ '/' :: b) = a :: pieces b := by
  induction a with
  | nil => simp [pieces]
  | cons c a ih =>
    simp only [List.mem_cons, not_or] at h
    simp only [List.cons_append, pieces, Ne.symm h.1, ite_false, ih h.2]

theorem no_slash_of_mem_pieces {a piece : List Char} (h : piece ∈ pieces a) : '/' ∉ piece := by
  induction a generalizing piece with
  | nil =>
    simp only [pieces, List.mem_singleton] at h
    simp [h]
  | cons c a ih =>
    rw [pieces] at h
    split at h
    · rcases List.mem_cons.1 h with rfl | h
      · simp
      · exact ih h
    · rename_i hc
      split at h
      · rename_i hnil
        simp only [List.mem_singleton] at h
        simpa [h] using Ne.symm hc
      · rename_i first rest heq
        rcases List.mem_cons.1 h with rfl | h
        · simp only [List.mem_cons, not_or]
          exact ⟨Ne.symm hc, ih (by rw [heq]; simp)⟩
        · exact ih (by rw [heq]; simp [h])

/-- Steps that are written in front of a text are its first pieces. -/
theorem pieces_lead {steps : List Component} (h : ∀ c ∈ steps, c.IsStep) (b : List Char) :
    pieces (steps.flatMap Component.lead ++ b) = steps.map (·.text.toList) ++ pieces b := by
  induction steps with
  | nil => rfl
  | cons c steps ih =>
    have hc := h c (by simp)
    rw [List.flatMap_cons, hc.lead_eq, List.append_assoc, List.append_assoc, List.singleton_append,
      pieces_append_slash hc.no_slash, ih fun d hd => h d (by simp [hd])]
    rfl

/-! ## Spelled paths -/

/-- An optional root, and then steps. -/
inductive Spelled : List Component → Prop
  | relative {steps : List Component} (h : ∀ c ∈ steps, c.IsStep) : Spelled steps
  | absolute {steps : List Component} (h : ∀ c ∈ steps, c.IsStep) : Spelled (.root :: steps)

theorem Spelled.snoc {dir : List Component} {c : Component} (h : Spelled dir) (hc : c.IsStep) :
    Spelled (dir ++ [c]) := by
  have hsnoc {steps : List Component} (hs : ∀ d ∈ steps, d.IsStep) : ∀ d ∈ steps ++ [c], d.IsStep := by
    intro d hd
    rcases List.mem_append.1 hd with hd | hd
    · exact hs d hd
    · rw [List.mem_singleton.1 hd]
      exact hc
  cases h with
  | relative hs => exact .relative (hsnoc hs)
  | absolute hs => exact .absolute (hsnoc hs)

/-- The end of a spelled list: nothing, a root, or a step after a spelled list. -/
theorem Spelled.cases_snoc {cs : List Component} (h : Spelled cs) :
    cs = [] ∨ cs = [.root] ∨ ∃ dir c, cs = dir ++ [c] ∧ Spelled dir ∧ c.IsStep := by
  cases h with
  | relative hs =>
    rcases List.eq_nil_or_concat cs with rfl | ⟨dir, c, rfl⟩
    · exact .inl rfl
    · rw [List.concat_eq_append] at hs ⊢
      exact .inr (.inr ⟨dir, c, rfl, .relative fun d hd => hs d (by simp [hd]), hs c (by simp)⟩)
  | @absolute steps hs =>
    rcases List.eq_nil_or_concat steps with rfl | ⟨dir, c, rfl⟩
    · exact .inr (.inl rfl)
    · rw [List.concat_eq_append] at hs ⊢
      exact .inr (.inr ⟨.root :: dir, c, rfl, .absolute fun d hd => hs d (by simp [hd]), hs c (by simp)⟩)

theorem intercalate_lead {steps : List Component} {c : Component} (h : ∀ d ∈ steps, d.IsStep) :
    List.intercalate ['/'] ((steps ++ [c]).map (·.text.toList)) = steps.flatMap Component.lead ++ c.text.toList := by
  induction steps with
  | nil => simp
  | cons d steps ih =>
    have htail := ih fun e he => h e (by simp [he])
    rcases hmap : (steps ++ [c]).map (·.text.toList) with _ | ⟨first, rest⟩
    · simp at hmap
    · rw [List.cons_append, List.map_cons, hmap, List.intercalate_cons_cons, ← hmap, htail, List.flatMap_cons,
        (h d (by simp)).lead_eq]
      simp

/-- The text of a spelled path: what stands in front of the last component, and that component. -/
theorem toList_render {dir : List Component} {c : Component} (h : Spelled dir) (hc : c.IsStep) :
    (render (dir ++ [c])).toList = dir.flatMap Component.lead ++ c.text.toList := by
  cases h with
  | relative hs =>
    rw [← intercalate_lead hs]
    cases dir with
    | nil =>
      cases c with
      | root => exact absurd hc id
      | current | parent | name => simp [render]
    | cons d dir =>
      have hd := hs d (by simp)
      cases d with
      | root => exact absurd hd id
      | current | parent | name => simp [render, Function.comp_def]
  | @absolute steps hs =>
    rw [List.flatMap_cons, List.append_assoc, ← intercalate_lead hs]
    simp [render, Component.lead, Function.comp_def]

/-- A spelled list is read back from its text. -/
theorem components_ofComponents {cs : List Component} (h : Spelled cs) : (ofComponents cs).components = cs := by
  rcases h.cases_snoc with rfl | rfl | ⟨dir, c, rfl, hdir, hc⟩
  · rfl
  · decide
  · have hread {steps : List Component} (hs : ∀ d ∈ steps, d.IsStep) :
        (steps.map (·.text.toList) ++ [c.text.toList]).filterMap Component.ofPiece? = steps ++ [c] := by
      induction steps with
      | nil => simp [Component.ofPiece?_text hc]
      | cons d steps ih =>
        have htail := ih fun e he => hs e (by simp [he])
        simp [Component.ofPiece?_text (hs d (by simp))] at htail ⊢
        exact htail
    have hlast : pieces c.text.toList = [c.text.toList] := pieces_of_no_slash hc.no_slash
    unfold components componentsOf ofComponents
    rw [toList_render hdir hc]
    cases hdir with
    | relative hs =>
      rw [pieces_lead hs, hlast, ← hread hs]
      cases dir with
      | nil => simp [hc.text_ne_nil, hc.text_ne_dot]
      | cons d dir =>
        have hd := hs d (by simp)
        simp [hd.text_ne_nil, hd.text_ne_dot]
    | @absolute steps hs =>
      have hroot : pieces ((Component.root :: steps).flatMap Component.lead ++ c.text.toList) =
          [] :: (steps.map (·.text.toList) ++ [c.text.toList]) := by
        rw [← hlast, ← pieces_lead hs]
        rfl
      rw [hroot]
      cases steps with
      | nil => simpa using hread hs
      | cons d dir => simpa using hread hs

/-- Paths that are written as their components are equal if they have the same components. -/
theorem same_eq_false_iff {p q : Path} (hp : p = ofComponents p.components) (hq : q = ofComponents q.components) :
    p.same q = false ↔ p ≠ q := by
  rw [same, beq_eq_false_iff_ne]
  refine not_congr ⟨fun heq => ?_, congrArg _⟩
  rw [hp, hq, heq]

/-! ## The last component of a spelled path -/

theorem dropTrail_step {c : Component} (hc : c.IsStep) (rest : List Char) :
    dropTrail (c.text.toList.reverse ++ rest) = c.text.toList.reverse ++ rest := by
  rcases hrev : c.text.toList.reverse with _ | ⟨x, xs⟩
  · exact absurd (List.reverse_eq_nil_iff.1 hrev) hc.text_ne_nil
  · have htext : c.text.toList = xs.reverse ++ [x] := by rw [← List.reverse_reverse c.text.toList, hrev]; simp
    have hslash := hc.no_slash
    have hdot := hc.text_ne_dot
    rw [htext] at hslash hdot
    simp only [List.mem_append, List.mem_reverse, List.mem_singleton, not_or] at hslash
    unfold dropTrail
    split
    · rename_i heq
      exact absurd (List.cons.inj heq).1.symm hslash.2
    · rename_i heq
      obtain ⟨rfl, htail⟩ := List.cons.inj heq
      cases xs with
      | nil => exact absurd rfl hdot
      | cons y ys => exact absurd (by simp [(List.cons.inj htail).1]) hslash.1
    · rfl

/-- What stands in front of a component ends in a slash. -/
theorem reverse_lead {dir : List Component} (h : Spelled dir) :
    dir.flatMap Component.lead = [] ∨ ∃ before, (dir.flatMap Component.lead).reverse = '/' :: before := by
  rcases h.cases_snoc with rfl | rfl | ⟨dir, c, rfl, -, hc⟩
  · exact .inl rfl
  · exact .inr ⟨[], rfl⟩
  · exact .inr ⟨_, by rw [List.flatMap_append, List.flatMap_singleton, hc.lead_eq]; simp; rfl⟩

theorem last?_ofComponents {dir : List Component} {c : Component} (h : Spelled dir) (hc : c.IsStep) :
    (ofComponents (dir ++ [c])).last? = some ⟨dir.flatMap Component.lead, c.text.toList, true⟩ := by
  have hall : ∀ x ∈ c.text.toList.reverse, decide (x ≠ '/') = true := by
    intro x hx
    simp only [decide_eq_true_eq]
    rintro rfl
    exact hc.no_slash (List.mem_reverse.1 hx)
  have hcut : ((dir.flatMap Component.lead).reverse.takeWhile (· ≠ '/') = []) ∧
      ((dir.flatMap Component.lead).reverse.dropWhile (· ≠ '/') = (dir.flatMap Component.lead).reverse) := by
    rcases reverse_lead h with hnil | ⟨before, hrev⟩
    · simp [hnil]
    · rw [hrev]
      simp
  unfold last?
  simp only [ofComponents, toList_render h hc, List.reverse_append, dropTrail_step hc,
    List.takeWhile_append_of_pos hall, List.dropWhile_append_of_pos hall, hcut.1, hcut.2, List.append_nil]
  split
  · rename_i hnil
    exact absurd (List.reverse_eq_nil_iff.1 hnil) hc.text_ne_nil
  · simp

theorem isAbsolute_ofComponents {dir : List Component} {c : Component} (hs : ∀ d ∈ dir, d.IsStep) (hc : c.IsStep) :
    (ofComponents (dir ++ [c])).isAbsolute = false := by
  have hhead {d : Component} (hd : d.IsStep) (rest : List Char) : (d.text.toList ++ rest).head? ≠ some '/' := by
    rcases htext : d.text.toList with _ | ⟨x, xs⟩
    · exact absurd htext hd.text_ne_nil
    · intro hx
      obtain rfl : x = '/' := by simpa using hx
      exact hd.no_slash (by simp [htext])
  unfold isAbsolute
  simp only [ofComponents, toList_render (.relative hs) hc, beq_eq_false_iff_ne]
  cases dir with
  | nil => simpa using hhead hc []
  | cons d dir =>
    have hd := hs d (by simp)
    rw [List.flatMap_cons, hd.lead_eq, List.append_assoc, List.append_assoc]
    exact hhead hd _

/-- The directory of a spelled path is the path without its last component. -/
theorem directory_ofComponents {dir : List Component} {c : Component} (h : Spelled dir) (hc : c.IsStep) :
    (ofComponents (dir ++ [c])).directory = ofComponents dir := by
  unfold directory parent?
  rw [last?_ofComponents h hc]
  simp only [Option.map_some, Option.getD_some]
  rcases h.cases_snoc with rfl | rfl | ⟨dir, d, rfl, hdir, hd⟩
  · have habs : (ofComponents ([] ++ [c])).isAbsolute = false := isAbsolute_ofComponents (by simp) hc
    simp only [List.nil_append] at habs
    simp [dropTrail, habs]
    rfl
  · have habs : (ofComponents ([.root] ++ [c])).isAbsolute = true := by
      simp [isAbsolute, ofComponents, render]
    simp only [List.cons_append, List.nil_append] at habs
    simp [dropTrail, habs, Component.lead]
    rfl
  · rw [List.flatMap_append, List.flatMap_singleton, hd.lead_eq]
    simp only [List.reverse_append, List.reverse_cons, List.reverse_nil, List.nil_append, List.cons_append, dropTrail,
      List.append_assoc]
    rw [dropTrail_step hd]
    split
    · rename_i hnil
      exact absurd (List.append_eq_nil_iff.1 hnil).1 (by simpa using hd.text_ne_nil)
    · simp [ofComponents, ← toList_render hdir hd]

/-- A name that is joined to a spelled path is its last component. -/
theorem join_ofComponents {dir : List Component} {n : String} (h : Spelled dir) (hn : PlainName n.toList) :
    (ofComponents dir).join ⟨n⟩ = ofComponents (dir ++ [.name n]) := by
  have hrel : (⟨n⟩ : Path).isAbsolute = false := by
    unfold isAbsolute
    rcases htext : n.toList with _ | ⟨x, xs⟩
    · exact absurd htext hn.ne_nil
    · have hslash := hn.no_slash
      rw [htext] at hslash
      simp only [List.mem_cons, not_or] at hslash
      simpa using Ne.symm hslash.1
  have hstep : (Component.name n).IsStep := hn
  have hto : ∀ p q : Path, p.text.toList = q.text.toList → p = q := by
    rintro ⟨p⟩ ⟨q⟩ hpq
    exact congrArg Path.mk (String.toList_inj.1 hpq)
  apply hto
  unfold join
  rw [if_neg (by simp [hrel])]
  simp only [ofComponents, toList_render h hstep]
  rcases h.cases_snoc with rfl | rfl | ⟨dir, d, rfl, hdir, hd⟩
  · simp [render, Component.text]
  · simp [render, Component.text, Component.lead]
  · obtain ⟨x, hx, hslash⟩ : ∃ x, d.text.toList.getLast? = some x ∧ x ≠ '/' := by
      refine ⟨_, List.getLast?_eq_some_getLast hd.text_ne_nil, fun heq => hd.no_slash ?_⟩
      rw [← heq]
      exact List.getLast_mem _
    have hlast : (dir.flatMap Component.lead ++ d.text.toList).getLast? = some x := by
      rw [List.getLast?_append, hx]
      rfl
    rw [toList_render hdir hd, hlast, List.flatMap_append, List.flatMap_singleton, hd.lead_eq]
    split
    · simp_all
    · simp_all
    · simp [toList_render hdir hd, Component.text]

theorem fileName?_ofComponents {dir : List Component} {n : String} (h : Spelled dir) (hn : PlainName n.toList) :
    (ofComponents (dir ++ [.name n])).fileName? = some n := by
  unfold fileName?
  rw [last?_ofComponents h (c := .name n) hn]
  simp [Component.text, hn.ne_dot, hn.ne_dots]

/-- A path that ends in two dots has no file name. -/
theorem fileName?_ofComponents_parent {dir : List Component} (h : Spelled dir) :
    (ofComponents (dir ++ [.parent])).fileName? = none := by
  unfold fileName?
  rw [last?_ofComponents h (c := .parent) trivial]
  rfl

/-! ## Extensions -/

theorem splitExtension_append {stem ext : List Char} (hstem : stem ≠ []) (hext : '.' ∉ ext) :
    splitExtension (stem ++ '.' :: ext) = (stem, some ext) := by
  have hall : ∀ x ∈ ext.reverse, decide (x ≠ '.') = true := by
    intro x hx
    simp only [decide_eq_true_eq]
    rintro rfl
    exact hext (List.mem_reverse.1 hx)
  have hrev : (stem ++ '.' :: ext).reverse = ext.reverse ++ '.' :: stem.reverse := by simp
  unfold splitExtension
  rw [hrev, List.takeWhile_append_of_pos hall, List.dropWhile_append_of_pos hall]
  cases hs : stem.reverse with
  | nil => exact absurd (List.reverse_eq_nil_iff.1 hs) hstem
  | cons x xs =>
    have hstem' : stem = (x :: xs).reverse := by rw [← hs, List.reverse_reverse]
    simp [hstem']

/-- A file name has no extension, or it is a stem, a dot and an extension without dots. -/
theorem splitExtension_cases (n : List Char) : splitExtension n = (n, none) ∨
    ∃ stem ext, n = stem ++ '.' :: ext ∧ stem ≠ [] ∧ '.' ∉ ext ∧ splitExtension n = (stem, some ext) := by
  have hcut := List.takeWhile_append_dropWhile (p := (· ≠ '.')) (l := n.reverse)
  have hext : '.' ∉ (n.reverse.takeWhile (· ≠ '.')).reverse := by
    intro h
    have hall := List.all_takeWhile (p := (· ≠ '.')) (l := n.reverse)
    simpa using List.all_eq_true.1 hall _ (List.mem_reverse.1 h)
  rcases hdrop : n.reverse.dropWhile (· ≠ '.') with _ | ⟨dot, _ | ⟨x, xs⟩⟩
  · exact .inl (by unfold splitExtension; rw [hdrop])
  · exact .inl (by unfold splitExtension; rw [hdrop])
  · have hdot : dot = '.' := by
      have := List.head?_dropWhile_not (· ≠ '.') n.reverse
      rw [hdrop] at this
      simpa using this
    subst hdot
    have hn : n = (x :: xs).reverse ++ '.' :: (n.reverse.takeWhile (· ≠ '.')).reverse := by
      rw [hdrop] at hcut
      calc n = (n.reverse.takeWhile (· ≠ '.') ++ '.' :: x :: xs).reverse := by rw [hcut, List.reverse_reverse]
        _ = _ := by simp
    exact .inr ⟨(x :: xs).reverse, _, hn, by simp, hext, by unfold splitExtension; rw [hdrop]⟩

/-- The file name with a new extension. -/
def replaceExtension (n : String) (ext : String) : String :=
  String.ofList (splitExtension n.toList).1 ++ "." ++ ext

/-- Whether a file name is two dots and an extension without dots. -/
def isDotted (n : String) : Bool := splitExtension n.toList == (['.'], some (n.toList.drop 2))

theorem isDotted_iff (n : String) : isDotted n ↔ ∃ ext, '.' ∉ ext ∧ n.toList = '.' :: '.' :: ext := by
  unfold isDotted
  simp only [beq_iff_eq]
  constructor
  · intro h
    rcases splitExtension_cases n.toList with hnone | ⟨stem, ext, hn, -, hext, hsplit⟩
    · simp [hnone] at h
    · rw [hsplit] at h
      obtain ⟨rfl, -⟩ := Prod.mk.injEq .. ▸ h
      exact ⟨ext, hext, hn⟩
  · rintro ⟨ext, hext, hn⟩
    rw [hn]
    have hdot : (['.'] : List Char) ≠ [] := by simp
    exact splitExtension_append hdot hext

theorem fst_splitExtension_eq_dot {n : String} (hn : PlainName n.toList) (h : (splitExtension n.toList).1 = ['.']) :
    isDotted n := by
  rcases splitExtension_cases n.toList with hnone | ⟨stem, ext, htext, -, hext, hsplit⟩
  · rw [hnone] at h
    exact absurd h hn.ne_dot
  · rw [hsplit] at h
    obtain rfl : stem = ['.'] := h
    exact (isDotted_iff n).2 ⟨ext, hext, htext⟩

theorem ne_nil_of_splitExtension {n : List Char} (hn : n ≠ []) : (splitExtension n).1 ≠ [] := by
  rcases splitExtension_cases n with hnone | ⟨stem, ext, -, hstem, -, hsplit⟩
  · rw [hnone]
    exact hn
  · rw [hsplit]
    exact hstem

theorem subset_of_splitExtension (n : List Char) : (splitExtension n).1 ⊆ n := by
  rcases splitExtension_cases n with hnone | ⟨stem, ext, hn, -, -, hsplit⟩
  · rw [hnone]
    exact List.Subset.refl n
  · rw [hsplit, hn]
    exact List.subset_append_left ..

/-- A text with an extension is a plain name. -/
theorem plainName_extension {stem : List Char} {ext : String} (hstem : stem ≠ []) (hslash : '/' ∉ stem)
    (hne : ext.toList ≠ []) (hext : '/' ∉ ext.toList) : PlainName (String.ofList stem ++ "." ++ ext).toList := by
  have hlen : 3 ≤ (String.ofList stem ++ "." ++ ext).toList.length := by
    have h₁ := List.length_pos_iff.2 hstem
    have h₂ := List.length_pos_iff.2 hne
    simp at h₁ h₂ ⊢
    omega
  refine ⟨?_, ?_, ?_, ?_⟩
  · intro h
    simp [h] at hlen
  · simp only [String.toList_append, String.toList_ofList, List.mem_append, not_or]
    exact ⟨⟨hslash, by decide⟩, hext⟩
  · intro h
    simp [h] at hlen
  · intro h
    simp [h] at hlen

theorem plainName_replaceExtension {n ext : String} (hn : PlainName n.toList) (hne : ext.toList ≠ [])
    (hext : '/' ∉ ext.toList) : PlainName (replaceExtension n ext).toList :=
  plainName_extension (ne_nil_of_splitExtension hn.ne_nil) (fun h => hn.no_slash (subset_of_splitExtension _ h)) hne
    hext

/-- A new extension goes to the last component; a file name of two dots and an extension becomes two
dots. -/
theorem withExtension_ofComponents {dir : List Component} {n ext : String} (h : Spelled dir) (hn : PlainName n.toList)
    (hne : ext.toList ≠ []) (hslash : '/' ∉ ext.toList) : (ofComponents (dir ++ [.name n])).withExtension ext =
      ofComponents (dir ++ [if isDotted n then .parent else .name (replaceExtension n ext)]) := by
  have hempty : ext.isEmpty = false := by
    rw [← Bool.not_eq_true, String.isEmpty_iff]
    rintro rfl
    exact hne rfl
  unfold withExtension
  rw [last?_ofComponents h (c := .name n) hn]
  simp only [Component.text, hn.ne_dot, hn.ne_dots, or_self, if_false, withExtension.replaced, hempty]
  split
  · rename_i ext' hsplit
    have hdotted := fst_splitExtension_eq_dot hn (by rw [hsplit])
    rw [if_pos trivial, if_pos hdotted, ofComponents, ← String.ofList_toList (s := render _),
      toList_render h (c := .parent) trivial]
    rfl
  · rename_i stem ext' hno hsplit
    have hdotted : ¬isDotted n := by
      intro hd
      rw [isDotted, hsplit, beq_iff_eq] at hd
      exact hno _ (Prod.mk.inj hd).1 (Prod.mk.inj hd).2
    rw [if_neg Bool.false_ne_true, if_neg hdotted, ofComponents, ← String.ofList_toList (s := render _),
      toList_render h (c := .name _) (plainName_replaceExtension hn hne hslash)]
    simp [Component.text, replaceExtension, hsplit, String.append_assoc]

/-! ## Normal paths -/

/-- The components of a path are an optional root or dot, and then steps. -/
theorem components_cases (p : Path) : ∃ base steps, p.components = base ++ steps ∧
    (base = [] ∨ base = [.root] ∨ base = [.current]) ∧ ∀ c ∈ steps, c.IsStep := by
  have hsteps {pieces' : List (List Char)} (hsub : ∀ piece ∈ pieces', piece ∈ pieces p.text.toList) :
      ∀ c ∈ pieces'.filterMap Component.ofPiece?, c.IsStep := by
    intro c hc
    obtain ⟨piece, hpiece, hof⟩ := List.mem_filterMap.1 hc
    exact Component.isStep_of_ofPiece? (no_slash_of_mem_pieces (hsub piece hpiece)) hof
  unfold components componentsOf
  split
  · exact ⟨[], [], rfl, .inl rfl, by simp⟩
  · exact ⟨[], [], rfl, .inl rfl, by simp⟩
  · rename_i rest _ heq
    exact ⟨[.root], _, rfl, .inr (.inl rfl), hsteps fun piece hp => by rw [heq]; simp [hp]⟩
  · rename_i heq
    split
    · exact ⟨[.current], _, rfl, .inr (.inr rfl), hsteps fun piece hp => by rw [heq]; simp [hp]⟩
    · refine ⟨[], _, (List.nil_append _).symm, .inl rfl, hsteps fun piece hp => ?_⟩
      rw [heq]
      exact hp

theorem Spelled.of_snoc {dir : List Component} {n : String} (h : Spelled (dir ++ [.name n])) : Spelled dir := by
  rcases h.cases_snoc with hnil | hroot | ⟨dir', c, heq, hdir, -⟩
  · simp at hnil
  · cases dir with
    | nil => exact .relative (by simp)
    | cons d dir => simp at hroot
  · rw [(List.append_inj' heq rfl).1]
    exact hdir

theorem spelled_walk {done : List Component} {c : Component} (h : Spelled done.reverse) (hc : c.IsStep) :
    Spelled (walk done c).reverse := by
  cases c with
  | root | current => exact absurd hc id
  | name n =>
    rw [walk, List.reverse_cons]
    · exact h.snoc hc
    all_goals simp
  | parent =>
    unfold walk
    split
    · exact h
    · exact Spelled.of_snoc (by simpa using h)
    · exact h
    · rw [List.reverse_cons]
      exact h.snoc hc

/-- The components of a normal path are spelled. -/
theorem spelled_resolve (p : Path) : Spelled (resolve p.components) := by
  obtain ⟨base, steps, hcs, hbase, hsteps⟩ := p.components_cases
  have hrun {done : List Component} (hdone : Spelled done.reverse) :
      Spelled (steps.foldl walk done).reverse := by
    clear hcs
    induction steps generalizing done with
    | nil => exact hdone
    | cons c steps ih =>
      exact ih (fun d hd => hsteps d (by simp [hd])) (spelled_walk hdone (hsteps c (by simp)))
  unfold resolve
  rw [hcs, List.foldl_append]
  rcases hbase with rfl | rfl | rfl
  · exact hrun (.relative (by simp))
  · exact hrun (.absolute (by simp))
  · exact hrun (.relative (by simp [walk]))

/-- A walk that is walked again leads to the same place: each step keeps this. -/
theorem walk_again {done : List Component} (h : done.reverse.foldl walk [] = done) (c : Component) :
    (walk done c).reverse.foldl walk [] = walk done c := by
  have hpush {d : Component} (hd : walk done d = d :: done) : (d :: done).reverse.foldl walk [] = d :: done := by
    rw [List.reverse_cons, List.foldl_append, h]
    exact hd
  unfold walk
  split
  · exact h
  · rename_i n rest
    rw [List.reverse_cons, List.foldl_append] at h
    exact (List.cons.inj h).2
  · exact h
  · rename_i hcur hname hroot
    refine hpush ?_
    rw [walk]
    · exact hcur
    · exact hname
    · exact hroot

theorem resolve_resolve (cs : List Component) : resolve (resolve cs) = resolve cs := by
  have hrun {done : List Component} (hdone : done.reverse.foldl walk [] = done) :
      (cs.foldl walk done).reverse.foldl walk [] = cs.foldl walk done := by
    induction cs generalizing done with
    | nil => exact hdone
    | cons c cs ih => exact ih (walk_again hdone c)
  unfold resolve
  rw [hrun rfl]

theorem resolve_snoc_name (cs : List Component) (n : String) : resolve (cs ++ [.name n]) = resolve cs ++ [.name n] := by
  unfold resolve
  rw [List.foldl_append, List.foldl_cons, List.foldl_nil, walk, List.reverse_cons]
  all_goals simp

@[simp]
theorem components_normalize (p : Path) : p.normalize.components = resolve p.components :=
  components_ofComponents p.spelled_resolve

/-- A normal path is its own normal form. -/
theorem normalize_normalize (p : Path) : p.normalize.normalize = p.normalize :=
  calc p.normalize.normalize
    _ = ofComponents (resolve p.normalize.components) := rfl
    _ = ofComponents (resolve p.components) := by rw [components_normalize, resolve_resolve]

end Path

/-! ## The order of paths -/

/-- Components are ordered by their rank, and those of one rank by their text. -/
theorem Component.compare_eq :
    (compare : Component → Component → Ordering) =
      compareLex (compareOn Component.rank) (compareOn Component.text) := by
  funext c d
  cases c <;> cases d <;> rfl

instance : Std.TransOrd Component := by
  rw [Std.TransOrd, Component.compare_eq]
  infer_instance

instance : Std.LawfulEqOrd Component where
  compare_self := Std.ReflOrd.compare_self
  eq_of_compare {c d} h := by
    rw [Component.compare_eq, compareLex, Ordering.then_eq_eq] at h
    have hrank : c.rank = d.rank := Std.LawfulEqOrd.eq_of_compare h.1
    have htext : c.text = d.text := Std.LawfulEqOrd.eq_of_compare h.2
    cases c <;> cases d <;> simp_all [Component.rank, Component.text]

end Idl
