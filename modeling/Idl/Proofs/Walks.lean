import Idl.Proofs.Specifiers

/-!
# Where paths lead

A directory is told by the names on the way to it from the root. A path leads from one directory to
another: its names go down, two dots go up and stay at the root, and a leading slash starts again at
the root (`leadsFrom`). The normal form of a path leads where the path leads (`leadsFrom_normalize`),
and it is a root or steps up, and then names. From the root such a path leads to its names, and from
far below the root it tells how far it goes up. So two paths have the same normal form just when they
lead to the same directory from every directory (`normalize_eq_iff_leadsFrom`).

A path that is joined to another one leads on from where that one leads (`leadsFrom_join`), hence it
makes no difference whether the first one is in normal form.
-/

namespace Idl.Path

/-! ## Directories and walks -/

/-- The names on the way from the root to a directory, the last one first. -/
def IsDirectory (names : List String) : Prop := ∀ n ∈ names, PlainName n.toList

/-- A step from a directory. -/
def enter : List String → Component → List String
  | _, .root => []
  | names, .current => names
  | names, .parent => names.tail
  | names, .name n => n :: names

/-- The directory where a path leads from another one. -/
def leadsFrom (p : Path) (names : List String) : List String := p.components.foldl enter names

/-- What is walked so far leads on as it led before the step. -/
theorem foldl_enter_walk (done : List Component) (c : Component) (names : List String) :
    (walk done c).reverse.foldl enter names = enter (done.reverse.foldl enter names) c := by
  unfold walk
  split
  · rfl
  · rw [List.reverse_cons, List.foldl_append]
    rfl
  · rw [List.reverse_cons, List.foldl_append]
    rfl
  · rw [List.reverse_cons, List.foldl_append]
    rfl

theorem foldl_enter_resolve (cs : List Component) (names : List String) :
    (resolve cs).foldl enter names = cs.foldl enter names := by
  have hrun (done : List Component) :
      (cs.foldl walk done).reverse.foldl enter names = cs.foldl enter (done.reverse.foldl enter names) := by
    induction cs generalizing done with
    | nil => rfl
    | cons c cs ih => rw [List.foldl_cons, ih, foldl_enter_walk, List.foldl_cons]
  exact hrun []

/-- The normal form of a path leads where the path leads. -/
theorem leadsFrom_normalize (p : Path) (names : List String) : p.normalize.leadsFrom names = p.leadsFrom names := by
  rw [leadsFrom, components_normalize, foldl_enter_resolve, leadsFrom]

/-! ## Normal forms -/

/-- The components of a normal form: a root or some steps up, and then names. -/
def normalForm (up : Option Nat) (names : List String) : List Component :=
  match up with
  | none => .root :: names.map .name
  | some k => List.replicate k .parent ++ names.map .name

theorem exists_names {down : List Component} (h : ∀ c ∈ down, c.IsDown) :
    ∃ names : List String, down = names.map .name := by
  induction down with
  | nil => exact ⟨[], rfl⟩
  | cons c down ih =>
    obtain ⟨hc, hdown⟩ := List.forall_mem_cons.1 h
    obtain ⟨names, rfl⟩ := ih hdown
    cases c with
    | root | current | parent => exact absurd hc id
    | name n => exact ⟨n :: names, rfl⟩

theorem exists_normalForm (p : Path) : ∃ up names, resolve p.components = normalForm up names := by
  have hsteps {steps : List Component} (h : ∀ c ∈ steps, c.IsStep) :
      ∃ up names, resolve steps = normalForm up names := by
    obtain ⟨k, down, hresolve, hdown⟩ := isRelative_resolve_steps h
    obtain ⟨names, rfl⟩ := exists_names hdown
    exact ⟨some k, names, hresolve⟩
  obtain ⟨base, steps, hcomponents, rfl | rfl | rfl, h⟩ := p.components_cases
  · rw [hcomponents]
    exact hsteps h
  · obtain ⟨down, hresolve, hdown⟩ := exists_resolve_root h
    obtain ⟨names, rfl⟩ := exists_names hdown
    refine ⟨none, names, ?_⟩
    rw [hcomponents]
    exact hresolve
  · rw [hcomponents, List.singleton_append, ← List.nil_append (.current :: steps), resolve_current]
    exact hsteps h

/-- What is left of a directory when the steps up are taken from it. -/
def above (up : Option Nat) (names : List String) : List String :=
  match up with
  | none => []
  | some k => names.drop k

theorem foldl_enter_names (names start : List String) :
    (names.map Component.name).foldl enter start = names.reverse ++ start := by
  induction names generalizing start with
  | nil => rfl
  | cons n names ih =>
    rw [List.map_cons, List.foldl_cons, ih, List.reverse_cons, List.append_assoc]
    rfl

theorem foldl_enter_parents (k : Nat) (start : List String) :
    (List.replicate k Component.parent).foldl enter start = start.drop k := by
  induction k generalizing start with
  | zero => rfl
  | succ k ih =>
    rw [List.replicate_succ, List.foldl_cons, ih]
    show start.tail.drop k = start.drop (k + 1)
    rw [List.drop_tail]

theorem foldl_enter_normalForm (up : Option Nat) (names start : List String) :
    (normalForm up names).foldl enter start = names.reverse ++ above up start := by
  cases up with
  | none => exact foldl_enter_names names []
  | some k =>
    show (List.replicate k Component.parent ++ names.map Component.name).foldl enter start = _
    rw [List.foldl_append, foldl_enter_parents, foldl_enter_names]
    rfl

/-- How far up a normal form goes shows from far below the root. -/
theorem eq_of_above_eq {up up' : Option Nat} (h : ∀ names, IsDirectory names → above up names = above up' names) :
    up = up' := by
  have hdeep (n : Nat) : (above up (List.replicate n "d")).length = (above up' (List.replicate n "d")).length := by
    rw [h]
    intro name hname
    rw [List.eq_of_mem_replicate hname]
    exact ⟨by decide, by decide, by decide, by decide⟩
  cases up with
  | none =>
    cases up' with
    | none => rfl
    | some k' =>
      have hlen := hdeep (k' + 1)
      simp [above] at hlen
  | some k =>
    cases up' with
    | none =>
      have hlen := hdeep (k + 1)
      simp [above] at hlen
    | some k' =>
      have hlen := hdeep (k + k')
      simp only [above, List.length_drop, List.length_replicate] at hlen
      congr 1
      omega

theorem normalForm_inj {up up' : Option Nat} {names names' : List String}
    (h : ∀ start, IsDirectory start →
      (normalForm up names).foldl enter start = (normalForm up' names').foldl enter start) :
    normalForm up names = normalForm up' names' := by
  simp only [foldl_enter_normalForm] at h
  have hnames : names = names' := by
    have hroot := h [] (by simp [IsDirectory])
    have hnil (up : Option Nat) : above up [] = [] := by cases up <;> simp [above]
    rw [hnil, hnil, List.append_nil, List.append_nil] at hroot
    exact List.reverse_inj.1 hroot
  subst hnames
  rw [eq_of_above_eq fun start hstart => List.append_cancel_left (h start hstart)]

/-- Two paths have the same normal form if and only if they lead to the same directory from every directory. -/
theorem normalize_eq_iff_leadsFrom {p q : Path} :
    p.normalize = q.normalize ↔ ∀ names, IsDirectory names → p.leadsFrom names = q.leadsFrom names := by
  constructor
  · intro h names _
    rw [← leadsFrom_normalize, h, leadsFrom_normalize]
  · intro h
    obtain ⟨up, names, hp⟩ := exists_normalForm p
    obtain ⟨up', names', hq⟩ := exists_normalForm q
    have hwalks : normalForm up names = normalForm up' names' := by
      apply normalForm_inj
      intro start hstart
      rw [← hp, ← hq, foldl_enter_resolve, foldl_enter_resolve]
      exact h start hstart
    rw [normalize, normalize, hp, hq, hwalks]

/-! ## Joined paths -/

/-- The steps that are written between the slashes of a text. -/
def stepsOf (text : List Char) : List Component := (pieces text).filterMap Component.ofPiece?

/-- A slash parts a text into pieces in front of it and pieces behind it. -/
theorem pieces_append (a b : List Char) : pieces (a ++ '/' :: b) = pieces a ++ pieces b := by
  induction a with
  | nil => rfl
  | cons c a ih =>
    rw [List.cons_append, pieces, pieces]
    by_cases hc : c = '/'
    · rw [if_pos hc, if_pos hc, ih, List.cons_append]
    · rw [if_neg hc, if_neg hc, ih]
      cases ha : pieces a with
      | nil => exact absurd ha (pieces_ne_nil a)
      | cons piece rest => rfl

theorem stepsOf_append (a b : List Char) : stepsOf (a ++ '/' :: b) = stepsOf a ++ stepsOf b := by
  rw [stepsOf, pieces_append, List.filterMap_append, stepsOf, stepsOf]

/-- A slash at the end of a text counts for nothing. -/
theorem stepsOf_slash (a : List Char) : stepsOf (a ++ ['/']) = stepsOf a := by
  rw [stepsOf_append]
  exact List.append_nil _

theorem components_of_absolute {p : Path} (h : p.isAbsolute = true) :
    p.components = .root :: stepsOf p.text.toList := by
  unfold isAbsolute at h
  rw [components, componentsOf, stepsOf]
  cases htext : p.text.toList with
  | nil => simp [htext] at h
  | cons c text =>
    obtain rfl : c = '/' := by simpa [htext] using h
    rw [pieces, if_pos rfl]
    cases hpieces : pieces text with
    | nil => exact absurd hpieces (pieces_ne_nil text)
    | cons piece rest => rfl

/-- A path leads along the steps that are written in it, an absolute one from the root. -/
theorem leadsFrom_eq (p : Path) (names : List String) :
    p.leadsFrom names = (stepsOf p.text.toList).foldl enter (if p.isAbsolute then [] else names) := by
  by_cases habs : p.isAbsolute = true
  · rw [if_pos habs, leadsFrom, components_of_absolute habs]
    rfl
  · rw [if_neg habs]
    rw [Bool.not_eq_true] at habs
    obtain ⟨dot, rfl | rfl, hcomponents⟩ := components_of_relative habs
    · rw [leadsFrom, hcomponents]
      rfl
    · rw [leadsFrom, hcomponents]
      rfl

/-- A relative path is written behind the other one, with one slash between them. -/
theorem join_cases (p : Path) {q : Path} (hq : q.isAbsolute = false) : p = empty ∧ p.join q = q ∨
    ∃ text, (p.join q).text.toList = text ++ '/' :: q.text.toList ∧
      (text ≠ [] ∧ p.text.toList = text ∨ p.text.toList = text ++ ['/']) := by
  unfold join
  rw [if_neg (by simp [hq])]
  rcases List.eq_nil_or_concat p.text.toList with hnil | ⟨text, c, htext⟩
  · obtain rfl : p = empty := eq_of_toList hnil
    exact .inl ⟨rfl, eq_of_toList (by simp [empty])⟩
  · rw [List.concat_eq_append] at htext
    have hlast : p.text.toList.getLast? = some c := by rw [htext, List.getLast?_concat]
    rw [hlast]
    by_cases hc : c = '/'
    · subst hc
      exact .inr ⟨text, by simp [htext], .inr htext⟩
    · refine .inr ⟨p.text.toList, ?_, .inl ⟨by simp [htext], rfl⟩⟩
      split
      · rename_i hsome
        cases hsome
      · rename_i hsome
        exact absurd (Option.some.inj hsome) hc
      · simp

/-- A path that is joined to another one leads on from where that one leads. -/
theorem leadsFrom_join (p q : Path) (names : List String) :
    (p.join q).leadsFrom names = q.leadsFrom (p.leadsFrom names) := by
  by_cases habs : q.isAbsolute = true
  · rw [join, if_pos habs, leadsFrom_eq q, leadsFrom_eq q, if_pos habs, if_pos habs]
  · rw [leadsFrom_eq q, if_neg habs]
    obtain ⟨rfl, hjoin⟩ | ⟨text, hjoin, hp⟩ := join_cases p (Bool.not_eq_true _ ▸ habs)
    · rw [hjoin, leadsFrom_eq q, if_neg habs]
      rfl
    · have hsteps : stepsOf p.text.toList = stepsOf text := by
        obtain ⟨-, hp⟩ | hp := hp
        · rw [hp]
        · rw [hp, stepsOf_slash]
      have hroot : (p.join q).isAbsolute = p.isAbsolute := by
        rw [isAbsolute, isAbsolute, hjoin]
        obtain ⟨hne, hp⟩ | hp := hp
        · rw [hp]
          cases text with
          | nil => exact absurd rfl hne
          | cons c text => rfl
        · rw [hp]
          cases text <;> rfl
      rw [leadsFrom_eq, leadsFrom_eq, hroot, hjoin, stepsOf_append, List.foldl_append, hsteps]

/-- Normal forms are canonical. A normal path is its own normal form. Two paths have the same normal form if and
only if they lead to the same directory from every directory. A path that is joined to another one may be joined to
its normal form as well. -/
theorem normalize_canonical (p q : Path) :
    p.normalize.normalize = p.normalize ∧
      (p.normalize = q.normalize ↔ ∀ names, IsDirectory names → p.leadsFrom names = q.leadsFrom names) ∧
      (p.join q).normalize = (p.normalize.join q).normalize := by
  refine ⟨p.normalize_normalize, normalize_eq_iff_leadsFrom, ?_⟩
  apply normalize_eq_iff_leadsFrom.2
  intro names _
  rw [leadsFrom_join, leadsFrom_join, leadsFrom_normalize]

end Idl.Path
