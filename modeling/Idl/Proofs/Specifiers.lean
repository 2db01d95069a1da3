import Idl.Compilation.Compile
import Idl.Proofs.Directories
import Idl.Proofs.Steps
import Idl.Proofs.Targets

/-!
# Where import specifiers lead

The code in one output refers to the code in another one by the way from its own directory: steps up
to where the two paths part, and then the steps down, without the extension of the last one. With the
extension put back, this text should be a path that leads from the directory to the other output
(`PointsAt`).

* `way origin goal`: the steps from a directory to a place.
* `normalize_join_written`: where the text that is written for some steps leads.
* `startsDotted_written_iff`: when this text starts with a dot or two and a slash.
* `Reaches origin dir stem`: the places that can be referred to from a directory.

The steps are taken between the directory of the one output and the other output without its
extension, as if this were a directory too. So the code in `M/M.ts` has no way to `M.ts`
(`namesake_import_goes_astray`).
-/

namespace Idl

namespace Path

variable {cs dir done : List Component}

/-! ## Normal paths -/

/-- Steps after the root are resolved to the root and names. -/
theorem exists_resolve_root {steps : List Component} (h : ∀ c ∈ steps, c.IsStep) :
    ∃ down, resolve (.root :: steps) = .root :: down ∧ ∀ c ∈ down, c.IsDown := by
  have hrun {names : List Component} (hnames : ∀ c ∈ names, c.IsDown) :
      ∃ names', steps.foldl walk (names ++ [.root]) = names' ++ [.root] ∧ ∀ c ∈ names', c.IsDown := by
    induction steps generalizing names with
    | nil => exact ⟨names, rfl, hnames⟩
    | cons c steps ih =>
      obtain ⟨hc, hsteps⟩ := List.forall_mem_cons.1 h
      cases c with
      | root | current => exact absurd hc id
      | name n =>
        have hn : (Component.name n).IsDown := hc
        have hwalk : walk (names ++ [.root]) (.name n) = .name n :: names ++ [.root] := by
          cases names with
          | nil => rfl
          | cons e names => cases e <;> rfl
        rw [List.foldl_cons, hwalk]
        exact ih hsteps (List.forall_mem_cons.2 ⟨hn, hnames⟩)
      | parent =>
        cases names with
        | nil => exact ih hsteps (List.forall_mem_nil _)
        | cons e names =>
          obtain ⟨he, hrest⟩ := List.forall_mem_cons.1 hnames
          cases e with
          | root | current | parent => exact absurd he id
          | name n => exact ih hsteps hrest
  obtain ⟨names, hresolve, hnames⟩ := hrun (List.forall_mem_nil _)
  refine ⟨names.reverse, ?_, fun c hc => hnames c (List.mem_reverse.1 hc)⟩
  rw [List.nil_append] at hresolve
  have hroot : walk [] .root = [.root] := rfl
  rw [resolve, List.foldl_cons, hroot, hresolve]
  simp

theorem length_resolve_le (cs : List Component) : (resolve cs).length ≤ cs.length := by
  have hwalk (done : List Component) (c : Component) : (walk done c).length ≤ done.length + 1 := by
    unfold walk
    split
    · exact Nat.le_succ _
    · exact Nat.le_succ_of_le (Nat.le_succ _)
    · exact Nat.le_succ _
    · exact Nat.le_refl _
  have hrun (done : List Component) : (cs.foldl walk done).length ≤ done.length + cs.length := by
    induction cs generalizing done with
    | nil => exact Nat.le_refl _
    | cons c cs ih =>
      have hstep := hwalk done c
      have hrest := ih (walk done c)
      rw [List.foldl_cons, List.length_cons]
      omega
  rw [resolve, List.length_reverse]
  simpa using hrun []

/-- Steps up are never taken back. -/
theorem count_parent_le_resolve (h : resolve dir = dir) (cs : List Component) :
    dir.count .parent ≤ (resolve (dir ++ cs)).count .parent := by
  have hwalk (done : List Component) (c : Component) : done.count .parent ≤ (walk done c).count .parent := by
    unfold walk
    split <;> simp [List.count_cons]
  have hrun (done : List Component) : done.count .parent ≤ (cs.foldl walk done).count .parent := by
    induction cs generalizing done with
    | nil => exact Nat.le_refl _
    | cons c cs ih => exact Nat.le_trans (hwalk done c) (ih _)
  have hdir : (dir.foldl walk []).count .parent = dir.count .parent := by
    rw [← List.count_reverse, ← resolve, h]
  rw [← hdir, resolve, List.foldl_append, List.count_reverse]
  exact hrun _

/-- As many steps up as there were names lead back. -/
theorem resolve_back {names : List Component} (h : ∀ c ∈ names, c.IsDown) (dir cs : List Component) :
    resolve (dir ++ names ++ List.replicate names.length .parent ++ cs) = resolve (dir ++ cs) := by
  have hup (ns : List Component) (hns : ∀ c ∈ ns, c.IsDown) (done : List Component) :
      (List.replicate ns.length Component.parent).foldl walk (ns ++ done) = done := by
    induction ns with
    | nil => rfl
    | cons n ns ih =>
      obtain ⟨hn, hrest⟩ := List.forall_mem_cons.1 hns
      cases n with
      | root | current | parent => exact absurd hn id
      | name n => exact ih hrest
  have hback := hup names.reverse (fun c hc => h c (List.mem_reverse.1 hc)) (dir.foldl walk [])
  rw [List.length_reverse] at hback
  rw [resolve, resolve, List.foldl_append, List.foldl_append, List.foldl_append, List.foldl_append,
    foldl_walk_down h, hback]

/-- One step up less than there were names leads to the first of them. -/
theorem resolve_back_to {c : Component} {names : List Component} (hc : c.IsDown) (h : ∀ c ∈ names, c.IsDown)
    (hnormal : resolve dir = dir) :
    resolve (dir ++ c :: names ++ List.replicate names.length .parent) = dir ++ [c] := by
  cases c with
  | root | current | parent => exact absurd hc id
  | name n =>
    have hback := resolve_back h (dir ++ [.name n]) []
    rw [List.append_nil, List.append_nil, resolve_snoc_name, hnormal] at hback
    rw [← hback, List.append_assoc dir [.name n], List.singleton_append]

theorem spelled_resolve_append {steps : List Component} (hdir : Spelled dir) (hsteps : ∀ c ∈ steps, c.IsStep) :
    Spelled (resolve (dir ++ steps)) := by
  have happend : Spelled (dir ++ steps) := by
    cases hdir with
    | relative h => exact .relative (List.forall_mem_append.2 ⟨h, hsteps⟩)
    | absolute h => exact .absolute (List.forall_mem_append.2 ⟨h, hsteps⟩)
  have hspelled := spelled_resolve (ofComponents (dir ++ steps))
  rwa [components_ofComponents happend] at hspelled

/-- What a normal path starts with: the root, or steps up. -/
def IsBase (base : List Component) : Prop := base = [.root] ∨ ∃ k, base = List.replicate k .parent

/-- A place that leads out no less than another one starts as this one does, apart from names. -/
theorem exists_base {origin : List Component} (horigin : Spelled origin) (hdir : Spelled dir)
    (hnormal : resolve origin = origin) (hnormal' : resolve dir = dir)
    (hroots : origin.head? = some .root ↔ dir.head? = some .root) (hcount : origin.count .parent ≤ dir.count .parent) :
    ∃ base down k down', origin = base ++ down ∧ dir = base ++ (List.replicate k .parent ++ down') ∧ IsBase base ∧
      (base = [.root] → k = 0) ∧ (∀ c ∈ down, c.IsDown) ∧ ∀ c ∈ down', c.IsDown := by
  have hnot {c : Component} {steps : List Component} (h : ∀ c ∈ steps, c.IsStep) (hc : steps.head? = some c) :
      c ≠ .root := by
    rintro rfl
    exact h _ (List.mem_of_mem_head? hc)
  cases horigin with
  | relative hs =>
    cases hdir with
    | absolute _ => exact absurd (hroots.2 rfl) fun hhead => hnot hs hhead rfl
    | relative hs' =>
      obtain ⟨k, down, horigin, hdown⟩ := hnormal ▸ isRelative_resolve_steps hs
      obtain ⟨k', down', hdir, hdown'⟩ := hnormal' ▸ isRelative_resolve_steps hs'
      have hnone {names : List Component} (h : ∀ c ∈ names, c.IsDown) : names.count .parent = 0 :=
        List.count_eq_zero.2 fun hmem => h _ hmem
      have hk : k ≤ k' := by simpa [horigin, hdir, hnone hdown, hnone hdown'] using hcount
      refine ⟨List.replicate k .parent, down, k' - k, down', horigin, ?_, .inr ⟨k, rfl⟩, fun hroot => ?_, hdown, hdown'⟩
      · rw [hdir, ← List.append_assoc, List.replicate_append_replicate, Nat.add_sub_cancel' hk]
      · have hmem : Component.root ∈ List.replicate k Component.parent := by simp [hroot]
        cases List.eq_of_mem_replicate hmem
  | absolute hs =>
    cases hdir with
    | relative hs' => exact absurd (hroots.1 rfl) fun hhead => hnot hs' hhead rfl
    | absolute hs' =>
      obtain ⟨down, hdown, hdowns⟩ := exists_resolve_root hs
      obtain ⟨down', hdown', hdowns'⟩ := exists_resolve_root hs'
      exact ⟨[.root], down, 0, down', hnormal.symm.trans hdown, hnormal'.symm.trans hdown', .inl rfl, fun _ => rfl,
        hdowns, hdowns'⟩

theorem resolve_replicate_parent (k : Nat) :
    resolve (List.replicate k .parent) = List.replicate k .parent := by
  have hrun (k j : Nat) : (List.replicate k Component.parent).foldl walk (List.replicate j .parent) =
      List.replicate (j + k) .parent := by
    induction k generalizing j with
    | zero => rfl
    | succ k ih =>
      have hwalk : walk (List.replicate j .parent) .parent = List.replicate (j + 1) .parent := by cases j <;> rfl
      rw [List.replicate_succ, List.foldl_cons, hwalk, ih, Nat.add_assoc, Nat.add_comm 1]
  have hall := hrun k 0
  rw [Nat.zero_add] at hall
  rw [resolve, ← List.replicate_zero, hall, List.reverse_replicate]

/-- A path is resolved to an absolute one just if it is absolute. -/
theorem head?_resolve (h : Spelled cs) : (resolve cs).head? = some .root ↔ cs.head? = some .root := by
  cases h with
  | relative hs =>
    obtain ⟨k, down, hresolve, hdown⟩ := isRelative_resolve_steps hs
    have hcs : cs.head? ≠ some .root := fun hhead => hs _ (List.mem_of_mem_head? hhead)
    have hnot : (resolve cs).head? ≠ some .root := by
      intro hhead
      rw [hresolve] at hhead
      rcases List.mem_append.1 (List.mem_of_mem_head? hhead) with hmem | hmem
      · cases List.eq_of_mem_replicate hmem
      · exact hdown _ hmem
    exact iff_of_false hnot hcs
  | absolute hs =>
    obtain ⟨down, hresolve, -⟩ := exists_resolve_root hs
    rw [hresolve]
    exact iff_of_true rfl rfl

end Path

namespace Placement

open Idl.Path

variable {origin goal dir steps init : List Component} {last : Component} {stem : List Char}

/-! ## The way between two places -/

/-- The steps from a directory to a place. -/
def way (origin goal : List Component) : List Component :=
  List.replicate (origin.length - commonLength origin goal) .parent ++ goal.drop (commonLength origin goal)

theorem stepsBetween_eq (origin goal : List Component) :
    stepsBetween origin goal = (way origin goal).map Component.text := by
  simp [stepsBetween, way, Component.text]

theorem way_append (base origin goal : List Component) : way (base ++ origin) (base ++ goal) = way origin goal := by
  unfold way
  rw [commonLength_append, List.length_append, Nat.add_sub_add_left, List.drop_append]
  simp

/-- Two places have a common beginning, after which they part. -/
theorem exists_parted (origin goal : List Component) : ∃ common rest downs, origin = common ++ rest ∧
    goal = common ++ downs ∧ ∀ c ∈ rest.head?, c ∉ downs.head? := by
  induction origin generalizing goal with
  | nil => exact ⟨[], [], goal, rfl, rfl, by simp⟩
  | cons c origin ih =>
    cases goal with
    | nil => exact ⟨[], c :: origin, [], rfl, rfl, by simp⟩
    | cons e goal =>
      by_cases hsame : c = e
      · obtain ⟨common, rest, downs, rfl, rfl, hparted⟩ := ih goal
        exact ⟨c :: common, rest, downs, rfl, by rw [hsame]; rfl, hparted⟩
      · refine ⟨[], c :: origin, e :: goal, rfl, rfl, ?_⟩
        rintro _ ⟨rfl⟩ ⟨rfl⟩
        exact hsame rfl

/-- The way between places that part at once leads all the way up, and then all the way down. -/
theorem way_of_parted (h : ∀ c ∈ origin.head?, c ∉ goal.head?) :
    way origin goal = List.replicate origin.length .parent ++ goal := by
  have hcommon : commonLength origin goal = 0 := by
    cases origin with
    | nil => rfl
    | cons c origin =>
      cases goal with
      | nil => rfl
      | cons e goal =>
        have hne : c ≠ e := fun heq => h c rfl (congrArg some heq.symm)
        rw [commonLength, if_neg hne]
  rw [way, hcommon]
  rfl

theorem not_prefix_of_parted (h : ∀ c ∈ origin.head?, c ∉ goal.head?) (hnil : goal ≠ []) : ¬ goal <+: origin := by
  rintro ⟨more, rfl⟩
  obtain ⟨c, goal, rfl⟩ := List.exists_cons_of_ne_nil hnil
  exact h c rfl rfl

theorem isStep_way (horigin : Spelled origin) (hgoal : Spelled goal)
    (hroots : origin.head? = some .root ↔ goal.head? = some .root) : ∀ c ∈ way origin goal, c.IsStep := by
  have hup (n : Nat) : ∀ c ∈ List.replicate n Component.parent, c.IsStep := fun c hc => by
    rw [List.eq_of_mem_replicate hc]
    trivial
  cases hgoal with
  | relative hs =>
    exact List.forall_mem_append.2 ⟨hup _, fun c hc => hs c (List.mem_of_mem_drop hc)⟩
  | @absolute steps hs =>
    obtain ⟨rest, rfl⟩ := List.head?_eq_some_iff.1 (hroots.2 rfl)
    rw [← List.singleton_append, ← List.singleton_append (l := steps), way_append]
    exact List.forall_mem_append.2 ⟨hup _, fun c hc => hs c (List.mem_of_mem_drop hc)⟩

/-! ## Steps as they are written -/

/-- Steps with slashes between them. -/
def spelling (steps : List Component) : List Char := List.intercalate ['/'] (steps.map (·.text.toList))

/-- Steps as a specifier, which has a dot in front at least. -/
def written (steps : List Component) : String :=
  let way := "/".intercalate (steps.map Component.text)
  if "..".toList.isPrefixOf way.toList then way else "./" ++ way

/-- A specifier is spelled by its steps, behind a dot and a slash unless it starts with two dots. -/
theorem toList_written (steps : List Component) :
    (['.', '.'] <+: spelling steps ∧ (written steps).toList = spelling steps) ∨
      (¬ ['.', '.'] <+: spelling steps ∧ (written steps).toList = '.' :: '/' :: spelling steps) := by
  have hspelling : ("/".intercalate (steps.map Component.text)).toList = spelling steps := by
    simp [spelling, Function.comp_def]
  have hstarts : "..".toList.isPrefixOf (spelling steps) = true ↔ ['.', '.'] <+: spelling steps :=
    List.isPrefixOf_iff_prefix
  unfold written
  dsimp only
  rw [hspelling]
  split
  · rename_i hdots
    exact .inl ⟨hstarts.1 hdots, hspelling⟩
  · rename_i hdots
    refine .inr ⟨mt hstarts.2 hdots, ?_⟩
    rw [String.toList_append, hspelling]
    rfl

theorem spelling_snoc (hinit : ∀ c ∈ init, c.IsStep) :
    spelling (init ++ [last]) = init.flatMap Component.lead ++ last.text.toList := intercalate_lead hinit

theorem spelling_cons (c : Component) (steps : List Component) :
    (steps = [] ∧ spelling (c :: steps) = c.text.toList) ∨
      (steps ≠ [] ∧ ∃ more, spelling (c :: steps) = c.text.toList ++ '/' :: more) := by
  cases steps with
  | nil => exact .inl ⟨rfl, by simp [spelling]⟩
  | cons e steps =>
    refine .inr ⟨by simp, spelling (e :: steps), ?_⟩
    rw [spelling, List.map_cons, List.map_cons, List.intercalate_cons_cons]
    simp [spelling]

/-- A name starts with two dots just if it does so with slashes behind it. -/
theorem dots_prefix_append_iff {n tail : List Char} (hn : PlainName n) (htail : ∀ x ∈ tail.head?, x = '/') :
    ['.', '.'] <+: n ++ tail ↔ ['.', '.'] <+: n := by
  refine ⟨fun hstarts => ?_, fun hstarts => hstarts.trans (List.prefix_append ..)⟩
  cases n with
  | nil => exact absurd rfl hn.ne_nil
  | cons c n =>
    cases n with
    | nil =>
      obtain ⟨-, more, rfl⟩ := List.cons_prefix_cons.1 hstarts
      exact absurd (htail '.' rfl) (by decide)
    | cons e n =>
      obtain ⟨rfl, hsecond⟩ := List.cons_prefix_cons.1 hstarts
      obtain ⟨rfl, -⟩ := List.cons_prefix_cons.1 hsecond
      exact List.prefix_append ['.', '.'] n

/-- A name that starts with two dots has no slash behind them. -/
theorem not_dotted_append {n : List Char} (hn : PlainName n) (h : ['.', '.'] <+: n) (tail : List Char) :
    ¬ (['.', '/'] <+: n ++ tail ∨ ['.', '.', '/'] <+: n ++ tail) := by
  obtain ⟨more, rfl⟩ := h
  cases more with
  | nil => exact absurd rfl hn.ne_dots
  | cons x more =>
    have hx : x ≠ '/' := fun heq => hn.no_slash (by simp [heq])
    simp [List.cons_prefix_cons, Ne.symm hx]

/-- The text is a path that starts with a dot or two. -/
def StartsDotted (specifier : String) : Prop :=
  ['.', '/'] <+: specifier.toList ∨ ['.', '.', '/'] <+: specifier.toList

theorem startsDotted_parent_iff (rest : List Component) :
    StartsDotted (written (.parent :: rest)) ↔ rest ≠ [] := by
  have hdots : (Component.parent).text.toList = ['.', '.'] := by decide
  have htext : (written (.parent :: rest)).toList = spelling (.parent :: rest) := by
    rcases toList_written (.parent :: rest) with ⟨-, htext⟩ | ⟨hnot, -⟩
    · exact htext
    · refine absurd ?_ hnot
      rcases spelling_cons .parent rest with ⟨-, hspelling⟩ | ⟨-, more, hspelling⟩
      · exact ⟨[], (hspelling.trans hdots).symm⟩
      · rw [hspelling, hdots]
        exact List.prefix_append ..
  unfold StartsDotted
  rw [htext]
  rcases spelling_cons .parent rest with ⟨rfl, hspelling⟩ | ⟨hrest, more, hspelling⟩
  · rw [hspelling, hdots]
    exact iff_of_false (by decide) (by simp)
  · rw [hspelling, hdots]
    exact iff_of_true (.inr ⟨more, rfl⟩) hrest

theorem startsDotted_name_iff {n : String} (hn : PlainName n.toList) (rest : List Component) :
    StartsDotted (written (.name n :: rest)) ↔ ¬ ['.', '.'] <+: n.toList := by
  obtain ⟨tail, hspelling, htail⟩ : ∃ tail, spelling (.name n :: rest) = n.toList ++ tail ∧
      ∀ x ∈ tail.head?, x = '/' := by
    rcases spelling_cons (.name n) rest with ⟨-, hspelling⟩ | ⟨-, more, hspelling⟩
    · exact ⟨[], by rw [hspelling, List.append_nil]; rfl, by simp⟩
    · exact ⟨'/' :: more, hspelling, by simp⟩
  have hdots : ['.', '.'] <+: spelling (.name n :: rest) ↔ ['.', '.'] <+: n.toList := by
    rw [hspelling]
    exact dots_prefix_append_iff hn htail
  unfold StartsDotted
  rw [← hdots]
  rcases toList_written (.name n :: rest) with ⟨hstarts, htext⟩ | ⟨hnot, htext⟩
  · refine iff_of_false ?_ (not_not_intro hstarts)
    rw [htext, hspelling]
    exact not_dotted_append hn (hdots.1 hstarts) tail
  · rw [htext]
    exact iff_of_true (.inl ⟨_, rfl⟩) hnot

/-- A specifier starts as a relative path, unless it is two dots or the first step down starts with two dots. -/
theorem startsDotted_written_iff (h : ∀ c ∈ steps, c.IsStep) :
    StartsDotted (written steps) ↔
      steps ≠ [.parent] ∧ ∀ n rest, steps = .name n :: rest → ¬ ['.', '.'] <+: n.toList := by
  cases steps with
  | nil => exact iff_of_true (.inl (by decide)) (by simp)
  | cons c rest =>
    obtain ⟨hc, -⟩ := List.forall_mem_cons.1 h
    cases c with
    | root | current => exact absurd hc id
    | parent =>
      rw [startsDotted_parent_iff]
      exact ⟨fun hrest => ⟨by simpa using hrest, by simp⟩, fun hsteps => by simpa using hsteps.1⟩
    | name n =>
      rw [startsDotted_name_iff hc]
      constructor
      · refine fun hnot => ⟨by simp, ?_⟩
        rintro m more ⟨rfl, rfl⟩
        exact hnot
      · exact fun hsteps => hsteps.2 n rest rfl

/-! ## Where a specifier leads -/

/-- The path that a specifier is, with the extension of outputs. -/
def specified (specifier : String) : Path := ⟨specifier ++ "." ++ outputExtension⟩

theorem outputName_text (c : Component) : outputName c.text.toList = c.text ++ "." ++ outputExtension := by
  rw [outputName, String.ofList_toList]

theorem filterMap_pieces_name {n : String} (hinit : ∀ c ∈ init, c.IsStep) (hn : PlainName n.toList) :
    (pieces (init.flatMap Component.lead ++ n.toList)).filterMap Component.ofPiece? = init ++ [.name n] := by
  have hread : Component.ofPiece? n.toList = some (.name n) := Component.ofPiece?_text (c := .name n) hn
  rw [pieces_lead hinit, pieces_of_no_slash hn.no_slash, List.filterMap_append, filterMap_ofPiece? hinit,
    List.filterMap_cons_some hread]
  rfl

/-- The components of a specifier are its steps, the last of them with the extension of outputs. -/
theorem filterMap_specified (hinit : ∀ c ∈ init, c.IsStep) (hlast : last.IsStep) :
    (specified (written (init ++ [last]))).isAbsolute = false ∧
      (pieces (specified (written (init ++ [last]))).text.toList).filterMap Component.ofPiece? =
        init ++ [.name (outputName last.text.toList)] := by
  have hpieces := filterMap_pieces_name hinit (plainName_outputName hlast.text_ne_nil hlast.no_slash)
  have htext (specifier : String) :
      (specified specifier).text.toList = specifier.toList ++ '.' :: outputExtension.toList := by simp [specified]
  have hspelling : spelling (init ++ [last]) ++ '.' :: outputExtension.toList =
      init.flatMap Component.lead ++ (outputName last.text.toList).toList := by
    rw [spelling_snoc hinit, outputName_text]
    simp
  unfold isAbsolute
  rw [htext]
  rcases toList_written (init ++ [last]) with ⟨⟨more, hdots⟩, hwritten⟩ | ⟨-, hwritten⟩
  · rw [hwritten, hspelling, hpieces, ← hspelling, ← hdots]
    exact ⟨rfl, rfl⟩
  · rw [hwritten, List.cons_append, List.cons_append, hspelling]
    refine ⟨rfl, ?_⟩
    have hdot : pieces ('.' :: '/' :: (init.flatMap Component.lead ++ (outputName last.text.toList).toList)) =
        ['.'] :: pieces (init.flatMap Component.lead ++ (outputName last.text.toList).toList) :=
      pieces_append_slash (a := ['.']) (by decide) _
    rw [hdot, List.filterMap_cons_none rfl, hpieces]

/-- A specifier leads from a directory where its steps lead. -/
theorem normalize_join_written (horigin : Spelled origin) (hinit : ∀ c ∈ init, c.IsStep) (hlast : last.IsStep) :
    ((ofComponents origin).join (specified (written (init ++ [last])))).normalize =
      ofComponents (resolve (origin ++ init) ++ [.name (outputName last.text.toList)]) := by
  obtain ⟨hrelative, hpieces⟩ := filterMap_specified hinit hlast
  rw [Path.normalize, resolve_join horigin hrelative, resolve_append_relative hrelative, hpieces, ← List.append_assoc,
    resolve_snoc_name]

theorem normalize_join_written_nil (horigin : Spelled origin) :
    ((ofComponents origin).join (specified (written []))).normalize =
      ofComponents (resolve origin ++ [.name (outputName [])]) := by
  have hrelative : (specified (written [])).isAbsolute = false := by decide
  have hpieces : (pieces (specified (written [])).text.toList).filterMap Component.ofPiece? =
      [.name (outputName [])] := by decide
  rw [Path.normalize, resolve_join horigin hrelative, resolve_append_relative hrelative, hpieces, resolve_snoc_name]

theorem outputName_inj {stem stem' : List Char} (h : outputName stem = outputName stem') : stem = stem' := by
  have htext := congrArg String.toList h
  simpa [outputName] using htext

/-- A specifier leads to an output just if its steps lead to the directory of the output and the last of them is spelled
as its name is. -/
theorem arrives_iff (horigin : Spelled origin) (hsteps : ∀ c ∈ steps, c.IsStep) (hdir : Spelled dir) (hnil : stem ≠ [])
    (hslash : '/' ∉ stem) :
    ((ofComponents origin).join (specified (written steps))).normalize =
        ofComponents (dir ++ [.name (outputName stem)]) ↔
      ∃ init last, steps = init ++ [last] ∧ resolve (origin ++ init) = dir ∧ last.text.toList = stem := by
  have hgoal := hdir.snoc (c := .name (outputName stem)) (plainName_outputName hnil hslash)
  rcases List.eq_nil_or_concat steps with rfl | ⟨init, last, rfl⟩
  · refine iff_of_false (fun heq => ?_) (by simp)
    rw [normalize_join_written_nil horigin] at heq
    have hcs := congrArg components heq
    have hspelled := spelled_resolve_append horigin (List.forall_mem_nil _)
    rw [List.append_nil] at hspelled
    have hname : (Component.name (outputName [])).IsStep := ⟨by decide, by decide, by decide, by decide⟩
    rw [components_ofComponents (hspelled.snoc hname), components_ofComponents hgoal] at hcs
    have hlast := (List.append_inj' hcs rfl).2
    exact hnil (outputName_inj (Component.name.inj (List.cons.inj hlast).1)).symm
  · rw [List.concat_eq_append] at hsteps ⊢
    obtain ⟨hinit, hlast⟩ := List.forall_mem_append.1 hsteps
    have hlast := List.forall_mem_singleton.1 hlast
    have hname : (Component.name (outputName last.text.toList)).IsStep :=
      plainName_outputName hlast.text_ne_nil hlast.no_slash
    rw [normalize_join_written horigin hinit hlast]
    constructor
    · intro heq
      have hcs := congrArg components heq
      rw [components_ofComponents ((spelled_resolve_append horigin hinit).snoc hname),
        components_ofComponents hgoal] at hcs
      obtain ⟨hdir, hlast⟩ := List.append_inj' hcs rfl
      exact ⟨init, last, rfl, hdir, outputName_inj (Component.name.inj (List.cons.inj hlast).1)⟩
    · rintro ⟨init', last', heq, rfl, rfl⟩
      obtain ⟨rfl, hlast⟩ := List.append_inj' heq rfl
      rw [(List.cons.inj hlast).1]

/-! ## Outputs without their extension -/

/-- What the name of an output becomes without its extension, where a stem of one dot is taken for two. -/
def bareStep (stem : List Char) : Component :=
  if stem = ['.'] ∨ stem = ['.', '.'] then .parent else .name (String.ofList stem)

theorem isStep_bareStep (hnil : stem ≠ []) (hslash : '/' ∉ stem) : (bareStep stem).IsStep := by
  unfold bareStep
  split
  · trivial
  · rename_i hdots
    obtain ⟨hdot, hdots⟩ := not_or.1 hdots
    show PlainName (String.ofList stem).toList
    rw [String.toList_ofList]
    exact ⟨hnil, hslash, hdot, hdots⟩

theorem withExtension_outputName (hdir : Spelled dir) (hnil : stem ≠ []) (hslash : '/' ∉ stem) :
    (ofComponents (dir ++ [.name (outputName stem)])).withExtension "" = ofComponents (dir ++ [bareStep stem]) := by
  have hbare : bareName (outputName stem).toList = (bareStep stem).text.toList := by
    unfold bareName bareStep
    rw [splitExtension_outputName hnil]
    dsimp only
    by_cases hdot : stem = ['.']
    · rw [if_pos hdot, if_pos (.inl hdot)]
      rfl
    · by_cases hdots : stem = ['.', '.']
      · rw [if_neg hdot, if_pos (.inr hdots), hdots]
        rfl
      · rw [if_neg hdot, if_neg (not_or.2 ⟨hdot, hdots⟩)]
        exact String.toList_ofList.symm
  rw [withExtension_empty hdir (plainName_outputName hnil hslash), hbare,
    ← toList_render hdir (isStep_bareStep hnil hslash), String.ofList_toList, ofComponents]

/-- The specifier is written for the steps to the other output without its extension. -/
theorem importSpecifier_ofComponents {a : Component} (horigin : Spelled origin) (hnormal : resolve origin = origin)
    (ha : a.IsStep) (hdir : Spelled dir) (hnil : stem ≠ []) (hslash : '/' ∉ stem) :
    importSpecifier (ofComponents (origin ++ [a])) (ofComponents (dir ++ [.name (outputName stem)])) =
      written (way origin (resolve (dir ++ [bareStep stem]))) := by
  have hsteps := stepsBetween_eq origin (resolve (dir ++ [bareStep stem]))
  unfold stepsBetween at hsteps
  unfold importSpecifier
  rw [directory_ofComponents horigin ha, withExtension_outputName hdir hnil hslash]
  dsimp only
  rw [components_normalize, components_normalize, components_ofComponents horigin,
    components_ofComponents (hdir.snoc (isStep_bareStep hnil hslash)), hnormal, hsteps]
  rfl

/-! ## Places that can be referred to -/

/-- The outputs in the directory `dir` that can be referred to from the directory `origin`, by their stems. The one
directory must not lead further out of where both start than the other. -/
inductive Reaches (origin dir : List Component) : List Char → Prop
  /-- The output without its extension is no directory on the way to `origin`, and if it is below `origin`, the first
  step to it does not start with two dots. -/
  | named {stem : List Char} (ne_dot : stem ≠ ['.']) (ne_dots : stem ≠ ['.', '.'])
      (within : origin.count .parent ≤ dir.count .parent)
      (apart : ¬ dir ++ [.name (String.ofList stem)] <+: origin)
      (plain : ∀ n rest, dir ++ [.name (String.ofList stem)] = origin ++ .name n :: rest → ¬ ['.', '.'] <+: n.toList) :
      Reaches origin dir stem
  /-- An output whose stem is two dots is taken for the directory above, and the way there is right if it only leads
  up. -/
  | dots (within : origin.count .parent ≤ dir.count .parent) (ne : origin ≠ dir)
      (above : (∀ c ∈ dir, c = .parent) ∨ (dir <+: origin ∧ dir ≠ [.root])) : Reaches origin dir ['.', '.']

/-- The steps of a specifier lead from `origin` to `dir`, where the last one is spelled as `stem`. -/
structure LeadsTo (origin dir : List Component) (stem : List Char) (steps : List Component) : Prop where
  ne_parent : steps ≠ [.parent]
  plain : ∀ n rest, steps = .name n :: rest → ¬ ['.', '.'] <+: n.toList
  arrives : ∃ init last, steps = init ++ [last] ∧ resolve (origin ++ init) = dir ∧ last.text.toList = stem

section Reaches

variable {base down more : List Component}

/-- Steps start with a name just if they lead to a place below. -/
theorem forall_first_name_iff {rest downs : List Component} {P : String → Prop}
    (hparted : ∀ c ∈ rest.head?, c ∉ downs.head?) :
    (∀ n steps, List.replicate rest.length .parent ++ downs = Component.name n :: steps → P n) ↔
      ∀ n steps, base ++ downs = base ++ rest ++ .name n :: steps → P n := by
  cases rest with
  | nil => simp
  | cons r rest =>
    refine iff_of_true (by simp [List.replicate_succ]) fun n steps heq => ?_
    have hhead : downs = r :: (rest ++ .name n :: steps) := by simpa using heq
    exact absurd (by rw [hhead]; rfl) (hparted r rfl)

/-- An output with a name of its own is reached unless it is a directory on the way, or below with two dots in front. -/
theorem leadsTo_named_iff (hdown : ∀ c ∈ down, c.IsDown) (hnormal : resolve (base ++ more) = base ++ more)
    (hdots : stem ≠ ['.', '.']) :
    LeadsTo (base ++ down) (base ++ more) stem (way down (more ++ [.name (String.ofList stem)])) ↔
      ¬ base ++ more ++ [.name (String.ofList stem)] <+: base ++ down ∧
        ∀ n rest, base ++ more ++ [.name (String.ofList stem)] = base ++ down ++ .name n :: rest →
          ¬ ['.', '.'] <+: n.toList := by
  obtain ⟨common, rest, downs, rfl, hgoal, hparted⟩ := exists_parted down (more ++ [.name (String.ofList stem)])
  obtain ⟨hcommon, hrest⟩ := List.forall_mem_append.1 hdown
  rw [List.append_assoc base more, hgoal, way_append, way_of_parted hparted]
  rcases List.eq_nil_or_concat downs with rfl | ⟨downs, last, rfl⟩
  · -- the output without its extension is a directory on the way, so there are no steps down
    refine iff_of_false ?_ ?_
    · rintro ⟨-, -, init, last, hsteps, -, htext⟩
      have hlast : last ∈ List.replicate rest.length Component.parent ++ [] := by
        rw [hsteps]
        simp
      rw [List.append_nil] at hlast
      rw [List.eq_of_mem_replicate hlast] at htext
      exact hdots htext.symm
    · rintro ⟨hnot, -⟩
      refine hnot ⟨rest, by simp⟩
  · rw [List.concat_eq_append] at hgoal hparted ⊢
    rw [← List.append_assoc] at hgoal
    obtain ⟨rfl, hlast⟩ := List.append_inj' hgoal rfl
    obtain rfl := (List.cons.inj hlast).1
    have hplain : (∀ n steps, List.replicate rest.length .parent ++ (downs ++ [.name (String.ofList stem)]) =
          Component.name n :: steps → ¬ ['.', '.'] <+: n.toList) ↔
        ∀ n steps, base ++ (common ++ (downs ++ [.name (String.ofList stem)])) =
          base ++ (common ++ rest) ++ .name n :: steps → ¬ ['.', '.'] <+: n.toList := by
      rw [← List.append_assoc base common, ← List.append_assoc base common]
      exact forall_first_name_iff hparted
    constructor
    · intro h
      refine ⟨fun hstarts => ?_, hplain.1 h.plain⟩
      rw [List.prefix_append_right_inj, List.prefix_append_right_inj] at hstarts
      exact not_prefix_of_parted hparted (by simp) hstarts
    · rintro ⟨-, h⟩
      refine ⟨fun heq => ?_, hplain.2 h, List.replicate rest.length .parent ++ downs, .name (String.ofList stem),
        by simp, ?_, String.toList_ofList⟩
      · have hmem : Component.name (String.ofList stem) ∈ [Component.parent] := by
          rw [← heq]
          simp
        cases List.mem_singleton.1 hmem
      · have hback := resolve_back hrest (base ++ common) downs
        rw [List.append_assoc base common downs, hnormal] at hback
        rw [← hback]
        simp

/-- The way up from a directory below `base` leads to the outputs of the first directory below `base`. -/
theorem leadsTo_up_iff {r : Component} {n : String} (hr : r.IsDown) (hdown : ∀ c ∈ down, c.IsDown)
    (hnormal : resolve base = base) :
    LeadsTo (base ++ r :: down) (base ++ [.name n]) ['.', '.'] (List.replicate (r :: down).length .parent) ↔
      down ≠ [] ∧ r = .name n := by
  have hback := resolve_back_to hr hdown hnormal
  rw [List.length_cons, List.replicate_succ']
  constructor
  · intro h
    obtain ⟨init, last, heq, harrives, -⟩ := h.arrives
    obtain ⟨rfl, -⟩ := List.append_inj' heq rfl
    rw [hback] at harrives
    refine ⟨?_, by simpa using harrives⟩
    rintro rfl
    exact h.ne_parent rfl
  · rintro ⟨hne, rfl⟩
    refine ⟨fun heq => hne (by simpa using heq), fun m steps heq => ?_, _, _, rfl, hback, rfl⟩
    have hmem : Component.name m ∈ List.replicate down.length Component.parent ++ [.parent] := by
      rw [heq]
      exact List.mem_cons_self
    simp at hmem

/-- An output whose stem is two dots is reached from below its directory, if this ends in a name. -/
theorem leadsTo_dots_iff_prefix {n : String} (hdown : ∀ c ∈ down, c.IsDown)
    (hnormal : resolve (base ++ more) = base ++ more) :
    LeadsTo (base ++ down) (base ++ (more ++ [.name n])) ['.', '.'] (way down more) ↔
      base ++ down ≠ base ++ (more ++ [.name n]) ∧ base ++ (more ++ [.name n]) <+: base ++ down := by
  obtain ⟨common, rest, downs, rfl, rfl, hparted⟩ := exists_parted down more
  obtain ⟨hcommon, hrest⟩ := List.forall_mem_append.1 hdown
  rw [way_append, way_of_parted hparted, List.prefix_append_right_inj, List.append_assoc, List.prefix_append_right_inj]
  rcases List.eq_nil_or_concat downs with rfl | ⟨downs, last, rfl⟩
  · rw [List.append_nil] at hnormal
    cases rest with
    | nil =>
      refine iff_of_false (fun h => ?_) (by simp)
      obtain ⟨init, last, hsteps, -⟩ := h.arrives
      simp at hsteps
    | cons r rest =>
      obtain ⟨hr, hrest⟩ := List.forall_mem_cons.1 hrest
      rw [List.append_nil, List.nil_append, ← List.append_assoc, ← List.append_assoc, leadsTo_up_iff hr hrest hnormal]
      constructor
      · rintro ⟨hne, rfl⟩
        exact ⟨by simpa using hne, by simp⟩
      · rintro ⟨hne, hbelow⟩
        obtain rfl : r = .name n := by simpa [eq_comm] using hbelow
        exact ⟨by simpa using hne, rfl⟩
  · rw [List.concat_eq_append] at hparted ⊢
    refine iff_of_false (fun h => ?_) (fun h => ?_)
    · -- there are fewer steps down than the directory of the output has components
      obtain ⟨init, last', heq, harrives, -⟩ := h.arrives
      rw [← List.append_assoc] at heq
      obtain ⟨rfl, -⟩ := List.append_inj' heq rfl
      have hback := resolve_back hrest (base ++ common) downs
      have hlength := length_resolve_le (base ++ common ++ downs)
      rw [← List.append_assoc, ← List.append_assoc base, hback] at harrives
      rw [harrives] at hlength
      simp only [List.length_append, List.length_singleton] at hlength
      omega
    · exact not_prefix_of_parted hparted (by simp) ((List.prefix_append ..).trans h.2)

/-- An output whose stem is two dots, in a directory that only leads up, is reached from every other directory. -/
theorem leadsTo_dots_iff_ne (hdown : ∀ c ∈ down, c.IsDown) (hmore : ∀ c ∈ more, c = .parent)
    (hnormal : resolve (base ++ more) = base ++ more) :
    LeadsTo (base ++ down) (base ++ more) ['.', '.'] (way down (more ++ [.parent])) ↔ base ++ down ≠ base ++ more := by
  have hparted : ∀ c ∈ down.head?, c ∉ (more ++ [Component.parent]).head? := by
    intro c hc hc'
    have hmem := List.mem_of_mem_head? hc'
    have hparent : c = .parent := (List.mem_append.1 hmem).elim (hmore c) List.mem_singleton.1
    exact (hparent ▸ hdown c (List.mem_of_mem_head? hc) : Component.IsDown .parent)
  rw [way_of_parted hparted]
  have hall : ∀ c ∈ List.replicate down.length .parent ++ (more ++ [.parent]), c = Component.parent := by
    simp only [List.mem_append, List.mem_replicate, List.mem_singleton]
    rintro c (⟨-, rfl⟩ | hc | rfl)
    · rfl
    · exact hmore c hc
    · rfl
  constructor
  · intro h heq
    have hsame : down = more := List.append_cancel_left heq
    have hnil : down = [] := by
      cases down with
      | nil => rfl
      | cons c down =>
        have hc := hdown c List.mem_cons_self
        rw [hmore c (hsame ▸ List.mem_cons_self)] at hc
        exact absurd hc id
    refine h.ne_parent ?_
    rw [← hsame, hnil]
    rfl
  · intro hne
    refine ⟨fun heq => hne ?_, fun n rest heq => ?_, List.replicate down.length .parent ++ more, .parent, by simp, ?_,
      rfl⟩
    · have hlength := congrArg List.length heq
      simp only [List.length_append, List.length_replicate, List.length_singleton] at hlength
      have hdown : down = [] := List.eq_nil_of_length_eq_zero (by omega)
      have hmore : more = [] := List.eq_nil_of_length_eq_zero (by omega)
      rw [hdown, hmore]
    · cases hall (.name n) (by rw [heq]; exact List.mem_cons_self)
    · have hback := resolve_back hdown base more
      rw [hnormal] at hback
      rw [← hback, List.append_assoc, List.append_assoc, List.append_assoc]

/-- The steps to an output without its extension are steps, if both places are absolute or none is. -/
theorem isStep_way_bareStep (horigin : Spelled origin) (hdir : Spelled dir)
    (hroots : origin.head? = some .root ↔ dir.head? = some .root) (hnil : stem ≠ []) (hslash : '/' ∉ stem) :
    ∀ c ∈ way origin (resolve (dir ++ [bareStep stem])), c.IsStep := by
  have hbare := isStep_bareStep hnil hslash
  refine isStep_way horigin (spelled_resolve_append hdir (List.forall_mem_singleton.2 hbare)) ?_
  rw [hroots, head?_resolve (hdir.snoc hbare)]
  cases dir with
  | nil =>
    refine iff_of_false (by simp) fun hhead => ?_
    obtain hroot : bareStep stem = .root := by simpa using hhead
    exact (hroot ▸ hbare : Component.IsStep .root)
  | cons c dir => rfl

/-- An output whose stem is two dots is reached if its directory is above, or only leads up. -/
theorem leadsTo_dots_iff {k : Nat} {down' : List Component} (hbase : IsBase base) (hroot : base = [.root] → k = 0)
    (hdown : ∀ c ∈ down, c.IsDown) (hdown' : ∀ c ∈ down', c.IsDown)
    (hnormal : resolve (base ++ (List.replicate k .parent ++ down')) = base ++ (List.replicate k .parent ++ down')) :
    LeadsTo (base ++ down) (base ++ (List.replicate k .parent ++ down')) ['.', '.']
        (way (base ++ down) (resolve (base ++ (List.replicate k .parent ++ down') ++ [.parent]))) ↔
      base ++ down ≠ base ++ (List.replicate k .parent ++ down') ∧
        ((∀ c ∈ base ++ (List.replicate k .parent ++ down'), c = .parent) ∨
          (base ++ (List.replicate k .parent ++ down') <+: base ++ down ∧
            base ++ (List.replicate k .parent ++ down') ≠ [.root])) := by
  rcases List.eq_nil_or_concat down' with rfl | ⟨names, last, rfl⟩
  · rw [List.append_nil] at hnormal ⊢
    rcases hbase with rfl | ⟨j, rfl⟩
    · obtain rfl := hroot rfl
      refine iff_of_false (fun h => ?_) (by simp)
      -- above the root there is nothing but the root, so the steps lead up to a name after it
      obtain ⟨init, last, heq, harrives, -⟩ := h.arrives
      have hgoal : resolve ([.root] ++ List.replicate 0 .parent ++ [.parent]) = [.root] ++ [] := rfl
      rw [hgoal, way_append, way_of_parted (by simp), List.append_nil] at heq
      cases down with
      | nil => simp at heq
      | cons c down =>
        obtain ⟨hc, hdown⟩ := List.forall_mem_cons.1 hdown
        rw [List.length_cons, List.replicate_succ'] at heq
        obtain ⟨rfl, -⟩ := List.append_inj' heq rfl
        rw [resolve_back_to hc hdown rfl] at harrives
        simp at harrives
    · have hup : resolve (List.replicate j .parent ++ List.replicate k .parent ++ [.parent]) =
          List.replicate j .parent ++ (List.replicate k .parent ++ [.parent]) := by
        rw [List.append_assoc, ← List.replicate_succ', List.replicate_append_replicate, resolve_replicate_parent]
      have hmore : ∀ c ∈ List.replicate k Component.parent, c = .parent := fun c hc => List.eq_of_mem_replicate hc
      rw [hup, way_append, leadsTo_dots_iff_ne hdown hmore hnormal]
      refine ⟨fun hne => ⟨hne, .inl fun c hc => ?_⟩, And.left⟩
      exact (List.mem_append.1 hc).elim List.eq_of_mem_replicate (hmore c)
  · rw [List.concat_eq_append] at hdown' hnormal ⊢
    obtain ⟨hnames, hlast⟩ := List.forall_mem_append.1 hdown'
    cases last with
    | root | current | parent => exact absurd (List.forall_mem_singleton.1 hlast) id
    | name n =>
      rw [← List.append_assoc (List.replicate k Component.parent)] at hnormal ⊢
      generalize List.replicate k Component.parent ++ names = more at hnormal ⊢
      have habove : resolve (base ++ more) = base ++ more := by
        rw [← List.append_assoc, resolve_snoc_name] at hnormal
        exact List.append_cancel_right hnormal
      have hup : resolve (base ++ (more ++ [.name n]) ++ [.parent]) = base ++ more := by
        have hback := resolve_back hlast (base ++ more) []
        rw [List.append_nil, List.append_nil, habove] at hback
        rw [← hback, List.append_assoc base more]
        rfl
      rw [hup, way_append, leadsTo_dots_iff_prefix hdown habove]
      have hne : base ++ (more ++ [.name n]) ≠ [.root] := fun heq => by
        simpa using congrArg List.getLast? heq
      refine and_congr_right fun _ => ⟨fun hbelow => .inr ⟨hbelow, hne⟩, fun h => ?_⟩
      rcases h with hall | ⟨hbelow, -⟩
      · cases hall (.name n) (by simp)
      · exact hbelow

/-- The steps of a specifier lead to an output just if it can be reached. -/
theorem leadsTo_iff_reaches (horigin : Spelled origin) (hnormal : resolve origin = origin) (hdir : Spelled dir)
    (hnormal' : resolve dir = dir) (hroots : origin.head? = some .root ↔ dir.head? = some .root) (hnil : stem ≠ [])
    (hslash : '/' ∉ stem) :
    LeadsTo origin dir stem (way origin (resolve (dir ++ [bareStep stem]))) ↔ Reaches origin dir stem := by
  have hsteps := isStep_way_bareStep horigin hdir hroots hnil hslash
  by_cases hdot : stem = ['.']
  · subst hdot
    refine iff_of_false (fun h => ?_) (fun h => ?_)
    · obtain ⟨init, last, heq, -, htext⟩ := h.arrives
      exact (hsteps last (by rw [heq]; simp)).text_ne_dot htext
    · cases h with
      | named ne_dot => exact ne_dot rfl
  by_cases hcount : origin.count .parent ≤ dir.count .parent
  · obtain ⟨base, down, k, down', rfl, rfl, hbase, hroot, hdown, hdown'⟩ :=
      exists_base horigin hdir hnormal hnormal' hroots hcount
    by_cases hdots : stem = ['.', '.']
    · subst hdots
      rw [show bareStep ['.', '.'] = .parent from rfl, leadsTo_dots_iff hbase hroot hdown hdown' hnormal']
      constructor
      · exact fun h => .dots hcount h.1 h.2
      · intro h
        cases h with
        | named _ ne_dots => exact absurd rfl ne_dots
        | dots _ ne above => exact ⟨ne, above⟩
    · rw [bareStep, if_neg (not_or.2 ⟨hdot, hdots⟩), resolve_snoc_name, hnormal', List.append_assoc base, way_append,
        leadsTo_named_iff hdown hnormal' hdots]
      constructor
      · exact fun h => .named hdot hdots hcount h.1 h.2
      · intro h
        cases h with
        | named _ _ _ apart plain => exact ⟨apart, plain⟩
        | dots => exact absurd rfl hdots
  · refine iff_of_false (fun h => ?_) (fun h => ?_)
    · obtain ⟨init, last, -, harrives, -⟩ := h.arrives
      exact hcount (harrives ▸ count_parent_le_resolve hnormal init)
    · cases h with
      | named _ _ within _ _ => exact hcount within
      | dots within _ _ => exact hcount within

end Reaches

/-! ## Outputs that refer to outputs -/

/-- A normal path with the extension of outputs. -/
structure IsOutput (p : Path) : Prop where
  normal : p.normalize = p
  extension : p.extension? = some outputExtension

/-- The file name without its extension. -/
def fileStem (p : Path) : List Char := (splitExtension (p.fileName?.getD "").toList).1

theorem IsOutput.eq_snoc {p : Path} (h : IsOutput p) : ∃ dir stem, p = ofComponents (dir ++ [.name (outputName stem)]) ∧
    Spelled dir ∧ resolve dir = dir ∧ stem ≠ [] ∧ '/' ∉ stem := by
  have hp : p = ofComponents (resolve p.components) := h.normal.symm
  have hresolve := resolve_resolve p.components
  have hext := h.extension
  rcases p.spelled_resolve.cases_snoc with hcs | hcs | ⟨dir, c, hcs, hdir, hc⟩
  · rw [hp, hcs] at hext
    exact absurd hext (by decide)
  · rw [hp, hcs] at hext
    exact absurd hext (by decide)
  · rw [hcs] at hp hresolve
    rw [hp, extension?] at hext
    cases c with
    | root | current => exact absurd hc id
    | parent =>
      rw [fileName?_ofComponents_parent hdir] at hext
      cases hext
    | name n =>
      rw [fileName?_ofComponents hdir hc, Option.bind_some] at hext
      rw [resolve_snoc_name] at hresolve
      rcases splitExtension_cases n.toList with hnone | ⟨stem, ext, hn, hnil, -, hsplit⟩
      · rw [hnone] at hext
        cases hext
      · rw [hsplit] at hext
        have hext : String.ofList ext = outputExtension := Option.some.inj hext
        have hname : n = outputName stem := by
          rw [← String.toList_inj, hn, outputName, ← hext]
          simp
        rw [hname] at hp hc
        refine ⟨dir, stem, hp, hdir, List.append_cancel_right hresolve, hnil, fun hslash => ?_⟩
        exact PlainName.no_slash hc (by simp [outputName, hslash])

theorem isAbsolute_iff {c : Component} (hdir : Spelled dir) (hc : c.IsStep) :
    (ofComponents (dir ++ [c])).isAbsolute = true ↔ dir.head? = some .root := by
  cases hdir with
  | relative hs =>
    rw [isAbsolute_ofComponents hs hc]
    exact iff_of_false (by decide) fun hhead => hs _ (List.mem_of_mem_head? hhead)
  | absolute hs =>
    refine iff_of_true ?_ rfl
    rw [isAbsolute, ofComponents, toList_render (.absolute hs) hc]
    rfl

/-- The specifier is a relative path that leads from the directory of the target to the other output, when the
extension is put back. -/
structure PointsAt (specifier : String) (target declaredIn : Path) : Prop where
  dotted : StartsDotted specifier
  arrives : (target.directory.join (specified specifier)).normalize = declaredIn

/-- An import points at the output that declares the name just if this one can be reached. -/
theorem specifiers_point_at_outputs {target declaredIn : Path} (htarget : IsOutput target)
    (hdeclared : IsOutput declaredIn) (hroots : target.isAbsolute = declaredIn.isAbsolute) :
    PointsAt (importSpecifier target declaredIn) target declaredIn ↔
      Reaches target.directory.components declaredIn.directory.components (fileStem declaredIn) := by
  obtain ⟨origin, stem', rfl, horigin, hnormal, hnil', hslash'⟩ := htarget.eq_snoc
  obtain ⟨dir, stem, rfl, hdir, hnormal', hnil, hslash⟩ := hdeclared.eq_snoc
  have htarget : (Component.name (outputName stem')).IsStep := plainName_outputName hnil' hslash'
  have hname : (Component.name (outputName stem)).IsStep := plainName_outputName hnil hslash
  rw [Bool.eq_iff_iff, isAbsolute_iff horigin htarget, isAbsolute_iff hdir hname] at hroots
  have hsteps := isStep_way_bareStep horigin hdir hroots hnil hslash
  have hstem : fileStem (ofComponents (dir ++ [.name (outputName stem)])) = stem := by
    rw [fileStem, fileName?_ofComponents hdir hname, Option.getD_some, splitExtension_outputName hnil]
  rw [importSpecifier_ofComponents horigin hnormal htarget hdir hnil hslash, hstem,
    directory_ofComponents horigin htarget, directory_ofComponents hdir hname, components_ofComponents horigin,
    components_ofComponents hdir,
    ← leadsTo_iff_reaches horigin hnormal hdir hnormal' hroots hnil hslash]
  have hdotted := startsDotted_written_iff hsteps
  have harrives := arrives_iff horigin hsteps hdir hnil hslash
  constructor
  · intro h
    have harrived := h.arrives
    rw [directory_ofComponents horigin htarget] at harrived
    obtain ⟨hne, hplain⟩ := hdotted.1 h.dotted
    exact ⟨hne, hplain, harrives.1 harrived⟩
  · intro h
    refine ⟨hdotted.2 ⟨h.ne_parent, h.plain⟩, ?_⟩
    rw [directory_ofComponents horigin htarget]
    exact harrives.2 h.arrives

/-- From the directory of one module to an output in the directory of another one. -/
theorem specifiers_point_at_outputs_sibling :
    IsOutput ⟨"../idl/Bank/bank.ts"⟩ ∧ IsOutput ⟨"../idl/Base/..base.ts"⟩ ∧
      PointsAt (importSpecifier ⟨"../idl/Bank/bank.ts"⟩ ⟨"../idl/Base/..base.ts"⟩) ⟨"../idl/Bank/bank.ts"⟩
        ⟨"../idl/Base/..base.ts"⟩ := by
  have htarget : IsOutput ⟨"../idl/Bank/bank.ts"⟩ := ⟨by decide +kernel, by decide +kernel⟩
  have hdeclared : IsOutput ⟨"../idl/Base/..base.ts"⟩ := ⟨by decide +kernel, by decide +kernel⟩
  refine ⟨htarget, hdeclared, (specifiers_point_at_outputs htarget hdeclared (by decide)).2 ?_⟩
  have horigin : (Path.mk "../idl/Bank/bank.ts").directory.components = [.parent, .name "idl", .name "Bank"] := by
    decide +kernel
  have hdir : (Path.mk "../idl/Base/..base.ts").directory.components = [.parent, .name "idl", .name "Base"] := by
    decide +kernel
  have hstem : fileStem ⟨"../idl/Base/..base.ts"⟩ = "..base".toList := by decide +kernel
  rw [horigin, hdir, hstem]
  exact .named (by decide) (by decide) (by decide) (by decide +kernel) (by simp)

end Placement

namespace Compilation

open Placement

/-- A file with a module of its own name, which uses a name from outside of it. -/
def namesakeSources : Sources where
  texts := [(⟨"M.idl"⟩, "typedef long X;\nmodule M \x7b typedef X Y; \x7d;\n")]
  failure _ := ""

/-- The output of the module has no way to the output of the file. The specifier leads to an output without a stem. -/
theorem namesake_import_goes_astray :
    (outcome (compileFile namesakeSources ⟨"M.idl"⟩) .empty).1.isOk = true ∧
      (outcome (compileFile namesakeSources ⟨"M.idl"⟩) .empty).2.finish.1 =
        [⟨⟨"M/M.ts"⟩, some "import \x7b X \x7d from './';\n\nexport type Y = X;\n"⟩,
          ⟨⟨"M.ts"⟩, some "export type X = number;\n"⟩] ∧
      importSpecifier ⟨"M/M.ts"⟩ ⟨"M.ts"⟩ = "./" ∧
      ((Path.mk "M/M.ts").directory.join (specified "./")).normalize = ⟨"M/.ts"⟩ ∧
      ¬ PointsAt (importSpecifier ⟨"M/M.ts"⟩ ⟨"M.ts"⟩) ⟨"M/M.ts"⟩ ⟨"M.ts"⟩ := by
  refine ⟨by decide +kernel, by decide +kernel, by decide +kernel, by decide +kernel, fun h => ?_⟩
  exact absurd h.arrives (by decide +kernel)

end Compilation

end Idl
