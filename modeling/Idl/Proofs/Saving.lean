import Idl.Proofs.Sessions

/-!
# What saving changes

Whatever operations fail, an output is either saved or its place is left as it is, and no other place
changes (`attempt_cases`). Outputs are saved one after the other, each in the storage that the ones
before it left. Two outputs of a run lead to the same place only if one of them is the output for a
file with a stray name.
-/

namespace Idl

open Placement

/-- Paths lead to the same place if their normal forms are equal. -/
theorem Path.normalize_eq_iff {p q : Path} :
    p.normalize = q.normalize ↔ resolve p.components = resolve q.components := by
  constructor
  · intro h
    rw [← components_normalize, ← components_normalize, h]
  · intro h
    rw [normalize, normalize, h]

/-! ## Tables and stores -/

namespace PathTable

variable {α : Type}

theorem find?_insert_self (t : PathTable α) (key : List Component) (a : α) : (t.insert key a).find? key = some a := by
  unfold insert find?
  dsimp only
  fun_induction insertEntry key a t.entries with
  | case1 => simp
  | case2 => simp
  | case3 => simp
  | case4 other b rest hgt ih =>
    have hne : (key == other) = false := by
      rw [beq_eq_false_iff_ne]
      rintro rfl
      rw [Std.ReflOrd.compare_self] at hgt
      cases hgt
    rw [List.lookup_cons, hne]
    exact ih

theorem find?_erase_self (t : PathTable α) (key : List Component) : (t.erase key).find? key = none := by
  unfold erase find?
  rw [List.lookup_eq_none_iff]
  intro entry hentry
  have hne : entry.1 ≠ key := by simpa using (List.mem_filter.1 hentry).2
  simpa using hne.symm

end PathTable

namespace Store

/-- Puts a text at a path, or takes away the one that is there. -/
def put (s : Store) (p : Path) : Option String → Store
  | some contents => s.insert p contents
  | none => ⟨s.table.erase (Path.resolve p.components)⟩

theorem get?_put (s : Store) (p q : Path) (contents : Option String) :
    (s.put p contents).get? q = if q.normalize = p.normalize then contents else s.get? q := by
  split
  · rename_i h
    rw [get?, Path.normalize_eq_iff.1 h]
    cases contents with
    | some contents => exact s.table.find?_insert_self _ contents
    | none => exact s.table.find?_erase_self _
  · rename_i h
    have hkey := mt Path.normalize_eq_iff.2 h
    cases contents with
    | some contents => exact s.table.find?_insert_of_ne hkey contents
    | none => exact s.table.find?_erase_of_ne hkey

theorem put_none_of_absent {s : Store} {p : Path} (h : s.get? p = none) : s.put p none = s := by
  have hkeys : s.table.entries.filter (·.1 ≠ Path.resolve p.components) = s.table.entries := by
    refine List.filter_eq_self.2 fun entry hentry => ?_
    have hne : Path.resolve p.components ≠ entry.1 := by simpa using List.lookup_eq_none_iff.1 h entry hentry
    simpa using hne.symm
  unfold put PathTable.erase
  rw [hkeys]

theorem eq_put_of_remove {s t : Store} {p : Path} (h : s.remove p = .ok t) : t = s.put p none := by
  unfold remove at h
  split at h <;> cases h
  rfl

end Store

/-! ## Storages with a store -/

/-- A storage that keeps texts in a store. An operation may fail for any reason, and then it changes
no text; if it succeeds, it does to the store what it says. -/
class KeptInStore (σ : Type) [Storage σ] where
  store : σ → Store
  isPresent_eq : ∀ s p, Storage.isPresent s p = ((store s).get? p).isSome
  perform_cases : ∀ s op, ((∃ reason, (Storage.perform s op).1 = .error reason) ∧
      store (Storage.perform s op).2 = store s) ∨
    ((Storage.perform s op).1 = .ok () ∧ (store s).perform op = (.ok (), store (Storage.perform s op).2))

open KeptInStore (store)

instance : KeptInStore FaultyStore where
  store := FaultyStore.store
  isPresent_eq _ _ := rfl
  perform_cases s op := by
    change ((∃ reason, (s.perform op).1 = .error reason) ∧ (s.perform op).2.store = s.store) ∨
      ((s.perform op).1 = .ok () ∧ s.store.perform op = (.ok (), (s.perform op).2.store))
    unfold FaultyStore.perform
    split
    · exact .inl ⟨⟨_, rfl⟩, rfl⟩
    · rcases hop : s.store.perform op with ⟨reason | ⟨⟩, t⟩
      · refine .inl ⟨⟨reason, rfl⟩, ?_⟩
        -- an operation on a store fails only if there is nothing to remove
        cases op with
        | makeDirectory path => cases hop
        | write path contents => cases hop
        | remove path =>
          unfold Store.perform Storage.settle at hop
          dsimp only at hop
          split at hop <;> cases hop
          rfl
      · exact .inr ⟨rfl, rfl⟩

namespace Output

variable {σ : Type} [Storage σ]

/-- The operations for an output are performed, up to the first one that fails. -/
def attempt (s : σ) (o : Output) : Except String Unit × σ :=
  Storage.performAll s (o.operations (Storage.isPresent s o.path))

/-- An operation for an output fails, or the line about it cannot be written. -/
def Fails (console : Console) (s : σ) (o : Output) : Prop :=
  (∃ reason, (o.attempt s).1 = .error reason) ∨
    (o.attempt s).1 = .ok () ∧ ∃ message line reason,
      o.notice? (Storage.isPresent s o.path) = some (message, line) ∧ console.lineFault line = some reason

theorem performAll_of_error {s : σ} {op : Operation} {reason : String} (h : (Storage.perform s op).1 = .error reason)
    (ops : List Operation) : Storage.performAll s (op :: ops) = (.error reason, (Storage.perform s op).2) := by
  rcases hop : Storage.perform s op with ⟨r, t⟩
  rw [hop] at h
  cases h
  rw [Storage.performAll, hop]

theorem performAll_of_ok {s : σ} {op : Operation} (h : (Storage.perform s op).1 = .ok ()) (ops : List Operation) :
    Storage.performAll s (op :: ops) = Storage.performAll (Storage.perform s op).2 ops := by
  rcases hop : Storage.perform s op with ⟨r, t⟩
  rw [hop] at h
  cases h
  rw [Storage.performAll, hop]

section Kept

variable [KeptInStore σ] (s : σ)

/-- What came out of operations that should put something in a place: they succeeded and it is there,
or one failed and no text changed. -/
def Settled (p : Path) (contents : Option String) (r : Except String Unit × σ) : Prop :=
  (r.1 = .ok () ∧ store r.2 = (store s).put p contents) ∨ (∃ reason, r.1 = .error reason) ∧ store r.2 = store s

theorem settled_write (p : Path) (contents : String) :
    Settled s p (some contents) (Storage.performAll s [.write p contents]) := by
  rcases KeptInStore.perform_cases s (.write p contents) with ⟨⟨reason, hfail⟩, hsame⟩ | ⟨hok, hstore⟩
  · rw [performAll_of_error hfail]
    exact .inr ⟨⟨reason, rfl⟩, hsame⟩
  · rw [performAll_of_ok hok]
    exact .inl ⟨rfl, (Prod.mk.inj hstore).2.symm⟩

theorem settled_remove (p : Path) : Settled s p none (Storage.performAll s [.remove p]) := by
  rcases KeptInStore.perform_cases s (.remove p) with ⟨⟨reason, hfail⟩, hsame⟩ | ⟨hok, hstore⟩
  · rw [performAll_of_error hfail]
    exact .inr ⟨⟨reason, rfl⟩, hsame⟩
  · rw [performAll_of_ok hok]
    refine .inl ⟨rfl, Store.eq_put_of_remove ?_⟩
    unfold Store.perform Storage.settle at hstore
    dsimp only at hstore
    split at hstore
    · rename_i t ht
      rw [ht, (Prod.mk.inj hstore).2]
      rfl
    · cases hstore

/-- A directory can be made before something is put in a place. -/
theorem settled_makeDirectory {dir p : Path} {contents : Option String} {ops : List Operation}
    (h : ∀ t : σ, store t = store s → Settled t p contents (Storage.performAll t ops)) :
    Settled s p contents (Storage.performAll s (.makeDirectory dir :: ops)) := by
  rcases KeptInStore.perform_cases s (.makeDirectory dir) with ⟨⟨reason, hfail⟩, hsame⟩ | ⟨hok, hstore⟩
  · rw [performAll_of_error hfail]
    exact .inr ⟨⟨reason, rfl⟩, hsame⟩
  · rw [performAll_of_ok hok]
    have hsame : store (Storage.perform s (.makeDirectory dir)).2 = store s := (Prod.mk.inj hstore).2.symm
    have hsettled := h _ hsame
    rwa [Settled, hsame] at hsettled

/-- An attempt succeeds, and then the output is in its place; or it fails and changes no text. -/
theorem settled_attempt (o : Output) : Settled s o.path o.contents (o.attempt s) := by
  unfold attempt operations
  rcases hcontents : o.contents with _ | contents
  · dsimp only
    rw [KeptInStore.isPresent_eq]
    split
    · exact settled_remove s o.path
    · rename_i habsent
      have hnone : (store s).get? o.path = none := by simpa using habsent
      exact .inl ⟨rfl, (Store.put_none_of_absent hnone).symm⟩
  · rcases o.path.parent? with _ | dir
    · exact settled_write s o.path contents
    · exact settled_makeDirectory s fun t _ => settled_write t o.path contents

end Kept

end Output

/-! ## Outputs one after the other -/

namespace Run

variable {σ : Type} [Storage σ] {console : Console} {library : Library}

/-- The storage after an attempt for each of some outputs, in order. -/
def storageAfter (s : σ) (outputs : List Output) : σ := outputs.foldl (fun t o => (o.attempt t).2) s

theorem storageAfter_append (s : σ) (before after : List Output) :
    storageAfter s (before ++ after) = storageAfter (storageAfter s before) after := List.foldl_append ..

theorem storage_saveAll (s : σ) (outputs : List Output) :
    (saveAll console library s outputs).storage = storageAfter s outputs := by
  induction outputs generalizing s with
  | nil => rfl
  | cons o outputs ih => exact ih (o.attempt s).2

theorem status_conclude (s : σ) (o : Output) :
    (o.conclude console library (Storage.isPresent s o.path) (o.attempt s).1).1 = .error ↔ o.Fails console s := by
  unfold Output.conclude Output.Fails
  rcases hattempt : (o.attempt s).1 with reason | ⟨⟩
  · simp
  · rcases hnotice : o.notice? (Storage.isPresent s o.path) with _ | ⟨message, line⟩
    · simp
    · rcases hline : console.lineFault line with _ | reason
      · simp [hline]
      · exact ⟨fun _ => .inr ⟨rfl, message, line, reason, rfl, hline⟩, fun _ => by simp only [hline]⟩

theorem both_eq_error {a b : Status} : a.both b = .error ↔ a = .error ∨ b = .error := by
  cases a <;> simp [Status.both]

/-- Saving ends in an error if one of the outputs fails, each in the storage that the ones before it
left. -/
theorem status_saveAll (s : σ) (outputs : List Output) :
    (saveAll console library s outputs).status = .error ↔
      ∃ before o after, outputs = before ++ o :: after ∧ o.Fails console (storageAfter s before) := by
  induction outputs generalizing s with
  | nil => simp [saveAll]
  | cons o outputs ih =>
    change Status.both (o.conclude console library (Storage.isPresent s o.path) (o.attempt s).1).1
      (saveAll console library (o.attempt s).2 outputs).status = .error ↔ _
    rw [both_eq_error, status_conclude, ih]
    constructor
    · rintro (hfails | ⟨before, o', after, rfl, hfails⟩)
      · exact ⟨[], o, outputs, rfl, hfails⟩
      · exact ⟨o :: before, o', after, rfl, hfails⟩
    · rintro ⟨_ | ⟨o', before⟩, o'', after, heq, hfails⟩
      · obtain ⟨rfl, rfl⟩ := List.cons.inj heq
        exact .inl hfails
      · obtain ⟨rfl, rfl⟩ := List.cons.inj heq
        exact .inr ⟨before, o'', after, rfl, hfails⟩

section Kept

variable [KeptInStore σ]

open KeptInStore (store)

theorem get?_storageAfter {outputs : List Output} {p : Path} (h : ∀ o ∈ outputs, p.normalize ≠ o.path.normalize)
    (s : σ) : (store (storageAfter s outputs)).get? p = (store s).get? p := by
  induction outputs generalizing s with
  | nil => rfl
  | cons o outputs ih =>
    obtain ⟨ho, houtputs⟩ := List.forall_mem_cons.1 h
    rw [storageAfter, List.foldl_cons, ← storageAfter, ih houtputs]
    rcases o.settled_attempt s with ⟨-, hput⟩ | ⟨-, hsame⟩
    · rw [hput, Store.get?_put, if_neg ho]
    · rw [hsame]

/-- An output that shares its place with no other one is there in the end, or its place is as it was. -/
theorem get?_storageAfter_own {before after : List Output} {o : Output}
    (h : ∀ o' ∈ before ++ after, o'.path.normalize ≠ o.path.normalize) (s : σ) :
    ((o.attempt (storageAfter s before)).1 = .ok () ∧
      (store (storageAfter s (before ++ o :: after))).get? o.path = o.contents) ∨
    ((∃ reason, (o.attempt (storageAfter s before)).1 = .error reason) ∧
      (store (storageAfter s (before ++ o :: after))).get? o.path = (store s).get? o.path) := by
  obtain ⟨hbefore, hafter⟩ := List.forall_mem_append.1 h
  have hlater : (store (storageAfter s (before ++ o :: after))).get? o.path =
      (store (o.attempt (storageAfter s before)).2).get? o.path := by
    rw [storageAfter_append]
    exact get?_storageAfter (fun o' ho' => (hafter o' ho').symm) _
  rw [hlater]
  rcases o.settled_attempt (storageAfter s before) with ⟨hok, hput⟩ | ⟨hfail, hsame⟩
  · refine .inl ⟨hok, ?_⟩
    rw [hput, Store.get?_put, if_pos rfl]
  · refine .inr ⟨hfail, ?_⟩
    rw [hsame, get?_storageAfter fun o' ho' => (hbefore o' ho').symm]

end Kept

end Run

/-! ## Outputs of a run -/

theorem Output.pairwise_ofEmissions (es : List Emission) :
    (Output.ofEmissions es).Pairwise fun o o' => o.path ≠ o'.path := List.pairwise_map.1 (Output.nodup_paths es)

/-- The outputs before and after one of them have other paths. -/
theorem Output.path_ne_of_split {es : List Emission} {before after : List Output} {o : Output}
    (h : Output.ofEmissions es = before ++ o :: after) : ∀ o' ∈ before ++ after, o'.path ≠ o.path := by
  have hpairwise := Output.pairwise_ofEmissions es
  rw [h, List.pairwise_append, List.pairwise_cons] at hpairwise
  obtain ⟨-, ⟨hafter, -⟩, hbefore⟩ := hpairwise
  refine List.forall_mem_append.2 ⟨fun o' ho' => ?_, fun o' ho' => (hafter o' ho').symm⟩
  exact hbefore o' ho' o (List.mem_cons_self ..)

/-- Two outputs lead to the same place only if one of them is that of a file with a stray name. -/
theorem Compilation.Consistent.exists_stray {s : Compilation} {o o' : Output} (h : Consistent s)
    (ho : o ∈ s.finish.1) (ho' : o' ∈ s.finish.1) (hne : o.path ≠ o'.path)
    (hplace : o.path.normalize = o'.path.normalize) :
    ∃ f ∈ s.library.files, isStray f.path = true ∧ (o.path = ofSource f.path ∨ o'.path = ofSource f.path) := by
  have hstray {o : Output} (ho : o ∈ s.finish.1) : o.path.normalize = o.path ∨
      ∃ f ∈ s.library.files, isStray f.path = true ∧ o.path = ofSource f.path := by
    rcases h.isTarget_of_finish ho with hproper | ⟨read, -, stray, eq⟩
    · exact .inl hproper.normalize_eq
    · obtain ⟨f, hf, rfl⟩ := List.mem_map.1 read
      exact .inr ⟨f, hf, stray, eq⟩
  rcases hstray ho with hnormal | ⟨f, hf, stray, eq⟩
  · rcases hstray ho' with hnormal' | ⟨f, hf, stray, eq⟩
    · rw [hnormal, hnormal'] at hplace
      exact absurd hplace hne
    · exact ⟨f, hf, stray, .inr eq⟩
  · exact ⟨f, hf, stray, .inl eq⟩

/-- A diagnostic is no line on the standard output. -/
theorem Console.line_notMem_tell (console : Console) (library : Library) (d : Diagnostic) (text : String) :
    Report.line text ∉ console.tell library d := by
  unfold tell
  dsimp only
  split <;> simp

end Idl
