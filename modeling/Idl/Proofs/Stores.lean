import Idl.Proofs.Paths
import Idl.Run
import Idl.Storage.Store

/-!
# What saving leaves alone

An operation on a store changes at most the text at its own path, up to the normal form of the path.
So saving outputs leaves every path alone that is not the path of one of them
(`get?_saveAll_of_ne`).
-/

namespace Idl

/-! ## Tables -/

namespace PathTable

variable {α : Type} {key other : List Component}

theorem lookup_insertEntry_of_ne (h : other ≠ key) (a : α) (entries : List (List Component × α)) :
    (insertEntry key a entries).lookup other = entries.lookup other := by
  have hkey : (other == key) = false := by simpa using h
  fun_induction insertEntry key a entries with
  | case1 => simp [List.lookup_cons, hkey]
  | case2 => simp [List.lookup_cons, hkey]
  | case3 k b rest heq =>
    obtain rfl : key = k := Std.LawfulEqOrd.eq_of_compare heq
    simp [List.lookup_cons, hkey]
  | case4 k b rest hgt ih => simp [List.lookup_cons, ih]

theorem find?_insert_of_ne (t : PathTable α) (h : other ≠ key) (a : α) : (t.insert key a).find? other = t.find? other :=
  lookup_insertEntry_of_ne h a t.entries

theorem find?_erase_of_ne (t : PathTable α) (h : other ≠ key) : (t.erase key).find? other = t.find? other := by
  unfold erase find?
  dsimp only
  induction t.entries with
  | nil => rfl
  | cons entry entries ih =>
    obtain ⟨k, a⟩ := entry
    by_cases hk : k = key
    · have hother : (other == k) = false := by simpa [hk] using h
      rw [List.filter_cons_of_neg (by simpa using hk), ih, List.lookup_cons, hother]
    · rw [List.filter_cons_of_pos (by simpa using hk), List.lookup_cons, List.lookup_cons, ih]

end PathTable

/-! ## Operations -/

/-- An operation does not use a path, or it makes a directory of it. -/
def Operation.Spares (op : Operation) (p : Path) : Prop :=
  match op with
  | .makeDirectory _ => True
  | .write q _ | .remove q => Path.resolve p.components ≠ Path.resolve q.components

section Operations

variable {op : Operation} {p : Path}

theorem Store.get?_perform (h : op.Spares p) (s : Store) : (s.perform op).2.get? p = s.get? p := by
  cases op with
  | makeDirectory q => rfl
  | write q contents => exact s.table.find?_insert_of_ne h contents
  | remove q =>
    unfold Store.perform Store.remove
    dsimp only
    split
    · exact s.table.find?_erase_of_ne h
    · rfl

theorem FaultyStore.get?_perform (h : op.Spares p) (s : FaultyStore) :
    (s.perform op).2.store.get? p = s.store.get? p := by
  unfold FaultyStore.perform
  split
  · rfl
  · exact s.store.get?_perform h

theorem FaultyStore.get?_performAll {ops : List Operation} (h : ∀ op ∈ ops, op.Spares p) (s : FaultyStore) :
    (Storage.performAll s ops).2.store.get? p = s.store.get? p := by
  induction ops generalizing s with
  | nil => rfl
  | cons op ops ih =>
    obtain ⟨hop, hops⟩ := List.forall_mem_cons.1 h
    have hfirst : (Storage.perform s op).2.store.get? p = s.store.get? p := get?_perform hop s
    unfold Storage.performAll
    split
    · rename_i s' hs'
      rw [hs'] at hfirst
      rw [ih hops, hfirst]
    · rename_i reason s' hs'
      rw [hs'] at hfirst
      exact hfirst

end Operations

/-! ## Outputs -/

theorem Output.spares_operations {o : Output} {p : Path}
    (h : Path.resolve p.components ≠ Path.resolve o.path.components) (present : Bool) :
    ∀ op ∈ o.operations present, op.Spares p := by
  unfold operations
  split
  · rename_i contents _
    intro op hop
    rcases List.mem_append.1 hop with hop | hop
    · obtain ⟨dir, -, rfl⟩ := Option.map_eq_some_iff.1 (Option.mem_toList.1 hop)
      trivial
    · rw [List.mem_singleton.1 hop]
      exact h
  · split
    · simpa [Operation.Spares] using h
    · simp

/-- Saving outputs leaves a path alone that leads to none of them. -/
theorem FaultyStore.get?_saveAll {outputs : List Output} {p : Path}
    (h : ∀ o ∈ outputs, Path.resolve p.components ≠ Path.resolve o.path.components) (console : Console)
    (library : Library) (s : FaultyStore) :
    (Run.saveAll console library s outputs).storage.store.get? p = s.store.get? p := by
  induction outputs generalizing s with
  | nil => rfl
  | cons o outputs ih =>
    obtain ⟨ho, houtputs⟩ := List.forall_mem_cons.1 h
    unfold Run.saveAll
    dsimp only
    rw [ih houtputs]
    exact FaultyStore.get?_performAll (o.spares_operations ho _) s

end Idl
