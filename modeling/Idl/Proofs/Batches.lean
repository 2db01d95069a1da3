import Idl.Output.Batch
import Idl.Proofs.Paths

/-!
# What the outputs are made of

The batches of some emissions have different targets, in the order of their paths (`sorted_ofEmissions`).
Each of them holds the bodies that its target received, in the order of their emission
(`bodies_eq_received`), and every emission is in one of them (`exists_batch`). So there is one output for
each path that something was emitted to (`nodup_paths`, `mem_ofEmissions_iff`).
-/

namespace Idl

namespace Batch

/-- The target of one batch comes before the target of another one. -/
def Before (a b : Batch) : Prop := compare a.key b.key = .lt

/-- The targets are in path order, without repetition. -/
def Sorted (bs : List Batch) : Prop := bs.Pairwise Before

theorem Before.ne_key {a b : Batch} (h : Before a b) : a.key ≠ b.key := by
  intro heq
  rw [Before, heq, Std.ReflOrd.compare_self] at h
  cases h

theorem Before.trans {a b c : Batch} (h : Before a b) (h' : Before b c) : Before a c := Std.TransCmp.lt_trans h h'

/-- The bodies that batches hold for one target. -/
def bodiesAt (key : List Component) (bs : List Batch) : List (List Declaration) :=
  (bs.filter (·.key == key)).flatMap (·.bodies)

section Lists

variable {a : Batch} {bs : List Batch} {key : List Component}

@[simp]
theorem bodiesAt_nil : bodiesAt key [] = [] := rfl

theorem bodiesAt_cons : bodiesAt key (a :: bs) = (if a.key = key then a.bodies else []) ++ bodiesAt key bs := by
  by_cases h : a.key = key <;> simp [bodiesAt, h]

theorem bodiesAt_eq_nil (h : ∀ b ∈ bs, b.key ≠ key) : bodiesAt key bs = [] := by
  induction bs with
  | nil => rfl
  | cons b bs ih =>
    obtain ⟨hb, hbs⟩ := List.forall_mem_cons.1 h
    rw [bodiesAt_cons, if_neg hb, ih hbs, List.nil_append]

/-- In sorted batches, a target has the bodies of its batch. -/
theorem bodiesAt_key (h : Sorted bs) (ha : a ∈ bs) : bodiesAt a.key bs = a.bodies := by
  induction bs with
  | nil => cases ha
  | cons b bs ih =>
    obtain ⟨hb, hbs⟩ := List.pairwise_cons.1 h
    rw [bodiesAt_cons]
    rcases List.mem_cons.1 ha with rfl | ha
    · rw [if_pos rfl, bodiesAt_eq_nil fun c hc => (hb c hc).ne_key.symm, List.append_nil]
    · rw [if_neg (hb a ha).ne_key, ih hbs ha, List.nil_append]

end Lists

/-! ## Putting batches together -/

section Merge

variable {as bs : List Batch}

/-- Batches that are put together have a property of single batches that both lists have, if it does
not depend on the bodies. -/
theorem forall_merge {P : Batch → Prop} (happend : ∀ a b, P a → P (a.append b)) (ha : ∀ a ∈ as, P a)
    (hb : ∀ b ∈ bs, P b) : ∀ c ∈ merge as bs, P c := by
  fun_induction merge as bs with
  | case1 bs => exact hb
  | case2 as => exact ha
  | case3 a as b bs _ ih =>
    obtain ⟨ha, has⟩ := List.forall_mem_cons.1 ha
    exact List.forall_mem_cons.2 ⟨ha, ih has hb⟩
  | case4 a as b bs _ ih =>
    obtain ⟨ha, has⟩ := List.forall_mem_cons.1 ha
    exact List.forall_mem_cons.2 ⟨happend a b ha, ih has (List.forall_mem_cons.1 hb).2⟩
  | case5 a as b bs _ ih =>
    obtain ⟨hb, hbs⟩ := List.forall_mem_cons.1 hb
    exact List.forall_mem_cons.2 ⟨hb, ih ha hbs⟩

/-- A batch that comes before the first of some sorted ones comes before all of them. -/
theorem before_of_sorted {a b : Batch} (h : Before a b) (hbs : Sorted (b :: bs)) : ∀ c ∈ b :: bs, Before a c :=
  List.forall_mem_cons.2 ⟨h, fun c hc => h.trans ((List.pairwise_cons.1 hbs).1 c hc)⟩

theorem sorted_merge (has : Sorted as) (hbs : Sorted bs) : Sorted (merge as bs) := by
  fun_induction merge as bs with
  | case1 bs => exact hbs
  | case2 as => exact has
  | case3 a as b bs hlt ih =>
    obtain ⟨ha, has'⟩ := List.pairwise_cons.1 has
    exact List.pairwise_cons.2 ⟨forall_merge (fun _ _ => id) ha (before_of_sorted hlt hbs), ih has' hbs⟩
  | case4 a as b bs heq ih =>
    obtain ⟨ha, has'⟩ := List.pairwise_cons.1 has
    obtain ⟨hb, hbs'⟩ := List.pairwise_cons.1 hbs
    have hkey : a.key = b.key := Std.LawfulEqOrd.eq_of_compare heq
    have hb' : ∀ c ∈ bs, Before (a.append b) c := fun c hc => by
      rw [Before, show (a.append b).key = b.key from hkey]
      exact hb c hc
    exact List.pairwise_cons.2 ⟨forall_merge (fun _ _ => id) ha hb', ih has' hbs'⟩
  | case5 a as b bs hgt ih =>
    obtain ⟨hb, hbs'⟩ := List.pairwise_cons.1 hbs
    have hlt : Before b a := Std.OrientedCmp.lt_of_gt hgt
    exact List.pairwise_cons.2 ⟨forall_merge (fun _ _ => id) (before_of_sorted hlt has) hb, ih has hbs'⟩

/-- What a target received in two stages. -/
theorem bodiesAt_merge (key : List Component) (has : Sorted as) (hbs : Sorted bs) :
    bodiesAt key (merge as bs) = bodiesAt key as ++ bodiesAt key bs := by
  fun_induction merge as bs with
  | case1 bs => rfl
  | case2 as => simp
  | case3 a as b bs hlt ih =>
    rw [bodiesAt_cons, ih (List.pairwise_cons.1 has).2 hbs, bodiesAt_cons (a := a), List.append_assoc]
  | case4 a as b bs heq ih =>
    obtain ⟨ha, has'⟩ := List.pairwise_cons.1 has
    have hkey : a.key = b.key := Std.LawfulEqOrd.eq_of_compare heq
    rw [bodiesAt_cons, ih has' (List.pairwise_cons.1 hbs).2, bodiesAt_cons (a := a), bodiesAt_cons (a := b), ← hkey]
    by_cases h : a.key = key
    · -- the other targets of the first stage come after this one
      have hnil : bodiesAt key as = [] := bodiesAt_eq_nil fun c hc => h ▸ (ha c hc).ne_key.symm
      simp [append, h, hnil]
    · simp [append, h]
  | case5 a as b bs hgt ih =>
    have hlt : Before b a := Std.OrientedCmp.lt_of_gt hgt
    rw [bodiesAt_cons, ih has (List.pairwise_cons.1 hbs).2, bodiesAt_cons (a := b)]
    by_cases h : b.key = key
    · have hnil : bodiesAt key (a :: as) = [] :=
        bodiesAt_eq_nil fun c hc => h ▸ (before_of_sorted hlt has c hc).ne_key.symm
      simp [h, hnil]
    · simp [h]

end Merge

/-! ## Emissions -/

/-- The bodies that a target receives, in the order of their emission. -/
def received (es : List Emission) (key : List Component) : List (List Declaration) :=
  (es.filter (·.target.components == key)).map (·.body)

theorem received_append (es fs : List Emission) (key : List Component) :
    received (es ++ fs) key = received es key ++ received fs key := by simp [received]

/-- A batch has the target of an emission. -/
theorem exists_emission {es : List Emission} :
    ∀ b ∈ ofEmissions es, ∃ e ∈ es, b.target = e.target ∧ b.key = e.target.components := by
  fun_induction ofEmissions es with
  | case1 => simp
  | case2 e =>
    intro b hb
    rw [List.mem_singleton.1 hb]
    exact ⟨e, by simp, rfl, rfl⟩
  | case3 e f rest half ih₁ ih₂ =>
    refine forall_merge (fun _ _ => id) (fun b hb => ?_) fun b hb => ?_
    · obtain ⟨e', he', h⟩ := ih₁ b hb
      exact ⟨e', List.mem_of_mem_take he', h⟩
    · obtain ⟨e', he', h⟩ := ih₂ b hb
      exact ⟨e', List.mem_of_mem_drop he', h⟩

/-- A batch is told from the others by the components of its target. -/
theorem key_eq {es : List Emission} {b : Batch} (hb : b ∈ ofEmissions es) : b.key = b.target.components := by
  obtain ⟨e, -, htarget, hkey⟩ := exists_emission b hb
  rw [hkey, htarget]

theorem sorted_ofEmissions (es : List Emission) : Sorted (ofEmissions es) := by
  fun_induction ofEmissions es with
  | case1 => exact .nil
  | case2 e => exact List.pairwise_singleton ..
  | case3 e f rest half ih₁ ih₂ => exact sorted_merge ih₁ ih₂

theorem bodiesAt_ofEmissions (es : List Emission) (key : List Component) :
    bodiesAt key (ofEmissions es) = received es key := by
  fun_induction ofEmissions es with
  | case1 => rfl
  | case2 e =>
    rw [bodiesAt_cons]
    by_cases h : e.target.components = key <;> simp [ofEmission, received, h]
  | case3 e f rest half ih₁ ih₂ =>
    rw [bodiesAt_merge key (sorted_ofEmissions _) (sorted_ofEmissions _), ih₁, ih₂, ← received_append,
      List.take_append_drop]

/-- A batch holds what its target received. -/
theorem bodies_eq_received {es : List Emission} {b : Batch} (h : b ∈ ofEmissions es) :
    b.bodies = received es b.key := by
  rw [← bodiesAt_ofEmissions, bodiesAt_key (sorted_ofEmissions es) h]

/-- Every emission is in a batch. -/
theorem exists_batch {es : List Emission} {e : Emission} (h : e ∈ es) :
    ∃ b ∈ ofEmissions es, b.key = e.target.components ∧ e.body ∈ b.bodies := by
  have hmem : e.body ∈ bodiesAt e.target.components (ofEmissions es) := by
    rw [bodiesAt_ofEmissions]
    exact List.mem_map.2 ⟨e, List.mem_filter.2 ⟨h, by simp⟩, rfl⟩
  obtain ⟨b, hb, hbody⟩ := List.mem_flatMap.1 hmem
  obtain ⟨hb, hkey⟩ := List.mem_filter.1 hb
  exact ⟨b, hb, by simpa using hkey, hbody⟩

end Batch

namespace Output

variable {es : List Emission}

/-- Outputs have different paths. -/
theorem nodup_paths (es : List Emission) : ((ofEmissions es).map (·.path)).Nodup := by
  have hpairs : (Batch.ofEmissions es).Pairwise fun a b => a.target ≠ b.target := by
    refine (Batch.sorted_ofEmissions es).imp_of_mem fun {a b} ha hb hbefore heq => hbefore.ne_key ?_
    rw [Batch.key_eq ha, Batch.key_eq hb, heq]
  rw [ofEmissions, List.map_map]
  exact List.pairwise_map.2 hpairs

/-- There is an output for each path that something was emitted to, with all that was emitted to it. -/
theorem mem_ofEmissions_iff (spelled : ∀ e ∈ es, e.target = .ofComponents e.target.components) {o : Output} :
    o ∈ ofEmissions es ↔ ∃ e ∈ es, o = ⟨e.target, contentsOf ((es.filter (·.target = e.target)).map (·.body))⟩ := by
  have hreceived {e : Emission} (he : e ∈ es) :
      Batch.received es e.target.components = (es.filter (·.target = e.target)).map (·.body) := by
    unfold Batch.received
    congr 1
    refine List.filter_congr fun e' he' => ?_
    rw [Bool.eq_iff_iff, beq_iff_eq, decide_eq_true_iff]
    refine ⟨fun heq => ?_, fun heq => by rw [heq]⟩
    rw [spelled e he, spelled e' he', heq]
  constructor
  · intro ho
    obtain ⟨b, hb, rfl⟩ := List.mem_map.1 ho
    obtain ⟨e, he, htarget, hkey⟩ := Batch.exists_emission b hb
    refine ⟨e, he, ?_⟩
    rw [Batch.output, htarget, Batch.bodies_eq_received hb, hkey, hreceived he]
  · rintro ⟨e, he, rfl⟩
    obtain ⟨b, hb, hkey, -⟩ := Batch.exists_batch he
    obtain ⟨e', he', htarget, hkey'⟩ := Batch.exists_emission b hb
    have hsame : b.target = e.target := by rw [htarget, spelled e' he', ← hkey', hkey, ← spelled e he]
    refine List.mem_map.2 ⟨b, hb, ?_⟩
    rw [Batch.output, hsame, Batch.bodies_eq_received hb, hkey, hreceived he]

end Output

end Idl
