import Idl.Proofs.Contents
import Idl.Proofs.Steps

/-!
# Emissions in another order

Bodies for different targets are emitted in turns, and a target may receive several of them. Its output
is told by what it received, in the order in which it received it. So the outputs stay the same if
emissions to different targets are exchanged.

* `Batch.mem_ofEmissions_iff_gather`: a batch is what its target received.
* `Compilation.outputs_by_target`: the outputs of bodies that are emitted one after the other.
-/

namespace Idl

/-! ## What a target received -/

/-- Each path receives the same from both: the one is the other in an order in which emissions to the same target
keep theirs. -/
def Emission.Interleaves (es fs : List Emission) : Prop := ∀ path, sentTo path es = sentTo path fs

/-- Emissions to different targets can be exchanged. -/
theorem Emission.interleaves_swap {e f : Emission} (h : e.target.same f.target = false) (es : List Emission) :
    Interleaves (e :: f :: es) (f :: e :: es) := by
  intro path
  rw [sentTo, sentTo, List.filter_cons, List.filter_cons, List.filter_cons, List.filter_cons]
  cases he : e.target.same path with
  | false => rfl
  | true =>
    cases hf : f.target.same path with
    | false => rfl
    | true =>
      have hsame : e.target.same f.target = true := by
        rw [Path.same, beq_iff_eq, beq_iff_eq.1 he, beq_iff_eq.1 hf]
      rw [hsame] at h
      cases h

namespace Batch

open Emission (sentTo)

/-- The batch of emissions to one target, which is written as the first of them has it. -/
def gather : List Emission → Option Batch
  | [] => none
  | e :: rest => some ⟨e.target.components, e.target, (e :: rest).map (·.body)⟩

section Merge

variable {as bs : List Batch} {a b : Batch}

theorem Sorted.nodup (h : Sorted bs) : bs.Nodup := by
  refine List.Pairwise.imp (fun {a b} hbefore heq => ?_) h
  exact hbefore.ne_key (congrArg key heq)

/-- In sorted batches, a batch is found by its target. -/
theorem find?_key (h : Sorted bs) (hb : b ∈ bs) : bs.find? (·.key == b.key) = some b := by
  induction bs with
  | nil => cases hb
  | cons first rest ih =>
    obtain ⟨hfirst, hrest⟩ := List.pairwise_cons.1 h
    rcases List.mem_cons.1 hb with rfl | hb
    · rw [List.find?_cons_of_pos (by simp)]
    · rw [List.find?_cons_of_neg (by simpa using (hfirst b hb).ne_key), ih hrest hb]

/-- The target that batches have for a key. -/
def targetAt? (key : List Component) (bs : List Batch) : Option Path := (bs.find? (·.key == key)).map (·.target)

theorem targetAt?_cons (key : List Component) :
    targetAt? key (a :: bs) = if a.key = key then some a.target else targetAt? key bs := by
  by_cases h : a.key = key <;> simp [targetAt?, h]

theorem targetAt?_eq_none {key : List Component} (h : ∀ b ∈ bs, b.key ≠ key) : targetAt? key bs = none := by
  rw [targetAt?, List.find?_eq_none.2 (by simpa using h)]
  rfl

/-- A target is written as in the first of two stages that has it. -/
theorem targetAt?_merge (key : List Component) (has : Sorted as) (hbs : Sorted bs) :
    targetAt? key (merge as bs) = (targetAt? key as).or (targetAt? key bs) := by
  fun_induction merge as bs with
  | case1 bs => rfl
  | case2 as => simp [targetAt?]
  | case3 a as b bs hlt ih =>
    rw [targetAt?_cons, ih (List.pairwise_cons.1 has).2 hbs, targetAt?_cons (a := a)]
    split <;> rfl
  | case4 a as b bs heq ih =>
    have hkey : a.key = b.key := Std.LawfulEqOrd.eq_of_compare heq
    rw [targetAt?_cons, ih (List.pairwise_cons.1 has).2 (List.pairwise_cons.1 hbs).2, targetAt?_cons (a := a),
      targetAt?_cons (a := b), ← hkey]
    by_cases h : a.key = key <;> simp [append, h]
  | case5 a as b bs hgt ih =>
    have hlt : Before b a := Std.OrientedCmp.lt_of_gt hgt
    rw [targetAt?_cons, ih has (List.pairwise_cons.1 hbs).2, targetAt?_cons (a := b)]
    by_cases h : b.key = key
    · -- all targets of the first stage come after this one
      have hnone : targetAt? key (a :: as) = none :=
        targetAt?_eq_none fun c hc => h ▸ (before_of_sorted hlt has c hc).ne_key.symm
      simp [h, hnone]
    · simp [h]

end Merge

section Emissions

variable {es fs : List Emission} {b : Batch}

/-- A target is written as it was first. -/
theorem targetAt?_ofEmissions (es : List Emission) (key : List Component) :
    targetAt? key (ofEmissions es) = (es.find? (·.target.components == key)).map (·.target) := by
  fun_induction ofEmissions es with
  | case1 => rfl
  | case2 e =>
    rw [targetAt?_cons]
    by_cases h : e.target.components = key <;> simp [ofEmission, targetAt?, h]
  | case3 e f rest half ih₁ ih₂ =>
    rw [targetAt?_merge key (sorted_ofEmissions _) (sorted_ofEmissions _), ih₁, ih₂, ← Option.map_or,
      ← List.find?_append, List.take_append_drop]

theorem sentTo_congr {p q : Path} (h : p.components = q.components) (es : List Emission) :
    sentTo p es = sentTo q es := by
  rw [sentTo, sentTo]
  simp only [Path.same, h]

theorem gather_of_mem (hb : b ∈ ofEmissions es) : gather (sentTo b.target es) = some b := by
  have hkey := key_eq hb
  have hbodies : b.bodies = (sentTo b.target es).map (·.body) := by
    rw [bodies_eq_received hb, hkey]
    rfl
  have htarget : ((sentTo b.target es).head?).map (·.target) = some b.target := by
    have hfound : targetAt? b.key (ofEmissions es) = some b.target := by
      rw [targetAt?, find?_key (sorted_ofEmissions es) hb]
      rfl
    rw [sentTo, List.head?_filter]
    rw [targetAt?_ofEmissions, hkey] at hfound
    exact hfound
  cases hsent : sentTo b.target es with
  | nil =>
    rw [hsent] at htarget
    cases htarget
  | cons e rest =>
    rw [hsent] at hbodies htarget
    have heq : e.target = b.target := Option.some.inj htarget
    rw [gather, heq, ← hkey, ← hbodies]

/-- A batch is what its target received. -/
theorem mem_ofEmissions_iff_gather : b ∈ ofEmissions es ↔ gather (sentTo b.target es) = some b := by
  constructor
  · exact gather_of_mem
  · intro h
    cases hsent : sentTo b.target es with
    | nil =>
      rw [hsent] at h
      cases h
    | cons e rest =>
      rw [hsent] at h
      have he : e ∈ es := List.mem_of_mem_filter (hsent ▸ List.mem_cons_self)
      obtain ⟨b', hb', hkey, -⟩ := exists_batch he
      have htarget : b.target = e.target := by rw [← Option.some.inj h]
      have hsame : sentTo b'.target es = e :: rest := by
        rw [← hsent]
        apply sentTo_congr
        rw [← key_eq hb', hkey, htarget]
      have hgather := gather_of_mem hb'
      rw [hsame, h] at hgather
      rw [Option.some.inj hgather]
      exact hb'

/-- Batches with the same target are equal. -/
theorem eq_of_components {b' : Batch} (hb : b ∈ ofEmissions es) (hb' : b' ∈ ofEmissions es)
    (h : b.target.components = b'.target.components) : b = b' := by
  have hgather := gather_of_mem hb
  rw [sentTo_congr h, gather_of_mem hb'] at hgather
  exact (Option.some.inj hgather).symm

theorem ofEmissions_congr (h : Emission.Interleaves es fs) : ofEmissions fs = ofEmissions es := by
  have hperm : (ofEmissions fs).Perm (ofEmissions es) := by
    refine (List.perm_ext_iff_of_nodup (sorted_ofEmissions fs).nodup (sorted_ofEmissions es).nodup).2 fun b => ?_
    rw [mem_ofEmissions_iff_gather, mem_ofEmissions_iff_gather, h]
  refine hperm.eq_of_pairwise (fun a b _ _ hab hba => ?_) (sorted_ofEmissions fs) (sorted_ofEmissions es)
  exact absurd rfl (hab.trans hba).ne_key

end Emissions

end Batch

/-! ## The outputs -/

namespace Output

open Emission (sentTo)

variable {es : List Emission} {o : Output}

/-- The outputs are in path order. -/
theorem pairwise_components (es : List Emission) :
    (ofEmissions es).Pairwise fun o o' => compare o.path.components o'.path.components = .lt := by
  refine List.pairwise_map.2 ((Batch.sorted_ofEmissions es).imp_of_mem fun {b b'} hb hb' hbefore => ?_)
  rw [Batch.Before, Batch.key_eq hb, Batch.key_eq hb'] at hbefore
  exact hbefore

/-- A target has one output. -/
theorem existsUnique_output {e : Emission} (he : e ∈ es) : ∃! o, o ∈ ofEmissions es ∧ o.path.same e.target := by
  obtain ⟨b, hb, hkey, -⟩ := Batch.exists_batch he
  rw [Batch.key_eq hb] at hkey
  refine ⟨b.output, ⟨List.mem_map_of_mem hb, beq_iff_eq.2 hkey⟩, ?_⟩
  rintro o ⟨ho, hsame⟩
  obtain ⟨b', hb', rfl⟩ := List.mem_map.1 ho
  have hcomponents : b'.target.components = b.target.components := (beq_iff_eq.1 hsame).trans hkey.symm
  rw [Batch.eq_of_components hb' hb hcomponents]

end Output

namespace Compilation

open Emission (sentTo)
open Output (IsContents joinedText)

/-- The state after bodies are emitted one after the other. -/
def emitting (s : Compilation) (es : List Emission) : Compilation :=
  es.foldl (fun s e => (outcome (emit e.target e.body) s).2) s

theorem emissions_emitting (s : Compilation) (es : List Emission) : (s.emitting es).emissions = s.emissions ++ es := by
  induction es generalizing s with
  | nil => exact (List.append_nil _).symm
  | cons e es ih =>
    have hfirst : (outcome (emit e.target e.body) s).2.emissions = s.emissions ++ [e] := rfl
    rw [emitting, List.foldl_cons, ← emitting, ih, hfirst, List.append_assoc, List.singleton_append]

theorem finish_emitting (es : List Emission) : (empty.emitting es).finish.1 = Output.ofEmissions es := by
  have hemissions : (empty.emitting es).emissions = es := emissions_emitting empty es
  rw [finish, hemissions]

/-- Whatever bodies are emitted one after the other, there is one output for each target, in path order. The outputs
are the same if the bodies come in another order, as long as those for one target keep theirs. An output has no
contents if there is nothing but line ends in the texts of the bodies that its target received; otherwise it holds
what they import in increasing order, and their texts. -/
theorem outputs_by_target (es : List Emission) :
    ((empty.emitting es).finish.1.Pairwise fun o o' => compare o.path.components o'.path.components = .lt) ∧
      (∀ o ∈ (empty.emitting es).finish.1, ∃ e ∈ es, e.target = o.path) ∧
      (∀ e ∈ es, ∃! o, o ∈ (empty.emitting es).finish.1 ∧ o.path.same e.target) ∧
      (∀ fs, Emission.Interleaves es fs → (empty.emitting fs).finish.1 = (empty.emitting es).finish.1) ∧
      ∀ o ∈ (empty.emitting es).finish.1,
        (o.contents = none ↔ ∀ c ∈ (joinedText ((sentTo o.path es).map (·.body))).toList, c = '\n') ∧
          ∀ contents, o.contents = some contents → IsContents ((sentTo o.path es).map (·.body)) contents := by
  simp only [finish_emitting]
  refine ⟨Output.pairwise_components es, fun o ho => Output.exists_target ho,
    fun e he => Output.existsUnique_output he, fun fs h => ?_, fun o ho => ?_⟩
  · rw [Output.ofEmissions, Output.ofEmissions, Batch.ofEmissions_congr h]
  · rw [Output.contents_eq ho]
    exact ⟨Output.contentsOf_eq_none_iff, fun contents h => Output.isContents_of_contentsOf h⟩

/-- A body that uses a declaration of another output. -/
def lineBody : Emission := ⟨⟨"g//a.ts"⟩, [.imported ⟨"P", "./p"⟩, Declaration.typedef "L" (.array (.named "P"))]⟩

/-- A body for the same output, which is written in another way. -/
def circleBody : Emission :=
  ⟨⟨"g/a.ts"⟩, [.imported ⟨"P", "./p"⟩, .imported ⟨"N", "./p"⟩, Declaration.typedef "C" (.named "P")]⟩

/-- A body of nothing but a module. -/
def moduleBody : Emission := ⟨⟨"b.ts"⟩, [.module "M" []]⟩

/-- What is written for the two bodies of the same output. -/
def figures : String := "import \x7b N, P \x7d from './p';\n\nexport type L = Array<P>;\nexport type C = P;\n"

/-- Two bodies for one output have their imports merged, and it does not matter when the body of another output is
emitted. -/
theorem outputs_by_target_turns :
    (empty.emitting [lineBody, moduleBody, circleBody]).finish.1 = [⟨⟨"b.ts"⟩, none⟩, ⟨⟨"g//a.ts"⟩, some figures⟩] ∧
      (empty.emitting [moduleBody, lineBody, circleBody]).finish.1 = [⟨⟨"b.ts"⟩, none⟩, ⟨⟨"g//a.ts"⟩, some figures⟩] ∧
      IsContents ((sentTo ⟨"g//a.ts"⟩ [lineBody, moduleBody, circleBody]).map (·.body)) figures := by
  have houtputs : (empty.emitting [lineBody, moduleBody, circleBody]).finish.1 =
      [⟨⟨"b.ts"⟩, none⟩, ⟨⟨"g//a.ts"⟩, some figures⟩] := by decide +kernel
  have hswap : Emission.Interleaves [lineBody, moduleBody, circleBody] [moduleBody, lineBody, circleBody] :=
    Emission.interleaves_swap (by decide +kernel) _
  obtain ⟨-, -, -, hturns, hcontents⟩ := outputs_by_target [lineBody, moduleBody, circleBody]
  rw [houtputs] at hturns hcontents
  exact ⟨houtputs, hturns _ hswap, (hcontents _ (List.mem_cons_of_mem _ List.mem_cons_self)).2 figures rfl⟩

end Compilation

end Idl
