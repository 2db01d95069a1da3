import Idl.Proofs.Batches
import Idl.Proofs.Directories
import Idl.Proofs.Places
import Idl.Proofs.Reruns
import Idl.Proofs.Transfers

/-!
# Files in another directory

Files that are put under a directory compile to the same outputs, under that directory.

* `Relocation.under d`: everything is put under the directory `d`.
* `Output.ofEmissions_under`: the outputs of relocated emissions are the relocated outputs.
* `relocated_outputs`: the outputs of a run over a store whose files were put under a directory.
-/

namespace Idl

open Idl.Path Placement

variable {d dir cs : List Component}

/-! ## Paths -/

/-- The path with the components `d` in front of it. -/
def Path.under (d : List Component) (p : Path) : Path := ofComponents (d ++ p.components)

/-- The path of something below: names, and a last component of a certain kind. -/
inductive Path.IsNested (P : Component → Prop) : Path → Prop
  | intro {dir : List Component} {last : Component} (down : ∀ c ∈ dir, c.IsDown) (last_step : last.IsStep)
      (kind : P last) : IsNested P (ofComponents (dir ++ [last]))

section Nested

variable {P : Component → Prop} {p q : Path} {last : Component}

theorem Path.under_ofComponents (hdir : ∀ c ∈ dir, c.IsDown) (hlast : last.IsStep) :
    under d (ofComponents (dir ++ [last])) = ofComponents (d ++ dir ++ [last]) := by
  rw [under, components_ofComponents ((spelled_of_isDown hdir).snoc hlast), List.append_assoc]

theorem Path.IsNested.components_under (h : IsNested P p) (hd : ∀ c ∈ d, c.IsDown) :
    (under d p).components = d ++ p.components := by
  obtain ⟨hdir, hlast, -⟩ := h
  have hspelled := spelled_of_isDown (List.forall_mem_append.2 ⟨hd, hdir⟩)
  rw [under_ofComponents hdir hlast, components_ofComponents (hspelled.snoc hlast),
    components_ofComponents ((spelled_of_isDown hdir).snoc hlast), List.append_assoc]

theorem Path.IsNested.eq_ofComponents (h : IsNested P p) : p = ofComponents p.components := by
  obtain ⟨hdir, hlast, -⟩ := h
  rw [components_ofComponents ((spelled_of_isDown hdir).snoc hlast)]

/-- What has a directory in front of it is what is taken from there. -/
theorem Path.IsNested.join_eq (h : IsNested P p) (hd : ∀ c ∈ d, c.IsDown) : (ofComponents d).join p = under d p := by
  obtain ⟨hdir, hlast, -⟩ := h
  have hspelled := spelled_of_isDown (List.forall_mem_append.2 ⟨hd, hdir⟩)
  have hrelative := isAbsolute_ofComponents (fun c hc => (hdir c hc).isStep) hlast
  rw [under_ofComponents hdir hlast]
  apply eq_of_toList
  rw [toList_join (spelled_of_isDown hd) hrelative, ofComponents, ofComponents,
    toList_render (spelled_of_isDown hdir) hlast, toList_render hspelled hlast, List.flatMap_append, List.append_assoc]

theorem Path.IsNested.same_under {Q : Component → Prop} (hp : IsNested P p) (hq : IsNested Q q)
    (hd : ∀ c ∈ d, c.IsDown) : (under d p).same (under d q) = p.same q := by
  unfold same
  rw [hp.components_under hd, hq.components_under hd, Bool.eq_iff_iff, beq_iff_eq, beq_iff_eq]
  exact ⟨List.append_cancel_left, congrArg (d ++ ·)⟩

theorem Path.IsNested.under_inj (hp : IsNested P p) (hq : IsNested P q) (hd : ∀ c ∈ d, c.IsDown)
    (h : under d p = under d q) : p = q := by
  have hcomponents := congrArg components h
  rw [hp.components_under hd, hq.components_under hd] at hcomponents
  rw [hp.eq_ofComponents, hq.eq_ofComponents, List.append_cancel_left hcomponents]

/-! ### Operations on the last component -/

/-- What an operation makes of the last component does not depend on those before. -/
def Path.IsLocal (f : Path → Path) (last : Component) : Prop :=
  ∃ more c, (∀ e ∈ more, e.IsDown) ∧ c.IsStep ∧
    ∀ dir, Spelled dir → f (ofComponents (dir ++ [last])) = ofComponents (dir ++ more ++ [c])

theorem Path.IsNested.of_isLocal {f : Path → Path} (h : IsNested P p) (hf : ∀ c, c.IsStep → P c → IsLocal f c)
    (hd : ∀ c ∈ d, c.IsDown) : IsNested (fun _ => True) (f p) ∧ f (under d p) = under d (f p) := by
  obtain ⟨hdir, hlast, hkind⟩ := h
  obtain ⟨more, c, hmore, hc, hlocal⟩ := hf _ hlast hkind
  have hbelow := List.forall_mem_append.2 ⟨hdir, hmore⟩
  have hspelled := spelled_of_isDown (List.forall_mem_append.2 ⟨hd, hdir⟩)
  rw [under_ofComponents hdir hlast, hlocal _ (spelled_of_isDown hdir), hlocal _ hspelled,
    under_ofComponents hbelow hc, List.append_assoc d]
  exact ⟨.intro hbelow hc trivial, rfl⟩

theorem Placement.isLocal_ofSource {c : Component} (hc : c.IsDown) : IsLocal ofSource c := by
  cases c with
  | root | current | parent => exact absurd hc id
  | name n =>
    have hn : PlainName n.toList := hc
    refine ⟨[], if isDotted n then .parent else .name (replaceExtension n outputExtension), List.forall_mem_nil _, ?_,
      fun dir hdir => ?_⟩
    · split
      · trivial
      · exact plainName_replaceExtension hn (by decide) (by decide)
    · rw [List.append_nil]
      exact withExtension_ofComponents hdir hn (by decide) (by decide)

theorem Placement.isLocal_ofModule {c : Component} {name : String} (hc : c.IsStep) (hname : IsName name) :
    IsLocal (ofModule · name) c := by
  cases c with
  | root | current => exact absurd hc id
  | parent =>
    refine ⟨[], .name (outputName name.toList), List.forall_mem_nil _, ?_, fun dir hdir => ?_⟩
    · exact plainName_outputName hname.ne_nil hname.notMem_slash
    · rw [List.append_nil]
      exact ofModule_ofComponents_parent hdir hname
  | name file =>
    refine ⟨[.name name], .name file, List.forall_mem_singleton.2 hname.plainName, hc, fun dir hdir => ?_⟩
    exact ofModule_ofComponents hdir hc hname

/-! ### Paths that are resolved -/

theorem Path.IsNested.isDown_components (h : IsNested Component.IsDown p) : ∀ c ∈ p.components, c.IsDown := by
  obtain ⟨hdir, hlast, hkind⟩ := h
  rw [components_ofComponents ((spelled_of_isDown hdir).snoc hlast)]
  exact List.forall_mem_append.2 ⟨hdir, List.forall_mem_singleton.2 hkind⟩

/-- Components that lead to a nested place lead to it from each directory. -/
theorem Path.ofComponents_resolve_under (hd : ∀ c ∈ d, c.IsDown) (hcs : Spelled (Path.resolve cs))
    (h : IsNested Component.IsDown (ofComponents (Path.resolve cs))) :
    ofComponents (Path.resolve (d ++ cs)) = under d (ofComponents (Path.resolve cs)) := by
  have hdown := h.isDown_components
  rw [components_ofComponents hcs] at hdown
  have hparent : .parent ∉ Path.resolve cs := fun hmem => hdown _ hmem
  rw [resolve_down_append hd hparent, under, components_ofComponents hcs]

/-- A path that leads to a nested place leads to it from each directory. -/
theorem Path.normalize_join (h : IsNested Component.IsDown p.normalize) (hd : ∀ c ∈ d, c.IsDown) :
    ((ofComponents d).join p).normalize = p.normalize.under d := by
  have hrelative : p.isAbsolute = false := by
    rw [Bool.eq_false_iff]
    intro habsolute
    exact h.isDown_components _ (components_normalize p ▸ root_mem_resolve habsolute)
  rw [normalize, resolve_join (spelled_of_isDown hd) hrelative]
  exact ofComponents_resolve_under hd p.spelled_resolve h

/-- Whether the text of an include starts as a name does, and so is taken from the directory of its file. -/
def startsAsName (written : String) : Bool := written.toList.head?.any Text.continuesName

theorem isAbsolute_of_startsAsName {written : String} (h : startsAsName written = true) :
    (⟨written⟩ : Path).isAbsolute = false := by
  obtain ⟨c, hc, hname⟩ := (Option.any_eq_true ..).1 h
  have hslash : c ≠ '/' := by
    rintro rfl
    revert hname
    decide
  unfold isAbsolute
  rw [hc]
  simpa using hslash

/-- An include leads where its components lead from the directory of the file. -/
theorem Compilation.included_ofComponents {written : String} (hdir : ∀ c ∈ dir, c.IsDown) (hlast : last.IsStep)
    (h : startsAsName written = true) : included (ofComponents (dir ++ [last])) written =
      ofComponents (Path.resolve (dir ++ (⟨written⟩ : Path).components)) := by
  have hrelative := isAbsolute_of_startsAsName h
  obtain ⟨c, hc, hname⟩ := (Option.any_eq_true ..).1 h
  obtain ⟨rest, hrest⟩ := List.head?_eq_some_iff.1 hc
  unfold included includedPath
  rw [hrest]
  dsimp only
  rw [if_pos hname, directory_ofComponents (spelled_of_isDown hdir) hlast, Path.normalize,
    resolve_join (spelled_of_isDown hdir) hrelative]

/-- An include that leads to a nested file leads to it from each directory. -/
theorem Compilation.included_under {written : String} (hp : IsNested Component.IsDown p)
    (hwritten : startsAsName written = true) (hfile : IsNested Component.IsDown (included p written))
    (hd : ∀ c ∈ d, c.IsDown) : included (under d p) written = under d (included p written) := by
  obtain ⟨hdir, hlast, -⟩ := hp
  rename_i dir last
  have hspelled := spelled_resolve ((ofComponents dir).join ⟨written⟩)
  rw [resolve_join (spelled_of_isDown hdir) (isAbsolute_of_startsAsName hwritten)] at hspelled
  rw [included_ofComponents hdir hlast hwritten] at hfile ⊢
  rw [under_ofComponents hdir hlast, included_ofComponents (List.forall_mem_append.2 ⟨hd, hdir⟩) hlast hwritten,
    List.append_assoc]
  exact ofComponents_resolve_under hd hspelled hfile

end Nested

/-- Everything is put under a directory. -/
def Relocation.under (d : List Component) (hd : ∀ c ∈ d, c.IsDown) : Relocation where
  path := Path.under d
  IsFile := IsNested Component.IsDown
  IsTarget := IsNested fun _ => True
  Leads written := startsAsName written = true
  injective hp hq h := hp.under_inj hq hd h
  included hp hwritten hfile := Compilation.included_under hp hwritten hfile hd
  target_ofSource hp := (hp.of_isLocal (fun _ _ => isLocal_ofSource) hd).1
  ofSource_path hp := (hp.of_isLocal (fun _ _ => isLocal_ofSource) hd).2
  apart hp := (hp.of_isLocal (fun _ _ => isLocal_ofSource) hd).1.same_under hp hd
  target_ofModule ht hname := (ht.of_isLocal (fun _ hc _ => isLocal_ofModule hc hname) hd).1
  ofModule_path ht hname := (ht.of_isLocal (fun _ hc _ => isLocal_ofModule hc hname) hd).2
  same_path ht hu := ht.same_under hu hd
  specifier_path ht hu := by
    obtain ⟨ht, hlast, -⟩ := ht
    obtain ⟨hu, hlast', -⟩ := hu
    rw [under_ofComponents ht hlast, under_ofComponents hu hlast']
    exact importSpecifier_append hd ht hu hlast hlast'

/-! ## Outputs -/

/-- What both lists have in front does not count for their order. -/
theorem compare_append_left (d as bs : List Component) : compare (d ++ as) (d ++ bs) = compare as bs := by
  induction d with
  | nil => rfl
  | cons c d ih =>
    show List.compareLex compare (c :: (d ++ as)) (c :: (d ++ bs)) = _
    rw [List.compareLex_cons_cons, Std.ReflOrd.compare_self]
    exact ih

namespace Batch

/-- The batch of what is emitted under a directory. -/
def under (d : List Component) (b : Batch) : Batch := { b with key := d ++ b.key, target := b.target.under d }

theorem merge_under (as bs : List Batch) :
    merge (as.map (under d)) (bs.map (under d)) = (merge as bs).map (under d) := by
  fun_induction merge as bs with
  | case1 bs => rw [List.map_nil, merge]
  | case2 as hne =>
    rw [List.map_nil, merge]
    exact fun h => hne (List.map_eq_nil_iff.1 h)
  | case3 a as b bs hcompare ih | case4 a as b bs hcompare ih | case5 a as b bs hcompare ih =>
    rw [List.map_cons, List.map_cons, merge, under, under, compare_append_left, hcompare]
    exact congrArg _ ih

theorem ofEmissions_under (hd : ∀ c ∈ d, c.IsDown) (es : List Emission)
    (h : ∀ e ∈ es, IsNested (fun _ => True) e.target) :
    ofEmissions (es.map (Relocation.under d hd).emission) = (ofEmissions es).map (under d) := by
  fun_induction ofEmissions es with
  | case1 => rw [List.map_nil, List.map_nil, ofEmissions]
  | case2 e =>
    have hcomponents := (List.forall_mem_singleton.1 h).components_under hd
    rw [List.map_singleton, ofEmissions]
    simp [ofEmission, under, Relocation.emission, Relocation.under, hcomponents]
  | case3 e f rest half ih₁ ih₂ =>
    have htake := ih₁ fun g hg => h g (List.mem_of_mem_take hg)
    have hdrop := ih₂ fun g hg => h g (List.mem_of_mem_drop hg)
    rw [List.map_cons, List.map_cons, ofEmissions, ← List.map_cons, ← List.map_cons, List.length_map, ← List.map_take,
      ← List.map_drop, htake, hdrop, merge_under]

end Batch

/-- The outputs of what is emitted under a directory are the outputs, under that directory. -/
theorem Output.ofEmissions_under (hd : ∀ c ∈ d, c.IsDown) {es : List Emission}
    (h : ∀ e ∈ es, IsNested (fun _ => True) e.target) :
    ofEmissions (es.map (Relocation.under d hd).emission) =
      (ofEmissions es).map fun o => { o with path := (Path.ofComponents d).join o.path } := by
  rw [ofEmissions, ofEmissions, Batch.ofEmissions_under hd es h, List.map_map, List.map_map]
  apply List.map_congr_left
  intro b hb
  obtain ⟨e, he, htarget, -⟩ := Batch.exists_emission b hb
  simp only [Function.comp_apply, Batch.output, Batch.under, htarget, (h e he).join_eq hd]

/-! ## Stores -/

/-- The store with all its files under a directory. -/
def Store.under (d : List Component) (s : Store) : Store :=
  ⟨⟨s.table.entries.map fun entry => (d ++ entry.1, entry.2)⟩⟩

/-- The paths of a store are relative, and none starts with two dots. -/
def Store.IsInside (s : Store) : Prop :=
  ∀ entry ∈ s.table.entries, ∃ p : Path, entry.1 = Path.resolve p.components ∧ p.isAbsolute = false ∧
    entry.1.head? ≠ some .parent

theorem Store.IsInside.isDown {s : Store} (h : s.IsInside) {entry : List Component × String}
    (hentry : entry ∈ s.table.entries) : ∀ c ∈ entry.1, c.IsDown := by
  obtain ⟨p, heq, hrelative, hhead⟩ := h entry hentry
  rw [heq] at hhead ⊢
  exact isDown_resolve hrelative hhead

/-- A file under a directory is read as it was before. -/
theorem Store.IsInside.lookup_under {s : Store} (h : s.IsInside) (hd : ∀ c ∈ d, c.IsDown) {q : Path}
    (hq : IsNested Component.IsDown q) : (s.under d).texts.lookup (q.under d) = s.texts.lookup q := by
  have hkeys : ∀ entry ∈ s.table.entries, ∀ c ∈ entry.1, c.IsDown := fun _ => h.isDown
  unfold texts Store.under
  generalize s.table.entries = entries at hkeys ⊢
  induction entries with
  | nil => rfl
  | cons entry entries ih =>
    obtain ⟨hentry, hentries⟩ := List.forall_mem_cons.1 hkeys
    have hbelow := spelled_of_isDown (List.forall_mem_append.2 ⟨hd, hentry⟩)
    have hbeq : (q.under d == ofComponents (d ++ entry.1)) = (q == ofComponents entry.1) := by
      rw [Bool.eq_iff_iff, beq_iff_eq, beq_iff_eq]
      constructor
      · intro heq
        have hcomponents := congrArg components heq
        rw [hq.components_under hd, components_ofComponents hbelow] at hcomponents
        rw [hq.eq_ofComponents, List.append_cancel_left hcomponents]
      · rintro rfl
        rw [Path.under, components_ofComponents (spelled_of_isDown hentry)]
    simp only [List.map_cons, List.lookup_cons, hbeq]
    rw [← ih hentries]

/-- A file that is read from a store is nested in it. -/
theorem Store.IsInside.isNested {s : Store} (h : s.IsInside) {q : Path} (hq : Readable q)
    (hread : (s.texts.lookup q).isSome) : IsNested Component.IsDown q := by
  obtain ⟨text, htext⟩ := Option.isSome_iff_exists.1 hread
  obtain ⟨entry, hentry, heq⟩ := List.mem_map.1 (Compilation.mem_of_lookup htext)
  have hkey := h.isDown hentry
  obtain ⟨dir, n, rfl, hdir, -, hn⟩ := hq.eq_snoc
  have hcomponents := congrArg components (Prod.mk.inj heq).1
  rw [components_ofComponents (spelled_of_isDown hkey), components_ofComponents (hdir.snoc (c := .name n) hn)]
    at hcomponents
  rw [hcomponents] at hkey
  exact .intro (List.forall_mem_append.1 hkey).1 hn hn

namespace Compilation

/-! ## Runs -/

section Runs

variable {sources : Sources} {path target : Path} {s s' : Compilation} {items : List Item}
  {events : List Event}

theorem Opens.readable (h : Opens sources path s items s') (hnormal : path.normalize = path) :
    (sources.texts.lookup path).isSome ∧ Readable path := by
  obtain ⟨-, apart, read, -, -⟩ := h
  exact ⟨by rw [read]; rfl, hnormal, apart⟩

/-- Each file that is compiled was read. -/
theorem Traced.readable (h : Traced sources path target items s events s') :
    ∀ q ∈ s'.compiled, q ∈ s.compiled ∨ ((sources.texts.lookup q).isSome ∧ Readable q) := by
  induction h with
  | nil => exact fun q => .inl
  | comment rest ih => exact ih
  | define new quiet rest ih | skip named old quiet rest ih =>
    intro q hq
    rw [← quiet.sameFiles.compiled]
    exact ih q hq
  | file named fresh opens within closes rest ihbody ih =>
    intro q hq
    obtain ⟨_, _, _, _, _, hcompiled⟩ := opens.files_eq
    rcases ih q hq with hq | hq
    · rw [closes.files_eq.2] at hq
      rcases List.mem_cons.1 hq with rfl | hq
      · exact .inr (opens.readable (named ▸ normalize_normalize _))
      · exact hcompiled ▸ ihbody q hq
    · exact .inr hq
  | guarded quiet within rest ihbody ih =>
    intro q hq
    rw [← quiet.sameFiles.compiled]
    exact (ih q hq).elim (ihbody q) .inr
  | module quiet within emits rest ihbody ih =>
    intro q hq
    have hemits := emits.sameFiles.compiled
    rw [← quiet.sameFiles.compiled]
    exact (ih q hq).elim (fun hq => ihbody q (hemits ▸ hq)) .inr
  | declared at_path names gives rest ih =>
    intro q hq
    rw [← (declares_of_gives names gives).sameFiles.compiled]
    exact ih q hq

theorem FileTraced.readable {body : List Event} (h : FileTraced sources path .empty body s')
    (hnormal : path.normalize = path) : ∀ q ∈ s'.compiled, (sources.texts.lookup q).isSome ∧ Readable q := by
  obtain ⟨items, s₁, s₂, opens, within, closes⟩ := h
  obtain ⟨_, _, _, _, _, hcompiled⟩ := opens.files_eq
  intro q hq
  rw [closes.files_eq.2] at hq
  rcases List.mem_cons.1 hq with rfl | hq
  · exact opens.readable hnormal
  · refine (within.readable q hq).resolve_left ?_
    rw [hcompiled]
    exact List.not_mem_nil

end Runs

/-- Files that are put under a directory compile to the same declarations, and to the same outputs under that directory.
The paths of the store are relative and do not start with two dots, and the includes of the files that are read start as
a name does, so that each of them is taken from the directory of its file. -/
theorem relocated_outputs {store : Store} {path : Path} {ds : List Declaration} {s : Compilation}
    (inside : store.IsInside)
    (run : Gives (compileFile (Storage.sources (FaultyStore.faultless store)) path) .empty ds s)
    (leads : ∀ written ∈ s.library.written, startsAsName written = true) (hd : ∀ c ∈ d, c.IsDown) :
    ∃ s', Gives (compileFile (Storage.sources (FaultyStore.faultless (store.under d))) ((ofComponents d).join path))
        .empty ds s' ∧
      Output.ofEmissions s'.emissions =
        (Output.ofEmissions s.emissions).map fun o => { o with path := (ofComponents d).join o.path } := by
  obtain ⟨rfl, hfile⟩ := fileTraced_of_compileFile run
  have hnested : ∀ q ∈ s.compiled, IsNested Component.IsDown q := by
    intro q hq
    obtain ⟨hread, hreadable⟩ := hfile.readable (normalize_normalize path) q hq
    rw [FaultyStore.texts_faultless] at hread
    exact inside.isNested hreadable hread
  have hroot := hnested _ hfile.mem_compiled
  have hclear : Clear (.under d hd) .empty (Storage.sources (FaultyStore.faultless store))
      (Storage.sources (FaultyStore.faultless (store.under d))) s := by
    refine ⟨?_, ?_, hnested, fun q hq => ⟨List.not_mem_nil, List.not_mem_nil⟩, fun q hq => ?_,
      fun written hwritten => leads written (Library.writes_iff.1 hwritten)⟩
    · simp [Compilation.empty, SymbolTable.names, SymbolTable.empty]
    · simp [Compilation.empty, Defines.names, Defines.empty]
    · rw [FaultyStore.texts_faultless, FaultyStore.texts_faultless]
      exact inside.lookup_under hd (hnested q hq)
  obtain ⟨s', hgives, hs'⟩ := attains_compileFile (normalize_join hroot hd) fun t ht =>
    hfile.carried rfl hclear (by simp [Compilation.empty, Defines.names, Defines.empty]) (mirrors_empty [] ht) none
  refine ⟨s', hgives, ?_⟩
  rw [hs'.emissions]
  exact Output.ofEmissions_under hd hs'.targets

/-- Two files in a directory. One includes the other one, by way of a third directory. -/
def neighbours : Store where
  table := ⟨[([.name "a", .name "m.idl"], "#include \"b/../t.idl\"\nmodule M \x7b\ntypedef X Y;\n\x7d;\n"),
    ([.name "a", .name "t.idl"], "typedef long X;\n")]⟩

/-- The two files are compiled under another directory. -/
theorem relocated_outputs_neighbours :
    ∃ ds s', Gives (compileFile (Storage.sources (FaultyStore.faultless neighbours)) ⟨"a/m.idl"⟩) .empty ds
        (outcome (compileFile (Storage.sources (FaultyStore.faultless neighbours)) ⟨"a/m.idl"⟩) .empty).2 ∧
      Gives (compileFile (Storage.sources (FaultyStore.faultless (neighbours.under [.name "lib"])))
        ((ofComponents [.name "lib"]).join ⟨"a/m.idl"⟩)) .empty ds s' ∧
      Output.ofEmissions s'.emissions =
        (Output.ofEmissions (outcome (compileFile (Storage.sources (FaultyStore.faultless neighbours)) ⟨"a/m.idl"⟩)
          .empty).2.emissions).map fun o => { o with path := (ofComponents [.name "lib"]).join o.path } := by
  obtain ⟨ds, run⟩ := exists_gives (s := .empty)
    (m := compileFile (Storage.sources (FaultyStore.faultless neighbours)) ⟨"a/m.idl"⟩) (by decide +kernel)
  have inside : neighbours.IsInside := by
    refine List.forall_mem_cons.2 ⟨⟨⟨"a/m.idl"⟩, ?_⟩, List.forall_mem_singleton.2 ⟨⟨"a/t.idl"⟩, ?_⟩⟩
    · decide +kernel
    · decide +kernel
  have hlib : ∀ c ∈ [Component.name "lib"], c.IsDown :=
    List.forall_mem_singleton.2 ⟨by decide, by decide, by decide, by decide⟩
  obtain ⟨s', hgives, houtputs⟩ := relocated_outputs inside run (by decide +kernel) hlib
  exact ⟨ds, s', run, hgives, houtputs⟩

end Compilation

end Idl
