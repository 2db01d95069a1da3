import Idl.Proofs.Batches
import Mathlib.Data.List.Sort
import Mathlib.Data.List.TakeWhile
import Mathlib.Data.String.Basic

/-!
# What is written for a target

An output holds the lines of its import table, and then the texts of the bodies that its target received, in
the order in which it received them.

* `ImportTable`: specifiers in increasing order, each with its names in increasing order.
* `ImportTable.Heads table bodies text`: the text is what is written for the bodies under the lines of the table.
* `heads_of_contentsOf`: the contents of an output have the table of all the imports in its bodies.
* `contentsOf_ne_none`: an output in which something is declared has contents.
-/

namespace Idl

namespace Output

/-! ## Texts in increasing order -/

section Texts

variable {text other : String} {texts : List String}

theorem mem_insertText : other ∈ insertText text texts ↔ other = text ∨ other ∈ texts := by
  induction texts with
  | nil => simp [insertText]
  | cons first rest ih =>
    rw [insertText]
    split
    · exact List.mem_cons
    · split
      · rename_i heq
        rw [heq, List.mem_cons, ← or_assoc, or_self]
      · rw [List.mem_cons, ih, List.mem_cons, or_left_comm]

theorem pairwise_insertText (h : texts.Pairwise (· < ·)) : (insertText text texts).Pairwise (· < ·) := by
  induction texts with
  | nil => exact List.pairwise_singleton ..
  | cons first rest ih =>
    obtain ⟨hfirst, hrest⟩ := List.pairwise_cons.1 h
    rw [insertText]
    split
    · rename_i hlt
      have hall : ∀ other ∈ first :: rest, text < other :=
        List.forall_mem_cons.2 ⟨hlt, fun other hother => lt_trans hlt (hfirst other hother)⟩
      exact List.pairwise_cons.2 ⟨hall, h⟩
    · rename_i hle
      split
      · exact h
      · rename_i hne
        refine List.pairwise_cons.2 ⟨fun other hother => ?_, ih hrest⟩
        rcases mem_insertText.1 hother with rfl | hmem
        · exact lt_of_le_of_ne (not_lt.1 hle) (Ne.symm hne)
        · exact hfirst other hmem

theorem mem_distinctTexts : text ∈ distinctTexts texts ↔ text ∈ texts := by
  induction texts with
  | nil => rfl
  | cons first rest ih =>
    rw [List.mem_cons, ← ih]
    exact mem_insertText

theorem sortedLT_distinctTexts (texts : List String) : (distinctTexts texts).SortedLT := by
  rw [List.sortedLT_iff_pairwise]
  induction texts with
  | nil => exact .nil
  | cons first rest ih => exact pairwise_insertText ih

end Texts

/-! ## Import tables -/

/-- What an output imports: a row for each specifier in increasing order, with the names that are imported from it
in increasing order. -/
structure ImportTable where
  rows : List (String × List String)
  specifiers_sorted : (rows.map (·.1)).SortedLT
  names_sorted : ∀ row ∈ rows, row.2.SortedLT
  names_ne_nil : ∀ row ∈ rows, row.2 ≠ []

namespace ImportTable

/-- An import stands in the row of its specifier. -/
def Lists (table : ImportTable) (i : Import) : Prop := ∃ row ∈ table.rows, row.1 = i.specifier ∧ i.name ∈ row.2

/-- A line for each row, and then an empty line if there are rows. -/
def header (table : ImportTable) : String :=
  String.join (table.rows.map fun row => importLine row.1 row.2) ++ if table.rows = [] then "" else "\n"

/-- The names that are imported from a specifier. -/
def namesFrom (all : List Import) (specifier : String) : List String :=
  distinctTexts ((all.filter (·.specifier == specifier)).map (·.name))

theorem mem_namesFrom {all : List Import} {specifier name : String} :
    name ∈ namesFrom all specifier ↔ ⟨name, specifier⟩ ∈ all := by
  rw [namesFrom, mem_distinctTexts, List.mem_map]
  constructor
  · rintro ⟨i, hi, rfl⟩
    obtain ⟨hmem, hspecifier⟩ := List.mem_filter.1 hi
    rw [← beq_iff_eq.1 hspecifier]
    exact hmem
  · intro h
    exact ⟨⟨name, specifier⟩, List.mem_filter.2 ⟨h, beq_self_eq_true specifier⟩, rfl⟩

/-- The table of some imports. -/
def ofImports (all : List Import) : ImportTable where
  rows := (distinctTexts (all.map (·.specifier))).map fun specifier => (specifier, namesFrom all specifier)
  specifiers_sorted := by
    have hspecifier : (fun row => row.1) ∘ (fun specifier => (specifier, namesFrom all specifier)) = id := rfl
    rw [List.map_map, hspecifier, List.map_id]
    exact sortedLT_distinctTexts _
  names_sorted := List.forall_mem_map.2 fun specifier _ => sortedLT_distinctTexts _
  names_ne_nil := by
    refine List.forall_mem_map.2 fun specifier hspecifier => ?_
    obtain ⟨i, hi, rfl⟩ := List.mem_map.1 (mem_distinctTexts.1 hspecifier)
    exact List.ne_nil_of_mem (mem_namesFrom.2 hi)

theorem lists_ofImports {all : List Import} {i : Import} : (ofImports all).Lists i ↔ i ∈ all := by
  constructor
  · rintro ⟨row, hrow, hspecifier, hname⟩
    obtain ⟨specifier, -, rfl⟩ := List.mem_map.1 hrow
    obtain rfl : specifier = i.specifier := hspecifier
    exact mem_namesFrom.1 hname
  · intro h
    have hspecifier : i.specifier ∈ distinctTexts (all.map (·.specifier)) :=
      mem_distinctTexts.2 (List.mem_map_of_mem h)
    exact ⟨_, List.mem_map_of_mem hspecifier, rfl, mem_namesFrom.2 h⟩

theorem importLines_eq (all : List Import) :
    importLines all = (ofImports all).rows.map fun row => importLine row.1 row.2 := by
  rw [ofImports, List.map_map]
  rfl

theorem header_ofImports (all : List Import) :
    (ofImports all).header = String.join (importLines all) ++ if (importLines all).isEmpty then "" else "\n" := by
  rw [header, importLines_eq, List.isEmpty_map]
  simp only [List.isEmpty_iff]

end ImportTable

end Output

/-! ## Texts of declarations -/

namespace Declaration

/-- Whether a declaration is a module, which is written in an output of its own. -/
def isModule : Declaration → Bool
  | module _ _ => true
  | _ => false

/-- What is declared is exported, wherever it stands in a body. One letter of that word is enough to tell its text from
line ends. -/
theorem mem_render {d : Declaration} (hmodule : d.isModule = false) (hname : d.name?.isSome) (level : Nat)
    (fresh : Bool) : ∃ rope, d.render? level fresh = some rope ∧ 'x' ∈ rope.flatten.toList := by
  cases d with
  | module name body => cases hmodule
  | comment c => cases hname
  | imported i => cases hname
  | typedef name type => exact ⟨_, rfl, by simp⟩
  | record kind name members => cases kind <;> exact ⟨_, rfl, by simp [recordHeader]⟩
  | enum name members => exact ⟨_, rfl, by simp⟩
  | interface name members => exact ⟨_, rfl, by simp⟩

theorem mem_renderFrom {level : Nat} {fresh : Bool} {d : Declaration} {body : List Declaration} (hd : d ∈ body)
    (hmodule : d.isModule = false) (hname : d.name?.isSome) :
    'x' ∈ (Rope.flattenAll (renderFrom level fresh body)).toList := by
  induction body generalizing fresh with
  | nil => cases hd
  | cons first body ih =>
    rw [renderFrom, Rope.flattenAll_append, String.toList_append, List.mem_append]
    obtain rfl | hd := List.mem_cons.1 hd
    · obtain ⟨rope, hrope, hword⟩ := mem_render hmodule hname level fresh
      left
      simpa [hrope] using hword
    · exact .inr (ih hd)

theorem mem_bodyText {d : Declaration} {body : List Declaration} (hd : d ∈ body) (hmodule : d.isModule = false)
    (hname : d.name?.isSome) : 'x' ∈ (bodyText body).toList := by
  rw [bodyText, renderBody, Rope.flatten_seq]
  exact mem_renderFrom hd hmodule hname

end Declaration

/-! ## Contents -/

namespace Output

/-- The texts of bodies, one behind the other. -/
def joinedText (bodies : List (List Declaration)) : String := String.join (bodies.map Declaration.bodyText)

/-- What is written for bodies under the lines of a table: their texts without the line ends in front, with a line end
behind them. -/
def ImportTable.Heads (table : ImportTable) (bodies : List (List Declaration)) (contents : String) : Prop :=
  ∃ (ends : Nat) (body : String),
    joinedText bodies = String.ofList (List.replicate ends '\n') ++ body ∧ body.toList.head? ≠ some '\n' ∧
      contents = table.header ++ body ++ "\n"

/-- What is written for bodies: the lines for all of their imports, and their texts. -/
def IsContents (bodies : List (List Declaration)) (contents : String) : Prop :=
  ∃ table : ImportTable, (∀ i, table.Lists i ↔ ∃ ds ∈ bodies, .imported i ∈ ds) ∧ table.Heads bodies contents

section Contents

variable {bodies : List (List Declaration)} {contents : String}

theorem mem_imports {ds : List Declaration} {i : Import} : i ∈ imports ds ↔ .imported i ∈ ds := by
  rw [imports, List.mem_filterMap]
  constructor
  · rintro ⟨d, hd, hi⟩
    split at hi
    · cases hi
      exact hd
    · cases hi
  · intro h
    exact ⟨_, h, rfl⟩

theorem contentsOf_eq_none_iff : contentsOf bodies = none ↔ ∀ c ∈ (joinedText bodies).toList, c = '\n' := by
  have hdrop : (joinedText bodies).toList.dropWhile (· == '\n') = [] ↔ ∀ c ∈ (joinedText bodies).toList, c = '\n' := by
    rw [List.dropWhile_eq_nil_iff]
    simp only [beq_iff_eq]
  rw [← hdrop, contentsOf, joinedText]
  split
  · rename_i hnil
    exact iff_of_true rfl hnil
  · rename_i hcons
    refine iff_of_false (fun h => ?_) hcons
    cases h

theorem heads_of_contentsOf (h : contentsOf bodies = some contents) :
    (ImportTable.ofImports (bodies.flatMap imports)).Heads bodies contents := by
  refine ⟨((joinedText bodies).toList.takeWhile (· == '\n')).length,
    String.ofList ((joinedText bodies).toList.dropWhile (· == '\n')), ?_, ?_, ?_⟩
  · have hends : (joinedText bodies).toList.takeWhile (· == '\n') =
        List.replicate ((joinedText bodies).toList.takeWhile (· == '\n')).length '\n' :=
      List.eq_replicate_of_mem fun c hc => by simpa using List.mem_takeWhile_imp hc
    rw [← hends, ← String.ofList_append, List.takeWhile_append_dropWhile, String.ofList_toList]
  · rw [String.toList_ofList]
    intro hhead
    have hnot := List.head?_dropWhile_not (· == '\n') (joinedText bodies).toList
    rw [hhead] at hnot
    exact absurd hnot (by decide)
  · rw [ImportTable.header_ofImports]
    rw [contentsOf] at h
    split at h
    · cases h
    · exact (Option.some.inj h).symm

/-- An output in which something is declared has contents. -/
theorem contentsOf_ne_none {d : Declaration} (hd : d ∈ bodies.flatten) (hmodule : d.isModule = false)
    (hname : d.name?.isSome) : contentsOf bodies ≠ none := by
  intro hnone
  obtain ⟨body, hbody, hd⟩ := List.mem_flatten.1 hd
  have hword : 'x' ∈ (joinedText bodies).toList := by
    rw [joinedText, String.toList_join]
    exact List.mem_flatMap.2 ⟨_, List.mem_map_of_mem hbody, Declaration.mem_bodyText hd hmodule hname⟩
  exact absurd (contentsOf_eq_none_iff.1 hnone _ hword) (by decide)

theorem isContents_of_contentsOf (h : contentsOf bodies = some contents) : IsContents bodies contents := by
  refine ⟨.ofImports (bodies.flatMap imports), fun i => ?_, heads_of_contentsOf h⟩
  rw [ImportTable.lists_ofImports, List.mem_flatMap]
  simp only [mem_imports]

end Contents

end Output

/-! ## What a target received -/

/-- What was emitted to a path, in order. -/
def Emission.sentTo (path : Path) (es : List Emission) : List Emission := es.filter (·.target.same path)

theorem Batch.bodies_eq_sentTo {es : List Emission} {b : Batch} (hb : b ∈ ofEmissions es) :
    b.bodies = (Emission.sentTo b.target es).map (·.body) := by
  rw [bodies_eq_received hb, key_eq hb]
  rfl

namespace Output

variable {es : List Emission} {o : Output}

theorem exists_target (ho : o ∈ ofEmissions es) : ∃ e ∈ es, e.target = o.path := by
  obtain ⟨b, hb, rfl⟩ := List.mem_map.1 ho
  obtain ⟨e, he, htarget, -⟩ := Batch.exists_emission b hb
  exact ⟨e, he, htarget.symm⟩

/-- The contents of an output are those of the bodies that its path received. -/
theorem contents_eq (ho : o ∈ ofEmissions es) : o.contents = contentsOf ((Emission.sentTo o.path es).map (·.body)) := by
  obtain ⟨b, hb, rfl⟩ := List.mem_map.1 ho
  rw [Batch.output, Batch.bodies_eq_sentTo hb]

end Output

end Idl
