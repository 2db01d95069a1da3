import Idl.Text.EditDistance
import Mathlib.Order.Bounds.Defs
import Mathlib.Order.MinMax

/-!
# Edits

The edit distance is computed ending by ending. What it counts are edits: a character is inserted,
taken away or replaced, anywhere in a text.

* `Edits n cs ds`: a series of `n` edits turns `cs` into `ds`.
* `editDistance_cons_cons`: the distance of two texts, out of the distances of their endings.
* `edits_editDistance`: there are as many edits as the distance says.
* `editDistance_le_of_edit`: an edit changes the distance to another text by one at most.
* `isLeast_editDistance`: the distance is the least number of edits.
-/

namespace Idl.Text

/-- A character is inserted, taken away or replaced, at the front of a text or further on. -/
inductive Edit : List Char → List Char → Prop
  | insert (d : Char) (cs : List Char) : Edit cs (d :: cs)
  | remove (c : Char) (cs : List Char) : Edit (c :: cs) cs
  | replace (c d : Char) (cs : List Char) : Edit (c :: cs) (d :: cs)
  | later (c : Char) {cs ds : List Char} (rest : Edit cs ds) : Edit (c :: cs) (c :: ds)

/-- A number of edits, one after the other, that turn one text into another. -/
inductive Edits : Nat → List Char → List Char → Prop
  | done (cs : List Char) : Edits 0 cs cs
  | step {n : Nat} {cs ds es : List Char} (first : Edit cs ds) (rest : Edits n ds es) : Edits (n + 1) cs es

/-! ## The distances of endings -/

section Distances

variable (c d : Char) (cs ds : List Char)

theorem length_lengths : (lengths ds).length = ds.length + 1 := by
  induction ds with
  | nil => rfl
  | cons d ds ih => rw [lengths, List.length_cons, ih, List.length_cons]

theorem length_lengthen {before : List Nat} (h : before.length = ds.length + 1) :
    (lengthen c ds before).length = ds.length + 1 := by
  induction ds generalizing before with
  | nil =>
    obtain ⟨drop, rfl⟩ := List.length_eq_one_iff.1 h
    rfl
  | cons d ds ih =>
    obtain _ | ⟨drop, _ | ⟨replace, rest⟩⟩ := before
    · cases h
    · cases h
    · have hrest := ih (Nat.succ.inj h)
      rw [lengthen]
      split
      · rename_i hnil
        rw [hnil] at hrest
        cases hrest
      · rename_i insert more hcons
        rw [hcons] at hrest
        rw [List.length_cons, hrest, List.length_cons]

theorem length_distances : (distances cs ds).length = ds.length + 1 := by
  induction cs with
  | nil => exact length_lengths ds
  | cons c cs ih => exact length_lengthen c ds ih

theorem exists_distances : ∃ rest, distances cs ds = editDistance cs ds :: rest := by
  have hlength := length_distances cs ds
  rw [editDistance]
  cases hdistances : distances cs ds with
  | nil =>
    rw [hdistances] at hlength
    cases hlength
  | cons first rest => exact ⟨rest, rfl⟩

/-- How the distances from `c :: cs` start, if those from `cs` are the ones of the endings. -/
theorem distances_step {drop : Nat} (h : distances cs (d :: ds) = drop :: distances cs ds) :
    distances (c :: cs) (d :: ds) =
      min (if c = d then editDistance cs ds else editDistance cs ds + 1)
          (min (drop + 1) (editDistance (c :: cs) ds + 1)) :: distances (c :: cs) ds := by
  obtain ⟨rest, hrest⟩ := exists_distances cs ds
  obtain ⟨more, hmore⟩ := exists_distances (c :: cs) ds
  have hinsert : lengthen c ds (editDistance cs ds :: rest) = editDistance (c :: cs) ds :: more := by
    rw [← hrest]
    exact hmore
  rw [distances, h, hrest, lengthen, hinsert, hmore]

/-- All but the first of the distances to a text are the distances to the text behind its first character. -/
theorem distances_cons : distances cs (d :: ds) = editDistance cs (d :: ds) :: distances cs ds := by
  induction cs with
  | nil => rfl
  | cons c cs ih =>
    have hstep := distances_step c d cs ds ih
    rw [editDistance, hstep]
    rfl

@[simp]
theorem editDistance_nil_left : editDistance [] ds = ds.length := by cases ds <;> rfl

@[simp]
theorem editDistance_nil_right : editDistance cs [] = cs.length := by
  have hdistances : distances cs [] = [cs.length] := by
    induction cs with
    | nil => rfl
    | cons c cs ih => rw [distances, ih]; rfl
  rw [editDistance, hdistances]
  rfl

theorem editDistance_cons_cons :
    editDistance (c :: cs) (d :: ds) =
      min (if c = d then editDistance cs ds else editDistance cs ds + 1)
        (min (editDistance cs (d :: ds) + 1) (editDistance (c :: cs) ds + 1)) := by
  have hstep := distances_step c d cs ds (distances_cons d cs ds)
  rw [editDistance, hstep]
  rfl

end Distances

/-! ## There are that many edits -/

section Edits

variable {n : Nat} {cs ds : List Char}

/-- Edits behind the first character. -/
theorem Edits.later (c : Char) (h : Edits n cs ds) : Edits n (c :: cs) (c :: ds) := by
  induction h with
  | done cs => exact .done (c :: cs)
  | step first _ ih => exact .step (first.later c) ih

theorem edits_insert (ds : List Char) : Edits ds.length [] ds := by
  induction ds with
  | nil => exact .done []
  | cons d ds ih => exact .step (.insert d []) (ih.later d)

theorem edits_editDistance (cs ds : List Char) : Edits (editDistance cs ds) cs ds := by
  induction cs generalizing ds with
  | nil =>
    rw [editDistance_nil_left]
    exact edits_insert ds
  | cons c cs ih =>
    induction ds with
    | nil =>
      have hrest := ih []
      rw [editDistance_nil_right] at hrest ⊢
      exact .step (.remove c cs) hrest
    | cons d ds ihd =>
      rw [editDistance_cons_cons]
      -- the least of the three numbers tells what becomes of the first character
      rcases min_choice (if c = d then editDistance cs ds else editDistance cs ds + 1)
        (min (editDistance cs (d :: ds) + 1) (editDistance (c :: cs) ds + 1)) with hkept | hother
      · rw [hkept]
        split
        · rename_i heq
          rw [heq]
          exact (ih ds).later d
        · exact .step (.replace c d cs) ((ih ds).later d)
      · rw [hother]
        rcases min_choice (editDistance cs (d :: ds) + 1) (editDistance (c :: cs) ds + 1) with hdrop | hinsert
        · rw [hdrop]
          exact .step (.remove c cs) (ih (d :: ds))
        · rw [hinsert]
          exact .step (.insert d (c :: cs)) (ihd.later d)

end Edits

/-! ## No fewer edits will do -/

section Least

variable (c d : Char) (cs ds : List Char)

theorem editDistance_cons_left_le : editDistance (c :: cs) ds ≤ editDistance cs ds + 1 := by
  cases ds with
  | nil => simp
  | cons d ds =>
    rw [editDistance_cons_cons]
    omega

theorem editDistance_cons_right_le : editDistance cs (d :: ds) ≤ editDistance cs ds + 1 := by
  cases cs with
  | nil => simp
  | cons c cs =>
    rw [editDistance_cons_cons]
    omega

theorem editDistance_self : editDistance cs cs = 0 := by
  induction cs with
  | nil => rfl
  | cons c cs ih =>
    rw [editDistance_cons_cons, if_pos rfl, ih]
    omega

/-- An edit changes the distance to another text by one at most. -/
theorem editDistance_le_of_edit {cs ds : List Char} (h : Edit cs ds) (es : List Char) :
    editDistance cs es ≤ editDistance ds es + 1 := by
  induction h generalizing es with
  | insert d cs =>
    induction es with
    | nil =>
      rw [editDistance_nil_right, editDistance_nil_right, List.length_cons]
      omega
    | cons e es ih =>
      have hinsert := editDistance_cons_right_le e cs es
      rw [editDistance_cons_cons]
      split <;> omega
  | remove c cs => exact editDistance_cons_left_le c cs es
  | replace c d cs =>
    induction es with
    | nil => simp
    | cons e es ih =>
      rw [editDistance_cons_cons, editDistance_cons_cons d]
      split <;> split <;> omega
  | @later c cs ds rest ihrest =>
    induction es with
    | nil => simpa using ihrest []
    | cons e es ih =>
      have hkept := ihrest es
      have hdrop := ihrest (e :: es)
      rw [editDistance_cons_cons, editDistance_cons_cons c e ds]
      split <;> omega

theorem editDistance_le_of_edits {n : Nat} {cs ds : List Char} (h : Edits n cs ds) : editDistance cs ds ≤ n := by
  induction h with
  | done cs => exact Nat.le_of_eq (editDistance_self cs)
  | @step n cs ds es first rest ih =>
    have hfirst := editDistance_le_of_edit first es
    omega

theorem isLeast_editDistance : IsLeast {n | Edits n cs ds} (editDistance cs ds) :=
  ⟨edits_editDistance cs ds, fun _ h => editDistance_le_of_edits h⟩

end Least

end Idl.Text
