import Idl.Proofs.Pieces
import Idl.Proofs.Sessions

/-!
# Dropped blocks

A guarded block is dropped if its name is defined when the block is reached. What is in the block is
then kept out of the body around it, but a module in the block still has an output of its own, and
what is in the module gets there.

* `dropped within`: there is a dropped block around a piece, in the file of the piece.
* `escapes within`: the piece is in a dropped block, but in a module of it.
-/

namespace Idl

/-- Whether something is in a dropped block of its file. -/
def dropped : List Enclosure → Bool
  | [] | .file _ :: _ => false
  | .module _ :: outer => dropped outer
  | .guarded _ defined :: outer => defined || dropped outer

/-- Whether something is in a module that is in a dropped block, and in no block of the module that is
dropped. -/
def escapes : List Enclosure → Bool
  | [] | .file _ :: _ => false
  | .module _ :: outer => dropped outer
  | .guarded _ defined :: outer => !defined && escapes outer

/-- What is in a dropped block lands only by a module of the block. -/
theorem escapes_iff (within : List Enclosure) :
    escapes within = true ↔ dropped within = true ∧ ∃ target, landing within = some target := by
  induction within with
  | nil => simp [escapes, dropped]
  | cons e outer ih =>
    cases e with
    | file path => simp [escapes, dropped]
    | module target => simp [escapes, dropped, landing]
    | guarded name defined =>
      cases defined with
      | true => simp [escapes, landing]
      | false => simpa [escapes, dropped, landing] using ih

/-- The declarations of the pieces that land in an output. -/
def Piece.landingIn (target : Path) (ps : List Piece) : List Declaration :=
  (ps.filter (landing ·.within = some target)).map (·.declaration)

theorem Piece.landingIn_eq (target : Path) (ps : List Piece) :
    Piece.landingIn target ps = ((ps.filterMap Piece.landed?).filter (·.1 = target)).map (·.2) := by
  induction ps with
  | nil => rfl
  | cons p ps ih =>
    unfold Piece.landingIn at ih ⊢
    cases hland : landing p.within with
    | none => simpa [hland, landed?] using ih
    | some place =>
      by_cases htarget : place = target
      · simpa [hland, landed?, htarget] using ih
      · simpa [hland, landed?, htarget] using ih

/-- Some pieces can be left out of an output only if none of them lands there. -/
theorem Piece.landingIn_filter_perm_iff {target : Path} {ps : List Piece} {keep : Piece → Bool} :
    (Piece.landingIn target (ps.filter keep)).Perm (Piece.landingIn target ps) ↔
      ∀ p ∈ ps, landing p.within = some target → keep p = true := by
  have hfilter : Piece.landingIn target (ps.filter keep) =
      ((ps.filter (landing ·.within = some target)).filter keep).map (·.declaration) := by
    simp only [Piece.landingIn, List.filter_filter, Bool.and_comm]
  rw [hfilter, Piece.landingIn]
  constructor
  · intro hperm p hp hland
    have hlength := hperm.length_eq
    rw [List.length_map, List.length_map, List.length_filter_eq_length_iff] at hlength
    exact hlength p (List.mem_filter.2 ⟨hp, by simpa using hland⟩)
  · intro hkeep
    rw [List.filter_eq_self.2]
    intro p hp
    obtain ⟨hp, hland⟩ := List.mem_filter.1 hp
    exact hkeep p hp (by simpa using hland)

namespace Compilation

/-- The pieces of the file at a path, compiled on its own. -/
def piecesOf (sources : Sources) (path : Path) : List Piece :=
  Event.piecesAll [.file path.normalize] (history sources path)

section Outputs

variable {sources : Sources} {path : Path} {ds : List Declaration} {s : Compilation}

/-- An output holds the pieces that land in it. -/
theorem pieces_perm_landingIn (run : Gives (compileFile sources path) .empty ds s) {b : Batch}
    (hb : b ∈ Batch.ofEmissions s.emissions) : b.pieces.Perm (Piece.landingIn b.target (piecesOf sources path)) := by
  rw [Batch.pieces_eq (targets_spelled run) hb, Piece.landingIn_eq]
  exact ((emitted_perm_history run).filter _).map _

/-- A piece that lands in an output is in one of the run. -/
theorem exists_batch_of_landing (run : Gives (compileFile sources path) .empty ds s) {p : Piece} {target : Path}
    (hp : p ∈ piecesOf sources path) (hland : landing p.within = some target) :
    ∃ b ∈ Batch.ofEmissions s.emissions, b.target = target := by
  have hmem : (target, p.declaration) ∈ emitted s.emissions := by
    refine (emitted_perm_history run).mem_iff.2 (List.mem_filterMap.2 ⟨p, hp, ?_⟩)
    simp [Piece.landed?, hland]
  obtain ⟨-, e, he, htarget, -⟩ := mem_emitted.1 hmem
  obtain ⟨b, hb, hkey, -⟩ := Batch.exists_batch he
  obtain ⟨e', he', htarget', hkey'⟩ := Batch.exists_emission b hb
  have spelled := targets_spelled run
  refine ⟨b, hb, ?_⟩
  rw [htarget', spelled e' he', ← hkey', hkey, ← spelled e he, htarget]

/-- An output holds exactly the pieces that land in it. So dropped blocks leave no trace in the outputs
if and only if nothing is in a module that is in a dropped block. -/
theorem dropped_blocks_leave_no_trace_iff (run : Gives (compileFile sources path) .empty ds s) :
    (∀ b ∈ Batch.ofEmissions s.emissions, b.pieces.Perm (Piece.landingIn b.target (piecesOf sources path))) ∧
    ((∀ b ∈ Batch.ofEmissions s.emissions,
        b.pieces.Perm (Piece.landingIn b.target ((piecesOf sources path).filter (!dropped ·.within)))) ↔
      ∀ p ∈ piecesOf sources path, escapes p.within = false) := by
  refine ⟨fun b hb => pieces_perm_landingIn run hb, fun hclean p hp => ?_, fun hclean b hb => ?_⟩
  · rw [Bool.eq_false_iff]
    intro hescapes
    obtain ⟨hdropped, target, hland⟩ := (escapes_iff _).1 hescapes
    obtain ⟨b, hb, rfl⟩ := exists_batch_of_landing run hp hland
    have hkeep := Piece.landingIn_filter_perm_iff.1 ((hclean b hb).symm.trans (pieces_perm_landingIn run hb)) p hp hland
    simp [hdropped] at hkeep
  · refine (pieces_perm_landingIn run hb).trans (Piece.landingIn_filter_perm_iff.2 fun p hp hland => ?_).symm
    rw [Bool.not_eq_true', Bool.eq_false_iff]
    intro hdropped
    have hescapes := (escapes_iff _).2 ⟨hdropped, _, hland⟩
    simp [hclean p hp] at hescapes

/-- A dropped block that includes a file, in front of a declaration that is kept. -/
def droppedInclude : Sources where
  texts := [(⟨"a.idl"⟩, "typedef long A;"), (⟨"m.idl"⟩,
    "#define D\n#ifndef D\n#include \"a.idl\"\ntypedef A B;\n#endif\ntypedef A C;")]
  failure _ := ""

/-- What the included file declares is kept, and the rest of the block is not. -/
theorem dropped_blocks_leave_no_trace_iff_include :
    ∃ ds s, Gives (compileFile droppedInclude ⟨"m.idl"⟩) .empty ds s ∧
      (piecesOf droppedInclude ⟨"m.idl"⟩).map (fun p => (p.declaration.name?, dropped p.within)) =
        [(some "A", false), (none, true), (some "B", true), (none, false), (some "C", false)] ∧
      (Batch.ofEmissions s.emissions).map (fun b => (b.target.text, b.pieces.map (·.name?))) =
        [("a.ts", [some "A"]), ("m.ts", [none, some "C"])] ∧
      ∀ b ∈ Batch.ofEmissions s.emissions, b.pieces.Perm
        (Piece.landingIn b.target ((piecesOf droppedInclude ⟨"m.idl"⟩).filter (!dropped ·.within))) := by
  obtain ⟨ds, run⟩ : ∃ ds, Gives (compileFile droppedInclude ⟨"m.idl"⟩) .empty ds
      (outcome (compileFile droppedInclude ⟨"m.idl"⟩) .empty).2 := exists_gives (by decide +kernel)
  exact ⟨ds, _, run, by decide +kernel, by decide +kernel,
    (dropped_blocks_leave_no_trace_iff run).2.2 (by decide +kernel)⟩

/-- A dropped block with a module in it. -/
def droppedModule : Sources where
  texts := [(⟨"m.idl"⟩, "#define A\n#ifndef A\nmodule M \x7b struct S \x7b long x; \x7d; \x7d;\n#endif\n")]
  failure _ := ""

/-- The struct is in a dropped block, and it is written all the same. -/
theorem dropped_module_is_written :
    (outcome (compileFile droppedModule ⟨"m.idl"⟩) .empty).1.isOk = true ∧
      (piecesOf droppedModule ⟨"m.idl"⟩).map (fun p => (p.declaration.name?, dropped p.within)) = [(some "S", true)] ∧
      Output.ofEmissions (outcome (compileFile droppedModule ⟨"m.idl"⟩) .empty).2.emissions =
        [⟨⟨"M/m.ts"⟩, some "export interface S \x7b\n    x: number;\n\x7d\n"⟩, ⟨⟨"m.ts"⟩, none⟩] := by
  decide +kernel

end Outputs

end Compilation

end Idl
