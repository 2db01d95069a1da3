import Idl.Output.Basic

/-!
# Emissions

A body is emitted to the path of an output, possibly several bodies to one path. What a path
received makes one output, with the bodies in the order of their emission.
-/

namespace Idl

/-- A body, and the output that it goes to. -/
structure Emission where
  target : Path
  body : List Declaration
deriving Repr

/-- The bodies that one target received, in order. -/
structure Batch where
  /-- The components of the target, which tell it from the others. -/
  key : List Component
  /-- The target, as it was written first. -/
  target : Path
  bodies : List (List Declaration)
deriving Repr

namespace Batch

/-- The batch of a single emission. -/
def ofEmission (e : Emission) : Batch := ⟨e.target.components, e.target, [e.body]⟩

/-- The batch of what a target received in two stages. -/
def append (a b : Batch) : Batch := { a with bodies := a.bodies ++ b.bodies }

/-- The output that a batch makes. -/
def output (a : Batch) : Output := ⟨a.target, Output.contentsOf a.bodies⟩

/-- Puts together the batches of two stages, each with its targets in path order. -/
def merge : List Batch → List Batch → List Batch
  | [], bs => bs
  | as, [] => as
  | a :: as, b :: bs =>
    match compare a.key b.key with
    | .lt => a :: merge as (b :: bs)
    | .eq => a.append b :: merge as bs
    | .gt => b :: merge (a :: as) bs
termination_by as bs => as.length + bs.length

/-- The batches of some emissions, the targets in path order. Both halves are worked out on their own
and put together. -/
def ofEmissions : List Emission → List Batch
  | [] => []
  | [e] => [ofEmission e]
  | e :: f :: rest =>
    let half := (e :: f :: rest).length / 2
    merge (ofEmissions ((e :: f :: rest).take half)) (ofEmissions ((e :: f :: rest).drop half))
termination_by emissions => emissions.length
decreasing_by all_goals simp only [List.length_take, List.length_drop, List.length_cons]; omega

end Batch

/-- The outputs for the given emissions, in the order of their paths. -/
def Output.ofEmissions (emissions : List Emission) : List Output := (Batch.ofEmissions emissions).map Batch.output

end Idl
