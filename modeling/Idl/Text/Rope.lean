/-!
# Ropes

A text in pieces: a leaf, or a sequence of ropes. Putting pieces together costs nothing, and the
text is read off at the end, from left to right.
-/

namespace Idl

/-- A text in pieces. -/
inductive Rope where
  | leaf (text : String)
  | seq (parts : List Rope)
deriving Repr

namespace Rope

/-- The rope without pieces. -/
def empty : Rope := seq []

/-- A rope with one more piece at its end. A leaf becomes the first piece of a sequence. -/
def push : Rope → Rope → Rope
  | seq parts, piece => seq (parts ++ [piece])
  | leaf text, piece => seq [leaf text, piece]

mutual

/-- The text of a rope. -/
def flatten : Rope → String
  | leaf text => text
  | seq parts => flattenAll parts

/-- The text of a sequence of ropes. -/
def flattenAll : List Rope → String
  | [] => ""
  | part :: parts => flatten part ++ flattenAll parts

end

@[simp]
theorem flatten_leaf (text : String) : flatten (leaf text) = text := by rw [flatten]

@[simp]
theorem flatten_seq (parts : List Rope) : flatten (seq parts) = flattenAll parts := by rw [flatten]

@[simp]
theorem flattenAll_nil : flattenAll [] = "" := by rw [flattenAll]

@[simp]
theorem flattenAll_cons (part : Rope) (parts : List Rope) :
    flattenAll (part :: parts) = flatten part ++ flattenAll parts := by rw [flattenAll]

@[simp]
theorem flattenAll_append (parts more : List Rope) :
    flattenAll (parts ++ more) = flattenAll parts ++ flattenAll more := by
  induction parts with
  | nil => simp
  | cons part parts ih => simp [ih, String.append_assoc]

@[simp]
theorem flatten_push (rope piece : Rope) : flatten (push rope piece) = flatten rope ++ flatten piece := by
  cases rope <;> simp [push]

end Rope

end Idl
