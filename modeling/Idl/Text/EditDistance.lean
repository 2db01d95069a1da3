/-!
# Edit distance

The least number of characters to insert, to take away or to replace that turns one text into
another. It is computed for all endings of the second text at once, longest first.
-/

namespace Idl.Text

/-- The distances from the empty text to the endings of a text. -/
def lengths : List Char → List Nat
  | [] => [0]
  | _ :: ds => (ds.length + 1) :: lengths ds

/-- The distances from `c :: cs` to the endings of a text, out of the distances from `cs`. -/
def lengthen (c : Char) : List Char → List Nat → List Nat
  | d :: ds, drop :: replace :: rest =>
    match lengthen c ds (replace :: rest) with
    | [] => []
    | insert :: more =>
      let kept := if c = d then replace else replace + 1
      min kept (min (drop + 1) (insert + 1)) :: insert :: more
  | _, drop :: _ => [drop + 1]
  | _, [] => []

/-- The distances from a text to the endings of another one. -/
def distances : List Char → List Char → List Nat
  | [], ds => lengths ds
  | c :: cs, ds => lengthen c ds (distances cs ds)

/-- The edit distance between two texts. -/
def editDistance (cs ds : List Char) : Nat := (distances cs ds).headD 0

end Idl.Text
