/-!
# White space

The characters with the Unicode property White_Space, and the words that they separate.
-/

namespace Idl.Text

/-- Whether a character is white space. -/
def isBlank (c : Char) : Bool :=
  let code := c.toNat
  (0x09 ≤ code && code ≤ 0x0D) || code == 0x20 || code == 0x85 || code == 0xA0 || code == 0x1680
    || (0x2000 ≤ code && code ≤ 0x200A) || code == 0x2028 || code == 0x2029 || code == 0x202F || code == 0x205F
    || code == 0x3000

/-- The maximal runs of characters that are not white space, where `word` is the run read so far,
backwards. -/
def wordsFrom (word : List Char) : List Char → List (List Char)
  | [] => if word = [] then [] else [word.reverse]
  | c :: cs =>
    if isBlank c then (if word = [] then wordsFrom [] cs else word.reverse :: wordsFrom [] cs)
    else wordsFrom (c :: word) cs

/-- The maximal runs of characters that are not white space. -/
def words (cs : List Char) : List (List Char) := wordsFrom [] cs

end Idl.Text
