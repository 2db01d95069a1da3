/-!
# Texts measured in bytes

Offsets into a text count the bytes of its UTF-8 form, while the text itself is handled as a list of
characters. A cut at an offset inside a character moves on to the end of that character.
-/

namespace Idl.Text

/-- The number of bytes of a text in UTF-8. -/
def size : List Char → Nat
  | [] => 0
  | c :: cs => c.utf8Size + size cs

@[simp]
theorem size_nil : size [] = 0 := rfl

@[simp]
theorem size_cons (c : Char) (cs : List Char) : size (c :: cs) = c.utf8Size + size cs := rfl

@[simp]
theorem size_append (cs ds : List Char) : size (cs ++ ds) = size cs + size ds := by
  induction cs with
  | nil => simp
  | cons c cs ih => simp [ih, Nat.add_assoc]

/-- The text from byte offset `n` on. -/
def dropBytes : Nat → List Char → List Char
  | 0, cs => cs
  | _ + 1, [] => []
  | n + 1, c :: cs => dropBytes (n + 1 - c.utf8Size) cs

/-- The text before byte offset `n`. -/
def takeBytes : Nat → List Char → List Char
  | 0, _ => []
  | _ + 1, [] => []
  | n + 1, c :: cs => c :: takeBytes (n + 1 - c.utf8Size) cs

theorem dropBytes_size_append (cs ds : List Char) : dropBytes (size cs) (cs ++ ds) = ds := by
  induction cs with
  | nil => simp [dropBytes]
  | cons c cs ih =>
    have hc : 0 < c.utf8Size := c.utf8Size_pos
    obtain ⟨k, hk⟩ : ∃ k, size (c :: cs) = k + 1 := ⟨size (c :: cs) - 1, by simp; omega⟩
    have hk' : k + 1 - c.utf8Size = size cs := by simp at hk; omega
    rw [hk, List.cons_append, dropBytes, hk', ih]

theorem takeBytes_size_append (cs ds : List Char) : takeBytes (size cs) (cs ++ ds) = cs := by
  induction cs with
  | nil => simp [takeBytes]
  | cons c cs ih =>
    have hc : 0 < c.utf8Size := c.utf8Size_pos
    obtain ⟨k, hk⟩ : ∃ k, size (c :: cs) = k + 1 := ⟨size (c :: cs) - 1, by simp; omega⟩
    have hk' : k + 1 - c.utf8Size = size cs := by simp at hk; omega
    rw [hk, List.cons_append, takeBytes, hk', ih]

/-- The number of bytes of a string in UTF-8. -/
def byteLength (s : String) : Nat := size s.toList

end Idl.Text
