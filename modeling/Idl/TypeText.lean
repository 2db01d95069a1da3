import Idl.Text.Blank

/-!
# Types as they are written

In a type text, blanks count only between words: a run of blanks is one space, and there is none at
the ends or around angle brackets.
-/

namespace Idl.TypeText

/-- Words with one space between neighbours. -/
def joinWords : List (List Char) → List Char
  | [] => []
  | [word] => word
  | word :: rest => word ++ ' ' :: joinWords rest

/-- Replaces each pair of neighbours `x` and `y` by `z`, from left to right. -/
def contract (x y z : Char) : List Char → List Char
  | a :: b :: cs => if a = x ∧ b = y then z :: contract x y z cs else a :: contract x y z (b :: cs)
  | cs => cs

/-- A type text without needless blanks, on characters. -/
def normalChars (cs : List Char) : List Char :=
  contract '>' ' ' '>' (contract ' ' '>' '>' (contract '<' ' ' '<' (contract ' ' '<' '<' (joinWords (Text.words cs)))))

/-- A type text without needless blanks. -/
def normalize (type : String) : String := String.ofList (normalChars type.toList)

/-- What stands between the angle brackets of a type text that is a constructor with one
argument. -/
def argument? (constructor : String) (type : List Char) : Option (List Char) :=
  let opening := constructor.toList ++ ['<']
  let rest := type.drop opening.length
  if opening.isPrefixOf type ∧ rest.getLast? = some '>' then some rest.dropLast else none

/-! ## Sizes -/

theorem length_contract_le (x y z : Char) (cs : List Char) :
    (contract x y z cs).length ≤ cs.length := by
  fun_induction contract x y z cs with
  | case1 a b cs h ih =>
    simp only [List.length_cons]
    omega
  | case2 a b cs h ih =>
    simp only [List.length_cons] at ih ⊢
    omega
  | case3 cs => exact Nat.le_refl _

theorem length_joinWords_wordsFrom_le (word cs : List Char) :
    (joinWords (Text.wordsFrom word cs)).length ≤ word.length + cs.length := by
  induction cs generalizing word with
  | nil =>
    rw [Text.wordsFrom]
    split <;> simp [joinWords]
  | cons c cs ih =>
    have hnil := ih []
    have hcons := ih (c :: word)
    rw [Text.wordsFrom]
    split
    · split
      · simp at hnil ⊢
        omega
      · rcases hw : Text.wordsFrom [] cs with _ | ⟨next, rest⟩
        · simp [joinWords]
        · rw [hw] at hnil
          simp [joinWords] at hnil ⊢
          omega
    · simp at hcons ⊢
      omega

theorem length_normalChars_le (cs : List Char) : (normalChars cs).length ≤ cs.length := by
  refine Nat.le_trans (length_contract_le ..) (Nat.le_trans (length_contract_le ..) ?_)
  refine Nat.le_trans (length_contract_le ..) (Nat.le_trans (length_contract_le ..) ?_)
  simpa [Text.words] using length_joinWords_wordsFrom_le [] cs

theorem length_argument?_lt {constructor : String} {type element : List Char}
    (h : argument? constructor type = some element) : element.length < type.length := by
  simp only [argument?] at h
  split at h
  · rename_i hcond
    obtain rfl := Option.some.inj h
    have hpos : 0 < (type.drop (constructor.toList ++ ['<']).length).length :=
      List.length_pos_iff.2 fun hnil => by
        rw [hnil] at hcond
        simp at hcond
    simp at hpos ⊢
    omega
  · simp at h

end Idl.TypeText
