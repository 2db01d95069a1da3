import Idl.Proofs.Integrity
import Idl.Proofs.Mirrors

/-!
# The normal form of a type text

A type text is made of words and angle brackets. Its normal form is what they are spelled like with
one space between two words and nothing else between neighbours, so two type texts have the same
normal form just if they are made of the same words and brackets, and a table finds the same in them.

* `items cs`: the words and the brackets of a type text.
* `squeeze keeps before gap cs`: a text without its blanks, apart from a space wherever `keeps` asks for
  one. Each step of the normalization only asks for fewer of them (`contract_squeeze_before`,
  `contract_squeeze_behind`).
* `normalChars_eq_spell`, `items_normalChars`: the normal form is spelled by the items, and has the same
  items.
-/

namespace Idl

namespace TypeText

/-! ## Words and brackets -/

def isBracket (c : Char) : Bool := c == '<' || c == '>'

/-- The word that was read, backwards, unless it is empty. -/
def finished (word : List Char) : List (List Char) := if word = [] then [] else [word.reverse]

/-- The words and the brackets of a type text, where `word` is the word read so far, backwards. -/
def itemsFrom (word : List Char) : List Char → List (List Char)
  | [] => finished word
  | c :: cs =>
    if Text.isBlank c then finished word ++ itemsFrom [] cs
    else if isBracket c then finished word ++ [c] :: itemsFrom [] cs
    else itemsFrom (c :: word) cs

/-- The words and the brackets of a type text: it is cut at blanks, which are left out, and at brackets, which are
kept. -/
def items (cs : List Char) : List (List Char) := itemsFrom [] cs

/-- Whether an item is a word. -/
def isWord (item : List Char) : Bool := !(item == ['<'] || item == ['>'])

/-- Items with a space between two words. -/
def spell : List (List Char) → List Char
  | [] => []
  | [item] => item
  | item :: next :: rest => item ++ (if isWord item && isWord next then [' '] else []) ++ spell (next :: rest)

theorem spell_cons (item : List Char) (rest : List (List Char)) :
    spell (item :: rest) = item ++ (if isWord item && rest.head?.any isWord then [' '] else []) ++ spell rest := by
  cases rest with
  | nil => simp [spell]
  | cons next rest => rfl

theorem isWord_of_bracket {c : Char} (h : isBracket c = true) : isWord [c] = false := by
  rcases Bool.or_eq_true_iff.1 h with h | h
  all_goals
    rw [beq_iff_eq.1 h]
    rfl

theorem isWord_of_notMem {item : List Char} (h : ∀ c ∈ item, isBracket c = false) : isWord item = true := by
  rw [isWord, Bool.not_eq_true', Bool.or_eq_false_iff]
  constructor
  all_goals
    rw [beq_eq_false_iff_ne]
    rintro rfl
    simp [isBracket] at h

theorem isBlank_of_bracket {c : Char} (h : isBracket c = true) : Text.isBlank c = false := by
  rcases Bool.or_eq_true_iff.1 h with h | h
  all_goals
    rw [beq_iff_eq.1 h]
    decide

/-! ## Blanks that are kept -/

/-- A text without its blanks, but with a space where there are some between `b` and `c` and `keeps (some b) c` holds.
The character in front of the text is `before`, and `gap` tells whether there are blanks between them. -/
def squeeze (keeps : Option Char → Char → Bool) (before : Option Char) (gap : Bool) : List Char → List Char
  | [] => []
  | c :: cs =>
    if Text.isBlank c then squeeze keeps before true cs
    else if gap && keeps before c then ' ' :: c :: squeeze keeps (some c) false cs
    else c :: squeeze keeps (some c) false cs

/-- Keeps no blanks in front of `y`. -/
def notBefore (y : Char) (keeps : Option Char → Char → Bool) (before : Option Char) (c : Char) : Bool :=
  keeps before c && c != y

/-- Keeps no blanks behind `x`. -/
def notBehind (x : Char) (keeps : Option Char → Char → Bool) (before : Option Char) (c : Char) : Bool :=
  keeps before c && before != some x

section Squeeze

variable {keeps : Option Char → Char → Bool} {before : Option Char} {gap : Bool} {c x y z : Char} {cs : List Char}

theorem squeeze_blank (h : Text.isBlank c = true) : squeeze keeps before gap (c :: cs) = squeeze keeps before true cs :=
  if_pos h

theorem squeeze_keep (h : Text.isBlank c = false) (hkeeps : (gap && keeps before c) = true) :
    squeeze keeps before gap (c :: cs) = ' ' :: c :: squeeze keeps (some c) false cs := by
  rw [squeeze, if_neg (by simp [h]), if_pos hkeeps]

theorem squeeze_drop (h : Text.isBlank c = false) (hkeeps : (gap && keeps before c) = false) :
    squeeze keeps before gap (c :: cs) = c :: squeeze keeps (some c) false cs := by
  rw [squeeze, if_neg (by simp [h]), if_neg (by simp [hkeeps])]

theorem ne_space_of_not_blank (h : Text.isBlank c = false) : c ≠ ' ' := by
  rintro rfl
  simp [Text.isBlank] at h

/-- Words with a space between them are a text without its blanks, apart from one between two words. -/
theorem joinWords_eq_squeeze (cs : List Char) :
    joinWords (Text.words cs) = squeeze (fun before _ => before.isSome) none false cs := by
  have hne {word : List Char} (hword : word ≠ []) (cs : List Char) : Text.wordsFrom word cs ≠ [] := by
    induction cs generalizing word with
    | nil => rw [Text.wordsFrom, if_neg hword]; simp
    | cons c cs ih =>
      rw [Text.wordsFrom]
      split
      · exact List.cons_ne_nil _ _
      · exact ih (List.cons_ne_nil c word)
  have hjoin {word : List Char} {rest : List (List Char)} (hrest : rest ≠ []) :
      joinWords (word :: rest) = word ++ ' ' :: joinWords rest := by
    cases rest with
    | nil => exact absurd rfl hrest
    | cons next rest => rfl
  -- at the start of a text, in a word, and in the blanks behind a word
  have hall : (∀ gap, joinWords (Text.wordsFrom [] cs) = squeeze (fun before _ => before.isSome) none gap cs) ∧
      (∀ word x, word ≠ [] → joinWords (Text.wordsFrom word cs) =
        word.reverse ++ squeeze (fun before _ => before.isSome) (some x) false cs) ∧
      ∀ word x, joinWords (word :: Text.wordsFrom [] cs) =
        word ++ squeeze (fun before _ => before.isSome) (some x) true cs := by
    induction cs with
    | nil => exact ⟨fun _ => rfl, fun word x hword => by simp [Text.wordsFrom, hword, joinWords, squeeze],
        fun word x => by simp [Text.wordsFrom, joinWords, squeeze]⟩
    | cons c cs ih =>
      obtain ⟨hstart, hinside, hbehind⟩ := ih
      cases hc : Text.isBlank c with
      | true =>
        refine ⟨fun gap => ?_, fun word x hword => ?_, fun word x => ?_⟩
        · rw [squeeze_blank hc, ← hstart true, Text.wordsFrom, if_pos hc, if_pos rfl]
        · rw [squeeze_blank hc, ← hbehind, Text.wordsFrom, if_pos hc, if_neg hword]
        · rw [squeeze_blank hc, ← hbehind, Text.wordsFrom, if_pos hc, if_pos rfl]
      | false =>
        have hword (word : List Char) : Text.wordsFrom word (c :: cs) = Text.wordsFrom (c :: word) cs := by
          rw [Text.wordsFrom, if_neg (by simp [hc])]
        refine ⟨fun gap => ?_, fun word x _ => ?_, fun word x => ?_⟩
        · rw [squeeze_drop hc (by simp), hword, hinside [c] c (by simp)]
          rfl
        · rw [squeeze_drop hc (by simp), hword, hinside (c :: word) c (by simp)]
          simp
        · rw [squeeze_keep hc (by simp), hword, hjoin (hne (by simp) cs), hinside [c] c (by simp)]
          rfl
  exact hall.1 false

theorem contract_cons_of_ne (h : c ≠ x) : contract x y z (c :: cs) = c :: contract x y z cs := by
  cases cs with
  | nil => rfl
  | cons b cs => exact if_neg fun hpair => h hpair.1

/-- No space is left in front of `y`. -/
theorem contract_squeeze_before (y : Char) (before : Option Char) (gap : Bool) (cs : List Char) :
    contract ' ' y y (squeeze keeps before gap cs) = squeeze (notBefore y keeps) before gap cs := by
  induction cs generalizing before gap with
  | nil => rfl
  | cons c cs ih =>
    cases hc : Text.isBlank c with
    | true => rw [squeeze_blank hc, squeeze_blank hc, ih]
    | false =>
      have hspace := ne_space_of_not_blank hc
      have hnot : (gap && notBefore y keeps before c) = ((gap && keeps before c) && c != y) := (Bool.and_assoc ..).symm
      cases hkeeps : gap && keeps before c with
      | false =>
        rw [hkeeps, Bool.false_and] at hnot
        rw [squeeze_drop hc hkeeps, squeeze_drop hc hnot, contract_cons_of_ne hspace, ih]
      | true =>
        rw [hkeeps, Bool.true_and] at hnot
        rw [squeeze_keep hc hkeeps]
        by_cases hy : c = y
        · rw [bne_eq_false_iff_eq.2 hy] at hnot
          rw [squeeze_drop hc hnot, contract, if_pos ⟨rfl, hy⟩, ih, hy]
        · rw [bne_iff_ne.2 hy] at hnot
          rw [squeeze_keep hc hnot, contract, if_neg (fun hpair => hy hpair.2), contract_cons_of_ne hspace, ih]

/-- No space is left behind `x`. If `x` stands in front of the text, it has to be taken in with it. -/
theorem contract_squeeze_behind {x : Char} (hx : x ≠ ' ') (before : Option Char) (gap : Bool) (cs : List Char) :
    contract x ' ' x ((if before = some x then [x] else []) ++ squeeze keeps before gap cs) =
      (if before = some x then [x] else []) ++ squeeze (notBehind x keeps) before gap cs := by
  induction cs generalizing before gap with
  | nil => split <;> rfl
  | cons c cs ih =>
    cases hc : Text.isBlank c with
    | true => rw [squeeze_blank hc, squeeze_blank hc, ih]
    | false =>
      have hspace := ne_space_of_not_blank hc
      have hrest : contract x ' ' x (c :: squeeze keeps (some c) false cs) =
          c :: squeeze (notBehind x keeps) (some c) false cs := by
        have hnext := ih (some c) false
        by_cases hcx : c = x
        · rw [if_pos (congrArg some hcx), ← hcx] at hnext
          rw [← hcx]
          exact hnext
        · rw [if_neg (fun heq => hcx (Option.some.inj heq))] at hnext
          rw [contract_cons_of_ne hcx]
          exact congrArg (c :: ·) hnext
      have hnot : (gap && notBehind x keeps before c) = ((gap && keeps before c) && before != some x) :=
        (Bool.and_assoc ..).symm
      by_cases hbefore : before = some x
      · rw [bne_eq_false_iff_eq.2 hbefore, Bool.and_false] at hnot
        rw [if_pos hbefore, List.singleton_append, List.singleton_append, squeeze_drop hc hnot]
        cases hkeeps : gap && keeps before c with
        | false => rw [squeeze_drop hc hkeeps, contract, if_neg (fun hpair => hspace hpair.2), hrest]
        | true => rw [squeeze_keep hc hkeeps, contract, if_pos ⟨rfl, rfl⟩, hrest]
      · rw [bne_iff_ne.2 hbefore, Bool.and_true] at hnot
        rw [if_neg hbefore, List.nil_append, List.nil_append]
        cases hkeeps : gap && keeps before c with
        | false => rw [squeeze_drop hc hkeeps, squeeze_drop hc (hnot.trans hkeeps), hrest]
        | true =>
          rw [squeeze_keep hc hkeeps, squeeze_keep hc (hnot.trans hkeeps), contract_cons_of_ne (Ne.symm hx), hrest]

end Squeeze

/-! ## The normal form -/

/-- Whether blanks between two characters are kept as a space: both belong to words. -/
def parts (before : Option Char) (c : Char) : Bool := before.any (!isBracket ·) && !isBracket c

theorem parts_eq :
    parts = notBehind '>' (notBefore '>' (notBehind '<' (notBefore '<' fun before _ => before.isSome))) := by
  funext before c
  cases before with
  | none => rfl
  | some b =>
    have hsome (x : Char) : (some b == some x) = (b == x) := rfl
    simp only [parts, notBehind, notBefore, isBracket, Option.any_some, Option.isSome_some, bne, hsome]
    cases b == '<' <;> cases b == '>' <;> cases c == '<' <;> cases c == '>' <;> rfl

/-- A type text is normal without its blanks, but with a space between two words. -/
theorem normalChars_eq_squeeze (cs : List Char) : normalChars cs = squeeze parts none false cs := by
  have hbehind {x : Char} (hx : x ≠ ' ') (keeps : Option Char → Char → Bool) :
      contract x ' ' x (squeeze keeps none false cs) = squeeze (notBehind x keeps) none false cs :=
    contract_squeeze_behind hx none false cs
  rw [normalChars, joinWords_eq_squeeze, contract_squeeze_before, hbehind (by decide), contract_squeeze_before,
    hbehind (by decide), parts_eq]

section Items

variable {before : Option Char} {c x : Char} {word cs : List Char}

theorem finished_of_ne_nil (h : word ≠ []) : finished word = [word.reverse] := if_neg h

theorem itemsFrom_blank (h : Text.isBlank c = true) :
    itemsFrom word (c :: cs) = finished word ++ itemsFrom [] cs := if_pos h

theorem itemsFrom_bracket (h : isBracket c = true) :
    itemsFrom word (c :: cs) = finished word ++ [c] :: itemsFrom [] cs := by
  rw [itemsFrom, if_neg (by simp [isBlank_of_bracket h]), if_pos h]

theorem itemsFrom_word (hblank : Text.isBlank c = false) (h : isBracket c = false) :
    itemsFrom word (c :: cs) = itemsFrom (c :: word) cs := by
  rw [itemsFrom, if_neg (by simp [hblank]), if_neg (by simp [h])]

/-- A word that was begun is the first item. -/
theorem head_itemsFrom (hne : word ≠ []) (hword : ∀ c ∈ word, isBracket c = false) (cs : List Char) :
    (itemsFrom word cs).head?.any isWord = true := by
  have hfinished {word : List Char} (hne : word ≠ []) (hword : ∀ c ∈ word, isBracket c = false)
      (rest : List (List Char)) : (finished word ++ rest).head?.any isWord = true := by
    rw [finished_of_ne_nil hne]
    exact isWord_of_notMem fun c hc => hword c (List.mem_reverse.1 hc)
  induction cs generalizing word with
  | nil => rw [itemsFrom, ← List.append_nil (finished word)]; exact hfinished hne hword []
  | cons c cs ih =>
    cases hblank : Text.isBlank c with
    | true => rw [itemsFrom_blank hblank]; exact hfinished hne hword _
    | false =>
      cases hbracket : isBracket c with
      | true => rw [itemsFrom_bracket hbracket]; exact hfinished hne hword _
      | false =>
        rw [itemsFrom_word hblank hbracket]
        exact ih (List.cons_ne_nil c word) (List.forall_mem_cons.2 ⟨hbracket, hword⟩)

theorem parts_bracket (h : isBracket c = true) : parts before c = false := by simp [parts, h]

/-- The items of `cs`, spelled, are `cs` without its blanks, whatever was read in front of it. -/
structure Unspaced (cs : List Char) : Prop where
  /-- At the start of a text, or behind a bracket. -/
  start : ∀ before gap, before.any (!isBracket ·) = false → spell (itemsFrom [] cs) = squeeze parts before gap cs
  /-- In a word. -/
  inside : ∀ word x, word ≠ [] → (∀ c ∈ word, isBracket c = false) → isBracket x = false →
    spell (itemsFrom word cs) = word.reverse ++ squeeze parts (some x) false cs
  /-- In the blanks behind a word. -/
  behind : ∀ item x, isWord item = true → isBracket x = false →
    spell (item :: itemsFrom [] cs) = item ++ squeeze parts (some x) true cs

theorem Unspaced.nil : Unspaced [] where
  start _ _ _ := rfl
  inside word x hne _ _ := by rw [itemsFrom, finished_of_ne_nil hne, squeeze, List.append_nil, spell]
  behind item x _ _ := (List.append_nil item).symm

theorem Unspaced.blank (h : Unspaced cs) (hblank : Text.isBlank c = true) : Unspaced (c :: cs) where
  start before gap hbefore := by
    rw [itemsFrom_blank hblank, squeeze_blank hblank]
    exact h.start before true hbefore
  inside word x hne hword hx := by
    rw [itemsFrom_blank hblank, squeeze_blank hblank, finished_of_ne_nil hne]
    exact h.behind _ x (isWord_of_notMem fun c hc => hword c (List.mem_reverse.1 hc)) hx
  behind item x hitem hx := by
    rw [itemsFrom_blank hblank, squeeze_blank hblank]
    exact h.behind item x hitem hx

theorem Unspaced.bracket (h : Unspaced cs) (hbracket : isBracket c = true) : Unspaced (c :: cs) := by
  have hblank := isBlank_of_bracket hbracket
  have hspell : spell ([c] :: itemsFrom [] cs) = c :: squeeze parts (some c) false cs := by
    rw [spell_cons, isWord_of_bracket hbracket, h.start (some c) false (by simp [hbracket])]
    rfl
  have hjoin (item : List Char) : spell (item :: [c] :: itemsFrom [] cs) =
      item ++ c :: squeeze parts (some c) false cs := by
    rw [spell_cons, List.head?_cons, Option.any_some, isWord_of_bracket hbracket, Bool.and_false, hspell]
    simp
  refine ⟨fun before gap _ => ?_, fun word x hne _ _ => ?_, fun item x _ _ => ?_⟩
  · rw [itemsFrom_bracket hbracket, squeeze_drop hblank (by simp [parts_bracket hbracket])]
    exact hspell
  · rw [itemsFrom_bracket hbracket, squeeze_drop hblank (by simp), finished_of_ne_nil hne]
    exact hjoin _
  · rw [itemsFrom_bracket hbracket, squeeze_drop hblank (by simp [parts_bracket hbracket])]
    exact hjoin item

theorem Unspaced.letter (h : Unspaced cs) (hblank : Text.isBlank c = false) (hbracket : isBracket c = false) :
    Unspaced (c :: cs) := by
  have hbegun : spell (itemsFrom [c] cs) = [c].reverse ++ squeeze parts (some c) false cs :=
    h.inside [c] c (by simp) (by simpa using hbracket) hbracket
  refine ⟨fun before gap hbefore => ?_, fun word x _ hword _ => ?_, fun item x hitem hx => ?_⟩
  · rw [itemsFrom_word hblank hbracket, squeeze_drop hblank (by simp [parts, hbefore]), hbegun]
    rfl
  · rw [itemsFrom_word hblank hbracket, squeeze_drop hblank (by simp),
      h.inside (c :: word) c (by simp) (List.forall_mem_cons.2 ⟨hbracket, hword⟩) hbracket]
    simp
  · rw [itemsFrom_word hblank hbracket, squeeze_keep hblank (by simp [parts, hx, hbracket]), spell_cons, hitem,
      head_itemsFrom (by simp) (by simpa using hbracket) cs, hbegun]
    simp

theorem unspaced (cs : List Char) : Unspaced cs := by
  induction cs with
  | nil => exact .nil
  | cons c cs ih =>
    cases hblank : Text.isBlank c with
    | true => exact ih.blank hblank
    | false =>
      cases hbracket : isBracket c with
      | true => exact ih.bracket hbracket
      | false => exact ih.letter hblank hbracket

/-- The normal form of a type text is spelled by its words and brackets. -/
theorem normalChars_eq_spell (cs : List Char) : normalChars cs = spell (items cs) := by
  rw [normalChars_eq_squeeze, items, (unspaced cs).start none false rfl]

/-- The normal form has the same words and brackets. -/
theorem items_normalChars (cs : List Char) : items (normalChars cs) = items cs := by
  have hall {word : List Char} {before : Option Char} (gap : Bool)
      (hword : word = [] ↔ before.any (!isBracket ·) = false) : itemsFrom word (squeeze parts before gap cs) =
        if gap then finished word ++ itemsFrom [] cs else itemsFrom word cs := by
    induction cs generalizing word before gap with
    | nil => cases gap <;> simp [squeeze, itemsFrom, finished]
    | cons c cs ih =>
      cases hblank : Text.isBlank c with
      | true =>
        rw [squeeze_blank hblank, ih true hword, itemsFrom_blank hblank, itemsFrom_blank hblank]
        cases gap <;> rfl
      | false =>
        cases hbracket : isBracket c with
        | true =>
          have hrest : itemsFrom [] (squeeze parts (some c) false cs) = itemsFrom [] cs := ih false (by simp [hbracket])
          rw [squeeze_drop hblank (by simp [parts_bracket hbracket]), itemsFrom_bracket hbracket, hrest,
            itemsFrom_bracket hbracket, itemsFrom_bracket hbracket]
          cases gap <;> rfl
        | false =>
          have hrest (word : List Char) :
              itemsFrom (c :: word) (squeeze parts (some c) false cs) = itemsFrom (c :: word) cs :=
            ih false (by simp [hbracket])
          rw [itemsFrom_word hblank hbracket, itemsFrom_word hblank hbracket]
          by_cases hnil : word = []
          · subst hnil
            rw [squeeze_drop hblank (by simp [parts, hword.1 rfl]), itemsFrom_word hblank hbracket, hrest]
            cases gap <;> rfl
          · cases gap with
            | false => rw [squeeze_drop hblank (by simp), itemsFrom_word hblank hbracket, hrest]; rfl
            | true =>
              have hkeeps : (true && parts before c) = true := by
                simpa [parts, hbracket] using mt hword.2 hnil
              rw [squeeze_keep hblank hkeeps, itemsFrom_blank (by decide), itemsFrom_word hblank hbracket, hrest]
              rfl
  rw [normalChars_eq_squeeze]
  exact hall false (by simp)

/-- A normal form is its own normal form. -/
theorem normalChars_normalChars (cs : List Char) : normalChars (normalChars cs) = normalChars cs := by
  rw [normalChars_eq_spell (normalChars cs), items_normalChars, normalChars_eq_spell]

theorem normalChars_eq_iff {cs ds : List Char} : normalChars cs = normalChars ds ↔ items cs = items ds := by
  constructor
  · intro h
    rw [← items_normalChars cs, h, items_normalChars]
  · intro h
    rw [normalChars_eq_spell, h, normalChars_eq_spell]

end Items

end TypeText

/-! ## What a table finds -/

namespace SymbolTable

variable {t : SymbolTable}

theorem Named.isName_of_find? {name : String} {symbol : Symbol} (ht : t.Named) (h : t.find? name = some symbol) :
    IsName name := by
  obtain ⟨before, after, hentries, -⟩ := List.lookup_eq_some_iff.1 h
  exact ht (name, symbol) (by simp [hentries])

/-- What a normal type text stands for, where `inner` tells it of the element of a sequence. -/
def resolveNormal (t : SymbolTable) (range : FileRange) (target : Path)
    (inner : List Char → Except Error (ScriptType × List Import)) (normal : List Char) :
    Except Error (ScriptType × List Import) :=
  match t.find? (String.ofList normal) with
  | some symbol => .ok (use (String.ofList normal) symbol target)
  | none =>
    if (TypeText.argument? "string" normal).isSome ∨ (TypeText.argument? "wstring" normal).isSome then .ok (.string, [])
    else if normal = "sequence<octet>".toList then .ok (.buffer, [])
    else match TypeText.argument? "sequence" normal with
      | some element => (inner element).map fun (type, imports) => (.array type, imports)
      | none =>
        match builtin? (String.ofList normal) with
        | some type => .ok (type, [])
        | none => .error (.unknownType (String.ofList normal) range (t.suggestion? (String.ofList normal)))

/-- A text that is not declared as it is written is read in its normal form. -/
theorem resolveChars_of_find?_eq_none (range : FileRange) (target : Path) {cs : List Char}
    (hfind : t.find? (String.ofList cs) = none) :
    t.resolveChars range target cs =
      t.resolveNormal range target (t.resolveChars range target) (TypeText.normalChars cs) := by
  rw [resolveChars, hfind, resolveNormal]
  dsimp only
  cases t.find? (String.ofList (TypeText.normalChars cs)) with
  | some symbol => rfl
  | none =>
    dsimp only
    split
    · rfl
    · split
      · rfl
      · split
        · rename_i element helement
          rw [helement]
          dsimp only
          cases t.resolveChars range target element <;> rfl
        · rename_i hnone
          cases builtin? (String.ofList (TypeText.normalChars cs)) <;> simp only [hnone]

/-- A table of names looks only at the normal form of a type text. -/
theorem Named.resolveChars_eq (ht : t.Named) (range : FileRange) (target : Path) (cs : List Char) :
    t.resolveChars range target cs =
      t.resolveNormal range target (t.resolveChars range target) (TypeText.normalChars cs) := by
  cases hfind : t.find? (String.ofList cs) with
  | some symbol =>
    have hname := TypeText.normalChars_of_isName (ht.isName_of_find? hfind)
    rw [String.toList_ofList] at hname
    have hfound : t.resolveChars range target cs = .ok (use (String.ofList cs) symbol target) := by
      rw [resolveChars, hfind]
    rw [hfound, resolveNormal, hname, hfind]
  | none => exact resolveChars_of_find?_eq_none range target hfind

/-- Type texts with the same normal form stand for the same, or fail in the same way. -/
theorem Named.resolve_congr (ht : t.Named) {type type' : String}
    (h : TypeText.normalize type = TypeText.normalize type') (range : FileRange) (target : Path) :
    t.resolve range target type = t.resolve range target type' ∧
      t.resolveReturn range target type = t.resolveReturn range target type' := by
  have hchars : TypeText.normalChars type.toList = TypeText.normalChars type'.toList := String.ofList_injective h
  have hresolve : t.resolve range target type = t.resolve range target type' := by
    rw [resolve, resolve, ht.resolveChars_eq, hchars, ← ht.resolveChars_eq]
  exact ⟨hresolve, by rw [resolveReturn, resolveReturn, h, hresolve]⟩

/-- A table in which `T` is declared for the output `a.ts`. -/
def declaredOnce : SymbolTable := ⟨[("T", ⟨.struct, ⟨"a.idl"⟩, ⟨"a.ts"⟩, ⟨1, 0, 1⟩⟩)]⟩

end SymbolTable

namespace TypeText

open SymbolTable

/-- Two type texts have the same normal form just if they have the same words and brackets. A normal form is its own
normal form, and tables of names only look at it. -/
theorem normalize_is_canonical (type type' : String) :
    (normalize type = normalize type' ↔ items type.toList = items type'.toList) ∧
      normalize (normalize type) = normalize type ∧
      ∀ t : SymbolTable, t.Named → normalize type = normalize type' → ∀ range target,
        t.resolve range target type = t.resolve range target type' ∧
          t.resolveReturn range target type = t.resolveReturn range target type' := by
  refine ⟨?_, ?_, fun t ht h range target => ht.resolve_congr h range target⟩
  · rw [← normalChars_eq_iff]
    exact ⟨fun h => String.ofList_injective h, fun h => congrArg String.ofList h⟩
  · rw [normalize, normalize, String.toList_ofList, normalChars_normalChars]

/-- Blanks of all kinds count for nothing around brackets. -/
theorem normalize_is_canonical_blanks :
    normalize " sequence\t< \u3000T>" = normalize "sequence<T >" ∧
      (declaredOnce.resolve ⟨1, 0, 1⟩ ⟨"b.ts"⟩ " sequence\t< \u3000T>").toOption =
        some (.array (.named "T"), [⟨"T", "./a"⟩]) ∧
      declaredOnce.resolve ⟨1, 0, 1⟩ ⟨"b.ts"⟩ " sequence\t< \u3000T>" =
        declaredOnce.resolve ⟨1, 0, 1⟩ ⟨"b.ts"⟩ "sequence<T >" := by
  have hsame : normalize " sequence\t< \u3000T>" = normalize "sequence<T >" :=
    (normalize_is_canonical _ _).1.2 (by decide +kernel)
  have hnamed : declaredOnce.Named := by
    intro entry hentry
    obtain rfl := List.mem_singleton.1 hentry
    show Text.isName _ = true
    decide +kernel
  exact ⟨hsame, by decide +kernel, ((normalize_is_canonical _ _).2.2 declaredOnce hnamed hsame _ _).1⟩

end TypeText

end Idl
