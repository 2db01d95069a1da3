import Idl.Item.Cursor

/-!
# Members

The members in the braces of structs, exceptions, enums and interfaces. Comments between members
stay between them. Comments inside of a member come in front of it, on lines of their own.

A list of members ends at the closing brace, or at the first fault in it; in either case the members
before it are kept.
-/

namespace Idl.Cursor

/-- What was read one after the other, and the cursor after it or the fault that ended it. -/
abbrev Reading (α : Type) := List α × Except Error Cursor

/-- Reads on, unless a fault ended the reading before. -/
def readAfter {α : Type} (before : Except Error Cursor) (f : Cursor → Reading α) : Reading α :=
  match before with
  | .error e => ([], .error e)
  | .ok c => f c

/-- The comments that were passed, as members. -/
def passedMembers {α : Type} (c : Cursor) : List (Member α) := c.skip.comments.map .comment

/-- The comments that were passed inside of a member, as members in front of it. -/
def hoistedMembers {α : Type} (c : Cursor) : List (Member α) := c.comments.map fun comment => .comment comment.detach

/-- The marks that end a type and a name among fields and parameters. -/
def fieldStops : List Mark := [.comma, .semicolon, .closeParen]

/-! ## Fields -/

/-- A field and the mark after it. -/
def field (finish : FileRange) (c : Cursor) : Except Error (Field TypeExpr × Cursor) := do
  let (typed, c) ← c.typedName finish fieldStops
  let (token, c) ← c.next finish "`;`"
  if token.kind = .mark .semicolon ∨ token.kind = .mark .comma then .ok (⟨typed.name.text, typed.type⟩, c)
  else .error (token.unexpected "`;`")

theorem size_lt_of_field {finish : FileRange} {c d : Cursor} {f : Field TypeExpr}
    (h : c.field finish = .ok (f, d)) : d.size < c.size := by
  unfold field at h
  rcases ht : c.typedName finish fieldStops with e | ⟨typed, c₁⟩
  · rw [ht] at h
    cases h
  · rw [ht] at h
    simp only [bind, Except.bind] at h
    rcases hn : c₁.next finish "`;`" with e | ⟨token, c₂⟩
    · rw [hn] at h
      cases h
    · rw [hn] at h
      simp only at h
      split at h
      · cases h
        exact Nat.lt_of_lt_of_le (size_lt_of_next hn) (size_le_of_typedName ht)
      · cases h

/-- Fields up to the closing brace. -/
def fields (finish : FileRange) (c : Cursor) : Reading (Member (Field TypeExpr)) :=
  if c.kind? = some (.mark .closeBrace) then (c.passedMembers, .ok c.fresh)
  else match h : c.fresh.field finish with
    | .error e => (c.passedMembers, .error e)
    | .ok (f, after) =>
      have : after.tokens.length < c.tokens.length := Nat.lt_of_lt_of_le (size_lt_of_field h) c.size_fresh_le
      let (rest, last) := fields finish ⟨after.tokens, []⟩
      (c.passedMembers ++ after.hoistedMembers ++ .item f :: rest, last)
termination_by c.tokens.length

/-! ## Enum values -/

/-- One or more values with commas between them. -/
def values (finish : FileRange) (c : Cursor) : Reading (Member String) :=
  match h : c.fresh.name finish with
  | .error e => (c.passedMembers, .error e)
  | .ok (name, after) =>
    let head := c.passedMembers ++ .item name.text :: after.passedMembers
    match hs : after.skip.tokens with
    | [] => (head, .ok after.fresh)
    | token :: tokens =>
      if token.kind = .mark .comma then
        have : tokens.length < c.tokens.length := by
          have hlt := Nat.lt_of_lt_of_le (size_lt_of_name h) c.size_fresh_le
          have hle := after.size_skip_le
          simp only [size, hs, List.length_cons] at hlt hle
          omega
        let (rest, last) := values finish ⟨tokens, []⟩
        (head ++ rest, last)
      else (head, .ok after.fresh)
termination_by c.tokens.length

/-- The values of an enum, if there are any. -/
def enumMembers (finish : FileRange) (c : Cursor) : Reading (Member String) :=
  if c.kind? = some (.mark .closeBrace) then (c.passedMembers, .ok c.fresh) else c.values finish

/-! ## Methods -/

/-- What may follow an item of a list in parentheses. -/
def separatorText : String := "`,` or `)`"

/-- One or more items with commas between them, and the closing parenthesis. -/
def separated {α : Type} (finish : FileRange) (item : Cursor → Except Error (α × Cursor))
    (forward : ∀ c d a, item c = .ok (a, d) → d.size ≤ c.size) (c : Cursor) : Reading α :=
  match hi : item c with
  | .error e => ([], .error e)
  | .ok (a, after) =>
    match hn : after.next finish separatorText with
    | .error e => ([a], .error e)
    | .ok (token, rest) =>
      if token.kind = .mark .comma then
        have : rest.size < c.size := Nat.lt_of_lt_of_le (size_lt_of_next hn) (forward _ _ _ hi)
        let (more, last) := separated finish item forward rest
        (a :: more, last)
      else if token.kind = .mark .closeParen then ([a], .ok rest)
      else ([a], .error (token.unexpected separatorText))
termination_by c.size

/-- A parameter. -/
def parameter (finish : FileRange) (c : Cursor) : Except Error (Parameter TypeExpr × Cursor) := do
  let (token, c) ← c.next finish "a parameter direction"
  match token.kind with
  | .keyword (.direction direction) =>
    let (typed, c) ← c.typedName finish fieldStops
    return (⟨direction, typed.name.text, typed.type⟩, c)
  | _ => .error (.invalidDirection token.range token.text)

theorem size_le_of_parameter {finish : FileRange} {c d : Cursor} {p : Parameter TypeExpr}
    (h : c.parameter finish = .ok (p, d)) : d.size ≤ c.size := by
  unfold parameter at h
  rcases hn : c.next finish "a parameter direction" with e | ⟨token, c₁⟩
  · rw [hn] at h
    cases h
  · rw [hn] at h
    simp only [bind, Except.bind] at h
    split at h
    · rcases ht : c₁.typedName finish fieldStops with e | ⟨typed, c₂⟩
      · rw [ht] at h
        cases h
      · rw [ht] at h
        cases h
        exact Nat.le_trans (size_le_of_typedName ht) (Nat.le_of_lt (size_lt_of_next hn))
    · cases h

/-- The parameters of a method, after the opening parenthesis. -/
def parameters (finish : FileRange) (c : Cursor) : Reading (Parameter TypeExpr) :=
  if c.kind? = some (.mark .closeParen) then ([], .ok ⟨c.skip.tokens.drop 1, c.skip.comments⟩)
  else c.separated finish (·.parameter finish) fun _ _ _ => size_le_of_parameter

/-- One or more names, after the opening parenthesis. -/
def names (finish : FileRange) (c : Cursor) : Reading Name :=
  c.separated finish (·.name finish) fun _ _ _ h => Nat.le_of_lt (size_lt_of_name h)

/-- The exceptions that a method raises, if it says so. -/
def raised (finish : FileRange) (c : Cursor) : Reading Name :=
  if c.kind? = some (.keyword .raises) then
    readAfter ((⟨c.skip.tokens.drop 1, c.skip.comments⟩ : Cursor).expect finish (.mark .openParen) "`(`")
      (·.names finish)
  else ([], .ok c)

/-- What was read of a method whose result and name are known. -/
def methodRest (finish : FileRange) (typed : TypedName) (c : Cursor) : Method TypeExpr Name × Except Error Cursor :=
  let (parameters, listed) := readAfter (c.expect finish (.mark .openParen) "`(`") (·.parameters finish)
  let (raises, ended) := readAfter listed (·.raised finish)
  (⟨typed.name.text, typed.type, parameters, raises⟩, ended.bind (·.expect finish (.mark .semicolon) "`;`"))

/-- A method, or what was read of it. Without a result and a name there is no method. -/
def method (finish : FileRange) (c : Cursor) : Except Error (Method TypeExpr Name × Except Error Cursor) := do
  let (typed, c) ← c.typedName finish [.openParen]
  return c.methodRest finish typed

theorem size_lt_of_separated {α : Type} {finish : FileRange} {item : Cursor → Except Error (α × Cursor)}
    {forward : ∀ c d a, item c = .ok (a, d) → d.size ≤ c.size} {c d : Cursor}
    (h : (c.separated finish item forward).2 = .ok d) : d.size < c.size := by
  fun_induction separated finish item forward c with
  | case1 => cases h
  | case2 => cases h
  | case3 c a after hi token rest hn hcomma hlt more last heq ih =>
    exact Nat.lt_trans (ih (by simpa [heq] using h)) hlt
  | case4 c a after hi token rest hn =>
    cases h
    exact Nat.lt_of_lt_of_le (size_lt_of_next hn) (forward _ _ _ hi)
  | case5 => cases h

theorem size_le_of_readAfter {α : Type} {before : Except Error Cursor} {f : Cursor → Reading α} {d : Cursor} {n : Nat}
    (hbefore : ∀ c, before = .ok c → c.size ≤ n) (hf : ∀ c, (f c).2 = .ok d → d.size ≤ c.size)
    (h : (readAfter before f).2 = .ok d) : d.size ≤ n := by
  cases before with
  | error e => cases h
  | ok c => exact Nat.le_trans (hf c h) (hbefore c rfl)

theorem size_drop_skip_le (c : Cursor) : (⟨c.skip.tokens.drop 1, c.skip.comments⟩ : Cursor).size ≤ c.size := by
  have := c.size_skip_le
  simp only [size, List.length_drop] at this ⊢
  omega

theorem size_le_of_parameters {finish : FileRange} {c d : Cursor} (h : (c.parameters finish).2 = .ok d) :
    d.size ≤ c.size := by
  unfold parameters at h
  split at h
  · cases h
    exact c.size_drop_skip_le
  · exact Nat.le_of_lt (size_lt_of_separated h)

theorem size_le_of_names {finish : FileRange} {c d : Cursor} (h : (c.names finish).2 = .ok d) : d.size ≤ c.size :=
  Nat.le_of_lt (size_lt_of_separated h)

theorem size_le_of_raised {finish : FileRange} {c d : Cursor} (h : (c.raised finish).2 = .ok d) : d.size ≤ c.size := by
  unfold raised at h
  split at h
  · refine size_le_of_readAfter (fun c' hc' => ?_) (fun _ => size_le_of_names) h
    exact Nat.le_trans (Nat.le_of_lt (size_lt_of_expect hc')) c.size_drop_skip_le
  · cases h
    exact Nat.le_refl _

theorem size_lt_of_methodRest {finish : FileRange} {typed : TypedName} {c d : Cursor}
    (h : (c.methodRest finish typed).2 = .ok d) : d.size < c.size := by
  simp only [methodRest] at h
  rcases hended : (readAfter (readAfter (c.expect finish (.mark .openParen) "`(`") (·.parameters finish)).2
    (·.raised finish)).2 with e | c'
  · rw [hended] at h
    cases h
  · rw [hended] at h
    refine Nat.lt_of_lt_of_le (size_lt_of_expect h)
      (size_le_of_readAfter (fun c₁ h₁ => ?_) (fun _ => size_le_of_raised) hended)
    exact size_le_of_readAfter (fun c₂ h₂ => Nat.le_of_lt (size_lt_of_expect h₂)) (fun _ => size_le_of_parameters) h₁

theorem size_lt_of_method {finish : FileRange} {c d : Cursor} {m : Method TypeExpr Name}
    (h : c.method finish = .ok (m, .ok d)) : d.size < c.size := by
  unfold method at h
  rcases ht : c.typedName finish [.openParen] with e | ⟨typed, c₁⟩
  · rw [ht] at h
    cases h
  · rw [ht] at h
    simp only [bind, Except.bind, pure, Except.pure, Except.ok.injEq] at h
    exact Nat.lt_of_lt_of_le (size_lt_of_methodRest (by rw [h])) (size_le_of_typedName ht)

/-- Methods up to the closing brace. -/
def methods (finish : FileRange) (c : Cursor) : Reading (Member MethodItem) :=
  if c.kind? = some (.mark .closeBrace) then (c.passedMembers, .ok c.fresh)
  else match h : c.fresh.method finish with
    | .error e => (c.passedMembers, .error e)
    | .ok (m, .error e) => (c.passedMembers ++ [.item ⟨m, some e⟩], .error e)
    | .ok (m, .ok after) =>
      have : after.tokens.length < c.tokens.length := Nat.lt_of_lt_of_le (size_lt_of_method h) c.size_fresh_le
      let (rest, last) := methods finish ⟨after.tokens, []⟩
      (c.passedMembers ++ after.hoistedMembers ++ .item ⟨m, none⟩ :: rest, last)
termination_by c.tokens.length

/-! ## Blocks -/

/-- Members in braces, and the semicolon after them. `closer` is what may follow the last member. -/
def block {α : Type} (finish : FileRange) (members : Cursor → Reading (Member α)) (closer : String) (c : Cursor) :
    Block α × Option Cursor :=
  let (read, last) := readAfter (c.expect finish (.mark .openBrace) "`\x7b`") members
  match (last.bind (·.expect finish (.mark .closeBrace) closer)).bind (·.expect finish (.mark .semicolon) "`;`") with
  | .error e => (⟨read, [], some e⟩, none)
  | .ok c => (⟨read, c.comments.map Comment.detach, none⟩, some ⟨c.tokens, []⟩)

theorem size_le_of_fields {finish : FileRange} {c d : Cursor} (h : (c.fields finish).2 = .ok d) : d.size ≤ c.size := by
  fun_induction fields finish c with
  | case1 c =>
    cases h
    exact c.size_fresh_le
  | case2 => cases h
  | case3 c hc f after hf hlt rest last heq ih =>
    exact Nat.le_trans (ih (by simpa [heq] using h)) (Nat.le_of_lt hlt)

theorem size_le_of_values {finish : FileRange} {c d : Cursor} (h : (c.values finish).2 = .ok d) : d.size ≤ c.size := by
  fun_induction values finish c with
  | case1 => cases h
  | case2 c name after hname head hs =>
    cases h
    exact Nat.le_trans after.size_fresh_le (Nat.le_of_lt (Nat.lt_of_lt_of_le (size_lt_of_name hname) c.size_fresh_le))
  | case3 c name after hname head token tokens hs hcomma hlt rest last heq ih =>
    exact Nat.le_trans (ih (by simpa [heq] using h)) (Nat.le_of_lt hlt)
  | case4 c name after hname head token tokens hs hcomma =>
    cases h
    exact Nat.le_trans after.size_fresh_le (Nat.le_of_lt (Nat.lt_of_lt_of_le (size_lt_of_name hname) c.size_fresh_le))

theorem size_le_of_enumMembers {finish : FileRange} {c d : Cursor} (h : (c.enumMembers finish).2 = .ok d) :
    d.size ≤ c.size := by
  unfold enumMembers at h
  split at h
  · cases h
    exact c.size_fresh_le
  · exact size_le_of_values h

theorem size_le_of_methods {finish : FileRange} {c d : Cursor} (h : (c.methods finish).2 = .ok d) :
    d.size ≤ c.size := by
  fun_induction methods finish c with
  | case1 c =>
    cases h
    exact c.size_fresh_le
  | case2 => cases h
  | case3 => cases h
  | case4 c hc m after hm hlt rest last heq ih =>
    exact Nat.le_trans (ih (by simpa [heq] using h)) (Nat.le_of_lt hlt)

theorem size_le_of_block {α : Type} {finish : FileRange} {members : Cursor → Reading (Member α)} {closer : String}
    {c d : Cursor} (hmembers : ∀ {c d}, (members c).2 = .ok d → d.size ≤ c.size)
    (h : (c.block finish members closer).2 = some d) : d.size ≤ c.size := by
  simp only [block] at h
  rcases hlast : (readAfter (c.expect finish (.mark .openBrace) "`\x7b`") members).2 with e | c₁
  · rw [hlast] at h
    cases h
  · rw [hlast] at h
    simp only [Except.bind] at h
    rcases hclose : c₁.expect finish (.mark .closeBrace) closer with e | c₂
    · rw [hclose] at h
      cases h
    · rw [hclose] at h
      simp only at h
      rcases hsemi : c₂.expect finish (.mark .semicolon) "`;`" with e | c₃
      · rw [hsemi] at h
        cases h
      · rw [hsemi] at h
        cases h
        have hread : c₁.size ≤ c.size :=
          size_le_of_readAfter (fun _ h => Nat.le_of_lt (size_lt_of_expect h)) (fun _ => hmembers) hlast
        have h₂ := size_lt_of_expect hclose
        have h₃ := size_lt_of_expect hsemi
        simp only [size] at *
        omega

end Idl.Cursor
