import Idl.Compilation.Compile

/-!
# Steps of a compilation

`Gives m s a s'` says that the step `m`, started in the state `s`, succeeds with `a` and leaves the
state `s'`. A sequence of steps succeeds if each of them does (`gives_bind`), and for each of the
basic steps there is one statement of what it needs and what it changes. No step looks at the log,
so states are compared without it (`Quiet`).
-/

namespace Idl.Compilation

/-! ## Success -/

/-- What a step gives in a state, and the state after it. -/
def outcome {α : Type} (m : CompileM α) (s : Compilation) : Except Error α × Compilation := m.run s

/-- The step `m`, started in `s`, succeeds with `a` and leaves `s'`. -/
def Gives {α : Type} (m : CompileM α) (s : Compilation) (a : α) (s' : Compilation) : Prop := outcome m s = (.ok a, s')

/-- A step that does not fail succeeds with something. -/
theorem exists_gives {α : Type} {m : CompileM α} {s : Compilation} (h : (outcome m s).1.isOk = true) :
    ∃ a, Gives m s a (outcome m s).2 := by
  cases heq : outcome m s with
  | mk result s' =>
    cases result with
    | error e => simp [heq, Except.isOk, Except.toBool] at h
    | ok a => exact ⟨a, heq⟩

theorem outcome_bind {α β : Type} (m : CompileM α) (f : α → CompileM β) (s : Compilation) :
    outcome (m >>= f) s = match outcome m s with
      | (.ok a, s₁) => outcome (f a) s₁
      | (.error e, s₁) => (.error e, s₁) := by
  change ExceptT.bindCont f (outcome m s).1 (outcome m s).2 = _
  rcases outcome m s with ⟨e | a, s₁⟩ <;> rfl

theorem outcome_map {α β : Type} (f : α → β) (m : CompileM α) (s : Compilation) :
    outcome (f <$> m) s = ((outcome m s).1.map f, (outcome m s).2) := by
  rw [map_eq_pure_bind, outcome_bind]
  rcases outcome m s with ⟨e | a, s₁⟩ <;> rfl

/-- A step that runs while a file is being compiled gives what it gives, and the file is left. -/
theorem outcome_during {α : Type} (path : Path) (m : CompileM α) (s : Compilation) :
    outcome (during path m) s = ((outcome m (s.enter path)).1, (outcome m (s.enter path)).2.leave) := by
  change outcome (MonadExcept.ofExcept (outcome m (s.enter path)).1) (outcome m (s.enter path)).2.leave = _
  rcases outcome m (s.enter path) with ⟨e | a, s₁⟩ <;> rfl

theorem during_map {α β : Type} (path : Path) (f : α → β) (m : CompileM α) :
    during path (f <$> m) = f <$> during path m := by
  funext s
  change outcome (during path (f <$> m)) s = outcome (f <$> during path m) s
  rw [outcome_during, outcome_map, outcome_map, outcome_during]

section Gives

variable {α β : Type} {s s' : Compilation} {a : α} {b : β}

@[simp]
theorem gives_pure {c : α} : Gives (pure c) s a s' ↔ c = a ∧ s = s' := by
  change (Except.ok c, s) = (Except.ok a, s') ↔ _
  simp

/-- Two steps in sequence succeed if each of them does. -/
@[simp]
theorem gives_bind {m : CompileM α} {f : α → CompileM β} :
    Gives (m >>= f) s b s' ↔ ∃ a s₁, Gives m s a s₁ ∧ Gives (f a) s₁ b s' := by
  unfold Gives
  rw [outcome_bind]
  rcases outcome m s with ⟨e | a, s₁⟩
  · simp
  · simp only [Prod.mk.injEq, Except.ok.injEq]
    constructor
    · intro h
      exact ⟨a, s₁, ⟨rfl, rfl⟩, h⟩
    · rintro ⟨_, _, ⟨rfl, rfl⟩, h⟩
      exact h

@[simp]
theorem gives_map {m : CompileM α} {f : α → β} : Gives (f <$> m) s b s' ↔ ∃ a, f a = b ∧ Gives m s a s' := by
  rw [map_eq_pure_bind, gives_bind]
  simp only [gives_pure]
  constructor
  · rintro ⟨a, _, hm, rfl, rfl⟩
    exact ⟨a, rfl, hm⟩
  · rintro ⟨a, rfl, hm⟩
    exact ⟨a, s', hm, rfl, rfl⟩

@[simp]
theorem gives_throw {e : Error} : ¬Gives (throw e : CompileM α) s a s' := by
  change (Except.error e, s) ≠ (Except.ok a, s')
  simp

@[simp]
theorem gives_get {t : Compilation} : Gives get s t s' ↔ s = t ∧ s = s' := by
  change (Except.ok s, s) = (Except.ok t, s') ↔ _
  simp

@[simp]
theorem gives_modify {f : Compilation → Compilation} {u : Unit} : Gives (modify f) s u s' ↔ f s = s' := by
  change (Except.ok (), f s) = (Except.ok u, s') ↔ _
  simp

@[simp]
theorem gives_ofExcept {x : Except Error α} : Gives (MonadExcept.ofExcept x) s a s' ↔ x = .ok a ∧ s = s' := by
  cases x with
  | error e => simp [MonadExcept.ofExcept]
  | ok c => simp [MonadExcept.ofExcept]

theorem gives_during {path : Path} {m : CompileM α} :
    Gives (during path m) s a s' ↔ ∃ s₁, Gives m (s.enter path) a s₁ ∧ s₁.leave = s' := by
  unfold Gives
  rw [outcome_during]
  rcases outcome m (s.enter path) with ⟨e | a', s₁⟩
  · simp
  · simp only [Prod.mk.injEq, Except.ok.injEq]
    constructor
    · rintro ⟨rfl, rfl⟩
      exact ⟨s₁, ⟨rfl, rfl⟩, rfl⟩
    · rintro ⟨_, ⟨rfl, rfl⟩, rfl⟩
      exact ⟨rfl, rfl⟩

@[simp]
theorem gives_stopAt {fault : Option Error} {u : Unit} : Gives (stopAt fault) s u s' ↔ fault = none ∧ s = s' := by
  cases fault <;> simp [stopAt]

end Gives

/-! ## States without their log -/

/-- The states agree, apart from their logs. -/
def Quiet (s s' : Compilation) : Prop := ∃ log, s' = { s with log }

section Quiet

variable {s s₁ s' : Compilation}

theorem Quiet.trans (h : Quiet s s₁) (h' : Quiet s₁ s') : Quiet s s' := by
  obtain ⟨log, rfl⟩ := h
  obtain ⟨log', rfl⟩ := h'
  exact ⟨log', rfl⟩

theorem Quiet.compiling (h : Quiet s s') : s'.compiling = s.compiling := by
  obtain ⟨log, rfl⟩ := h
  rfl

theorem quiet_of_note {level : LogLevel} {message : String} {u : Unit} (h : Gives (note level message) s u s') :
    Quiet s s' := ⟨_, (gives_modify.1 h).symm⟩

theorem quiet_of_reach {path : Path} {head : Token} {u : Unit} (h : Gives (reach path head) s u s') : Quiet s s' :=
  quiet_of_note h

end Quiet

/-! ## What the basic steps change -/

section Basic

variable {s s' : Compilation} {u : Unit}

theorem gives_emit {target : Path} {body : List Declaration} (h : Gives (emit target body) s u s') :
    Quiet { s with emissions := s.emissions ++ [⟨target, body⟩] } s' := by
  obtain ⟨_, s₁, h₁, h₂⟩ := gives_bind.1 h
  obtain ⟨log, rfl⟩ := quiet_of_note h₁
  exact ⟨log, (gives_modify.1 h₂).symm⟩

theorem gives_define {name : Name} (h : Gives (define name) s u s') :
    ∃ defines, s.defines.define name.text name.range = .ok defines ∧ Quiet { s with defines } s' := by
  obtain ⟨_, s₁, h₁, h₂⟩ := gives_bind.1 h
  obtain ⟨log, rfl⟩ := quiet_of_note h₁
  simp only [gives_bind, gives_get, gives_ofExcept, gives_modify] at h₂
  obtain ⟨_, _, ⟨rfl, rfl⟩, defines, _, ⟨hd, rfl⟩, rfl⟩ := h₂
  exact ⟨defines, hd, log, rfl⟩

theorem gives_register {kind : Symbol.Kind} {path target : Path} {name : Name}
    (h : Gives (register kind path target name) s u s') :
    ∃ symbols, s.symbols.register name.text ⟨kind, path, target, name.range⟩ = .ok symbols ∧
      Quiet { s with symbols } s' := by
  simp only [register, gives_bind, gives_get, gives_ofExcept, gives_modify] at h
  obtain ⟨_, _, ⟨rfl, rfl⟩, symbols, _, ⟨hr, rfl⟩, _, s₁, hn, rfl⟩ := h
  obtain ⟨log, rfl⟩ := quiet_of_note hn
  exact ⟨symbols, hr, log, rfl⟩

theorem gives_resolve {target : Path} {type : TypeExpr} {r : ScriptType × List Import}
    (h : Gives (resolve target type) s r s') : s.symbols.resolve type.range target type.text = .ok r ∧ s = s' := by
  simp only [resolve, gives_bind, gives_get, gives_ofExcept] at h
  obtain ⟨_, _, ⟨rfl, rfl⟩, hr, rfl⟩ := h
  exact ⟨hr, rfl⟩

theorem gives_resolveReturn {target : Path} {type : TypeExpr} {r : ScriptType × List Import}
    (h : Gives (resolveReturn target type) s r s') :
    s.symbols.resolveReturn type.range target type.text = .ok r ∧ s = s' := by
  simp only [resolveReturn, gives_bind, gives_get, gives_ofExcept] at h
  obtain ⟨_, _, ⟨rfl, rfl⟩, hr, rfl⟩ := h
  exact ⟨hr, rfl⟩

theorem gives_resolveException {name : Name} {text : String} (h : Gives (resolveException name) s text s') :
    text = name.text ∧ s.symbols.checkException name.text name.range = .ok () ∧ s = s' := by
  simp only [resolveException, gives_bind, gives_get, gives_ofExcept, gives_pure] at h
  obtain ⟨_, _, ⟨rfl, rfl⟩, _, _, ⟨hc, rfl⟩, rfl, rfl⟩ := h
  exact ⟨rfl, hc, rfl⟩

end Basic

end Idl.Compilation
