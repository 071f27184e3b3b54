import Mathlib.Tactic.Common

/-! Results that may be errors, taken apart step by step. -/
namespace Except
variable {ε ε' α β γ : Type}

theorem bind_eq_ok_iff {x : Except ε α} {f : α → Except ε β} {b : β} :
    x >>= f = .ok b ↔ ∃ a, x = .ok a ∧ f a = .ok b := by
  cases x with
  | error e => simp [bind, Except.bind]
  | ok a => simp [bind, Except.bind]

theorem bind_eq_error_iff {x : Except ε α} {f : α → Except ε β} {e : ε} :
    x >>= f = .error e ↔ x = .error e ∨ ∃ a, x = .ok a ∧ f a = .error e := by
  cases x with
  | error d => simp [bind, Except.bind]
  | ok a => simp [bind, Except.bind]

@[simp] theorem bind_pure_eq_error_iff {x : Except ε α} {g : α → β} {e : ε} :
    (x >>= fun a => pure (g a)) = .error e ↔ x = .error e := by
  cases x <;> simp [bind, Except.bind, pure, Except.pure]

/-- Two steps that fail for one reason only fail together exactly if one of them does. -/
theorem bind_fails_iff {x : Except ε α} {f : α → Except ε β} {reason : ε} {P Q : Prop}
    (hx : ∀ e, x = .error e ↔ e = reason ∧ P)
    (hf : ∀ a, x = .ok a → ∀ e, f a = .error e ↔ e = reason ∧ Q) (e : ε) :
    x >>= f = .error e ↔ e = reason ∧ (P ∨ Q) := by
  rw [bind_eq_error_iff]
  cases x with
  | error d =>
    obtain ⟨rfl, hP⟩ := (hx d).mp rfl
    simp [hP, eq_comm]
  | ok a =>
    have hP : ¬ P := fun hP => by cases (hx reason).mpr ⟨rfl, hP⟩
    simp [hP, hf a rfl]

@[simp] theorem ok_bind (a : α) (f : α → Except ε β) : (.ok a : Except ε α) >>= f = f a := rfl

@[simp] theorem pure_eq_ok_iff {a b : α} : (pure a : Except ε α) = .ok b ↔ a = b := by
  simp [pure, Except.pure]

@[simp] theorem mapError_eq_ok_iff {x : Except ε α} {f : ε → ε'} {a : α} :
    x.mapError f = .ok a ↔ x = .ok a := by
  cases x <;> simp [Except.mapError]

@[simp] theorem mapError_eq_error_iff {x : Except ε α} {f : ε → ε'} {e : ε'} :
    x.mapError f = .error e ↔ ∃ d, x = .error d ∧ f d = e := by
  cases x <;> simp [Except.mapError]

@[simp] theorem toOption_eq_some_iff {x : Except ε α} {a : α} :
    x.toOption = some a ↔ x = .ok a := by
  cases x <;> simp [Except.toOption]

@[simp] theorem map_eq_ok_iff {x : Except ε α} {f : α → β} {b : β} :
    x.map f = .ok b ↔ ∃ a, x = .ok a ∧ f a = b := by
  cases x <;> simp [Except.map]

@[simp] theorem map_eq_error_iff {x : Except ε α} {f : α → β} {e : ε} :
    x.map f = .error e ↔ x = .error e := by
  cases x <;> simp [Except.map]

theorem map_bind (x : Except ε α) (f : α → Except ε β) (g : β → γ) :
    (x >>= f).map g = x >>= fun a => (f a).map g := by
  cases x <;> rfl

theorem bind_map (x : Except ε α) (f : α → β) (g : β → Except ε γ) :
    x.map f >>= g = x >>= fun a => g (f a) := by
  cases x <;> rfl

theorem map_bind_pure (x : Except ε α) (f : α → β) (g : β → γ) :
    (x >>= fun a => pure (f a)).map g = x.map fun a => g (f a) := by
  cases x <;> rfl

/-- Two results correspond: both are errors that correspond, or both are values that do. -/
inductive Rel (E : ε → ε' → Prop) (V : α → β → Prop) : Except ε α → Except ε' β → Prop where
  | error {d : ε} {e : ε'} (h : E d e) : Rel E V (.error d) (.error e)
  | ok {a : α} {b : β} (h : V a b) : Rel E V (.ok a) (.ok b)

theorem Rel.exists_ok {E : ε → ε' → Prop} {V : α → β → Prop} {x : Except ε α} {b : β}
    (h : Rel E V x (.ok b)) : ∃ a, x = .ok a ∧ V a b := by
  cases h with
  | ok h => exact ⟨_, rfl, h⟩

/-- What goes on from corresponding values in a corresponding way ends so too. -/
theorem Rel.bind {α' β' : Type} {E : ε → ε' → Prop} {V : α → α' → Prop} {W : β → β' → Prop}
    {x : Except ε α} {y : Except ε' α'} {f : α → Except ε β} {g : α' → Except ε' β'}
    (hx : Rel E V x y) (hf : ∀ a b, x = .ok a → V a b → Rel E W (f a) (g b)) :
    Rel E W (x >>= f) (y >>= g) := by
  cases hx with
  | error h => exact .error h
  | ok h => exact hf _ _ rfl h

theorem Rel.mapError {δ δ' : Type} {E : ε → ε' → Prop} {F : δ → δ' → Prop} {V : α → β → Prop}
    {x : Except ε α} {y : Except ε' β} {f : ε → δ} {g : ε' → δ'} (hx : Rel E V x y)
    (hf : ∀ d e, E d e → F (f d) (g e)) : Rel F V (x.mapError f) (y.mapError g) := by
  cases hx with
  | error h => exact .error (hf _ _ h)
  | ok h => exact .ok h

end Except
