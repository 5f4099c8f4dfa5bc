import Mathlib.Tactic.TypeStar

/-! # Computations that may abort

Guards, unwrapping and sequencing in the exception monad, with the inversion
lemma of each form.
-/

namespace Foundation

universe u

variable {ε : Type*} {α β : Type u}

/-- Abort with an error unless the condition holds. -/
def require (c : Prop) [Decidable c] (err : ε) : Except ε Unit := if c then .ok () else .error err

/-- The value of an option, or an abort. -/
def expect (o : Option α) (err : ε) : Except ε α :=
  match o with
  | some a => .ok a
  | none => .error err

@[simp] theorem require_eq_ok {c : Prop} [Decidable c] {err : ε} {u : Unit} :
    require c err = .ok u ↔ c := by
  unfold require; split <;> simp_all

@[simp] theorem expect_eq_ok {o : Option α} {err : ε} {a : α} :
    expect o err = .ok a ↔ o = some a := by
  cases o <;> simp [expect]

@[simp] theorem bind_eq_ok {x : Except ε α} {f : α → Except ε β} {b : β} :
    (x >>= f) = .ok b ↔ ∃ a, x = .ok a ∧ f a = .ok b := by
  cases x <;> simp [bind, Except.bind]

@[simp] theorem map_eq_ok {x : Except ε α} {f : α → β} {b : β} :
    (f <$> x) = .ok b ↔ ∃ a, x = .ok a ∧ f a = b := by
  cases x <;> simp [Functor.map, Except.map]

theorem ok_bind {a : α} {f : α → Except ε β} : (Except.ok a >>= f) = f a := rfl

@[simp] theorem pure_eq_ok {a b : α} : (pure a : Except ε α) = .ok b ↔ a = b := by
  simp [pure, Except.pure]

@[simp] theorem mapError_eq_ok {ε' : Type*} {x : Except ε α} {f : ε → ε'} {a : α} :
    x.mapError f = .ok a ↔ x = .ok a := by
  cases x with
  | ok b =>
    have hb : (Except.ok b : Except ε α).mapError f = .ok b := rfl
    simp [hb]
  | error b =>
    have hb : (Except.error b : Except ε α).mapError f = .error (f b) := rfl
    simp [hb]

theorem exists_of_isOk {x : Except ε α} (h : x.isOk = true) : ∃ a, x = .ok a := by
  cases x with
  | ok a => exact ⟨a, rfl⟩
  | error err => cases h

section Errors

variable {err err' : ε}

@[simp] theorem require_eq_error {c : Prop} [Decidable c] :
    require c err = .error err' ↔ ¬ c ∧ err = err' := by
  unfold require; split <;> simp_all

@[simp] theorem expect_eq_error {o : Option α} :
    expect o err = .error err' ↔ o = none ∧ err = err' := by
  cases o <;> simp [expect]

@[simp] theorem bind_eq_error {x : Except ε α} {f : α → Except ε β} :
    (x >>= f) = .error err ↔ x = .error err ∨ ∃ a, x = .ok a ∧ f a = .error err := by
  cases x <;> simp [bind, Except.bind]

@[simp] theorem map_eq_error {x : Except ε α} {f : α → β} :
    (f <$> x) = .error err ↔ x = .error err := by
  cases x <;> simp [Functor.map, Except.map]

@[simp] theorem pure_ne_error {a : α} : (pure a : Except ε α) ≠ .error err := by
  simp [pure, Except.pure]

/-- The computation does not abort with an error of some kind. -/
def Avoids (bad : ε → Prop) (x : Except ε α) : Prop := ∀ err, x = .error err → ¬ bad err

variable {bad : ε → Prop}

@[simp] theorem avoids_pure {a : α} : Avoids bad (pure a : Except ε α) :=
  fun _ h => absurd h pure_ne_error

@[simp] theorem avoids_require {c : Prop} [Decidable c] :
    Avoids bad (require c err) ↔ ¬ c → ¬ bad err := by
  simp [Avoids]

@[simp] theorem avoids_expect {o : Option α} :
    Avoids bad (expect o err) ↔ o = none → ¬ bad err := by
  simp [Avoids]

@[simp] theorem avoids_bind {x : Except ε α} {f : α → Except ε β} :
    Avoids bad (x >>= f) ↔ Avoids bad x ∧ ∀ a, x = .ok a → Avoids bad (f a) := by
  simp only [Avoids, bind_eq_error]
  constructor
  · intro h
    exact ⟨fun err hx => h err (.inl hx), fun a ha err hf => h err (.inr ⟨a, ha, hf⟩)⟩
  · rintro ⟨hx, hf⟩ err (h | ⟨a, ha, h⟩)
    · exact hx err h
    · exact hf a ha err h

@[simp] theorem avoids_map {x : Except ε α} {f : α → β} : Avoids bad (f <$> x) ↔ Avoids bad x := by
  simp [Avoids]

end Errors

/-- A computation begins with another one. -/
def BeginsWith (x : Except ε α) (y : Except ε β) : Prop := ∃ rest, y = x >>= rest

theorem BeginsWith.bind {γ : Type u} {x : Except ε α} {y : Except ε β} (h : BeginsWith x y)
    (f : β → Except ε γ) : BeginsWith x (y >>= f) := by
  obtain ⟨rest, rfl⟩ := h
  exact ⟨fun a => rest a >>= f, bind_assoc x rest f⟩

end Foundation
