/-! Computations that change a state and may stop on the way. -/
namespace KineticText

/-- What a computation has changed by the time it stops stays changed. -/
abbrev Attempt (σ ε : Type) : Type → Type := ExceptT ε (StateM σ)

namespace Attempt

variable {σ ε α β : Type}

/-- What an attempt comes to when it is made on a state, and the state that it leaves. -/
def outcome (m : Attempt σ ε α) (x : σ) : Except ε α × σ := m.run.run x

variable {m : Attempt σ ε α} {f : α → Attempt σ ε β} {a : α} {e : ε} {x y : σ}

/-- A step that is taken hands on its result and its state. -/
theorem outcome_bind_of_ok (h : outcome m x = (.ok a, y)) :
    outcome (m >>= f) x = outcome (f a) y := by
  unfold outcome at h ⊢
  rw [ExceptT.run_bind, StateT.run_bind, h]
  rfl

/-- A step that stops is the last one. -/
theorem outcome_bind_of_error (h : outcome m x = (.error e, y)) :
    outcome (m >>= f) x = (.error e, y) := by
  unfold outcome at h ⊢
  rw [ExceptT.run_bind, StateT.run_bind, h]
  rfl

@[simp]
theorem outcome_modify (g : σ → σ) (x : σ) :
    outcome (modify g : Attempt σ ε Unit) x = (.ok (), g x) := rfl

@[simp]
theorem outcome_get_bind (k : σ → Attempt σ ε β) (x : σ) :
    outcome (get >>= k) x = outcome (k x) x := rfl

end Attempt
end KineticText
