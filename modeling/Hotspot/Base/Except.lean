-- SUMMARY: Computations that may stop: how binds reduce, and what a result says.
import Mathlib

/-!
# Computations that may stop

The do-blocks of the models are binds in `Except` and `Option`. The simp lemmas run a computation
whose parts are known; `bind_eq_ok` takes one apart.
-/

namespace Hotspot

variable {ε α β : Type}

@[simp]
theorem ok_bind (a : α) (f : α → Except ε β) : (Except.ok a >>= f) = f a := rfl

@[simp]
theorem pure_eq_ok (a : α) : (pure a : Except ε α) = .ok a := rfl

@[simp]
theorem map_ok (f : α → β) (a : α) : (Except.ok a : Except ε α).map f = .ok (f a) := rfl

theorem some_bind (a : α) (f : α → Option β) : (some a >>= f) = f a := rfl

theorem bind_eq_ok {x : Except ε α} {f : α → Except ε β} {b : β} :
    x >>= f = .ok b ↔ ∃ a, x = .ok a ∧ f a = .ok b := by
  constructor
  · intro h
    cases x with
    | error e => cases h
    | ok a => exact ⟨a, rfl, h⟩
  · rintro ⟨a, rfl, h⟩
    exact h

end Hotspot
