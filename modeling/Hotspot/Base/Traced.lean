-- SUMMARY: Computations with a trace of their accesses, and the rule for all of them.
import Mathlib

/-!
# Traced computations

A traced computation is a value together with the list of the accesses that were made to
get it. `AllTraced P m` says that all accesses of `m` satisfy `P`.
-/

namespace Hotspot

structure Traced (ω α : Type) where
  value : α
  trace : List ω

namespace Traced

variable {ω α β : Type}

instance : Monad (Traced ω) where
  pure a := ⟨a, []⟩
  bind m f := ⟨(f m.value).value, m.trace ++ (f m.value).trace⟩

/-- A value for one access. -/
def access (a : ω) (v : α) : Traced ω α := ⟨v, [a]⟩

@[simp]
theorem value_pure (a : α) : (pure a : Traced ω α).value = a := rfl

@[simp]
theorem value_bind (m : Traced ω α) (f : α → Traced ω β) : (m >>= f).value = (f m.value).value := rfl

@[simp]
theorem value_access (a : ω) (v : α) : (access a v).value = v := rfl

def AllTraced (P : ω → Prop) (m : Traced ω α) : Prop := ∀ a ∈ m.trace, P a

variable {P : ω → Prop}

@[simp]
theorem allTraced_pure (a : α) : AllTraced P (pure a : Traced ω α) := by
  intro x hx
  cases hx

@[simp]
theorem allTraced_bind (m : Traced ω α) (f : α → Traced ω β) :
    AllTraced P (m >>= f) ↔ AllTraced P m ∧ AllTraced P (f m.value) := by
  constructor
  · intro h
    exact ⟨fun a ha => h a (List.mem_append_left _ ha), fun a ha => h a (List.mem_append_right _ ha)⟩
  · rintro ⟨hm, hf⟩ a ha
    exact (List.mem_append.mp ha).elim (hm a) (hf a)

@[simp]
theorem allTraced_access (a : ω) (v : α) : AllTraced P (access a v) ↔ P a := by
  constructor
  · intro h
    exact h a (List.mem_singleton.mpr rfl)
  · intro h x hx
    rw [List.mem_singleton.mp hx]
    exact h

end Traced

end Hotspot
