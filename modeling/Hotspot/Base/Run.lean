-- SUMMARY: Runs whose steps may fail, and the rule to compare properties of all steps.
import Mathlib

/-!
# Runs

A system takes one step for each operation of a list. A step returns a reply and the next
state, or it fails and the run ends there.
-/

namespace Hotspot

section Run

variable {σ ο ρ : Type} (step : σ → ο → Option (ρ × σ))

/-- All steps of a run satisfy `P`, as far as the run gets. -/
def EachStep (P : σ → ο → Prop) : σ → List ο → Prop
  | _, [] => True
  | s, op :: ops => P s op ∧ ∀ reply s', step s op = some (reply, s') → EachStep P s' ops

variable {step}

theorem eachStep_cons {P : σ → ο → Prop} {s s' : σ} {op : ο} {reply : ρ} {ops : List ο}
    (h : step s op = some (reply, s')) :
    EachStep step P s (op :: ops) ↔ P s op ∧ EachStep step P s' ops := by
  simp [EachStep, h]

/-- Two properties of steps that agree in all states with an invariant agree on runs, if the
invariant is kept by the steps with these properties. The clients may be trusted to satisfy `A`. -/
theorem eachStep_iff {A P Q : σ → ο → Prop} {Inv : σ → Prop}
    (hiff : ∀ s op, Inv s → A s op → (P s op ↔ Q s op))
    (hinv : ∀ s op reply s', Inv s → A s op → Q s op → step s op = some (reply, s') → Inv s')
    {s : σ} {ops : List ο} (hs : Inv s) (hA : EachStep step A s ops) :
    EachStep step P s ops ↔ EachStep step Q s ops := by
  induction ops generalizing s with
  | nil => exact Iff.rfl
  | cons op ops ih =>
    obtain ⟨hop, hrest⟩ := hA
    rw [EachStep, EachStep, hiff s op hs hop]
    refine and_congr_right fun hQ => ?_
    refine forall_congr' fun reply => forall_congr' fun s' => forall_congr' fun hstep => ?_
    exact ih (hinv s op reply s' hs hop hQ hstep) (hrest reply s' hstep)

end Run

end Hotspot
