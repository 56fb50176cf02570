-- SUMMARY: Vertices of a graph are taken out one by one and put back in reverse order.
import Mathlib

/-!
# Elimination

A vertex that is taken out keeps its own edges; the others lose theirs to it. So a vertex keeps
its edges to all but the vertices that were out before it, and putting the vertices back in reverse
order restores the graph.
-/

namespace Hotspot

variable {ι : Type} [DecidableEq ι]

/-- The vertices of the list `gone` that were taken out before `i`, all of them if `i` is still in.
The last one taken out is in front. -/
def earlier (i : ι) : List ι → List ι
  | [] => []
  | x :: gone => if i = x then gone else if i ∈ gone then earlier i gone else x :: gone

theorem earlier_of_not_mem {i : ι} {gone : List ι} (h : i ∉ gone) : earlier i gone = gone := by
  cases gone with
  | nil => rfl
  | cons x gone =>
    rw [List.mem_cons, not_or] at h
    rw [earlier, if_neg h.1, if_neg h.2]

theorem earlier_self (x : ι) (gone : List ι) : earlier x (x :: gone) = gone := if_pos rfl

theorem earlier_cons_of_mem {i x : ι} {gone : List ι} (hne : i ≠ x) (h : i ∈ gone) :
    earlier i (x :: gone) = earlier i gone := by
  rw [earlier, if_neg hne, if_pos h]

/-- The edges that are left when the vertices `gone` are out. -/
def Eliminated (edges₀ edges : ι → ι → Bool) (gone : List ι) : Prop :=
  ∀ i j, edges i j = true ↔ edges₀ i j = true ∧ j ∉ earlier i gone

namespace Eliminated

variable {edges₀ edges : ι → ι → Bool} {gone : List ι} {x : ι}

theorem nil : Eliminated edges₀ edges₀ [] := fun i j => by simp [earlier]

theorem eq_of_nil (h : Eliminated edges₀ edges []) : edges = edges₀ := by
  funext i j
  have hij := h i j
  simp only [earlier, List.not_mem_nil, not_false_eq_true, and_true] at hij
  exact Bool.eq_iff_iff.mpr hij

theorem edge (h : Eliminated edges₀ edges gone) {i j : ι} (hij : edges i j = true) : edges₀ i j = true :=
  ((h i j).mp hij).1

/-- A vertex that is in has an edge to no vertex that is out. -/
theorem not_mem (h : Eliminated edges₀ edges gone) {i j : ι} (hi : i ∉ gone) (hij : edges i j = true) : j ∉ gone := by
  have hj := ((h i j).mp hij).2
  rwa [earlier_of_not_mem hi] at hj

section Symmetric

variable (hsymm : ∀ i j, edges₀ i j = true → edges₀ j i = true) (hirrefl : ∀ i, edges₀ i i = false)

include hsymm in
theorem symm (h : Eliminated edges₀ edges gone) {i j : ι} (hi : i ∉ gone) (hij : edges i j = true) :
    edges j i = true := by
  have hj := h.not_mem hi hij
  rw [h, earlier_of_not_mem hj]
  exact ⟨hsymm i j (h.edge hij), hi⟩

include hsymm hirrefl in
theorem remove (h : Eliminated edges₀ edges gone) (hx : x ∉ gone) :
    Eliminated edges₀ (fun i j => edges i j && !(decide (j = x) && edges x i)) (x :: gone) := by
  intro i j
  rw [Bool.and_eq_true, Bool.not_eq_true', Bool.and_eq_false_iff, decide_eq_false_iff_not]
  by_cases hix : i = x
  · subst hix
    rw [earlier_self, h i j, earlier_of_not_mem hx]
    refine ⟨And.left, fun hij => ⟨hij, .inl ?_⟩⟩
    rintro rfl
    rw [hirrefl] at hij
    cases hij.1
  by_cases hi : i ∈ gone
  · rw [earlier_cons_of_mem hix hi, h i j]
    refine ⟨And.left, fun hij => ⟨hij, .inr ?_⟩⟩
    exact (Bool.not_eq_true _).mp fun hxi => h.not_mem hx hxi hi
  rw [earlier_of_not_mem (by simp [hix, hi]), h i j, earlier_of_not_mem hi, List.mem_cons, not_or]
  refine ⟨fun ⟨⟨hij, hj⟩, hor⟩ => ⟨hij, ?_, hj⟩, fun ⟨hij, hjx, hj⟩ => ⟨⟨hij, hj⟩, .inl hjx⟩⟩
  rintro rfl
  have hxi : edges j i = true := (h j i).mpr ⟨hsymm i j hij, by rwa [earlier_of_not_mem hx]⟩
  rcases hor with hne | hfalse
  · exact hne rfl
  · rw [hxi] at hfalse
    cases hfalse

include hsymm in
theorem insert (h : Eliminated edges₀ edges (x :: gone)) (hx : x ∉ gone) :
    Eliminated edges₀ (fun i j => edges i j || (decide (j = x) && edges x i)) gone := by
  intro i j
  have hxi : edges x i = true ↔ edges₀ x i = true ∧ i ∉ gone := by rw [h x i, earlier_self]
  rw [Bool.or_eq_true, Bool.and_eq_true, decide_eq_true_eq, hxi, h i j]
  by_cases hix : i = x
  · subst hix
    rw [earlier_self, earlier_of_not_mem hx]
    refine ⟨?_, .inl⟩
    rintro (hij | ⟨rfl, hij⟩)
    · exact hij
    · exact hij
  by_cases hi : i ∈ gone
  · rw [earlier_cons_of_mem hix hi]
    refine ⟨?_, .inl⟩
    rintro (hij | ⟨-, -, hnot⟩)
    · exact hij
    · exact absurd hi hnot
  · rw [earlier_of_not_mem (by simp [hix, hi]), earlier_of_not_mem hi, List.mem_cons, not_or]
    constructor
    · rintro (⟨hij, -, hj⟩ | ⟨rfl, hij, -⟩)
      · exact ⟨hij, hj⟩
      · exact ⟨hsymm _ _ hij, hx⟩
    intro ⟨hij, hj⟩
    by_cases hjx : j = x
    · subst hjx
      exact .inr ⟨rfl, hsymm _ _ hij, hi⟩
    · exact .inl ⟨hij, hjx, hj⟩

end Symmetric

end Eliminated

end Hotspot
