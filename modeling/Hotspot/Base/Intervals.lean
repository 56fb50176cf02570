-- SUMMARY: Families of disjoint intervals: how much of a range they cover, and walks.
import Mathlib

/-!
# Intervals

What a family of intervals covers of a range is the sum of the overlaps. The sum does not
depend on the order of the family, it is additive in the range, and for disjoint intervals it
is at most the length of the range.
-/

namespace Hotspot

structure Interval where
  start : Nat
  size : Nat
  deriving DecidableEq, Repr

namespace Interval

def stop (i : Interval) : Nat := i.start + i.size

def Disjoint (i j : Interval) : Prop := i.stop ≤ j.start ∨ j.stop ≤ i.start

instance : Std.Symm Disjoint := ⟨fun _ _ h => Or.symm h⟩

/-- The length of the part of an interval in a range. -/
def overlap (i : Interval) (a b : Nat) : Nat := min i.stop b - max i.start a

theorem overlap_add (i : Interval) {a b c : Nat} (hab : a ≤ b) (hbc : b ≤ c) :
    i.overlap a c = i.overlap a b + i.overlap b c := by
  unfold overlap stop
  omega

theorem overlap_of_inside {i : Interval} {a b : Nat} (ha : a ≤ i.start) (hb : i.stop ≤ b) :
    i.overlap a b = i.size := by
  unfold overlap stop at *
  omega

theorem overlap_of_outside {i : Interval} {a b : Nat} (h : i.stop ≤ a ∨ b ≤ i.start) :
    i.overlap a b = 0 := by
  unfold overlap stop at *
  omega

end Interval

/-- The length of the part of a range that a family covers. -/
def covered (is : List Interval) (a b : Nat) : Nat := (is.map fun i => i.overlap a b).sum

@[simp]
theorem covered_nil (a b : Nat) : covered [] a b = 0 := rfl

@[simp]
theorem covered_cons (i : Interval) (is : List Interval) (a b : Nat) :
    covered (i :: is) a b = i.overlap a b + covered is a b := rfl

theorem covered_add (is : List Interval) {a b c : Nat} (hab : a ≤ b) (hbc : b ≤ c) :
    covered is a c = covered is a b + covered is b c := by
  induction is with
  | nil => rfl
  | cons i is ih =>
    simp only [covered_cons, i.overlap_add hab hbc, ih]
    omega

variable {is : List Interval}

theorem covered_eq_zero {a b : Nat}
    (h : ∀ i ∈ is, i.stop ≤ a ∨ b ≤ i.start) : covered is a b = 0 := by
  induction is with
  | nil => rfl
  | cons i is ih =>
    rw [covered_cons, Interval.overlap_of_outside (h i (by simp)), ih fun j hj => h j (by simp [hj])]

theorem covered_self (is : List Interval) (a : Nat) : covered is a a = 0 := by
  induction is with
  | nil => rfl
  | cons i is ih =>
    rw [covered_cons, ih]
    unfold Interval.overlap
    omega

section

variable (hdisjoint : is.Pairwise Interval.Disjoint)

include hdisjoint

/-- At most one of the intervals has a given number. -/
theorem covered_one_le (a : Nat) : covered is a (a + 1) ≤ 1 := by
  induction is with
  | nil => simp
  | cons i is ih =>
    rw [List.pairwise_cons] at hdisjoint
    rw [covered_cons]
    by_cases hi : i.start ≤ a ∧ a < i.stop
    · have hrest : covered is a (a + 1) = 0 := by
        refine covered_eq_zero fun j hj => ?_
        have hij := hdisjoint.1 j hj
        unfold Interval.Disjoint at hij
        omega
      unfold Interval.overlap
      omega
    · have hzero : i.overlap a (a + 1) = 0 := Interval.overlap_of_outside (by omega)
      rw [hzero, Nat.zero_add]
      exact ih hdisjoint.2

theorem covered_le (a n : Nat) : covered is a (a + n) ≤ n := by
  induction n with
  | zero => exact (covered_self is a).le
  | succ n ih =>
    rw [covered_add is (Nat.le_add_right a n) (by omega : a + n ≤ a + (n + 1))]
    have hone := covered_one_le hdisjoint (a + n)
    rw [Nat.add_assoc] at hone
    omega

variable {i : Interval}

/-- A range inside of one interval of a disjoint family is covered by this interval alone. -/
theorem covered_of_mem (hi : i ∈ is) {a b : Nat} (ha : i.start ≤ a) (hab : a ≤ b) (hb : b ≤ i.stop) :
    covered is a b = b - a := by
  have hupper := covered_le hdisjoint a (b - a)
  have hlower : i.overlap a b ≤ covered is a b := List.le_sum_of_mem (List.mem_map_of_mem hi)
  have hoverlap : i.overlap a b = b - a := by
    unfold Interval.overlap
    omega
  rw [Nat.add_sub_of_le hab] at hupper
  omega

end

/-- No interval has numbers on both sides of `a`. -/
def Uncrossed (is : List Interval) (a : Nat) : Prop := ∀ i ∈ is, i.stop ≤ a ∨ a ≤ i.start

/-- Between two points that no interval crosses, whole intervals are covered. -/
theorem covered_eq_sum {a b : Nat} (hab : a ≤ b) (ha : Uncrossed is a) (hb : Uncrossed is b) :
    covered is a b = ((is.filter fun i => a ≤ i.start ∧ i.start < b).map Interval.size).sum := by
  induction is with
  | nil => rfl
  | cons i is ih =>
    have ha' := ha i (by simp)
    have hb' := hb i (by simp)
    rw [covered_cons, ih (fun j hj => ha j (by simp [hj])) (fun j hj => hb j (by simp [hj]))]
    by_cases hi : a ≤ i.start ∧ i.start < b
    · rw [List.filter_cons_of_pos (by simpa using hi), List.map_cons, List.sum_cons]
      rw [Interval.overlap_of_inside hi.1 (by omega)]
    rw [List.filter_cons_of_neg (by simpa using hi)]
    have hzero : i.overlap a b = 0 := by
      unfold Interval.overlap Interval.stop at *
      omega
    rw [hzero, Nat.zero_add]

theorem uncrossed_start (hdisjoint : is.Pairwise Interval.Disjoint)
    (hi : i ∈ is) : Uncrossed is i.start := by
  intro j hj
  by_cases heq : j = i
  · subst heq
    exact .inr le_rfl
  · have hij := hdisjoint.forall hj hi heq
    unfold Interval.Disjoint Interval.stop at *
    omega

theorem uncrossed_stop (hdisjoint : is.Pairwise Interval.Disjoint) (hi : i ∈ is) : Uncrossed is i.stop := by
  intro j hj
  by_cases heq : j = i
  · subst heq
    exact .inl le_rfl
  · have hij := hdisjoint.forall hj hi heq
    unfold Interval.Disjoint Interval.stop at *
    omega

/-! ## Walks -/

/-- The first number from `i` on with a property, among `n` numbers; otherwise their end. -/
def findFrom (p : Nat → Bool) : Nat → Nat → Nat
  | 0, i => i
  | n + 1, i => if p i then i else findFrom p n (i + 1)

theorem findFrom_spec (p : Nat → Bool) (n i : Nat) : i ≤ findFrom p n i ∧ findFrom p n i ≤ i + n ∧
      (∀ j, i ≤ j → j < findFrom p n i → p j = false) ∧
      (findFrom p n i < i + n → p (findFrom p n i) = true) := by
  induction n generalizing i with
  | zero => exact ⟨le_rfl, le_rfl, fun j hj hj' => absurd hj' (by simpa [findFrom] using hj),
      fun h => absurd h (by simp [findFrom])⟩
  | succ n ih =>
    rw [findFrom]
    split
    next hp => exact ⟨le_rfl, by omega, fun j hj hj' => absurd hj' (by omega), fun _ => hp⟩
    next hp =>
      obtain ⟨hle, hend, hnone, hfound⟩ := ih (i + 1)
      refine ⟨by omega, by omega, fun j hj hj' => ?_, fun h => hfound (by omega)⟩
      by_cases hji : j = i
      · subst hji
        exact Bool.eq_false_iff.mpr hp
      · exact hnone j (by omega) hj'

/-- The first number with a property, if one with it is known. -/
theorem findFrom_eq {p : Nat → Bool} {n i k : Nat} (hik : i ≤ k) (hk : k < i + n) (hp : p k = true)
    (hnone : ∀ j, i ≤ j → j < k → p j = false) : findFrom p n i = k := by
  obtain ⟨hle, hend, hnone', hfound⟩ := findFrom_spec p n i
  rcases Nat.lt_trichotomy (findFrom p n i) k with hlt | heq | hgt
  · have hfalse := hnone _ hle hlt
    rw [hfound (by omega)] at hfalse
    cases hfalse
  · exact heq
  · rw [hnone' k hik hgt] at hp
    cases hp

end Hotspot
