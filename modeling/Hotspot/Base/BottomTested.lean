-- SUMMARY: Loops that test at the bottom: their values, and when two loops run alike.
import Mathlib

/-!
# Loops that test at the bottom

A loop has a value that it starts with and a step from each value to the next. After each
iteration it decides whether to go on. Two loops run alike if they take the same values and
leave after the same iteration, or both never leave.
-/

namespace Hotspot

structure BottomTested (σ : Type) where
  start : σ
  next : σ → σ
  goesOn : σ → Prop

namespace BottomTested

variable {σ : Type}

/-- The value of iteration `n`, if the loop gets there. -/
def value (l : BottomTested σ) : Nat → σ
  | 0 => l.start
  | n + 1 => l.next (l.value n)

/-- The loop gets to iteration `n`. -/
def Executes (l : BottomTested σ) (n : Nat) : Prop := ∀ k < n, l.goesOn (l.value k)

def RunsAlike (l l' : BottomTested σ) : Prop :=
  ∀ n, l.Executes n → l.value n = l'.value n ∧ (l.goesOn (l.value n) ↔ l'.goesOn (l'.value n))

variable {l l' : BottomTested σ}

theorem Executes.succ {n : Nat} (h : l.Executes n) (hgo : l.goesOn (l.value n)) : l.Executes (n + 1) := by
  intro k hk
  rcases Nat.lt_succ_iff_lt_or_eq.mp hk with hlt | rfl
  · exact h k hlt
  · exact hgo

theorem Executes.of_succ {n : Nat} (h : l.Executes (n + 1)) : l.Executes n ∧ l.goesOn (l.value n) :=
  ⟨fun k hk => h k (Nat.lt_succ_of_lt hk), h n (Nat.lt_succ_self n)⟩

/-- It is enough to compare the loops at each value that the first one takes. -/
theorem runsAlike_of_step (hstart : l.start = l'.start)
    (hstep : ∀ n, l.Executes n → (l.goesOn (l.value n) ↔ l'.goesOn (l.value n)) ∧
      (l.goesOn (l.value n) → l.next (l.value n) = l'.next (l.value n))) : l.RunsAlike l' := by
  have hvalue : ∀ n, l.Executes n → l.value n = l'.value n := by
    intro n
    induction n with
    | zero => exact fun _ => hstart
    | succ n ih =>
      intro h
      obtain ⟨hn, hgo⟩ := h.of_succ
      rw [value, value, (hstep n hn).2 hgo, ih hn]
  intro n hn
  refine ⟨hvalue n hn, ?_⟩
  rw [← hvalue n hn]
  exact (hstep n hn).1

/-- Loops that run alike get to the same iterations. -/
theorem RunsAlike.executes_iff (h : l.RunsAlike l') (n : Nat) : l.Executes n ↔ l'.Executes n := by
  induction n with
  | zero => exact ⟨fun _ k hk => absurd hk (Nat.not_lt_zero k), fun _ k hk => absurd hk (Nat.not_lt_zero k)⟩
  | succ n ih =>
    constructor
    · intro hs
      obtain ⟨hn, hgo⟩ := hs.of_succ
      exact (ih.mp hn).succ ((h n hn).2.mp hgo)
    · intro hs
      obtain ⟨hn', hgo'⟩ := hs.of_succ
      have hn := ih.mpr hn'
      exact hn.succ ((h n hn).2.mpr hgo')

theorem RunsAlike.symm (h : l.RunsAlike l') : l'.RunsAlike l := by
  intro n hn
  obtain ⟨hvalue, hgo⟩ := h n ((h.executes_iff n).mpr hn)
  exact ⟨hvalue.symm, hgo.symm⟩

theorem RunsAlike.trans {l'' : BottomTested σ} (h : l.RunsAlike l') (h' : l'.RunsAlike l'') :
    l.RunsAlike l'' := by
  intro n hn
  obtain ⟨hvalue, hgo⟩ := h n hn
  obtain ⟨hvalue', hgo'⟩ := h' n ((h.executes_iff n).mp hn)
  exact ⟨hvalue.trans hvalue', hgo.trans hgo'⟩

/-- Loops with the same step run alike if they decide alike. -/
theorem runsAlike_iff_of_next (hstart : l.start = l'.start) (hnext : l.next = l'.next) :
    l.RunsAlike l' ↔ ∀ n, l.Executes n → (l.goesOn (l.value n) ↔ l'.goesOn (l.value n)) := by
  constructor
  · intro h n hn
    rw [(h n hn).2, (h n hn).1]
  · intro h
    exact runsAlike_of_step hstart fun n hn => ⟨h n hn, fun _ => by rw [hnext]⟩

/-- A loop that goes on for as long as iterations are left before `trips` executes just these. -/
theorem executes_iff_lt {trips : Nat} (hpos : 0 < trips)
    (hgo : ∀ n < trips, l.goesOn (l.value n) ↔ n + 1 < trips) (n : Nat) : l.Executes n ↔ n < trips := by
  constructor
  · intro h
    induction n with
    | zero => exact hpos
    | succ n ih =>
      obtain ⟨hn, hgoes⟩ := h.of_succ
      exact (hgo n (ih hn)).mp hgoes
  · intro hlt k hk
    exact (hgo k (hk.trans hlt)).mpr (Nat.lt_of_le_of_lt hk hlt)

/-! ## Invariants and simulation -/

end BottomTested

/-! ## Counting -/

/-- The number of iterations of a loop that moves by `pace` and goes on for as long as the
next position is short of `distance`. -/
def tripsTo (distance pace : Int) : Nat := max 1 (-(-distance / pace)).toNat

theorem tripsTo_pos (d pace : Int) : 0 < tripsTo d pace := Nat.one_pos.trans_le (le_max_left _ _)

variable {d pace : Int}

section

variable (hpace : 0 < pace)

include hpace

theorem succ_lt_tripsTo_iff (n : Nat) : n + 1 < tripsTo d pace ↔ pace * (n + 1) < d := by
  have hceil : ((n : Int) + 1 < -(-d / pace)) ↔ pace * (n + 1) < d := by
    rw [lt_neg, Int.ediv_lt_iff_lt_mul hpace]
    constructor <;> intro h <;> linarith
  rw [← hceil, tripsTo, lt_max_iff]
  omega

theorem tripsTo_of_nonpos (h : d ≤ 0) : tripsTo d pace = 1 := by
  have hceil : 0 ≤ -d / pace := Int.ediv_nonneg (by omega) hpace.le
  rw [tripsTo]
  omega

/-- The trip count by a division that rounds down. -/
theorem tripsTo_of_pos (h : 0 < d) : (tripsTo d pace : Int) = (d + pace - 1) / pace := by
  have hmod := Int.emod_nonneg (d + pace - 1) hpace.ne'
  have hlt := Int.emod_lt_of_pos (d + pace - 1) hpace
  have hdiv := Int.mul_ediv_add_emod (d + pace - 1) pace
  have hone : 1 ≤ (d + pace - 1) / pace := (Int.le_ediv_iff_mul_le hpace).mpr (by omega)
  have hceil : -d / pace = -((d + pace - 1) / pace) := by
    have hrest : pace * ((d + pace - 1) / pace) - d + pace * -((d + pace - 1) / pace) =
        -d := by
      rw [Int.mul_neg]
      omega
    exact ((Int.ediv_emod_unique hpace).mpr ⟨hrest, by omega, by omega⟩).1
  rw [tripsTo, hceil]
  omega

/-- What is left of a number that is divided, rounding toward zero, and multiplied back. -/
theorem mul_tdiv_mem_of_nonneg {x : Int} (hx : 0 ≤ x) :
    0 ≤ pace * x.tdiv pace ∧ pace * x.tdiv pace ≤ x ∧ x < pace * x.tdiv pace + pace := by
  have hmod := Int.emod_nonneg x hpace.ne'
  have hlt := Int.emod_lt_of_pos x hpace
  have hdiv := Int.mul_ediv_add_emod x pace
  have hquot : 0 ≤ pace * (x / pace) := mul_nonneg hpace.le (Int.ediv_nonneg hx hpace.le)
  rw [Int.tdiv_eq_ediv_of_nonneg hx]
  omega

theorem mul_tdiv_mem_of_neg {x : Int} (hx : x < 0) :
    x ≤ pace * x.tdiv pace ∧ pace * x.tdiv pace ≤ 0 := by
  have hneg := mul_tdiv_mem_of_nonneg hpace (show 0 ≤ -x by omega)
  rw [Int.neg_tdiv, Int.mul_neg] at hneg
  omega

theorem mul_lt_of_lt_tdiv {i x : Int} (h : i < x.tdiv pace) : pace * i < x := by
  have hmul : pace * (i + 1) ≤ pace * x.tdiv pace := by gcongr; omega
  rw [mul_add, mul_one] at hmul
  rcases lt_or_ge x 0 with hneg | hnonneg
  · have hround := mul_tdiv_mem_of_nonneg hpace (show 0 ≤ -x by omega)
    rw [Int.neg_tdiv, Int.mul_neg] at hround
    omega
  · have := mul_tdiv_mem_of_nonneg hpace hnonneg
    omega

theorem lt_mul_of_tdiv_lt {i x : Int} (h : x.tdiv pace < i) : x < pace * i := by
  have hmul : pace * (x.tdiv pace + 1) ≤ pace * i := by gcongr; omega
  rw [mul_add, mul_one] at hmul
  rcases lt_or_ge x 0 with hneg | hnonneg
  · have := mul_tdiv_mem_of_neg hpace hneg
    omega
  · have := mul_tdiv_mem_of_nonneg hpace hnonneg
    omega

end

/-- A progression lies between its first and its last member. -/
theorem progression_mem {u w lo hi : Int} {n m : Nat} (hn : n ≤ m) (hfirst : lo ≤ u ∧ u < hi)
    (hlast : lo ≤ u + w * m ∧ u + w * m < hi) : lo ≤ u + w * n ∧ u + w * n < hi := by
  rcases le_total 0 w with hup | hdown
  · have hzero : 0 ≤ w * n := by positivity
    have hle : w * n ≤ w * m := by gcongr
    omega
  · have hzero : w * n ≤ 0 := mul_nonpos_of_nonpos_of_nonneg hdown (by positivity)
    have hle : w * m ≤ w * n := mul_le_mul_of_nonpos_left (by exact_mod_cast hn) hdown
    omega

end Hotspot
