-- SUMMARY: Division by a constant as a multiplication and a shift, exact for a width.
import Mathlib

/-!
# Division by multiplication

Numbers between `-2^n` and `2^n` are divided by `d`. The multiplier is the next integer above
`2^p / d`, and it is too large by `delta / d`. The error stays below the distance to the next
quotient if `nc * delta < 2^p`, where `nc` is the largest number in range with remainder `d - 1`.
-/

namespace Hotspot.MagicDivision

open Nat

variable {n d p : Nat}

def nc (n d : Nat) : Nat := 2 ^ n - 1 - 2 ^ n % d

def delta (d p : Nat) : Nat := d - 2 ^ p % d

def multiplier (d p : Nat) : Nat := 2 ^ p / d + 1

/-- The power of two is large enough. -/
def Exact (n d p : Nat) : Prop := n ≤ p ∧ nc n d * delta d p < 2 ^ p

theorem delta_pos (hd : 0 < d) (p : Nat) : 0 < delta d p := by
  have := mod_lt (2 ^ p) hd
  unfold delta
  omega

theorem delta_le (d p : Nat) : delta d p ≤ d := sub_le _ _

theorem multiplier_mul (hd : 0 < d) (p : Nat) : multiplier d p * d = 2 ^ p + delta d p := by
  have hmod := mod_lt (2 ^ p) hd
  have hdiv := div_add_mod (2 ^ p) d
  unfold multiplier delta
  rw [add_mul, one_mul, mul_comm]
  omega

theorem nc_lt (n d : Nat) : nc n d < 2 ^ n := by
  have := Nat.two_pow_pos n
  unfold nc
  omega

variable {k : Nat}

/-- The numbers above `nc` have small remainders, but for `2^n` itself. -/
theorem mod_of_nc_lt (hd : 1 < d) (hle : d ≤ 2 ^ n) (hk : nc n d < k) (hkn : k ≤ 2 ^ n) :
    k ≤ nc n d + d ∧ k % d + nc n d + 1 = k ∧ d ≤ nc n d + 1 := by
  have hmod := mod_lt (2 ^ n) (by omega : 0 < d)
  have hdiv := div_add_mod (2 ^ n) d
  have hq : 0 < 2 ^ n / d := div_pos hle (by omega)
  obtain ⟨q, hqeq⟩ : ∃ q, 2 ^ n / d = q + 1 := ⟨2 ^ n / d - 1, by omega⟩
  rw [hqeq, mul_add, mul_one] at hdiv
  have hnc : nc n d + 1 = d * q + d := by
    unfold nc
    omega
  obtain ⟨j, rfl⟩ : ∃ j, k = j + d * (q + 1) := ⟨k - d * (q + 1), by rw [mul_add]; omega⟩
  have hj : j < d := by
    rw [mul_add, mul_one] at hkn
    omega
  rw [add_mul_mod_self_left, mod_eq_of_lt hj, mul_add, mul_one]
  omega

/-- What is added to the remainder does not reach the next quotient. -/
theorem error_lt (hd : 1 < d) (hle : d ≤ 2 ^ n) (h : Exact n d p) (hk : k < 2 ^ n) :
    k % d * 2 ^ p + k * delta d p < d * 2 ^ p := by
  have hmod := mod_lt k (by omega : 0 < d)
  rcases lt_or_ge (nc n d) k with hlt | hge
  · obtain ⟨hkd, hrem, hnc⟩ := mod_of_nc_lt hd hle hlt hk.le
    -- the remainder is at most `d - 2` and `k` at most `2 * nc`
    have hsmall : k % d + 2 ≤ d := by
      have hpow := mod_lt (2 ^ n) (by omega : 0 < d)
      unfold nc at hrem
      omega
    have herr : k * delta d p ≤ 2 * (nc n d * delta d p) := by
      rw [← mul_assoc]
      exact mul_le_mul_right _ (by omega)
    have hscaled : (k % d + 2) * 2 ^ p ≤ d * 2 ^ p := mul_le_mul_right _ hsmall
    rw [add_mul] at hscaled
    have := h.2
    omega
  · have herr : k * delta d p < 2 ^ p := (mul_le_mul_right _ hge).trans_lt h.2
    have hrem : (k % d + 1) * 2 ^ p ≤ d * 2 ^ p := mul_le_mul_right _ hmod
    rw [add_mul, one_mul] at hrem
    omega

/-- If `2^n` itself has remainder `d - 1`, then `delta` is `2^(p-n)` modulo `d`. -/
theorem delta_le_of_mod (hd : 0 < d) (hnp : n ≤ p) (hmod : 2 ^ n % d + 1 = d) : 2 ^ n * delta d p ≤ 2 ^ p := by
  have hsplit : 2 ^ p = 2 ^ n * 2 ^ (p - n) := by rw [← Nat.pow_add, Nat.add_sub_cancel' hnp]
  have hsucc : d ∣ 2 ^ n + 1 := by
    have hdiv := div_add_mod (2 ^ n) d
    exact ⟨2 ^ n / d + 1, by rw [mul_add, Nat.mul_one]; omega⟩
  have hpow : d ∣ 2 ^ p + 2 ^ (p - n) := by
    have heq : 2 ^ p + 2 ^ (p - n) = (2 ^ n + 1) * 2 ^ (p - n) := by rw [add_mul, Nat.one_mul, ← hsplit]
    rw [heq]
    exact hsucc.mul_right _
  have hdelta : d ∣ 2 ^ p + delta d p := ⟨multiplier d p, by rw [← multiplier_mul hd, mul_comm]⟩
  have hle : delta d p ≤ 2 ^ (p - n) := by
    by_contra hgt
    have hdvd : d ∣ delta d p - 2 ^ (p - n) := by
      have hsub := dvd_sub hdelta hpow
      rwa [Nat.add_sub_add_left] at hsub
    have hpos := Nat.two_pow_pos (p - n)
    have hbound := le_of_dvd (by omega) hdvd
    have := delta_le d p
    omega
  rw [hsplit]
  exact Nat.mul_le_mul_left _ hle

/-- For negative numbers the next quotient may just be reached. -/
theorem error_le (hd : 1 < d) (hle : d ≤ 2 ^ n) (h : Exact n d p) (hk : k ≤ 2 ^ n) :
    k % d * 2 ^ p + k * delta d p ≤ d * 2 ^ p := by
  rcases lt_or_ge k (2 ^ n) with hlt | hge
  · exact (error_lt hd hle h hlt).le
  obtain rfl : k = 2 ^ n := by omega
  obtain ⟨hkd, hrem, hnc⟩ := mod_of_nc_lt hd hle (nc_lt n d) le_rfl
  have hmod := mod_lt (2 ^ n) (by omega : 0 < d)
  rcases lt_or_ge (2 ^ n % d + 1) d with hsmall | hlarge
  · have herr : 2 ^ n * delta d p ≤ 2 * (nc n d * delta d p) := by
      rw [← mul_assoc]
      exact mul_le_mul_right _ (by omega)
    have hscaled : (2 ^ n % d + 2) * 2 ^ p ≤ d * 2 ^ p := mul_le_mul_right _ hsmall
    rw [add_mul] at hscaled
    have := h.2
    omega
  · have herr := delta_le_of_mod (p := p) (by omega) h.1 (by omega : 2 ^ n % d + 1 = d)
    have hscaled : (2 ^ n % d + 1) * 2 ^ p ≤ d * 2 ^ p := mul_le_mul_right _ hmod
    rw [add_mul, one_mul] at hscaled
    omega

/-- The product is the quotient with the error added. -/
theorem multiplier_mul_mul (hd : 0 < d) (k p : Nat) :
    d * (multiplier d p * k) = d * (k / d * 2 ^ p) + (k % d * 2 ^ p + k * delta d p) := by
  have hdiv := div_add_mod k d
  calc d * (multiplier d p * k) = multiplier d p * d * k := by ring
    _ = (2 ^ p + delta d p) * k := by rw [multiplier_mul hd]
    _ = (d * (k / d) + k % d) * 2 ^ p + k * delta d p := by rw [hdiv]; ring
    _ = d * (k / d * 2 ^ p) + (k % d * 2 ^ p + k * delta d p) := by ring

theorem div_of_nonneg (hd : 1 < d) (hle : d ≤ 2 ^ n) (h : Exact n d p) (hk : k < 2 ^ n) :
    multiplier d p * k / 2 ^ p = k / d := by
  have hpos : 0 < d := by omega
  have hprod := multiplier_mul_mul hpos k p
  have herr := error_lt hd hle h hk
  rw [Nat.div_eq_iff (Nat.two_pow_pos p)]
  constructor
  · exact le_of_mul_le_mul_left (by omega) hpos
  have hlt : multiplier d p * k < (k / d + 1) * 2 ^ p := by
    apply Nat.lt_of_mul_lt_mul_left (a := d)
    rw [hprod, add_mul, one_mul, mul_add]
    omega
  rw [add_mul, one_mul] at hlt
  omega

theorem ediv_of_neg (hd : 1 < d) (hle : d ≤ 2 ^ n) (h : Exact n d p) (hpos : 0 < k) (hk : k ≤ 2 ^ n) :
    (multiplier d p : Int) * (-k) / 2 ^ p = -(k / d : Nat) - 1 := by
  have hd' : 0 < d := by omega
  have hprod := multiplier_mul_mul hd' k p
  have herr := error_le hd hle h hk
  have hdelta : 0 < k * delta d p := mul_pos hpos (delta_pos hd' p)
  have hlow : k / d * 2 ^ p < multiplier d p * k := by
    apply Nat.lt_of_mul_lt_mul_left (a := d)
    omega
  have hhigh : multiplier d p * k ≤ (k / d + 1) * 2 ^ p := by
    apply Nat.le_of_mul_le_mul_left (c := d) _ hd'
    rw [hprod, add_mul, one_mul, mul_add]
    omega
  have hlow' : (k / d : Nat) * (2 : Int) ^ p < multiplier d p * k := by exact_mod_cast hlow
  have hhigh' : (multiplier d p : Int) * k ≤ ((k / d : Nat) + 1) * 2 ^ p := by exact_mod_cast hhigh
  have hpow : (0 : Int) < 2 ^ p := by positivity
  rw [Int.ediv_eq_iff_of_pos hpow]
  constructor
  · linarith
  · linarith

/-- Multiply, shift, and add one for a negative dividend. -/
theorem ediv_sub_eq_tdiv (hd : 1 < d) (hle : d ≤ 2 ^ n) (h : Exact n d p) {x : Int} (hlo : -2 ^ n ≤ x)
    (hhi : x < 2 ^ n) : (multiplier d p : Int) * x / 2 ^ p - (if x < 0 then -1 else 0) = x.tdiv d := by
  rcases lt_or_ge x 0 with hneg | hnonneg
  · obtain ⟨k, rfl⟩ : ∃ k : Nat, x = -k := ⟨x.natAbs, by omega⟩
    have hk : k ≤ 2 ^ n := by
      have : (k : Int) ≤ 2 ^ n := by linarith
      exact_mod_cast this
    rw [if_pos hneg, ediv_of_neg hd hle h (by omega) hk, Int.neg_tdiv, Int.ofNat_tdiv]
    ring
  · obtain ⟨k, rfl⟩ : ∃ k : Nat, x = k := ⟨x.toNat, by omega⟩
    have hk : k < 2 ^ n := by exact_mod_cast hhi
    rw [if_neg (not_lt.mpr hnonneg), Int.sub_zero, ← Int.ofNat_tdiv, ← div_of_nonneg hd hle h hk]
    push_cast
    rfl

/-! ## The search for the exponent -/

/-- Some exponent is large enough, and the multiplier then fits into a word. -/
theorem exact_clog (n d : Nat) : Exact n d (n + Nat.clog 2 d) := by
  refine ⟨le_add_right _ _, ?_⟩
  have hle : delta d (n + clog 2 d) ≤ 2 ^ clog 2 d :=
    (delta_le d _).trans (le_pow_clog (by omega) d)
  calc nc n d * delta d (n + clog 2 d) ≤ nc n d * 2 ^ clog 2 d := mul_le_mul_left _ hle
    _ < 2 ^ n * 2 ^ clog 2 d := mul_lt_mul_of_pos_right (nc_lt n d) (Nat.two_pow_pos _)
    _ = 2 ^ (n + clog 2 d) := (pow_add 2 n _).symm

/-- The bound of the search, for a positive and for a negative divisor. The exponent it stops at is
exact either way. -/
def searchBound (t d : Nat) : Nat := t - 1 - t % d

variable {t : Nat}

theorem searchBound_cases (hd : 1 < d) (ht : t = 2 ^ n ∨ t = 2 ^ n + 1) :
    searchBound t d = nc n d ∨ searchBound t d = 2 ^ n ∧ d ∣ 2 ^ n + 1 := by
  unfold searchBound
  rcases ht with rfl | rfl
  · exact .inl rfl
  have hmod := mod_lt (2 ^ n) (by omega : 0 < d)
  have hadd : (2 ^ n + 1) % d = (2 ^ n % d + 1) % d := (mod_add_mod _ _ _).symm
  rcases lt_or_ge (2 ^ n % d + 1) d with hlt | hge
  · rw [mod_eq_of_lt hlt] at hadd
    unfold nc
    left
    omega
  · have hzero : (2 ^ n + 1) % d = 0 := by
      rw [hadd, show 2 ^ n % d + 1 = d by omega, mod_self]
    exact .inr ⟨by rw [hzero, Nat.add_sub_cancel, Nat.sub_zero], dvd_of_mod_eq_zero hzero⟩

theorem nc_le_searchBound (hd : 1 < d) (ht : t = 2 ^ n ∨ t = 2 ^ n + 1) : nc n d ≤ searchBound t d := by
  have := nc_lt n d
  rcases searchBound_cases hd ht with h | ⟨h, -⟩ <;> omega

theorem searchBound_le (hd : 1 < d) (ht : t = 2 ^ n ∨ t = 2 ^ n + 1) : searchBound t d ≤ 2 ^ n := by
  have := nc_lt n d
  rcases searchBound_cases hd ht with h | ⟨h, -⟩ <;> omega

theorem searchBound_clog (hn : 0 < n) (hd : 1 < d) (ht : t = 2 ^ n ∨ t = 2 ^ n + 1) :
    searchBound t d * delta d (n + Nat.clog 2 d) < 2 ^ (n + Nat.clog 2 d) := by
  rcases searchBound_cases hd ht with h | ⟨h, hdvd⟩
  · rw [h]
    exact (exact_clog n d).2
  -- an odd divisor is not a power of two
  have hclog : 0 < clog 2 d := clog_pos one_lt_two hd
  have hne : d ≠ 2 ^ clog 2 d := by
    intro heq
    have htwo : 2 ∣ d := heq ▸ dvd_pow_self 2 (by omega)
    have hpow : 2 ∣ 2 ^ n := dvd_pow_self 2 (by omega)
    have hone : 2 ∣ 1 := (Nat.dvd_add_right hpow).mp (htwo.trans hdvd)
    omega
  have hlt : delta d (n + clog 2 d) < 2 ^ clog 2 d :=
    (delta_le d _).trans_lt (lt_of_le_of_ne (le_pow_clog (by omega) d) hne)
  rw [h, pow_add]
  exact mul_lt_mul_of_pos_left hlt (Nat.two_pow_pos n)

theorem Exact.of_searchBound (hd : 1 < d) (ht : t = 2 ^ n ∨ t = 2 ^ n + 1) (hp : n ≤ p)
    (h : searchBound t d * delta d p < 2 ^ p) : Exact n d p :=
  ⟨hp, (mul_le_mul_right _ (nc_le_searchBound hd ht)).trans_lt h⟩

theorem multiplier_lt (hd : 1 < d) (hle : d ≤ 2 ^ n) (hp : p ≤ n + Nat.clog 2 d) : multiplier d p < 2 ^ (n + 1) := by
  obtain ⟨c, hc⟩ : ∃ c, clog 2 d = c + 1 := ⟨clog 2 d - 1, by have := clog_pos one_lt_two hd; omega⟩
  have hlow : 2 ^ c < d := by
    have hpred := Nat.pow_pred_clog_lt_self one_lt_two hd
    rwa [hc] at hpred
  have hpow : 2 ^ p ≤ 2 ^ (n + 1) * 2 ^ c := by
    rw [← Nat.pow_add]
    exact Nat.pow_le_pow_right (by omega) (by omega)
  have hroom : 2 ^ (n + 1) * 2 ^ c + d < 2 ^ (n + 1) * d := by
    have hstep : 2 ^ (n + 1) * (2 ^ c + 1) ≤ 2 ^ (n + 1) * d := mul_le_mul_left _ hlow
    rw [mul_add, mul_one] at hstep
    omega
  unfold multiplier
  rw [← Nat.lt_sub_iff_add_lt, div_lt_iff_lt_mul (by omega), Nat.sub_mul, one_mul]
  omega

end Hotspot.MagicDivision
