-- SUMMARY: The remainder for `2 ^ k - 1`: exact for ints, but one bit short for longs.
import Hotspot.Opto.ModNode

/-!
# Fast remainders

For the divisor `2^k - 1` a round adds the bits above the mask to the bits under it. The shift of ints
is `k`. The shift of longs is `log2_long(con)`, which is `k - 1`, so the highest bit of the mask is
counted twice; there the divisors are written `2^(k+1) - 1` and the shift `k`. Dividends below `2^k`
do not have that bit, and `2^k` itself is the first that goes wrong.
-/

namespace Hotspot.DivNode

open Opto

open BitVec hiding toInt_intMax

/-! ## Rounds on integers -/

/-- One round with a shift by `k` and a mask of `m` bits. -/
def reduceBy (k m : Nat) (x : Int) : Int := x / 2 ^ k + x % 2 ^ m

/-- A round does not change the remainder by the mask. -/
theorem dvd_reduceBy_sub (k t : Nat) (x : Int) : (2 ^ k - 1 : Int) ∣ (reduceBy k k)^[t] x - x := by
  induction t generalizing x with
  | zero =>
    show _ ∣ x - x
    rw [Int.sub_self]
    exact dvd_zero _
  | succ t ih =>
    rw [Function.iterate_succ_apply]
    have hsplit : (reduceBy k k)^[t] (reduceBy k k x) - x =
        (reduceBy k k)^[t] (reduceBy k k x) - reduceBy k k x + (reduceBy k k x - x) := by ring
    rw [hsplit]
    refine dvd_add (ih _) ⟨-(x / 2 ^ k), ?_⟩
    have hdiv := Int.mul_ediv_add_emod x (2 ^ k)
    have hmul : (2 ^ k - 1 : Int) * -(x / 2 ^ k) = x / 2 ^ k - 2 ^ k * (x / 2 ^ k) := by ring
    unfold reduceBy
    omega

/-! ## Bounds -/

/-- A bound for the value after `t` rounds from a bound before. -/
def upperAfter (k m : Nat) : Nat → Int → Int
  | 0, u => u
  | t + 1, u => upperAfter k m t (u / 2 ^ k + (2 ^ m - 1))

def lowerAfter (k : Nat) : Nat → Int → Int
  | 0, l => l
  | t + 1, l => lowerAfter k t (l / 2 ^ k)

theorem mod_bounds (m : Nat) (x : Int) : 0 ≤ x % 2 ^ m ∧ x % 2 ^ m ≤ 2 ^ m - 1 := by
  omega

section

variable {k m t : Nat} {x l u : Int}

theorem reduces_upper (hx : 0 ≤ x) (hu : x ≤ u) :
    0 ≤ (reduceBy k m)^[t] x ∧ (reduceBy k m)^[t] x ≤ upperAfter k m t u := by
  induction t generalizing x u with
  | zero => exact ⟨hx, hu⟩
  | succ t ih =>
    have hpos : (0 : Int) < 2 ^ k := by positivity
    have hquo : 0 ≤ x / 2 ^ k := Int.ediv_nonneg hx hpos.le
    have hmono : x / 2 ^ k ≤ u / 2 ^ k := Int.ediv_le_ediv hpos hu
    apply ih
    · unfold reduceBy
      omega
    · unfold reduceBy
      omega

theorem reduces_lower (hl : l ≤ x) : lowerAfter k t l ≤ (reduceBy k m)^[t] x := by
  induction t generalizing x l with
  | zero => exact hl
  | succ t ih =>
    have hpos : (0 : Int) < 2 ^ k := by positivity
    have hmono : l / 2 ^ k ≤ x / 2 ^ k := Int.ediv_le_ediv hpos hl
    apply ih
    unfold reduceBy
    omega

/-- A dividend that has none of the bits above the shift stays as it is. -/
theorem reduces_of_lt (hx : 0 ≤ x) (hlt : x < 2 ^ k) : (reduceBy k (k + 1))^[t] x = x := by
  apply Function.iterate_fixed
  have hpow : (2 : Int) ^ (k + 1) = 2 * 2 ^ k := by ring
  rw [reduceBy, Int.ediv_eq_zero_of_lt hx hlt, Int.emod_eq_of_lt hx (by omega), zero_add]

/-- The first dividend with the bit that is counted twice grows by one in each round. -/
theorem reduces_two_pow (ht : (t : Int) < 2 ^ k) : (reduceBy k (k + 1))^[t] (2 ^ k) = 2 ^ k + t := by
  induction t with
  | zero => simp
  | succ t ih =>
    push_cast at ht ⊢
    have hpow : (2 : Int) ^ (k + 1) = 2 * 2 ^ k := by ring
    have hquo : (2 ^ k + t : Int) / 2 ^ k = 1 := by
      rw [Int.add_ediv_of_dvd_left dvd_rfl, Int.ediv_self (by positivity),
        Int.ediv_eq_zero_of_lt (by omega) (by omega), add_zero]
    rw [Function.iterate_succ_apply', ih (by omega), reduceBy, hquo,
      Int.emod_eq_of_lt (by omega) (by omega)]
    ring

/-- A negative dividend does not reach the mask. -/
theorem reduces_lt_mask (hx : x < 2 ^ k - 1) : (reduceBy k k)^[t] x < 2 ^ k - 1 := by
  induction t generalizing x with
  | zero => exact hx
  | succ t ih =>
    have hpos : (0 : Int) < 2 ^ k := by positivity
    apply ih
    unfold reduceBy
    rcases lt_or_ge x 0 with hneg | hnonneg
    · have : x / 2 ^ k < 0 := Int.ediv_neg_of_neg_of_pos hneg hpos
      omega
    · rw [Int.ediv_eq_zero_of_lt hnonneg (by omega), Int.emod_eq_of_lt hnonneg (by omega)]
      omega

end

theorem unrollFactor_large : ∀ k < 12, 5 < unrollFactor.getD k 1 := by
  decide

theorem unrollFactor_pos : ∀ k < 62, 0 < unrollFactor.getD k 1 := by
  decide

/-- The table has enough rounds for every shift, up to one subtraction of the divisor. -/
theorem unrollFactorInt_enough : ∀ k < 31, 6 ≤ k →
    upperAfter k k (unrollFactorInt.getD k 1) (2 ^ 31 - 1) < 2 * (2 ^ k - 1) ∧
      -(2 ^ k - 1) < lowerAfter k (unrollFactorInt.getD k 1) (-2 ^ 31) := by
  decide +kernel

theorem unrollFactorInt_large : ∀ k < 6, 5 < unrollFactorInt.getD k 1 := by
  decide

/-! ## The divisors -/

section Divisors

variable {K : Kind} {cl : Int}

theorem expands_cases {trips : BitVec K.width → Nat} {con : BitVec K.width}
    (h : expands cl trips con = true) :
    ∃ l, l < K.width - 1 ∧ con.toNat = 2 ^ l - 1 ∧ (con + 1).toNat = 2 ^ l ∧ trips con ≤ 5 := by
  unfold expands at h
  simp only [Bool.and_eq_true, decide_eq_true_eq] at h
  obtain ⟨⟨⟨⟨hnonneg, hmax⟩, hpower⟩, htrips⟩, -⟩ := h
  rw [sle_iff_toInt_le, toInt_zero] at hnonneg
  rw [slt_iff_toInt_lt, toInt_intMax] at hmax
  have hbound := bound_eq K
  have hone : (1 : BitVec K.width).toNat = 1 := by cases K <;> rfl
  obtain ⟨hcast, hlt⟩ := toNat_of_nonneg hnonneg
  have hadd : (con + 1).toNat = con.toNat + 1 := by
    rw [← hone]
    refine toNat_add_of_lt ?_
    have : 2 ^ (K.width - 1) < 2 ^ K.width := Nat.pow_lt_pow_right one_lt_two (Nat.sub_one_lt (width_pos K).ne')
    omega
  obtain ⟨l, hl⟩ := (isPowerOf2_iff (width_pos K) _).mp hpower
  refine ⟨l, ?_, by omega, hl, htrips⟩
  have hlt' : 2 ^ l < 2 ^ (K.width - 1) := by omega
  exact (Nat.pow_lt_pow_iff_right one_lt_two).mp hlt'

/-- The divisor of a fast remainder of longs, other than 0. The shift is one less than it should be. -/
theorem expandsFastMod_cases {con : JLong} (hne : con ≠ 0) (h : expandsFastMod cl con = true) :
    ∃ k, 12 ≤ k ∧ k < 62 ∧ con.toNat = 2 ^ (k + 1) - 1 ∧ shiftOf con = k ∧ tripCount con ≤ 5 := by
  obtain ⟨l, hl63, hl, -, htrips⟩ := expands_cases (K := .long) h
  dsimp only [Kind.width] at hl63
  have hnat : con.toNat ≠ 0 := fun h => hne (eq_of_toNat_eq h)
  have hl0 : l ≠ 0 := by
    rintro rfl
    exact hnat hl
  obtain ⟨k, rfl⟩ : ∃ k, l = k + 1 := ⟨l - 1, by omega⟩
  have hlog : Nat.log 2 con.toNat = k := by
    rw [Nat.log_eq_iff (.inr ⟨one_lt_two, hnat⟩)]
    have := Nat.two_pow_pos k
    omega
  have hshift : shiftOf con = k := by
    unfold shiftOf
    rw [log2_eq hnat, hlog, ofInt_natCast, toNat_ofNat]
    omega
  refine ⟨k, ?_, by omega, hl, hshift, htrips⟩
  by_contra hsmall
  have := unrollFactor_large k (by omega)
  unfold tripCount at htrips
  rw [hshift] at htrips
  omega

theorem expandsInt_cases {con : JInt} (h : expands cl tripCountInt con = true) :
    ∃ k, 6 ≤ k ∧ k < 31 ∧ con.toNat = 2 ^ k - 1 ∧ shiftOfInt con = k := by
  obtain ⟨k, hk, hcon, hadd, htrips⟩ := expands_cases (K := .int) h
  dsimp only [Kind.width] at hk hadd
  have hshift : shiftOfInt con = k := by
    unfold shiftOfInt
    rw [log2_eq (by rw [hadd]; exact (Nat.two_pow_pos k).ne'), hadd, Nat.log_pow one_lt_two, ofInt_natCast,
      toNat_ofNat]
    omega
  refine ⟨k, ?_, by omega, hcon, hshift⟩
  by_contra hsmall
  have := unrollFactorInt_large k (by omega)
  unfold tripCountInt at htrips
  rw [hshift] at htrips
  omega

end Divisors

/-! ## The graph -/

section Graph

variable {K : Kind} {ph : PhaseGVN} {k m : Nat} {con : BitVec K.width}

/-- No sum of a round overflows. -/
theorem toInt_round (hk : 2 ≤ k) (hm : m + 1 < K.width) (hcon : con.toNat = 2 ^ m - 1)
    (x : BitVec K.width) : (x.sshiftRight k + (x &&& con)).toInt = reduceBy k m x.toInt := by
  have hx := toInt_bounds x
  have hlow := toInt_and_low x hcon (by omega)
  have hmod := mod_bounds m x.toInt
  have hmask : (2 : Int) ^ m * 2 ≤ K.bound := by
    rw [← pow_succ]
    exact pow_le_pow_right₀ (by decide) (by omega)
  have hpow : (2 : Int) ^ 2 ≤ 2 ^ k := pow_le_pow_right₀ (by decide) hk
  have hpos : (0 : Int) < 2 ^ k := by positivity
  have hquo : -K.bound < (x.toInt / 2 ^ k + 1) * 4 ∧ x.toInt / 2 ^ k * 4 < K.bound := by
    have hle := Int.ediv_mul_le x.toInt hpos.ne'
    have hgt := Int.lt_ediv_add_one_mul_self x.toInt hpos
    rcases lt_or_ge (x.toInt / 2 ^ k) 0 with hneg | hnonneg
    · have := mul_le_mul_of_nonpos_left hpow (show x.toInt / 2 ^ k + 1 ≤ 0 by omega)
      omega
    · have := mul_le_mul_of_nonneg_left hpow hnonneg
      omega
  unfold reduceBy
  rw [← hlow, ← toInt_sshiftRight] at *
  exact toInt_add_of_bounds (by omega) (by omega)

variable {dv : Node K}

theorem eval_fastModRounds (hk : 2 ≤ k) (hk' : k < K.width) (hm : m + 1 < K.width)
    (hcon : (ph.eval dv).toNat = 2 ^ m - 1) (t : Nat) (x : Node K) :
    (ph.eval (fastModRounds k dv t x)).toInt = (reduceBy k m)^[t] (ph.eval x).toInt := by
  induction t generalizing x with
  | zero => rfl
  | succ t ih =>
    rw [Function.iterate_succ_apply]
    unfold fastModRounds
    rw [ih]
    congr 1
    show (Node.eval ph.input (.rshift x (intcon k)) + (ph.eval x &&& ph.eval dv)).toInt = _
    rw [eval_rshift _ _ hk']
    exact toInt_round hk hm hcon (ph.eval x)

/-- A remainder has the sign of the dividend, is less than the divisor and differs by a multiple. -/
theorem eq_tmod_of_dvd {x d r : Int} (hd : 0 < d) (hdvd : d ∣ r - x) (hpos : 0 ≤ x → 0 ≤ r ∧ r < d)
    (hneg : x < 0 → -d < r ∧ r ≤ 0) : r = x.tmod d := by
  have hdiff : d ∣ r - x.tmod d := by
    have hsplit : r - x.tmod d = r - x + d * x.tdiv d := by
      have := Int.tmod_add_mul_tdiv x d
      omega
    rw [hsplit]
    exact dvd_add hdvd (dvd_mul_right d _)
  have hsmall : |r - x.tmod d| < d := by
    rw [abs_lt]
    rcases lt_or_ge x 0 with hx | hx
    · have hswap : x.tmod d = -((-x).tmod d) := by rw [Int.neg_tmod, Int.neg_neg]
      have := Int.tmod_nonneg d (by omega : 0 ≤ -x)
      have := Int.tmod_lt_of_pos (-x) hd
      have := hneg hx
      omega
    · have := Int.tmod_nonneg d hx
      have := Int.tmod_lt_of_pos x hd
      have := hpos hx
      omega
  have := Int.eq_zero_of_abs_lt_dvd hdiff hsmall
  omega

/-- The sign fix-up: the reduced value `y`, or one divisor less. -/
def fixup (d x y : Int) : Int := if (if 0 ≤ x then d else 1) ≤ y then y - d else y

/-- The sign fix-up gives the remainder, if the reduced value is close enough. -/
theorem fixup_eq_tmod {x y d : Int} (hd : 0 < d) (hpos : 0 ≤ x → 0 ≤ y ∧ y < 2 * d) (hneg : -d < y)
    (hdvd : d ∣ y - x) (hle : x < 0 → y ≤ d) : fixup d x y = x.tmod d := by
  apply eq_tmod_of_dvd hd
  · unfold fixup
    generalize (if 0 ≤ x then d else 1) = bound
    split
    · rw [sub_right_comm]
      exact dvd_sub_self_right.mpr hdvd
    · exact hdvd
  · intro hx
    have := hpos hx
    rw [fixup, if_pos hx]
    split <;> omega
  · intro hx
    have := hle hx
    rw [fixup, if_neg (not_le.mpr hx)]
    split <;> omega

/-- The two conditional moves. -/
theorem eval_fixup (x n : Node K) (hcon : ph.eval dv = con) (hpos : 0 < con.toInt) :
    (ph.eval (.cmoveGe x (.cmoveGe n (.con 0) (.con 1) dv) x (.sub x dv))).toInt =
      fixup con.toInt (ph.eval n).toInt (ph.eval x).toInt := by
  unfold fixup
  have hx := toInt_bounds (ph.eval x)
  have hone : (1#K.width).toInt = 1 := by cases K <;> rfl
  have hbound : (if (0#K.width).sle (ph.eval n) then ph.eval dv else 1#K.width).toInt =
      if 0 ≤ (ph.eval n).toInt then con.toInt else 1 := by
    simp only [sle_iff_toInt_le, toInt_zero, hcon]
    split
    · rfl
    · exact hone
  show (if (if (0#K.width).sle (ph.eval n) then ph.eval dv else 1#K.width).sle (ph.eval x)
    then ph.eval x - ph.eval dv else ph.eval x).toInt = _
  have hlow : 0 < (if 0 ≤ (ph.eval n).toInt then con.toInt else 1) := by split <;> omega
  rw [← hbound] at hlow ⊢
  generalize (if (0#K.width).sle (ph.eval n) then ph.eval dv else 1#K.width) = bound at hlow ⊢
  simp only [sle_iff_toInt_le]
  split
  next hle =>
    rw [toInt_sub, hcon]
    have := toInt_bounds con
    exact bmod_of_bounds (by omega) (by omega)
  · rfl

/-- The value of a mask. -/
theorem toInt_mask (hm : m < K.width - 1) (hcon : con.toNat = 2 ^ m - 1) :
    con.toInt = 2 ^ m - 1 := by
  have hlt : 2 ^ m < 2 ^ (K.width - 1) := Nat.pow_lt_pow_right one_lt_two hm
  have hpos := Nat.two_pow_pos m
  rw [toInt_eq_toNat (by omega), hcon]
  push_cast [Nat.one_le_two_pow]
  rfl

/-- What the graph computes: the rounds and the fix-up. -/
theorem toInt_fastModGraph {t : Nat} {n : Node K} (hcon : ph.eval dv = con) (hk : 2 ≤ k) (hk' : k < K.width)
    (hm : 0 < m) (hm' : m + 1 < K.width) (hmask : con.toNat = 2 ^ m - 1) :
    (ph.eval (fastModGraph k t n dv)).toInt =
      fixup con.toInt (ph.eval n).toInt ((reduceBy k m)^[t] (ph.eval n).toInt) := by
  have hconInt := toInt_mask (by omega) hmask
  have htwo : (2 : Int) ^ 1 ≤ 2 ^ m := pow_le_pow_right₀ (by decide) hm
  unfold fastModGraph
  rw [eval_fixup _ n hcon (by omega), eval_fastModRounds hk hk' hm' (hcon ▸ hmask) t n]

/-- A fast remainder of longs is right for the dividends that lack the bit that is counted twice,
and not for the first that has it. -/
theorem fastMod_exact_iff {cl : Int} {con : JLong} {n dv : Node .long}
    (hcon : ph.eval dv = con) (hne : con ≠ 0) (h : expandsFastMod cl con = true)
    (hx : 0 ≤ (ph.eval n).toInt ∧ 2 * (ph.eval n).toInt ≤ con.toInt ∨ 2 * (ph.eval n).toInt = con.toInt + 1) :
    ph.eval (fastMod con n dv) = (ph.eval n).srem con ↔ 2 * (ph.eval n).toInt ≤ con.toInt := by
  obtain ⟨k, hk, hk', hmask, hshift, htrips⟩ := expandsFastMod_cases hne h
  have hpos := unrollFactor_pos k hk'
  have hgraph := toInt_fastModGraph (K := .long) (t := tripCount con) (n := n) hcon (show 2 ≤ k by omega)
    (by dsimp only [Kind.width]; omega) k.succ_pos (by dsimp only [Kind.width]; omega) hmask
  have hconInt := toInt_mask (K := .long) (by dsimp only [Kind.width]; omega) hmask
  have hmin : (2 : Int) ^ 12 ≤ 2 ^ k := pow_le_pow_right₀ (by decide) hk
  have hpow : (2 : Int) ^ (k + 1) = 2 * 2 ^ k := by ring
  have hlo : 0 ≤ (ph.eval n).toInt := by omega
  rw [← toInt_inj, fastMod, hshift, hgraph, toInt_srem, Int.tmod_eq_of_lt hlo (by omega), fixup, if_pos hlo]
  rcases lt_or_eq_of_le (show (ph.eval n).toInt ≤ 2 ^ k by omega) with hlt | heq
  · rw [reduces_of_lt hlo hlt, if_neg (by omega)]
    exact iff_of_true rfl (by omega)
  · have htrips' : tripCount con = unrollFactor.getD k 1 := by rw [tripCount, hshift]
    rw [heq, reduces_two_pow (by omega), if_neg (by omega)]
    omega

theorem fastModInt_exact {cl : Int} {con : JInt} {n dv : Node .int}
    (hcon : ph.eval dv = con) (h : expands cl tripCountInt con = true) :
    ph.eval (fastModInt con n dv) = (ph.eval n).srem con := by
  obtain ⟨k, hk, hk', hmask, hshift⟩ := expandsInt_cases h
  obtain ⟨hupper, hlower⟩ := unrollFactorInt_enough k hk' hk
  have hconInt := toInt_mask (K := .int) (by dsimp only [Kind.width]; omega) hmask
  unfold fastModInt tripCountInt
  rw [hshift]
  have htwo : (2 : Int) ^ 1 ≤ 2 ^ k := pow_le_pow_right₀ (by decide) (by omega)
  have hx := toInt_bounds (k := .int) (ph.eval n)
  rw [← toInt_inj, toInt_srem, toInt_fastModGraph (K := .int) hcon (by omega) (by dsimp only [Kind.width]; omega)
    (by omega) (by dsimp only [Kind.width]; omega) hmask, hconInt]
  apply fixup_eq_tmod (by omega)
  · intro hnonneg
    have := reduces_upper (k := k) (m := k) (t := unrollFactorInt.getD k 1) hnonneg
      (show (ph.eval n).toInt ≤ 2 ^ 31 - 1 by exact Int.le_sub_one_of_lt hx.2)
    omega
  · exact hlower.trans_le (reduces_lower hx.1)
  · exact dvd_reduceBy_sub k _ _
  · exact fun hneg => (reduces_lt_mask (by omega)).le

end Graph

/-! ## The whole transformation -/

section Ideal

variable (ph phase : PhaseGVN)

/-- `Ideal` reaches the expansion: the node is not returned as it is, and the divisor is a constant
of the right form. -/
def UsesExpansion {K : Kind} (isExpanded : BitVec K.width → Bool) (control : Control) (divisor : Node K) : Prop :=
  control ≠ .removed ∧
    ∃ tl, phase.typeOf divisor = some tl ∧ ¬ (control = .live ∧ (tl.hi.slt 0 ∨ (0#K.width).slt tl.lo)) ∧ tl.lo = tl.hi ∧
      isExpanded tl.lo = true

def UsesFastMod (conditionalMoveLimit : Int) (control : Control) (divisor : Node .long) : Prop :=
  UsesExpansion phase (K := .long) (expandsFastMod conditionalMoveLimit) control divisor

variable {ph phase} {control : Control}

/-- The cases in which `Ideal` returns a node. -/
theorem modIdeal_cases {K : Kind} {ex : BitVec K.width → Bool} {fast : BitVec K.width → Node K}
    {slow : BitVec K.width → Option (Node K)} {n dv q : Node K}
    (h : modIdeal ph ex fast slow control n dv = some q) :
    (q = .mod n dv ∧ ¬ UsesExpansion ph ex control dv) ∨
    (q = fast (ph.eval dv) ∧ UsesExpansion ph ex control dv ∧ ex (ph.eval dv) = true) ∨
    (slow (ph.eval dv) = some q ∧ ¬ UsesExpansion ph ex control dv) := by
  unfold modIdeal at h
  split at h
  next hremoved =>
    cases h
    exact .inl ⟨rfl, fun huses => huses.1 hremoved⟩
  next hremoved =>
    split at h
    · cases h
    · split at h
      · cases h
      next tl htype =>
        split at h
        next hlive =>
          cases h
          refine .inl ⟨rfl, fun ⟨_, tl', htype', hnot, _⟩ => ?_⟩
          rw [htype] at htype'
          cases htype'
          exact hnot hlive
        next hlive =>
          split at h
          · cases h
          next hcon =>
            have heq : ph.eval dv = tl.lo :=
              (ph.sound dv tl htype).eq_lo (decide_eq_true (not_not.mp hcon))
            split at h
            next hexpands =>
              cases h
              exact .inr (.inl ⟨by rw [heq], ⟨hremoved, tl, htype, hlive, not_not.mp hcon, hexpands⟩, heq ▸ hexpands⟩)
            next hexpands =>
              refine .inr (.inr ⟨heq ▸ h, fun ⟨_, tl', htype', _, _, hexpands'⟩ => ?_⟩)
              rw [htype] at htype'
              cases htype'
              exact hexpands hexpands'

/-- `ModINode::Ideal` is exact. A node that is returned as it is may still divide by 0. -/
theorem modIIdeal_exact {conditionalMoveLimit : Int} {dividend divisor q : Node .int}
    (h : modIIdeal phase conditionalMoveLimit control dividend divisor = some q) :
    phase.eval q = (phase.eval dividend).srem (phase.eval divisor) ∧
      (phase.eval divisor = 0 → q = .mod dividend divisor) := by
  rcases modIdeal_cases h with ⟨rfl, -⟩ | ⟨rfl, -, hexpands⟩ | ⟨hdivision, -⟩
  · exact ⟨rfl, fun _ => rfl⟩
  · refine ⟨fastModInt_exact rfl hexpands, fun hzero => ?_⟩
    rw [hzero] at hexpands
    obtain ⟨k, hk, -, hcon, -⟩ := expandsInt_cases hexpands
    have : 2 ^ 6 ≤ 2 ^ k := Nat.pow_le_pow_right two_pos hk
    rw [show (0 : BitVec Kind.int.width).toNat = 0 from rfl] at hcon
    omega
  · obtain ⟨hne, hexact⟩ := modByDivision_exact (K := .int) (transformIntDivide_cases phase) hdivision
    exact ⟨hexact, fun hzero => absurd hzero hne⟩

variable {conditionalMoveLimit : Int} {hasMulHiL : Bool} {dividend divisor q : Node .long} {x con : JLong}

/-- The replacement is the remainder unless it is the expansion, and then for dividends up to half of
the divisor. The next dividend goes wrong for every divisor that is expanded. -/
theorem modLIdeal_exact (hx : phase.eval dividend = x) (hcon : phase.eval divisor = con) (hne : con ≠ 0)
    (h : modLIdeal phase conditionalMoveLimit hasMulHiL control dividend divisor = some q) :
    ((UsesFastMod phase conditionalMoveLimit control divisor → 0 ≤ x.toInt ∧ 2 * x.toInt ≤ con.toInt) →
      javaRem x con = some (phase.eval q)) ∧
    (UsesFastMod phase conditionalMoveLimit control divisor → 2 * x.toInt = con.toInt + 1 →
      javaRem x con ≠ some (phase.eval q)) := by
  subst hx hcon
  rw [javaRem, if_neg hne, Option.some_inj, Ne, Option.some_inj, eq_comm (b := phase.eval q)]
  rcases modIdeal_cases h with ⟨rfl, hnot⟩ | ⟨rfl, huses, hexpands⟩ | ⟨hdivision, hnot⟩
  · exact ⟨fun _ => rfl, fun huses => absurd huses hnot⟩
  · refine ⟨fun hsmall => ?_, fun _ hnext => ?_⟩
    · exact (fastMod_exact_iff rfl hne hexpands (.inl (hsmall huses))).mpr (hsmall huses).2
    · rw [fastMod_exact_iff rfl hne hexpands (.inr hnext)]
      omega
  · exact ⟨fun _ => (modByDivision_exact (transformLongDivide_cases phase hasMulHiL) hdivision).2,
      fun huses => absurd huses hnot⟩

end Ideal

/-- A graph in which only the constants have types. -/
def PhaseGVN.constants (input : (k : Kind) → Nat → BitVec k.width) : PhaseGVN where
  input := input
  typeOf
    | .con c => some (.con c)
    | _ => none
  sound n t h := by
    cases n with
    | con c =>
      cases h
      exact IntegerType.contains_con c
    | _ => cases h

theorem modIdeal_constants {K : Kind} (input : (k : Kind) → Nat → BitVec k.width) {ex : BitVec K.width → Bool}
    {fast : BitVec K.width → Node K} {slow : BitVec K.width → Option (Node K)} {n : Node K} {con : BitVec K.width}
    (h : ex con = true) :
    modIdeal (.constants input) ex fast slow .none n (.con con) = some (fast con) := by
  unfold modIdeal
  rw [if_neg nofun, if_neg nofun]
  show (if _ ∧ _ then _ else if con ≠ con then _ else if _ then _ else _) = _
  rw [if_neg (fun hlive => nomatch hlive.1), if_neg (fun hne => hne rfl)]
  exact if_pos h

theorem modIIdeal_exact_mersenne :
    ∃ q, modIIdeal (.constants fun _ _ => 1000) 3 .none (.input 0) (.con 127) = some q ∧
      (PhaseGVN.constants fun _ _ => 1000).eval q = 111 :=
  have h : modIIdeal (.constants fun _ _ => 1000) 3 .none (.input 0) (.con 127) =
      some (fastModInt 127 (.input 0) (.con 127)) := modIdeal_constants _ (by decide +kernel)
  ⟨_, h, (modIIdeal_exact h).1⟩

/-- The divisor of the popular random number generator. -/
theorem modLIdeal_exact_small : ∃ q,
    modLIdeal (.constants fun _ _ => 1000) 3 false .none (.input 0) (.con 2147483647) = some q ∧
      javaRem 1000 2147483647 = some ((PhaseGVN.constants fun _ _ => 1000).eval q) :=
  have h : modLIdeal (.constants fun _ _ => 1000) 3 false .none (.input 0) (.con 2147483647) =
      some (fastMod 2147483647 (.input 0) (.con 2147483647)) := modIdeal_constants _ (by decide +kernel)
  ⟨_, h, (modLIdeal_exact rfl rfl (by decide) h).1 fun _ => by decide⟩

/-- `2^30` by `2^31 - 1`: the reduction gives `2^30 + 2`. -/
theorem modLIdeal_two_pow_30 :
    (modLIdeal (.constants fun _ _ => 1073741824) 3 false .none (.input 0) (.con 2147483647)).map
        (PhaseGVN.constants fun _ _ => 1073741824).eval = some 1073741826 ∧
      javaRem 1073741824 2147483647 = some 1073741824 := by
  unfold modLIdeal
  decide +kernel

end Hotspot.DivNode
