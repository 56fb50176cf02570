-- SUMMARY: Division by a power of two: the shift, with and without rounding, is the quotient.
import Hotspot.Opto.DivNode

/-!
# Division by powers of two

A shift rounds down and Java rounds towards zero. The two agree if the dividend is not negative or
is a multiple of the divisor; otherwise the divisor less one is added first.
-/

namespace Hotspot.DivNode

open BitVec Opto

variable {k : Kind}

/-! ## Words as integers -/

theorem bmod_of_bounds {z : Int} (hlo : -k.bound ≤ z) (hhi : z < k.bound) : z.bmod (2 ^ k.width) = z := by
  have hbound := k.bound_ge
  rcases bmod_cases k z (by omega) (by omega) with h | h | h
  · exact h.2.2
  · omega
  · omega

variable {x : BitVec k.width}

theorem toInt_add_of_bounds {y : BitVec k.width} (hlo : -k.bound ≤ x.toInt + y.toInt)
    (hhi : x.toInt + y.toInt < k.bound) : (x + y).toInt = x.toInt + y.toInt := by
  rw [toInt_add, bmod_of_bounds hlo hhi]

theorem toInt_mul_of_bounds {y : BitVec k.width} (hlo : -k.bound ≤ x.toInt * y.toInt)
    (hhi : x.toInt * y.toInt < k.bound) : (x * y).toInt = x.toInt * y.toInt := by
  rw [toInt_mul, bmod_of_bounds hlo hhi]

theorem bound_eq (k : Kind) : k.bound = ((2 ^ (k.width - 1) : Nat) : Int) := by
  unfold Kind.bound
  push_cast
  rfl

theorem toInt_eq_toNat (h : x.toNat < 2 ^ (k.width - 1)) : x.toInt = x.toNat := by
  have hcast := toNat_eq_toInt x
  have hbound := bound_eq k
  have hx := toInt_bounds x
  split at hcast <;> omega

theorem toNat_of_nonneg (h : 0 ≤ x.toInt) : (x.toNat : Int) = x.toInt ∧ x.toNat < 2 ^ (k.width - 1) := by
  have hcast := toNat_eq_toInt x
  have hbound := bound_eq k
  have hx := toInt_bounds x
  rw [if_neg (not_lt.mpr h)] at hcast
  omega

/-! ## Shifts -/

theorem shiftCount_intcon {i : Nat} (h : i < k.width) : k.shiftCount (intcon i) = i := by
  unfold Kind.shiftCount intcon
  cases k with
  | int =>
    have hmask : (31 : Nat) = 2 ^ 5 - 1 := rfl
    rw [toNat_and, toNat_ofNat, toNat_ofNat]
    show i % 2 ^ 32 &&& 31 = i
    rw [hmask, Nat.and_two_pow_sub_one_eq_mod]
    dsimp only [Kind.width] at h
    omega
  | long =>
    have hmask : (63 : Nat) = 2 ^ 6 - 1 := rfl
    rw [toNat_and, toNat_ofNat, toNat_ofNat]
    show i % 2 ^ 32 &&& 63 = i
    rw [hmask, Nat.and_two_pow_sub_one_eq_mod]
    dsimp only [Kind.width] at h
    omega

theorem toInt_sshiftRight {w : Nat} (x : BitVec w) (i : Nat) : (x.sshiftRight i).toInt = x.toInt / 2 ^ i := by
  rw [BitVec.toInt_sshiftRight, Int.shiftRight_eq_div_pow]
  push_cast
  rfl

/-- The sign as 0 or -1. -/
theorem toInt_sign (x : BitVec k.width) :
    (x.sshiftRight (k.width - 1)).toInt = if x.toInt < 0 then -1 else 0 := by
  have hx := toInt_bounds x
  rw [toInt_sshiftRight, show (2 : Int) ^ (k.width - 1) = k.bound from rfl]
  have hbound := k.bound_ge
  split
  next hneg =>
    rw [Int.ediv_eq_iff_of_pos (by omega)]
    omega
  next hneg => exact Int.ediv_eq_zero_of_lt (by omega) hx.2

theorem eval_rshift (input : (k : Kind) → Nat → BitVec k.width) (a : Node k) {i : Nat} (h : i < k.width) :
    (Node.rshift a (intcon i)).eval input = (a.eval input).sshiftRight i := by
  show (a.eval input).sshiftRight (k.shiftCount (intcon i)) = _
  rw [shiftCount_intcon h]

theorem eval_urshift (input : (k : Kind) → Nat → BitVec k.width) (a : Node k) {i : Nat} (h : i < k.width) :
    (Node.urshift a (intcon i)).eval input = a.eval input >>> i := by
  show a.eval input >>> k.shiftCount (intcon i) = _
  rw [shiftCount_intcon h]

/-! ## Powers of two -/

theorem isPowerOf2_iff {w : Nat} (hw : 0 < w) (x : BitVec w) : isPowerOf2 x = true ↔ ∃ l, x.toNat = 2 ^ l := by
  have hone : (1 : BitVec w).toNat = 1 := toNat_one hw
  unfold isPowerOf2
  rw [Bool.and_eq_true, decide_eq_true_eq, decide_eq_true_eq]
  have hand : x ≠ 0 → (x &&& (x - 1) = 0 ↔ x.toNat &&& (x.toNat - 1) = 0) := by
    intro hne
    have hpos : 1 ≤ x.toNat := by
      rw [Nat.one_le_iff_ne_zero]
      intro hzero
      exact hne (eq_of_toNat_eq hzero)
    rw [toNat_eq, toNat_and, toNat_sub_of_le (le_def.mpr (by rw [hone]; exact hpos)), hone]
    rfl
  constructor
  · rintro ⟨hne, hzero⟩
    have hnat : x.toNat ≠ 0 := fun h => hne (eq_of_toNat_eq h)
    have hzero' := (hand hne).mp hzero
    exact (Nat.and_sub_one_eq_zero_iff_isPowerOfTwo hnat).mp hzero'
  · rintro ⟨l, hl⟩
    have hnat : x.toNat ≠ 0 := by
      rw [hl]
      exact (Nat.two_pow_pos l).ne'
    have hne : x ≠ 0 := by
      rintro rfl
      exact hnat toNat_zero
    exact ⟨hne, (hand hne).mpr ((Nat.and_sub_one_eq_zero_iff_isPowerOfTwo hnat).mpr ⟨l, hl⟩)⟩

/-- The loop at the power `2^j`, which is at most twice `x`. -/
theorem log2Loop_eq {w : Nat} {x : BitVec w} (hx : x.toNat ≠ 0) {fuel j : Nat} (hj : j + fuel = w)
    (hbelow : 2 ^ j ≤ 2 * x.toNat) : log2Loop x fuel ((j : Int) - 1) (BitVec.twoPow w j) = Nat.log 2 x.toNat := by
  induction fuel generalizing j with
  | zero =>
    obtain rfl : j = w := by omega
    unfold log2Loop
    have hlt := x.isLt
    obtain ⟨i, rfl⟩ : ∃ i, j = i + 1 := by
      refine ⟨j - 1, ?_⟩
      have : j ≠ 0 := by
        rintro rfl
        omega
      omega
    have hlog : Nat.log 2 x.toNat = i := by
      rw [Nat.log_eq_iff (.inr ⟨one_lt_two, hx⟩)]
      rw [Nat.pow_succ] at hbelow
      exact ⟨by omega, hlt⟩
    rw [hlog]
    omega
  | succ fuel ih =>
    have hpow : (BitVec.twoPow w j).toNat = 2 ^ j := by
      rw [toNat_twoPow, Nat.mod_eq_of_lt (Nat.pow_lt_pow_right one_lt_two (by omega))]
    have hne : BitVec.twoPow w j ≠ 0 := by
      intro h
      rw [h] at hpow
      exact (Nat.two_pow_pos j).ne (hpow ▸ toNat_zero.symm)
    unfold log2Loop
    by_cases hle : 2 ^ j ≤ x.toNat
    · rw [if_pos ⟨hne, le_def.mpr (hpow ▸ hle)⟩]
      have hnext : BitVec.twoPow w j * 2 = BitVec.twoPow w (j + 1) := by
        apply eq_of_toNat_eq
        rw [toNat_mul, hpow, toNat_twoPow]
        show 2 ^ j * (2 % 2 ^ w) % 2 ^ w = _
        rw [Nat.mul_mod_mod, Nat.pow_succ]
      have hstep := ih (j := j + 1) (by omega) (by rw [Nat.pow_succ]; omega)
      rw [hnext, ← hstep]
      congr 1
      omega
    · rw [if_neg (by rintro ⟨-, h⟩; exact hle (hpow ▸ le_def.mp h))]
      have hj0 : j ≠ 0 := by
        rintro rfl
        rw [Nat.pow_zero] at hle
        omega
      obtain ⟨i, rfl⟩ : ∃ i, j = i + 1 := ⟨j - 1, by omega⟩
      have hlog : Nat.log 2 x.toNat = i := by
        rw [Nat.log_eq_iff (.inr ⟨one_lt_two, hx⟩)]
        rw [Nat.pow_succ] at hbelow
        exact ⟨by omega, by omega⟩
      rw [hlog]
      omega

theorem log2_eq {w : Nat} {x : BitVec w} (hx : x.toNat ≠ 0) : log2 x = Nat.log 2 x.toNat := by
  have hone : BitVec.twoPow w 0 = 1 := by
    apply eq_of_toNat_eq
    rw [toNat_twoPow]
    rfl
  have := log2Loop_eq hx (j := 0) (Nat.zero_add w) (by rw [Nat.pow_zero]; omega)
  rw [hone] at this
  exact this

variable {l : Nat} {d : BitVec k.width}

/-- The shift for a power of two. -/
theorem log2_sub_one (hl : 0 < l) (hd : d.toNat = 2 ^ l) : (log2 (d - 1) + 1).toNat = l := by
  have hone : (1 : BitVec k.width).toNat = 1 := toNat_one (by cases k <;> decide)
  obtain ⟨i, rfl⟩ : ∃ i, l = i + 1 := ⟨l - 1, by omega⟩
  have hpos := Nat.two_pow_pos i
  rw [Nat.pow_succ] at hd
  have hsub : (d - 1).toNat = d.toNat - 1 := by
    rw [toNat_sub_of_le (le_def.mpr (by omega)), hone]
  have hlog : Nat.log 2 (d - 1).toNat = i := by
    rw [Nat.log_eq_iff (.inr ⟨one_lt_two, by omega⟩), Nat.pow_succ]
    omega
  rw [log2_eq (by omega), hlog]
  omega

/-! ## Rounding -/

theorem ediv_add_eq_tdiv {x d : Int} (hd : 0 < d) (hx : x < 0) : (x + (d - 1)) / d = x.tdiv d := by
  obtain ⟨m, rfl⟩ : ∃ m, x = -m := ⟨-x, by omega⟩
  have hm : 0 ≤ m := by omega
  rw [Int.neg_tdiv, Int.tdiv_eq_ediv_of_nonneg hm, Int.ediv_eq_iff_of_pos hd]
  have hdiv := Int.mul_ediv_add_emod m d
  have hlo := Int.emod_nonneg m (by omega : d ≠ 0)
  have hhi := Int.emod_lt_of_pos m hd
  have hneg : -(m / d) * d = -(d * (m / d)) := by ring
  rw [hneg]
  omega

/-- The sign bits that are left after the second shift. -/
theorem toNat_round (x : BitVec k.width) (hl : l ≤ k.width) :
    ((x.sshiftRight (k.width - 1)) >>> (k.width - l)).toNat = if x.toInt < 0 then 2 ^ l - 1 else 0 := by
  have hsign := toInt_sign x
  have hcast := toNat_eq_toInt (x.sshiftRight (k.width - 1))
  have hwidth := k.cast_two_pow_width
  rw [toNat_ushiftRight, Nat.shiftRight_eq_div_pow]
  split
  next hneg =>
    rw [if_pos hneg] at hsign
    rw [hsign, if_pos (by omega)] at hcast
    have hall : (x.sshiftRight (k.width - 1)).toNat = 2 ^ k.width - 1 := by omega
    have hsplit : 2 ^ k.width = 2 ^ l * 2 ^ (k.width - l) := by rw [← Nat.pow_add, Nat.add_sub_cancel' hl]
    have hposl := Nat.two_pow_pos l
    have hposr := Nat.two_pow_pos (k.width - l)
    rw [hall, Nat.div_eq_iff hposr, hsplit, Nat.sub_mul, Nat.one_mul]
    have hle : 2 ^ (k.width - l) ≤ 2 ^ l * 2 ^ (k.width - l) := Nat.le_mul_of_pos_left _ hposl
    omega
  next hneg =>
    rw [if_neg hneg] at hsign
    rw [hsign, if_neg (by omega)] at hcast
    have hzero : (x.sshiftRight (k.width - 1)).toNat = 0 := by omega
    rw [hzero, Nat.zero_div]

/-- A mask of low bits is a remainder. -/
theorem toInt_and_low (x : BitVec k.width) {mask : BitVec k.width} (hmask : mask.toNat = 2 ^ l - 1)
    (hl : l < k.width) : (x &&& mask).toInt = x.toInt % 2 ^ l := by
  have hlow : (x &&& mask).toNat = x.toNat % 2 ^ l := by
    rw [toNat_and, hmask, Nat.and_two_pow_sub_one_eq_mod]
  have hsmall : (x &&& mask).toNat < 2 ^ (k.width - 1) := by
    rw [hlow]
    exact (Nat.mod_lt _ (Nat.two_pow_pos l)).trans_le (Nat.pow_le_pow_right (by omega) (by omega))
  rw [toInt_eq_toNat hsmall, hlow, Int.natCast_emod, toNat_eq_toInt]
  push_cast
  split
  · have hdvd : (2 : Int) ^ l ∣ 2 * k.bound := by
      rw [← k.cast_two_pow_width]
      exact_mod_cast pow_dvd_pow 2 hl.le
    rw [Int.add_emod, Int.emod_eq_zero_of_dvd hdvd, Int.add_zero, Int.emod_emod]
  · rfl

/-- Masking off the low bits rounds down to a multiple. -/
theorem toInt_and_neg (hd : d.toNat = 2 ^ l) (hl : l < k.width) :
    (x &&& -d).toInt = x.toInt / 2 ^ l * 2 ^ l := by
  have hone : (1#k.width).toNat = 1 := toNat_one (by cases k <;> decide)
  have hpos := Nat.two_pow_pos l
  have hsub : (d - 1#k.width).toNat = 2 ^ l - 1 := by
    rw [toNat_sub_of_le (le_def.mpr (by omega)), hone, hd]
  -- the mask is the complement of the low bits
  have hmask : -d = ~~~(d - 1#k.width) := by rw [neg_eq_not_add, not_sub_one_eq_not_add_one]
  have hsum : x = (x &&& -d) + (x &&& (d - 1#k.width)) := by
    rw [hmask, add_eq_or_of_and_eq_zero]
    · ext i hi
      simp only [getElem_or, getElem_and, getElem_not]
      cases x[i] <;> cases (d - 1#k.width)[i] <;> rfl
    · ext i hi
      simp only [getElem_and, getElem_not, getElem_zero]
      cases x[i] <;> cases (d - 1#k.width)[i] <;> rfl
  have hdiff : x &&& -d = x - (x &&& (d - 1#k.width)) := by
    rw [eq_comm, sub_eq_iff_eq_add]
    exact hsum
  have hlowInt := toInt_and_low x hsub hl
  have hdiv := Int.mul_ediv_add_emod x.toInt (2 ^ l)
  have hx := toInt_bounds x
  rw [hdiff, toInt_sub, hlowInt, Int.mul_comm]
  have heq : x.toInt - x.toInt % 2 ^ l = 2 ^ l * (x.toInt / 2 ^ l) := by omega
  rw [heq]
  refine bmod_of_bounds ?_ (by omega)
  -- the smallest word is a multiple too
  have hdvd : k.bound = 2 ^ l * 2 ^ (k.width - 1 - l) := by
    unfold Kind.bound
    rw [← pow_add, Nat.add_sub_cancel' (by omega)]
  have hquo : -(2 ^ (k.width - 1 - l)) ≤ x.toInt / 2 ^ l := by
    rw [Int.le_ediv_iff_mul_le (by positivity), Int.neg_mul, Int.mul_comm, ← hdvd]
    exact hx.1
  calc -k.bound = 2 ^ l * -(2 ^ (k.width - 1 - l)) := by rw [hdvd]; ring
    _ ≤ 2 ^ l * (x.toInt / 2 ^ l) := Int.mul_le_mul_of_nonneg_left hquo (by positivity)

/-! ## The graph -/

variable (ph : PhaseGVN)

/-- A dividend to which the divisor less one is added if it is negative. -/
theorem eval_rounded (n : Node k) (hl : 0 < l) (hlt : l < k.width - 1) :
    (ph.eval (.add n (.urshift (.rshift n (intcon (k.width - 1))) (intcon (k.width - l))))).toInt =
      (ph.eval n).toInt + (if (ph.eval n).toInt < 0 then 2 ^ l - 1 else 0) := by
  have heval : ph.eval (.add n (.urshift (.rshift n (intcon (k.width - 1))) (intcon (k.width - l)))) =
      ph.eval n + ((ph.eval n).sshiftRight (k.width - 1)) >>> (k.width - l) := by
    show _ + Node.eval ph.input (.urshift _ _) = _
    rw [eval_urshift _ _ (by omega), eval_rshift _ _ (by omega)]
    rfl
  have hround := toNat_round (ph.eval n) (by omega : l ≤ k.width)
  have hpos := Nat.two_pow_pos l
  have hsmall : 2 ^ l < 2 ^ (k.width - 1) := Nat.pow_lt_pow_right one_lt_two hlt
  have hbound := bound_eq k
  have hcast : ((2 ^ l : Nat) : Int) = 2 ^ l := by push_cast; rfl
  have hx := toInt_bounds (ph.eval n)
  have hroundInt := toInt_eq_toNat (x := ((ph.eval n).sshiftRight (k.width - 1)) >>> (k.width - l))
    (by rw [hround]; split <;> omega)
  rw [hround] at hroundInt
  rw [heval]
  split
  next hneg =>
    rw [if_pos hneg] at hroundInt
    rw [toInt_add_of_bounds (by omega) (by omega), hroundInt]
    omega
  next hneg =>
    rw [if_neg hneg] at hroundInt
    rw [toInt_add_of_bounds (by omega) (by omega), hroundInt]
    rfl

theorem shiftDivide_exact {noRounding : IntegerType k.width → Bool} (hround : ∀ t, noRounding t = true → 0 ≤ t.lo.toInt)
    (n : Node k) (hd : d.toNat = 2 ^ l) (hl : 0 < l) (hlt : l < k.width - 1) :
    (ph.eval (shiftDivide ph noRounding n d)).toInt = (ph.eval n).toInt.tdiv (2 ^ l) := by
  have hpow : (0 : Int) < 2 ^ l := by positivity
  have hrounded : (ph.eval (.add n (.urshift (.rshift n (intcon (k.width - 1)))
      (intcon (k.width - l))))).toInt / 2 ^ l = (ph.eval n).toInt.tdiv (2 ^ l) := by
    rw [eval_rounded ph n hl hlt]
    split
    next hneg => exact ediv_add_eq_tdiv hpow hneg
    next hneg => rw [Int.add_zero, Int.tdiv_eq_ediv_of_nonneg (by omega)]
  have hshift : ∀ a : Node k, (ph.eval (.rshift a (intcon l))).toInt = (ph.eval a).toInt / 2 ^ l := by
    intro a
    show (Node.eval ph.input _).toInt = _
    rw [eval_rshift _ _ (by omega), toInt_sshiftRight]
    rfl
  unfold shiftDivide
  dsimp only
  rw [log2_sub_one hl hd, hshift]
  split
  next hany =>
    obtain ⟨t, htype, ht⟩ := (Option.any_eq_true _ _).mp hany
    have hnonneg : 0 ≤ (ph.eval n).toInt := (hround t ht).trans (ph.sound n t htype).1
    rw [Int.tdiv_eq_ediv_of_nonneg hnonneg]
  next hany =>
    cases n with
    | and a b =>
      dsimp only
      split
      next hmask =>
        obtain ⟨t, htype, ht⟩ := (Option.any_eq_true _ _).mp hmask
        obtain ⟨hlo, hhi⟩ := of_decide_eq_true ht
        have hcon : ph.eval b = -d := by
          have hmem := ph.sound b t htype
          apply eq_of_toInt_eq
          exact le_antisymm (hhi ▸ hmem.2) (hlo ▸ hmem.1)
        have hand : ph.eval (.and a b) = ph.eval a &&& ph.eval b := rfl
        rw [hand, hcon, toInt_and_neg hd (by omega), Int.mul_tdiv_cancel _ hpow.ne']
      next hmask => exact hrounded
    | _ => exact hrounded

end Hotspot.DivNode
