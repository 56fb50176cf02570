-- SUMMARY: The graphs for a division by a constant compute Java's quotient.
import Hotspot.Opto.MagicConstants
import Hotspot.Opto.ShiftDivision

/-!
# Exact division

The upper half of the product with the magic multiplier, shifted, is the quotient rounded down. A
multiplier above the largest signed word is stored as a negative number, and the dividend is added
back.
-/

namespace Hotspot.DivNode

open BitVec Opto MagicDivision

open Int

variable {k : Kind}

/-! ## The upper half of a product -/

section Product

variable {x m : BitVec k.width}

theorem two_bound_pos (k : Kind) : 0 < 2 * k.bound := by
  have := k.bound_ge
  omega

/-- A multiplier that is stored as a negative number. -/
theorem mul_ediv_add (x m : BitVec k.width) :
    x.toInt * m.toInt / (2 * k.bound) + (if m.toInt < 0 then x.toInt else 0) = m.toNat * x.toInt /
      (2 * k.bound) := by
  have hcast := toNat_eq_toInt m
  have hpos := two_bound_pos k
  split at hcast
  next hneg =>
    rw [if_pos hneg, hcast, ← add_mul_ediv_right _ _ hpos.ne']
    congr 1
    ring
  next hneg => rw [if_neg hneg, hcast, add_zero, mul_comm]

theorem toNat_mul_bounds (x m : BitVec k.width) :
    -k.bound ≤ m.toNat * x.toInt / (2 * k.bound) ∧
      (m.toNat * x.toInt / (2 * k.bound) : Int) < k.bound := by
  have hpos := two_bound_pos k
  have hx := toInt_bounds x
  have hm : (m.toNat : Int) < 2 * k.bound := by
    rw [← k.cast_two_pow_width]
    exact_mod_cast m.isLt
  constructor
  · rw [Int.le_ediv_iff_mul_le hpos]
    nlinarith
  · rw [Int.ediv_lt_iff_lt_mul hpos]
    nlinarith

theorem toInt_mul_bounds (x m : BitVec k.width) :
    -k.bound ≤ x.toInt * m.toInt / (2 * k.bound) ∧
      (x.toInt * m.toInt / (2 * k.bound) : Int) < k.bound := by
  have hpos := two_bound_pos k
  have hx := toInt_bounds x
  have hm := toInt_bounds m
  constructor
  · rw [Int.le_ediv_iff_mul_le hpos]
    nlinarith
  · rw [Int.ediv_lt_iff_lt_mul hpos]
    nlinarith

end Product

/-- The shifts of the product. -/
theorem ediv_shift {z : Int} {p w : Nat} (h : w ≤ p) : z / 2 ^ w / 2 ^ (p - w) = z / 2 ^ p := by
  rw [ediv_ediv_of_nonneg (by positivity), ← pow_add, Nat.add_sub_cancel' h]

/-! ## The sign -/

variable (ph phase : PhaseGVN) {dv : BitVec k.width}

/-- The last subtraction of a magic division adds one for a negative dividend, and negates. -/
theorem eval_signedSub {n mulHi : Node k} {p : Nat} (hd : 1 < dv.toInt.natAbs)
    (hlt : dv.toInt.natAbs ≤ 2 ^ (k.width - 1)) (he : Exact (k.width - 1) dv.toInt.natAbs p)
    (hmul : (ph.eval mulHi).toInt = multiplier dv.toInt.natAbs p * (ph.eval n).toInt / 2 ^ p) :
    ph.eval (signedSub ((0#k.width).sle dv) mulHi (.rshift n (intcon (k.width - 1)))) =
      (ph.eval n).sdiv dv := by
  have hx := toInt_bounds (ph.eval n)
  have hsign : (ph.eval (.rshift n (intcon (k.width - 1)))).toInt =
      if (ph.eval n).toInt < 0 then -1 else 0 := by
    show (Node.eval ph.input _).toInt = _
    rw [eval_rshift _ _ (by cases k <;> decide)]
    exact toInt_sign _
  have hquo := ediv_sub_eq_tdiv hd hlt he hx.1 hx.2
  rw [← hmul, ← hsign] at hquo
  apply eq_of_toInt_eq
  rw [toInt_sdiv]
  unfold signedSub
  by_cases hpos : (0#k.width).sle dv = true
  · rw [if_pos hpos]
    rw [sle_iff_toInt_le, toInt_zero] at hpos
    rw [natAbs_of_nonneg hpos] at hquo
    rw [← hquo]
    exact toInt_sub
  · rw [if_neg hpos]
    rw [sle_iff_toInt_le, toInt_zero] at hpos
    have hneg : dv.toInt = -(dv.toInt.natAbs : Int) := by omega
    rw [hneg, Int.tdiv_neg, ← hquo, Int.neg_sub]
    exact toInt_sub

/-! ## Ints -/

theorem toInt_setWidth_of_bounds {z : JLong} (hlo : -2 ^ 31 ≤ z.toInt) (hhi : z.toInt < 2 ^ 31) :
    (z.setWidth 32).toInt = z.toInt := by
  rw [toInt_setWidth]
  have hbmod : z.toInt.bmod (2 ^ 32) = z.toInt := bmod_of_bounds (k := .int) hlo hhi
  rw [toInt_eq_toNat_bmod z, bmod_bmod_of_dvd (by decide)] at hbmod
  rw [hbmod, ← toInt_eq_toNat_bmod]

/-- The product of two ints, as a long. -/
theorem toInt_product (x m : JInt) :
    (x.signExtend 64 * m.signExtend 64 : JLong).toInt = x.toInt * m.toInt := by
  have hx := toInt_bounds (k := .int) x
  have hm := toInt_bounds (k := .int) m
  have hbound : Kind.int.bound = 2147483648 := rfl
  have hlong : Kind.long.bound = 9223372036854775808 := rfl
  rw [hbound] at hx hm
  have hx64 : (x.signExtend 64).toInt = x.toInt := toInt_signExtend_of_le (by decide)
  have hm64 : (m.signExtend 64).toInt = m.toInt := toInt_signExtend_of_le (by decide)
  have hmul := toInt_mul_of_bounds (k := .long) (x := x.signExtend 64) (y := m.signExtend 64)
  rw [hx64, hm64, hlong] at hmul
  have hcorners := mul_corners hx.1 (le_of_lt hx.2) hm.1 (le_of_lt hm.2)
  exact hmul (by omega) (by omega)

theorem intMagicDivide_exact (n : Node .int) {dv mg : JInt} {p : Nat} (hd : 1 < dv.toInt.natAbs)
    (hlt : dv.toInt.natAbs ≤ 2 ^ 31) (he : Exact 31 dv.toInt.natAbs p)
    (hmagic : mg.toNat = multiplier dv.toInt.natAbs p) (hlow : 31 < p) (hhigh : p < 64) :
    ph.eval (intMagicDivide n ((0#32).sle dv) mg (p - 32)) = (ph.eval n).sdiv dv := by
  unfold intMagicDivide
  refine eval_signedSub ph (k := .int) hd hlt he ?_
  rw [← hmagic]
  generalize hx : ph.eval n = x
  have hproduct :
    ∀ i < 64, (ph.eval (.rshift (.mul (.convI2L n) (.con (mg.signExtend 64))) (intcon i))).toInt =
      x.toInt * mg.toInt / 2 ^ i := by
    intro i hi
    show (Node.eval ph.input _).toInt = _
    rw [eval_rshift (k := .long) _ _ hi, toInt_sshiftRight, ← toInt_product, ← hx]
    rfl
  have hwidth : 2 * Kind.int.bound = 2 ^ 32 := rfl
  have hadd := mul_ediv_add (k := .int) x mg
  have hsmall := toNat_mul_bounds (k := .int) x mg
  have hsmall' := toInt_mul_bounds (k := .int) x mg
  rw [hwidth] at hadd hsmall hsmall'
  rw [slt_zero]
  by_cases hneg : mg.toInt < 0
  · rw [if_pos (decide_eq_true hneg)]
    rw [if_pos hneg] at hadd
    have hhi :
      (ph.eval (.convL2I (.rshift (.mul (.convI2L n) (.con (mg.signExtend 64)))
      (intcon 32)))).toInt =
        x.toInt * mg.toInt / 2 ^ 32 := by
      rw [← hproduct 32 (by decide)] at hsmall' ⊢
      exact toInt_setWidth_of_bounds hsmall'.1 hsmall'.2
    have hsum : (ph.eval (.add n (.convL2I (.rshift (.mul (.convI2L n) (.con (mg.signExtend 64)))
        (intcon 32))))).toInt = mg.toNat * x.toInt / 2 ^ 32 := by
      rw [← hhi, add_comm, ← hx] at hadd
      rw [← hx, ← hadd] at hsmall ⊢
      exact toInt_add_of_bounds (k := .int) hsmall.1 hsmall.2
    split
    next hshift =>
      show (Node.eval ph.input _).toInt = _
      rw [eval_rshift (k := .int) _ _ (by dsimp only [Kind.width]; omega), toInt_sshiftRight]
      rw [show Node.eval ph.input (.add _ _) = ph.eval (.add _ _) from rfl, hsum, ediv_shift hlow]
    next hshift =>
      obtain rfl : p = 32 := by omega
      exact hsum
  · rw [if_neg (by rw [decide_eq_true_eq]; exact hneg)]
    have hshift := hproduct (32 + (p - 32)) (by omega)
    have hfits : -2 ^ 31 ≤ x.toInt * mg.toInt / 2 ^ p ∧ x.toInt * mg.toInt / 2 ^ p < 2 ^ 31 := by
      rw [← ediv_shift (w := 32) (by omega)]
      have hpow : (0 : Int) < 2 ^ (p - 32) := by positivity
      constructor
      · rw [Int.le_ediv_iff_mul_le hpow]
        nlinarith [hsmall'.1]
      · rw [Int.ediv_lt_iff_lt_mul hpow]
        nlinarith [hsmall'.2]
    rw [Nat.add_sub_cancel' hlow] at hshift ⊢
    have hcast := toNat_eq_toInt (k := .int) mg
    rw [if_neg hneg] at hcast
    rw [hcast, mul_comm, ← hshift]
    rw [← hshift] at hfits
    exact toInt_setWidth_of_bounds hfits.1 hfits.2

/-! ## The divisor -/

/-- Negating a quotient. -/
theorem eval_negated {n q : Node k} (hneg : ¬ (0#k.width).sle dv = true)
    (h : (ph.eval q).toInt = (ph.eval n).toInt.tdiv dv.toInt.natAbs) :
    ph.eval (.sub (.con 0#k.width) q) = (ph.eval n).sdiv dv := by
  apply eq_of_toInt_eq
  rw [toInt_sdiv]
  rw [sle_iff_toInt_le, toInt_zero] at hneg
  have hdivisor : dv.toInt = -(dv.toInt.natAbs : Int) := by omega
  rw [hdivisor, Int.tdiv_neg, ← h, ← zero_sub]
  have hzero : (ph.eval (.con 0#k.width)).toInt = 0 := toInt_zero
  rw [← hzero]
  exact toInt_sub

/-- The absolute value of a divisor, as the code computes it. -/
theorem abs_divisor (hmin : dv ≠ BitVec.intMin k.width) :
    (if (0#k.width).sle dv then dv else -dv).toNat = dv.toInt.natAbs ∧
      dv.toInt.natAbs < 2 ^ (k.width - 1) := by
  have hbound := bound_eq k
  have hd := toInt_bounds dv
  have hne : dv.toInt ≠ -k.bound := by
    intro h
    exact hmin (eq_of_toInt_eq (h.trans toInt_intMin.symm))
  split
  next hpos =>
    rw [sle_iff_toInt_le, toInt_zero] at hpos
    have := toNat_of_nonneg hpos
    omega
  next hneg =>
    rw [sle_iff_toInt_le, toInt_zero] at hneg
    have hcast := toNat_eq_toInt (-dv)
    have hval : (-dv).toInt = -dv.toInt := by
      rw [toInt_neg]
      exact bmod_of_bounds (by omega) (by omega)
    omega

variable {d : BitVec k.width}

/-- Division by a power of two of either sign. -/
theorem powerOf2_exact {noRounding : IntegerType k.width → Bool}
    (hround : ∀ t, noRounding t = true → 0 ≤ t.lo.toInt)
    (n : Node k) (habs : d.toNat = dv.toInt.natAbs)
    (hlt : d.toNat < 2 ^ (k.width - 1)) (hone : 1 < d.toNat) (hpower : isPowerOf2 d = true) :
    ph.eval (if (0#k.width).sle dv then shiftDivide ph noRounding n d
      else .sub (.con 0#k.width) (shiftDivide ph noRounding n d)) = (ph.eval n).sdiv dv := by
  obtain ⟨l, hl⟩ := (isPowerOf2_iff (by cases k <;> decide) d).mp hpower
  have hlpos : 0 < l := by
    rw [Nat.pos_iff_ne_zero]
    rintro rfl
    omega
  have hllt : l < k.width - 1 := by
    rw [hl] at hlt
    exact (Nat.pow_lt_pow_iff_right one_lt_two).mp hlt
  have hval := shiftDivide_exact ph hround n hl hlpos hllt
  have hpow : (2 : Int) ^ l = (dv.toInt.natAbs : Int) := by
    rw [← habs, hl]
    rfl
  rw [hpow] at hval
  split
  next hpos =>
    apply eq_of_toInt_eq
    rw [hval, toInt_sdiv_of_ne_or_ne]
    · rw [sle_iff_toInt_le, toInt_zero] at hpos
      rw [natAbs_of_nonneg hpos]
    · right
      rintro rfl
      cases k <;> exact absurd hpos (by decide)
  next hneg => exact eval_negated ph hneg hval

/-- The constants for the absolute value of a divisor. -/
theorem magicDivideConstants_abs (habs : d.toNat = dv.toInt.natAbs)
    (hlt : d.toNat < 2 ^ (k.width - 1)) (hone : 1 < d.toNat) :
    ∃ p mg, k.width ≤ p ∧ p < 2 * k.width - 1 ∧ Exact (k.width - 1) dv.toInt.natAbs p ∧
      mg.toNat = multiplier dv.toInt.natAbs p ∧
        magicDivideConstants k.width d = some (some (mg, p - k.width)) := by
  have hd := toInt_eq_toNat hlt
  have hnat : d.toInt.natAbs = d.toNat := by omega
  have hclog : Nat.clog 2 d.toNat ≤ k.width - 1 := Nat.clog_le_of_le_pow hlt.le
  have hnotNeg : d.slt 0 = false := by
    rw [slt_zero, decide_eq_false_iff_not]
    omega
  have hmin : d.toInt ≠ -2 ^ (k.width - 1) := by
    have := bound_eq k
    unfold Kind.bound at this
    omega
  have hspec : ∃ p, ∃ m :
    BitVec k.width, k.width - 1 < p ∧ p ≤ k.width - 1 + Nat.clog 2 d.toInt.natAbs ∧
      Exact (k.width - 1) d.toInt.natAbs p ∧ m.toNat = multiplier d.toInt.natAbs p ∧
        magicDivideConstants k.width d = some (some (if d.slt 0 then -m else m, p - k.width)) := by
    cases k with
    | int => exact magicDivideConstants_spec (n := 31) (by decide) (by omega) hmin
    | long => exact magicDivideConstants_spec (n := 63) (by decide) (by omega) hmin
  obtain ⟨p, mg, hlow, hhigh, he, hmagic, heq⟩ := hspec
  rw [hnat, habs] at he hmagic
  rw [hnat] at hhigh
  rw [hnotNeg] at heq
  exact ⟨p, mg, by omega, by omega, he, hmagic, heq⟩

/-- The branches of both transformations. `magicDivide` is what is returned for a divisor that is
not a power of two. -/
theorem divide_cases {noRounding : IntegerType k.width → Bool}
    (hround : ∀ t, noRounding t = true → 0 ≤ t.lo.toInt)
    (n : Node k) {magicDivide : Option (Node k)} (hzero : dv ≠ 0)
    (hmin : dv ≠ BitVec.intMin k.width) (hd : (if (0#k.width).sle dv then dv else -dv) = d)
    (hmagicDivide : ∀ {p : Nat} {mg : BitVec k.width},
      magicDivideConstants k.width d = some (some (mg, p - k.width)) → 1 < dv.toInt.natAbs →
      dv.toInt.natAbs ≤ 2 ^ (k.width - 1) → Exact (k.width - 1) dv.toInt.natAbs p →
      mg.toNat = multiplier dv.toInt.natAbs p → k.width ≤ p → p < 2 * k.width - 1 →
      ∃ q, magicDivide = some q ∧ ph.eval q = (ph.eval n).sdiv dv) :
    let result : Option (Node k) :=
      if d = 1 then if (0#k.width).sle dv then none else some (.sub (.con 0#k.width) n)
      else if isPowerOf2 d then
        some (if (0#k.width).sle dv then shiftDivide ph noRounding n d
          else .sub (.con 0#k.width) (shiftDivide ph noRounding n d))
      else magicDivide
    dv = 1 ∧ result = none ∨ ∃ q, result = some q ∧ ph.eval q = (ph.eval n).sdiv dv := by
  obtain ⟨habs, hlt⟩ := abs_divisor hmin
  rw [← habs] at hlt
  have hne : dv.toInt ≠ 0 := fun h => hzero (eq_of_toInt_eq (h.trans toInt_zero.symm))
  have hnatOne : (1 : BitVec k.width).toNat = 1 := by cases k <;> rfl
  rw [hd] at habs hlt
  by_cases hone : d = 1
  · rw [if_pos hone]
    subst hone
    rw [hnatOne] at habs
    by_cases hpos : (0#k.width).sle dv = true
    · rw [if_pos hpos] at hd ⊢
      exact .inl ⟨hd, rfl⟩
    · rw [if_neg hpos]
      refine .inr ⟨_, rfl, eval_negated ph hpos ?_⟩
      rw [← habs, Nat.cast_one, Int.tdiv_one]
  · rw [if_neg hone]
    right
    have hbig : 1 < d.toNat := by
      have : d.toNat ≠ 1 := fun h => hone (eq_of_toNat_eq (h.trans hnatOne.symm))
      omega
    split
    next hpower => exact ⟨_, rfl, powerOf2_exact ph hround n habs hlt hbig hpower⟩
    next hpower =>
      obtain ⟨p, mg, hlow, hhigh, he, hmagic, heq⟩ := magicDivideConstants_abs habs hlt hbig
      exact hmagicDivide heq (by omega) (by omega) he hmagic hlow hhigh

/-- The loop of the magic constants ends for every divisor. -/
theorem magicDivideConstants_isSome (hmin : dv ≠ BitVec.intMin k.width) :
    (magicDivideConstants k.width dv).isSome = true := by
  have hmin' : dv.toInt ≠ -2 ^ (k.width - 1) :=
    fun h => hmin (eq_of_toInt_eq (h.trans toInt_intMin.symm))
  rcases Nat.lt_or_ge dv.toInt.natAbs 2 with hsmall | hbig
  · obtain h | h | h : dv.toInt = 0 ∨ dv.toInt = 1 ∨ dv.toInt = -1 := by omega
    all_goals
      cases k
      all_goals
        rw [eq_of_toInt_eq (h.trans (toInt_ofInt_eq_self (by decide) (by decide) (by decide)).symm)]
        decide
  · cases k with
    | int =>
      obtain ⟨p, m, -, -, -, -, heq⟩ := magicDivideConstants_spec (n := 31) (by decide) hbig hmin'
      exact Option.isSome_of_eq_some heq
    | long =>
      obtain ⟨p, m, -, -, -, -, heq⟩ := magicDivideConstants_spec (n := 63) (by decide) hbig hmin'
      exact Option.isSome_of_eq_some heq

/-- What the branches give: a graph is exact, and only for the divisor 1 there is none. -/
theorem exact_of_cases {r : Option (Node k)} {x : BitVec k.width}
    (h : dv = 1 ∧ r = none ∨ ∃ q, r = some q ∧ ph.eval q = x.sdiv dv) :
    (∀ q, r = some q → ph.eval q = x.sdiv dv) ∧ (dv ≠ 1 → r.isSome = true) := by
  rcases h with ⟨hone, rfl⟩ | ⟨q, rfl, heval⟩
  · exact ⟨nofun, fun h => absurd hone h⟩
  · exact ⟨by rintro q' ⟨⟩; exact heval, fun _ => rfl⟩

/-! ## Int division -/

theorem transformIntDivide_cases (n : Node .int) {dv : JInt} (hzero : dv ≠ 0)
    (hmin : dv ≠ BitVec.intMin 32) : dv = 1 ∧ transformIntDivide ph n dv = none ∨
      ∃ q, transformIntDivide ph n dv = some q ∧ ph.eval q = (ph.eval n).sdiv dv := by
  have hround : ∀ t : IntegerType 32, (0#32).sle t.lo = true → 0 ≤ t.lo.toInt := by
    intro t ht
    rw [sle_iff_toInt_le, toInt_zero] at ht
    exact ht
  unfold transformIntDivide
  dsimp only
  generalize habs : (if (0#32).sle dv then dv else -dv) = d
  refine divide_cases ph (k := .int) hround n hzero hmin habs ?_
  intro p mg heq hd hlt he hmagic hlow hhigh
  dsimp only [Kind.width] at heq hhigh
  rw [heq]
  exact ⟨_, rfl, intMagicDivide_exact ph n hd hlt he hmagic hlow (by omega)⟩

/-- The multiply-high identity, for a divisor of either sign. -/
theorem magicDivideConstants_identity {dv : JInt} (habs : 2 ≤ dv.toInt.natAbs)
    (hmin : dv ≠ BitVec.intMin 32) :
    ∃ mg s, magicDivideConstants 32 dv = some (some (mg, s)) ∧ s < 32 ∧
      ∀ x : JInt, ((if dv.slt 0 then -mg else mg).toNat * x.toInt / 2 ^ (32 + s) -
        (if x.toInt < 0 then -1 else 0)) * dv.toInt.sign = x.toInt.tdiv dv.toInt := by
  have hlt := (abs_divisor (k := .int) hmin).2
  have hmin' : dv.toInt ≠ -2 ^ 31 := fun h => hmin (eq_of_toInt_eq h)
  obtain ⟨p, m, hlow, hhigh, he, hm, heq⟩ :=
    magicDivideConstants_spec (n := 31) (by decide) habs hmin'
  have hclog : Nat.clog 2 dv.toInt.natAbs ≤ 31 := Nat.clog_le_of_le_pow hlt.le
  refine ⟨_, _, heq, by omega, fun x => ?_⟩
  have hx := toInt_bounds (k := .int) x
  have hquo := ediv_sub_eq_tdiv habs hlt.le he hx.1 hx.2
  have hmul : (if dv.slt 0 then -(if dv.slt 0 then -m else m) else if dv.slt 0 then -m else m) =
      m := by
    split
    · exact neg_neg
    · rfl
  rw [hmul, hm, Nat.add_sub_cancel' hlow, hquo]
  rcases natAbs_eq dv.toInt with hpos | hneg
  · rw [sign_eq_one_of_pos (by omega), mul_one, ← hpos]
  · rw [sign_eq_neg_one_of_neg (by omega), mul_neg, mul_one, ← Int.tdiv_neg, ← hneg]

/-- `transform_int_divide` is exact, and `magic_int_divide_constants` ends for every divisor. -/
theorem transformIntDivide_exact (dividend : Node .int) {divisor : JInt} (hzero : divisor ≠ 0)
    (hmin : divisor ≠ BitVec.intMin 32) :
    (∀ q, transformIntDivide phase dividend divisor = some q →
      phase.eval q = (phase.eval dividend).sdiv divisor) ∧
      (divisor ≠ 1 → (transformIntDivide phase dividend divisor).isSome = true) ∧
      (magicDivideConstants 32 divisor).isSome = true ∧ (2 ≤ divisor.toInt.natAbs →
        ∃ magic s, magicDivideConstants 32 divisor = some (some (magic, s)) ∧ s < 32 ∧
          ∀ x : JInt, ((if divisor.slt 0 then -magic else magic).toNat * x.toInt / 2 ^ (32 + s) -
            (if x.toInt < 0 then -1 else 0)) * divisor.toInt.sign =
              x.toInt.tdiv divisor.toInt) := by
  obtain ⟨hgraph, hsome⟩ :=
    exact_of_cases phase (k := .int) (transformIntDivide_cases phase dividend hzero hmin)
  exact ⟨hgraph, hsome, magicDivideConstants_isSome (k := .int) hmin,
    fun habs => magicDivideConstants_identity habs hmin⟩

/-- A graph with nothing known about its nodes. -/
def PhaseGVN.unknown (input : (k : Kind) → Nat → BitVec k.width) : PhaseGVN :=
  ⟨input, fun _ => none, nofun⟩

theorem transformIntDivide_exact_seven :
    ∃ q, transformIntDivide (.unknown fun _ _ => 100) (.input 0) 7 = some q ∧
      (PhaseGVN.unknown fun _ _ => 100).eval q = 14 := by
  have hexact :=
    transformIntDivide_exact (.unknown fun _ _ => 100) (.input 0) (show (7 : JInt) ≠ 0 by decide)
    (by decide)
  obtain ⟨q, hq⟩ := Option.isSome_iff_exists.mp (hexact.2.1 (by decide))
  exact ⟨q, hq, hexact.1 q hq⟩

/-! ## Long division -/

/-- The four products of halves. -/
theorem mul_halves (a b : Int) :
    a * b = 2 ^ 64 * (a / 2 ^ 32 * (b / 2 ^ 32)) + 2 ^ 32 *
      (a / 2 ^ 32 * (b % 2 ^ 32) + a % 2 ^ 32 * (b / 2 ^ 32)) +
      a % 2 ^ 32 * (b % 2 ^ 32) := by
  have ha := mul_ediv_add_emod a (2 ^ 32)
  have hb := mul_ediv_add_emod b (2 ^ 32)
  calc a * b = (2 ^ 32 * (a / 2 ^ 32) + a % 2 ^ 32) *
    (2 ^ 32 * (b / 2 ^ 32) + b % 2 ^ 32) := by rw [ha, hb]
    _ = _ := by ring

/-- The upper half of a product from the halves of its factors. No sum overflows. -/
theorem toInt_mulhi {u1 u0 v1 v0 : JLong} {a b : Int} (hu1 : u1.toInt = a / 2 ^ 32)
    (hu0 : u0.toInt = a % 2 ^ 32)
    (hv1 : v1.toInt = b / 2 ^ 32) (hv0 : v0.toInt = b % 2 ^ 32) (ha : -2 ^ 63 ≤ a ∧ a < 2 ^ 63)
    (hb : -2 ^ 63 ≤ b ∧ b < 2 ^ 63) : ((u1 * v0 + (u0 * v0) >>> 32).sshiftRight 32 + u1 * v1 +
      (((u1 * v0 + (u0 * v0) >>> 32) &&& 0xFFFFFFFF#64) + u0 * v1).sshiftRight 32).toInt =
        a * b / 2 ^ 64 := by
  have hsplit := mul_halves a b
  have hu1b : -2147483648 ≤ a / 2 ^ 32 ∧ a / 2 ^ 32 ≤ 2147483647 := by omega
  have hv1b : -2147483648 ≤ b / 2 ^ 32 ∧ b / 2 ^ 32 ≤ 2147483647 := by omega
  have hu0b : 0 ≤ a % 2 ^ 32 ∧ a % 2 ^ 32 ≤ 4294967295 := by omega
  have hv0b : 0 ≤ b % 2 ^ 32 ∧ b % 2 ^ 32 ≤ 4294967295 := by omega
  generalize a / 2 ^ 32 = a1 at *
  generalize a % 2 ^ 32 = a0 at *
  generalize b / 2 ^ 32 = b1 at *
  generalize b % 2 ^ 32 = b0 at *
  have hb00 := mul_corners hu0b.1 hu0b.2 hv0b.1 hv0b.2
  have hb10 := mul_corners hu1b.1 hu1b.2 hv0b.1 hv0b.2
  have hb01 := mul_corners hu0b.1 hu0b.2 hv1b.1 hv1b.2
  have hb11 := mul_corners hu1b.1 hu1b.2 hv1b.1 hv1b.2
  -- the product of the lower halves is unsigned
  have hlolo : ((u0 * v0) >>> 32).toInt = a0 * b0 / 4294967296 := by
    have hu0' := (toNat_of_nonneg (k := .long) (x := u0) (by omega)).1
    have hv0' := (toNat_of_nonneg (k := .long) (x := v0) (by omega)).1
    have hprod : ((u0.toNat * v0.toNat : Nat) : Int) =
        a0 * b0 := by rw [Nat.cast_mul, hu0', hv0', hu0, hv0]
    rw [toInt_ushiftRight_of_lt (by decide), toNat_mul_of_lt (by omega), Nat.shiftRight_eq_div_pow,
      ← hprod]
    rfl
  have hmul : ∀ {u v : JLong} {i j : Int}, u.toInt = i → v.toInt = j →
    -9223372036854775808 ≤ i * j →
      i * j < 9223372036854775808 → (u * v).toInt = i * j := by
    rintro u v i j rfl rfl hlo hhi
    exact toInt_mul_of_bounds (k := .long) hlo hhi
  have hadd : ∀ {u v : JLong} {i j : Int}, u.toInt = i → v.toInt = j →
    -9223372036854775808 ≤ i + j →
      i + j < 9223372036854775808 → (u + v).toInt = i + j := by
    rintro u v i j rfl rfl hlo hhi
    exact toInt_add_of_bounds (k := .long) hlo hhi
  have ht2 := hadd (hmul hu1 hv0 (by omega) (by omega)) hlolo (by omega) (by omega)
  have ht3 := toInt_sshiftRight (u1 * v0 + (u0 * v0) >>> 32) 32
  have hmask : (0xFFFFFFFF#64).toNat = 2 ^ 32 - 1 := rfl
  have ht4 := toInt_and_low (k := .long) (u1 * v0 + (u0 * v0) >>> 32) hmask (by decide)
  have ht5 := hadd ht4 (hmul hu0 hv1 (by omega) (by omega)) (by omega) (by omega)
  have ht6 := toInt_sshiftRight (((u1 * v0 + (u0 * v0) >>> 32) &&& 0xFFFFFFFF#64) + u0 * v1) 32
  have ht7 := hadd ht3 (hmul hu1 hv1 (by omega) (by omega)) (by omega) (by omega)
  rw [hadd ht7 ht6 (by omega) (by omega), hsplit]
  omega

theorem longByLongMulhi_exact (hi : Bool) (n : Node .long) (mg : JLong) :
    (ph.eval (longByLongMulhi hi n mg)).toInt = (ph.eval n).toInt * mg.toInt / 2 ^ 64 := by
  generalize hx : ph.eval n = x
  cases hi with
  | true =>
    have hfits := toInt_mul_bounds (k := .long) x mg
    show (mulHigh (ph.eval n) mg).toInt = _
    unfold mulHigh
    rw [hx, toInt_ofInt]
    exact bmod_of_bounds (k := .long) hfits.1 hfits.2
  | false =>
    have hmask : (0xFFFFFFFF#64).toNat = 2 ^ 32 - 1 := rfl
    rw [← toInt_mulhi (toInt_sshiftRight x 32) (toInt_and_low (k := .long) x hmask (by decide))
      (toInt_sshiftRight mg 32) (toInt_and_low (k := .long) mg hmask (by decide))
        (toInt_bounds (k := .long) x)
      (toInt_bounds (k := .long) mg), ← hx]
    rfl

theorem longMagicDivide_exact (hi : Bool) (n : Node .long) {dv mg : JLong} {p : Nat}
    (hd : 1 < dv.toInt.natAbs) (hlt : dv.toInt.natAbs ≤ 2 ^ 63) (he : Exact 63 dv.toInt.natAbs p)
    (hmagic : mg.toNat = multiplier dv.toInt.natAbs p) (hlow : 63 < p) (hhigh : p < 128) :
    ph.eval (longMagicDivide hi n ((0#64).sle dv) mg (p - 64)) = (ph.eval n).sdiv dv := by
  unfold longMagicDivide
  refine eval_signedSub ph (k := .long) hd hlt he ?_
  rw [← hmagic]
  have hhi := longByLongMulhi_exact ph hi n mg
  generalize longByLongMulhi hi n mg = mulHi at hhi ⊢
  have hadd := mul_ediv_add (k := .long) (ph.eval n) mg
  have hsmall := toNat_mul_bounds (k := .long) (ph.eval n) mg
  rw [show 2 * Kind.long.bound = 2 ^ 64 from rfl] at hadd hsmall
  have hadjusted : (ph.eval (if mg.slt 0 then .add n mulHi else mulHi)).toInt =
      mg.toNat * (ph.eval n).toInt / 2 ^ 64 := by
    rw [slt_zero]
    by_cases hneg : mg.toInt < 0
    · rw [if_pos (decide_eq_true hneg)]
      rw [if_pos hneg, ← hhi, add_comm] at hadd
      rw [← hadd] at hsmall ⊢
      exact toInt_add_of_bounds (k := .long) hsmall.1 hsmall.2
    · rw [if_neg (by rw [decide_eq_true_eq]; exact hneg), hhi]
      rwa [if_neg hneg, add_zero] at hadd
  generalize (if mg.slt 0 then Node.add n mulHi else mulHi) = adjusted at hadjusted ⊢
  split
  next hshift =>
    show (Node.eval ph.input _).toInt = _
    rw [eval_rshift (k := .long) _ _ (by dsimp only [Kind.width]; omega), toInt_sshiftRight]
    rw [show Node.eval ph.input adjusted = ph.eval adjusted from rfl, hadjusted, ediv_shift hlow]
  next hshift =>
    obtain rfl : p = 64 := by omega
    exact hadjusted

theorem transformLongDivide_cases (hi : Bool) (n : Node .long) {dv : JLong} (hzero : dv ≠ 0)
    (hmin : dv ≠ BitVec.intMin 64) : dv = 1 ∧ transformLongDivide ph hi n dv = none ∨
      ∃ q, transformLongDivide ph hi n dv = some q ∧ ph.eval q = (ph.eval n).sdiv dv := by
  have hround : ∀ t : IntegerType 64, (0#64).slt t.lo = true → 0 ≤ t.lo.toInt := by
    intro t ht
    rw [slt_iff_toInt_lt, toInt_zero] at ht
    exact ht.le
  unfold transformLongDivide
  dsimp only
  generalize habs : (if (0#64).sle dv then dv else -dv) = d
  refine divide_cases ph (k := .long) hround n hzero hmin habs ?_
  intro p mg heq hd hlt he hmagic hlow hhigh
  dsimp only [Kind.width] at heq hhigh
  rw [heq]
  exact ⟨_, rfl, longMagicDivide_exact ph hi n hd hlt he hmagic hlow (by omega)⟩

/-- `transform_long_divide` is exact, `magic_long_divide_constants` ends for every divisor, and the
four products of `long_by_long_mulhi` give the upper half of the product of any two longs. -/
theorem transformLongDivide_exact (hasMulHiL : Bool) (dividend : Node .long) {divisor : JLong}
    (hzero : divisor ≠ 0)
    (hmin : divisor ≠ BitVec.intMin 64) :
    (∀ q, transformLongDivide phase hasMulHiL dividend divisor = some q →
        phase.eval q = (phase.eval dividend).sdiv divisor) ∧
      (divisor ≠ 1 → (transformLongDivide phase hasMulHiL dividend divisor).isSome = true) ∧
      (magicDivideConstants 64 divisor).isSome = true ∧
      ∀ magic : JLong, (phase.eval (longByLongMulhi hasMulHiL dividend magic)).toInt =
        (phase.eval dividend).toInt * magic.toInt / 2 ^ 64 := by
  obtain ⟨hgraph, hsome⟩ :=
    exact_of_cases phase (k := .long)
    (transformLongDivide_cases phase hasMulHiL dividend hzero hmin)
  exact ⟨hgraph, hsome, magicDivideConstants_isSome (k := .long) hmin,
    longByLongMulhi_exact phase hasMulHiL dividend⟩

theorem transformLongDivide_exact_negative :
    ∃ q, transformLongDivide (.unknown fun _ _ => -100) false (.input 0) (-7) = some q ∧
      (PhaseGVN.unknown fun _ _ => -100).eval q = 14 := by
  have hexact := transformLongDivide_exact (.unknown fun _ _ => -100) false (.input 0)
    (show (-7 : JLong) ≠ 0 by decide) (by decide)
  obtain ⟨q, hq⟩ := Option.isSome_iff_exists.mp (hexact.2.1 (by decide))
  exact ⟨q, hq, hexact.1 q hq⟩

end Hotspot.DivNode
