-- SUMMARY: The remainders by a constant: the graphs, and the ones that are exact.
import Hotspot.Opto.ExactDivision

/-!
# Remainders by constants

`ModINode::Ideal` and `ModLNode::Ideal` have a graph of their own for divisors of the form `2^k - 1`.
For the others they mask, or divide, multiply and subtract.
-/

namespace Hotspot.DivNode

open BitVec Opto

/-! ## The model -/

/-- What `in(0)` is when `Ideal` is called. -/
inductive Control where
  /-- there is no control input -/
  | none
  | live
  | top
  /-- `remove_dead_region` has changed the node -/
  | removed
  deriving DecidableEq, Repr

/-- Java's remainder, which has no value for the divisor 0. -/
def javaRem (x d : JLong) : Option JLong := if d = 0 then none else some (x.srem d)

/-- `unroll_factor` of longs. Past the table it is 1. -/
def unrollFactor : List Nat :=
  [999, 999, 61, 30, 20, 15, 12, 10, 8, 7, 6, 6, 5, 5, 4, 4, 4, 3, 3, 3, 3, 3, 2, 2, 2, 2, 2, 2, 2, 2, 2, 2, 1]

/-- `log2_long(con)` as a `uint`. -/
def shiftOf (con : JLong) : Nat := (BitVec.ofInt 32 (log2 con)).toNat

def tripCount (con : JLong) : Nat := unrollFactor.getD (shiftOf con) 1

/-- The divisor is expanded if it is one less than a power of two and there are few rounds. -/
def expands {w : Nat} (conditionalMoveLimit : Int) (trips : BitVec w → Nat) (con : BitVec w) : Bool :=
  (0#w).sle con && con.slt (BitVec.intMax w) && isPowerOf2 (con + 1) && trips con ≤ 5 && conditionalMoveLimit ≠ 0

def expandsFastMod (conditionalMoveLimit : Int) (con : JLong) : Bool := expands conditionalMoveLimit tripCount con

/-- `unroll_factor` of ints. -/
def unrollFactorInt : List Nat := [999, 999, 29, 14, 9, 7, 5, 4, 4, 3, 3, 2, 2, 2, 2, 2, 1]

/-- `exact_log2(con+1)` as a `uint`. -/
def shiftOfInt (con : JInt) : Nat := (BitVec.ofInt 32 (log2 (con + 1))).toNat

def tripCountInt (con : JInt) : Nat := unrollFactorInt.getD (shiftOfInt con) 1

section Kinds

variable {K : Kind}

/-- The rounds of the reduction. -/
def fastModRounds (k : Nat) (divisor : Node K) : Nat → Node K → Node K
  | 0, x => x
  | i + 1, x => fastModRounds k divisor i (.add (.rshift x (intcon k)) (.and x divisor))

/-- The reduction and the sign fix-up. -/
def fastModGraph (k trips : Nat) (dividend divisor : Node K) : Node K :=
  let x := fastModRounds k divisor trips dividend
  let hackRes : Node K := .cmoveGe dividend (.con 0) (.con 1) divisor
  .cmoveGe x hackRes x (.sub x divisor)

variable (phase : PhaseGVN)

/-- Mask, or divide, multiply and subtract. -/
def modByDivision (transformDivide : Node K → BitVec K.width → Option (Node K)) (dividend : Node K)
    (con : BitVec K.width) : Option (Node K) :=
  if con = 0 ∨ con = BitVec.intMin K.width then none
  else
    let posCon := if (0#K.width).sle con then con else -con
    if posCon = 1 then some (.con 0)
    else if isPowerOf2 posCon ∧ (phase.typeOf dividend).any (fun t => (0#K.width).sle t.lo) then
      some (.and dividend (.con (posCon - 1)))
    else
      (transformDivide dividend posCon).map fun divide =>
        let mult : Node K :=
          if isPowerOf2 posCon then .lshift divide (intcon (log2 posCon).toNat) else .mul divide (.con posCon)
        .sub dividend mult

/-- What both kinds of `Ideal` do. A node without control is returned if the divisor cannot be 0. -/
def modIdeal (isExpanded : BitVec K.width → Bool) (fast : BitVec K.width → Node K)
    (slow : BitVec K.width → Option (Node K)) (control : Control) (dividend divisor : Node K) :
    Option (Node K) :=
  if control = .removed then some (.mod dividend divisor)
  else if control = .top then none
  else
    match phase.typeOf divisor with
    | none => none
    | some tl =>
      if control = .live ∧ (tl.hi.slt 0 ∨ (0#K.width).slt tl.lo) then some (.mod dividend divisor)
      else if tl.lo ≠ tl.hi then none
      else if isExpanded tl.lo then some (fast tl.lo)
      else slow tl.lo

end Kinds

variable (phase : PhaseGVN)

def fastMod (con : JLong) (dividend divisor : Node .long) : Node .long :=
  fastModGraph (shiftOf con) (tripCount con) dividend divisor

/-- `ModLNode::Ideal` -/
def modLIdeal (conditionalMoveLimit : Int) (hasMulHiL : Bool) (control : Control) (dividend divisor : Node .long) :
    Option (Node .long) :=
  modIdeal phase (expandsFastMod conditionalMoveLimit) (fun con => fastMod con dividend divisor)
    (modByDivision phase (transformLongDivide phase hasMulHiL) dividend) control dividend divisor

def fastModInt (con : JInt) (dividend divisor : Node .int) : Node .int :=
  fastModGraph (shiftOfInt con) (tripCountInt con) dividend divisor

/-- `ModINode::Ideal` -/
def modIIdeal (conditionalMoveLimit : Int) (control : Control) (dividend divisor : Node .int) : Option (Node .int) :=
  modIdeal phase (expands conditionalMoveLimit tripCountInt) (fun con => fastModInt con dividend divisor)
    (modByDivision phase (transformIntDivide phase) dividend) control dividend divisor

/-! ## The exact graphs -/

section Exact

variable {K : Kind} {phase} {p : BitVec K.width}

/-- What is left of the dividend. -/
theorem sub_mul_eq_srem {x q con : BitVec K.width} (hq : q = x.sdiv p)
    (hcon : con.toInt = p.toInt ∨ con.toInt = -p.toInt) : x - q * p = x.srem con := by
  apply eq_of_toInt_eq
  have hrem : x.toInt.tmod con.toInt = x.toInt.tmod p.toInt := by
    rcases hcon with h | h
    · rw [h]
    · rw [h, Int.tmod_neg]
  have hsplit : x.toInt - x.toInt.tdiv p.toInt * p.toInt = x.toInt.tmod p.toInt := by
    have := Int.tmod_add_mul_tdiv x.toInt p.toInt
    rw [Int.mul_comm] at this
    omega
  have hbounds := toInt_bounds (x.srem p)
  rw [toInt_srem] at hbounds
  rw [toInt_srem, hrem, toInt_sub, toInt_mul, Int.sub_bmod_bmod, hq, toInt_sdiv]
  rw [← Int.sub_bmod_bmod, Int.bmod_mul_bmod, Int.sub_bmod_bmod, hsplit]
  exact bmod_of_bounds hbounds.1 hbounds.2

theorem width_pos (K : Kind) : 0 < K.width := by cases K <;> decide

theorem exponent_lt {w l : Nat} {p : BitVec w} (hl : p.toNat = 2 ^ l) : l < w := by
  have := p.isLt
  rw [hl] at this
  exact (Nat.pow_lt_pow_iff_right one_lt_two).mp this

theorem shiftLeft_log2 (q : BitVec K.width) (hpower : isPowerOf2 p = true) :
    q <<< K.shiftCount (intcon (log2 p).toNat) = q * p := by
  obtain ⟨l, hl⟩ := (isPowerOf2_iff (width_pos K) p).mp hpower
  have hlt := exponent_lt hl
  have hlog : (log2 p).toNat = l := by
    rw [log2_eq (by rw [hl]; exact (Nat.two_pow_pos l).ne'), hl, Nat.log_pow one_lt_two]
    rfl
  have hpow : p = BitVec.twoPow K.width l := by
    apply eq_of_toNat_eq
    rw [hl, toNat_twoPow, Nat.mod_eq_of_lt (Nat.pow_lt_pow_right one_lt_two hlt)]
  rw [hlog, shiftCount_intcon hlt, shiftLeft_eq_mul_twoPow, hpow]

/-- A mask of a dividend that is not negative. -/
theorem and_sub_one_eq_srem {x : BitVec K.width} (hx : 0 ≤ x.toInt) (hlt : p.toNat < 2 ^ (K.width - 1))
    (hpower : isPowerOf2 p = true) : x &&& (p - 1) = x.srem p := by
  obtain ⟨l, hl⟩ := (isPowerOf2_iff (width_pos K) p).mp hpower
  have hone : (1 : BitVec K.width).toNat = 1 := by cases K <;> rfl
  have hlow : (p - 1).toNat = 2 ^ l - 1 := by
    have := Nat.two_pow_pos l
    rw [toNat_sub_of_le (le_def.mpr (by omega)), hone, hl]
  apply eq_of_toInt_eq
  rw [toInt_srem, Int.tmod_eq_emod_of_nonneg hx, toInt_eq_toNat hlt, hl]
  push_cast
  exact toInt_and_low x hlow (exponent_lt hl)

theorem modByDivision_exact {transformDivide : Node K → BitVec K.width → Option (Node K)}
    (hdivide : ∀ (n : Node K) {d : BitVec K.width}, d ≠ 0 → d ≠ BitVec.intMin K.width →
      d = 1 ∧ transformDivide n d = none ∨
        ∃ q, transformDivide n d = some q ∧ phase.eval q = (phase.eval n).sdiv d)
    {n q : Node K} {con : BitVec K.width} (h : modByDivision phase transformDivide n con = some q) :
    con ≠ 0 ∧ phase.eval q = (phase.eval n).srem con := by
  unfold modByDivision at h
  split at h
  · cases h
  next hcon =>
    obtain ⟨hzero, hmin⟩ := not_or.mp hcon
    refine ⟨hzero, ?_⟩
    obtain ⟨habs, hlt⟩ := abs_divisor hmin
    rw [← habs] at hlt
    dsimp only at h
    have hpos := toInt_eq_toNat hlt
    have hsign : con.toInt = (if (0#K.width).sle con then con else -con).toInt ∨
        con.toInt = -(if (0#K.width).sle con then con else -con).toInt := by omega
    generalize (if (0#K.width).sle con then con else -con) = posCon at *
    have hrem : (phase.eval n).srem con = (phase.eval n).srem posCon := by
      apply eq_of_toInt_eq
      rw [toInt_srem, toInt_srem]
      rcases hsign with hs | hs
      · rw [hs]
      · rw [hs, Int.tmod_neg]
    have hne : posCon ≠ 0 := by
      rintro rfl
      have hz : (0 : BitVec K.width).toInt = 0 := toInt_zero
      exact hzero (eq_of_toInt_eq (by omega))
    split at h
    next hone =>
      cases h
      subst hone
      rw [hrem]
      apply eq_of_toInt_eq
      rw [toInt_srem, show (1 : BitVec K.width).toInt = 1 by cases K <;> rfl, Int.tmod_one]
      exact toInt_zero
    next hone =>
      split at h
      next hmask =>
        cases h
        obtain ⟨t, htype, ht⟩ := (Option.any_eq_true _ _).mp hmask.2
        rw [sle_iff_toInt_le, toInt_zero] at ht
        rw [hrem]
        exact and_sub_one_eq_srem (ht.trans (phase.sound n t htype).1) hlt hmask.1
      next hmask =>
        have hposMin : posCon ≠ BitVec.intMin K.width := by
          rintro rfl
          cases K <;> exact absurd hlt (by decide)
        rcases hdivide n hne hposMin with ⟨h1, -⟩ | ⟨divide, heq, heval⟩
        · exact absurd h1 hone
        rw [heq, Option.map_some] at h
        cases h
        rw [← sub_mul_eq_srem heval hsign]
        show phase.eval n - phase.eval _ = _
        congr 1
        split
        next hpower => exact shiftLeft_log2 (phase.eval divide) hpower
        next hpower => rfl

end Exact

end Hotspot.DivNode
