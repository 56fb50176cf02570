-- SUMMARY: Ranges of machine integers: what each range function covers, and its order.
import Hotspot.Opto.IntegerNode

/-!
# Ranges

For each function on ranges, one lemma that says what it returns in terms of the
integers its ends stand for. Whether it covers the results of the operation, and
whether it respects the order of ranges, then follows by linear arithmetic.
-/

namespace Hotspot.Opto

open BitVec hiding and_comm and_self not_not not_or
open BitVec (intMin intMax)

variable {k : Kind}

/-! ## Machine integers -/

/-- Half the number of integers of a kind: they are the ones from `-k.bound` up to, but not
including, `k.bound`. -/
def Kind.bound (k : Kind) : Int := 2 ^ (k.width - 1)

theorem Kind.bound_ge (k : Kind) : 2147483648 ≤ k.bound := by
  cases k <;> decide

theorem Kind.cast_two_pow_width (k : Kind) : ((2 ^ k.width : Nat) : Int) = 2 * k.bound := by
  cases k <;> decide

theorem toInt_bounds (x : BitVec k.width) : -k.bound ≤ x.toInt ∧ x.toInt < k.bound :=
  ⟨le_toInt x, toInt_lt⟩

@[simp]
theorem toInt_intMin : (intMin k.width).toInt = -k.bound := by
  cases k <;> decide

@[simp]
theorem toInt_intMax : (intMax k.width).toInt = k.bound - 1 := by
  cases k <;> decide

theorem bmod_cases (k : Kind) (z : Int) (h : -(2 * k.bound) ≤ z) (h' : z < 2 * k.bound) :
    (-k.bound ≤ z ∧ z < k.bound ∧ z.bmod (2 ^ k.width) = z) ∨
    (k.bound ≤ z ∧ z.bmod (2 ^ k.width) = z - 2 * k.bound) ∨
    (z < -k.bound ∧ z.bmod (2 ^ k.width) = z + 2 * k.bound) := by
  cases k
  all_goals
    simp only [Kind.bound, Kind.width] at *
    rw [Int.bmod_def]
    split <;> omega

theorem toInt_add_cases (x y : BitVec k.width) :
    (-k.bound ≤ x.toInt + y.toInt ∧ x.toInt + y.toInt < k.bound ∧ (x + y).toInt = x.toInt + y.toInt) ∨
    (k.bound ≤ x.toInt + y.toInt ∧ (x + y).toInt = x.toInt + y.toInt - 2 * k.bound) ∨
    (x.toInt + y.toInt < -k.bound ∧ (x + y).toInt = x.toInt + y.toInt + 2 * k.bound) := by
  have hx := toInt_bounds x
  have hy := toInt_bounds y
  rw [toInt_add]
  exact bmod_cases k _ (by omega) (by omega)

theorem toInt_sub_cases (x y : BitVec k.width) :
    (-k.bound ≤ x.toInt - y.toInt ∧ x.toInt - y.toInt < k.bound ∧ (x - y).toInt = x.toInt - y.toInt) ∨
    (k.bound ≤ x.toInt - y.toInt ∧ (x - y).toInt = x.toInt - y.toInt - 2 * k.bound) ∨
    (x.toInt - y.toInt < -k.bound ∧ (x - y).toInt = x.toInt - y.toInt + 2 * k.bound) := by
  have hx := toInt_bounds x
  have hy := toInt_bounds y
  rw [toInt_sub]
  exact bmod_cases k _ (by omega) (by omega)

theorem slt_zero {w : Nat} (x : BitVec w) : x.slt 0 = decide (x.toInt < 0) := by
  rw [slt_eq_decide]
  simp

theorem slt_zero_eq_msb {w : Nat} (x : BitVec w) : x.slt 0 = x.msb := by
  rw [slt_zero, msb_eq_toInt]

theorem and_slt_zero {w : Nat} (x y : BitVec w) :
    (x &&& y).slt 0 = (decide (x.toInt < 0) && decide (y.toInt < 0)) := by
  rw [slt_zero_eq_msb, msb_and, msb_eq_toInt, msb_eq_toInt]

theorem not_or_slt_zero (x y : BitVec k.width) :
    (~~~(x ||| y)).slt 0 = (decide (0 ≤ x.toInt) && decide (0 ≤ y.toInt)) := by
  have hw : decide (0 < k.width) = true := by cases k <;> rfl
  rw [slt_zero_eq_msb, msb_not, msb_or, msb_eq_toInt, msb_eq_toInt, hw]
  rw [Bool.eq_iff_iff]
  simp only [Bool.true_and, Bool.not_eq_true', Bool.or_eq_false_iff, Bool.and_eq_true,
    decide_eq_true_eq, decide_eq_false_iff_not]
  omega

theorem xor_slt_zero {w : Nat} (x y : BitVec w) :
    (x ^^^ y).slt 0 = (decide (x.toInt < 0) != decide (y.toInt < 0)) := by
  rw [slt_zero_eq_msb, msb_xor, msb_eq_toInt, msb_eq_toInt]

theorem toNat_eq_toInt (x : BitVec k.width) :
    (x.toNat : Int) = if x.toInt < 0 then x.toInt + 2 * k.bound else x.toInt := by
  rw [toInt_eq_toNat_cond, ← k.cast_two_pow_width]
  split <;> split <;> omega

/-! ## Containment and order -/

namespace IntegerType

variable {w : Nat}

def Nonempty (r : IntegerType w) : Prop := r.lo.toInt ≤ r.hi.toInt

def Contains (r : IntegerType w) (x : BitVec w) : Prop :=
  r.lo.toInt ≤ x.toInt ∧ x.toInt ≤ r.hi.toInt

/-- The order of ranges: `s` covers `r` and has been widened at least as often. -/
structure Within (r s : IntegerType w) : Prop where
  lo : s.lo.toInt ≤ r.lo.toInt
  hi : r.hi.toInt ≤ s.hi.toInt
  widen : r.widen ≤ s.widen

theorem Within.refl (r : IntegerType w) : r.Within r := ⟨le_rfl, le_rfl, le_rfl⟩

variable {r s : IntegerType w}

theorem Within.nonempty (h : r.Within s) (hr : r.Nonempty) : s.Nonempty :=
  h.lo.trans (hr.trans h.hi)

theorem Within.widen2 {w' : Nat} {r' s' : IntegerType w'} (h : r.Within s)
    (h' : r'.Within s') : r.widen2 r' ≤ s.widen2 s' :=
  max_le_max h.widen h'.widen

theorem Contains.nonempty {x : BitVec w} (h : r.Contains x) : r.Nonempty :=
  h.1.trans h.2

theorem isCon_iff : r.isCon = true ↔ r.lo.toInt = r.hi.toInt := by
  unfold isCon
  rw [decide_eq_true_eq, toInt_inj]

/-- A constant has one value. -/
theorem Contains.eq_lo {x : BitVec w} (hx : r.Contains x) (h : r.isCon = true) : x = r.lo := by
  rw [isCon_iff] at h
  obtain ⟨hlo, hhi⟩ := hx
  exact eq_of_toInt_eq (by omega)

/-- A constant covers only itself. -/
theorem Within.isCon (h : r.Within s) (hr : r.Nonempty)
    (hs : s.isCon = true) : r.isCon = true ∧ r.lo = s.lo := by
  rw [isCon_iff] at hs ⊢
  obtain ⟨hlo, hhi, -⟩ := h
  unfold Nonempty at hr
  exact ⟨by omega, eq_of_toInt_eq (by omega)⟩

theorem contains_con (c : BitVec w) : (con c).Contains c := ⟨le_rfl, le_rfl⟩

theorem isCon_con (c : BitVec w) : (con c).isCon = true := decide_eq_true rfl

theorem Contains.eq_con {c x : BitVec w} (h : (con c).Contains x) : x = c := h.eq_lo (isCon_con c)

theorem Within.contains {x : BitVec w} (h : r.Within s) (hx : r.Contains x) : s.Contains x :=
  ⟨h.lo.trans hx.1, hx.2.trans h.hi⟩

/-- An element is a constant within the range, so that a monotone function is a sound one. -/
theorem con_within_iff {c : BitVec w} : (con c).Within r ↔ r.Contains c :=
  ⟨fun h => ⟨h.lo, h.hi⟩, fun h => ⟨h.1, h.2, Fin.zero_le _⟩⟩

/-- A rule for two ranges that gives smaller ranges for smaller ones. -/
def MonotoneRule {u v : Nat} (rule : IntegerType u → IntegerType v → IntegerType w) : Prop :=
  ∀ ⦃r0 r0' r1 r1'⦄, r0.Nonempty → r1.Nonempty → r0.Within r0' → r1.Within r1' →
    (rule r0 r1).Within (rule r0' r1')

/-- Such a rule is sound if it is sound for constants. -/
theorem MonotoneRule.contains {u v : Nat} {rule : IntegerType u → IntegerType v → IntegerType w}
    (h : MonotoneRule rule) {r0 : IntegerType u} {r1 : IntegerType v} {x : BitVec u} {y : BitVec v}
    {z : BitVec w} (hx : r0.Contains x) (hy : r1.Contains y)
    (hz : (rule (con x) (con y)).Contains z) : (rule r0 r1).Contains z :=
  (h le_rfl le_rfl (con_within_iff.mpr hx) (con_within_iff.mpr hy)).contains hz

theorem contains_full (x : BitVec k.width) : (full k.width).Contains x := by
  have := toInt_bounds x
  refine ⟨?_, ?_⟩
  · rw [full, toInt_intMin]
    omega
  · rw [full, toInt_intMax]
    omega

theorem eq_widenMax {u : Widen} (h : WidenMax ≤ u) : u = WidenMax := by
  revert u
  decide

theorem within_full (r : IntegerType k.width) : r.Within (full k.width) := by
  have hmax : ∀ u : Widen, u ≤ WidenMax := by decide
  have hlo := (contains_full r.lo).1
  have hhi := (contains_full r.hi).2
  exact ⟨hlo, hhi, hmax _⟩

/-- Nothing but the full range covers the full range. -/
theorem eq_full_of_within {r : IntegerType k.width} (h : (full k.width).Within r) :
    r = full k.width := by
  have hr := within_full r
  ext1
  · exact eq_of_toInt_eq (le_antisymm h.lo hr.lo)
  · exact eq_of_toInt_eq (le_antisymm hr.hi h.hi)
  · exact eq_widenMax h.widen

@[simp]
theorem make_lo (lo hi : BitVec w) (v : Widen) : (make lo hi v).lo = lo := rfl

@[simp]
theorem make_hi (lo hi : BitVec w) (v : Widen) : (make lo hi v).hi = hi := rfl

variable {lo hi : BitVec k.width}

theorem toNat_hi_sub_lo (h : lo.toInt ≤ hi.toInt) :
    ((hi - lo).toNat : Int) = hi.toInt - lo.toInt := by
  have hl := toInt_bounds lo
  have hh := toInt_bounds hi
  rw [toNat_eq_toInt]
  obtain h | h | h := toInt_sub_cases hi lo
  all_goals
    split <;> omega

theorem make_widen (h : lo.toInt ≤ hi.toInt) (v : Widen) : (make lo hi v).widen =
      if 2 * k.bound - 1 ≤ hi.toInt - lo.toInt then WidenMax
      else if hi.toInt - lo.toInt ≤ 3 then WidenMin else v := by
  have hsub := toNat_hi_sub_lo h
  have hpow := k.cast_two_pow_width
  have hsle : lo.sle hi = true := by simpa [sle_eq_decide] using h
  have hfull : (hi - lo).toNat ≥ 2 ^ k.width - 1 ↔ 2 * k.bound - 1 ≤ hi.toInt - lo.toInt := by
    omega
  have hsmall : (hi - lo).toNat ≤ 3 ↔ hi.toInt - lo.toInt ≤ 3 := by omega
  simp only [make, hsle, Bool.true_and, decide_eq_true_eq, hfull, hsmall]

theorem le_make_widen {v : Widen} (h : lo.toInt ≤ hi.toInt) (hbig : ¬ hi.toInt - lo.toInt ≤ 3) :
    v ≤ (make lo hi v).widen := by
  rw [make_widen h]
  split_ifs
  · exact Fin.le_last v
  · exact le_refl v

theorem make_within {lo' hi' : BitVec k.width} {v v' : Widen} (hlo : lo'.toInt ≤ lo.toInt)
    (h : lo.toInt ≤ hi.toInt) (hhi : hi.toInt ≤ hi'.toInt) (hv : v ≤ v') :
    (make lo hi v).Within (make lo' hi' v') := by
  refine ⟨hlo, hhi, ?_⟩
  have hmin : ∀ u : Widen, WidenMin ≤ u := by decide
  have hmax : ∀ u : Widen, u ≤ WidenMax := by decide
  have := k.bound_ge
  rw [make_widen h, make_widen (by omega)]
  split_ifs
  all_goals first
    | exact le_rfl
    | exact hmin _
    | exact hmax _
    | exact hv
    | omega

theorem make_self (c : BitVec k.width) (v : Widen) : make c c v = con c := by
  have := k.bound_ge
  ext1
  · rfl
  · rfl
  · rw [make_widen le_rfl, if_neg (by omega), if_pos (by omega)]
    rfl

theorem make_full (v : Widen) :
    make (intMin k.width) (intMax k.width) v = full k.width := by
  have := k.bound_ge
  ext1
  · rfl
  · rfl
  · rw [make_widen (by rw [toInt_intMin, toInt_intMax]; omega), toInt_intMin, toInt_intMax,
      if_pos (by omega)]
    rfl

/-- A constant lies within every range made around it. -/
theorem con_within_make {c : BitVec k.width} (v : Widen) (hlo : lo.toInt ≤ c.toInt)
    (hhi : c.toInt ≤ hi.toInt) : (con c).Within (make lo hi v) := by
  rw [← make_self c WidenMin]
  exact make_within hlo le_rfl hhi (Fin.zero_le _)

/-! ## Sums -/

section

variable {r0 r1 r0' r1' : IntegerType k.width} {x y : BitVec k.width}

theorem addRing_con (h0 : r0.isCon = true) (h1 : r1.isCon = true) :
    addRing r0 r1 = con (r0.lo + r1.lo) := by
  have hhi : r0.hi + r1.hi = r0.lo + r1.lo := by
    rw [of_decide_eq_true h0, of_decide_eq_true h1]
  unfold addRing
  rw [h0, h1, hhi]
  exact make_self _ _

/-- Without two constants the sum is everything exactly if one end overflows. -/
theorem addRing_eq (hr0 : r0.Nonempty) (hr1 : r1.Nonempty)
    (hcon : ¬ (r0.isCon = true ∧ r1.isCon = true)) : addRing r0 r1 =
      if -k.bound ≤ r0.lo.toInt + r1.lo.toInt ∧ r0.hi.toInt + r1.hi.toInt < k.bound then
        make (r0.lo + r1.lo) (r0.hi + r1.hi) (r0.widen2 r1) else full k.width := by
  have hl0 := toInt_bounds r0.lo
  have hl1 := toInt_bounds r1.lo
  have hh0 := toInt_bounds r0.hi
  have hh1 := toInt_bounds r1.hi
  unfold Nonempty at hr0 hr1
  unfold addRing
  rw [if_pos (by simpa only [← Bool.and_eq_true, ← Bool.not_eq_true', Bool.not_eq_true] using hcon)]
  simp only [and_slt_zero, not_or_slt_zero, make_full]
  simp only [slt_zero]
  simp only [slt_eq_decide, Bool.and_eq_true, Bool.not_eq_true', decide_eq_true_eq,
    decide_eq_false_iff_not]
  obtain hlo | hlo | hlo := toInt_add_cases r0.lo r1.lo
  all_goals
    obtain hhi | hhi | hhi := toInt_add_cases r0.hi r1.hi
    all_goals
      split_ifs
      all_goals first
        | rfl
        | omega

theorem addRing_within : MonotoneRule (@addRing k.width) := by
  intro r0 r0' r1 r1' hr0 hr1 h0 h1
  by_cases hcon' : r0'.isCon = true ∧ r1'.isCon = true
  · obtain ⟨hcon0, hlo0⟩ := h0.isCon hr0 hcon'.1
    obtain ⟨hcon1, hlo1⟩ := h1.isCon hr1 hcon'.2
    rw [addRing_con hcon'.1 hcon'.2, addRing_con hcon0 hcon1, hlo0, hlo1]
    exact .refl _
  · rw [addRing_eq (h0.nonempty hr0) (h1.nonempty hr1) hcon']
    split
    next hfit =>
      obtain ⟨hlo0, hhi0, -⟩ := id h0
      obtain ⟨hlo1, hhi1, -⟩ := id h1
      have hlo := toInt_add_cases r0.lo r1.lo
      have hhi := toInt_add_cases r0.hi r1.hi
      have hlo' := toInt_add_cases r0'.lo r1'.lo
      have hhi' := toInt_add_cases r0'.hi r1'.hi
      unfold Nonempty at hr0 hr1
      by_cases hcon : r0.isCon = true ∧ r1.isCon = true
      · rw [addRing_con hcon.1 hcon.2]
        exact con_within_make _ (by omega) (by omega)
      · rw [addRing_eq hr0 hr1 hcon, if_pos (by omega)]
        exact make_within (by omega) (by omega) (by omega) (h0.widen2 h1)
    · exact within_full _

theorem addRing_contains (hx : r0.Contains x) (hy : r1.Contains y) :
    (addRing r0 r1).Contains (x + y) := by
  refine addRing_within.contains hx hy ?_
  rw [addRing_con (isCon_con x) (isCon_con y)]
  exact contains_con _

/-! ## Constant folding -/

variable (f : BitVec k.width → BitVec k.width → BitVec k.width)

theorem foldRing_within : MonotoneRule (foldRing f) := by
  intro r0 r0' r1 r1' hr0 hr1 h0 h1
  by_cases hcon : r0'.isCon = true ∧ r1'.isCon = true
  · obtain ⟨hcon0, hlo0⟩ := h0.isCon hr0 hcon.1
    obtain ⟨hcon1, hlo1⟩ := h1.isCon hr1 hcon.2
    simp only [foldRing, hcon.1, hcon.2, hcon0, hcon1, hlo0, hlo1]
    exact .refl _
  · have hfull : foldRing f r0' r1' = full k.width := by
      unfold foldRing
      rw [if_pos]
      simp only [Bool.or_eq_true, Bool.not_eq_true']
      by_contra hboth
      simp only [not_or, Bool.not_eq_false] at hboth
      exact hcon hboth
    rw [hfull]
    exact within_full _

theorem foldRing_contains (hx : r0.Contains x) (hy : r1.Contains y) :
    (foldRing f r0 r1).Contains (f x y) := by
  refine (foldRing_within f).contains hx hy ?_
  simp only [foldRing, isCon_con]
  exact contains_con _

/-! ## Minimum and maximum -/

theorem maxRing_within : MonotoneRule (@maxRing k.width) := by
  intro r0 r0' r1 r1' hr0 hr1 h0 h1
  obtain ⟨hlo0, hhi0, -⟩ := id h0
  obtain ⟨hlo1, hhi1, -⟩ := id h1
  unfold Nonempty at hr0 hr1
  refine make_within ?_ ?_ ?_ (h0.widen2 h1)
  all_goals
    simp
    omega

theorem minRing_within : MonotoneRule (@minRing k.width) := by
  intro r0 r0' r1 r1' hr0 hr1 h0 h1
  obtain ⟨hlo0, hhi0, -⟩ := id h0
  obtain ⟨hlo1, hhi1, -⟩ := id h1
  unfold Nonempty at hr0 hr1
  refine make_within ?_ ?_ ?_ (h0.widen2 h1)
  all_goals
    simp
    omega

theorem maxRing_contains (hx : r0.Contains x) (hy : r1.Contains y) :
    (maxRing r0 r1).Contains (max2 x y) := maxRing_within.contains hx hy ⟨le_rfl, le_rfl⟩

theorem minRing_contains (hx : r0.Contains x) (hy : r1.Contains y) :
    (minRing r0 r1).Contains (min2 x y) := minRing_within.contains hx hy ⟨le_rfl, le_rfl⟩

/-! ## Differences -/

/-- The tests on signs fail exactly if one end overflows. -/
theorem sub_eq (hr0 : r0.Nonempty) (hr1 : r1.Nonempty) : sub r0 r1 =
      if -k.bound ≤ r0.lo.toInt - r1.hi.toInt ∧ r0.hi.toInt - r1.lo.toInt < k.bound then
        make (r0.lo - r1.hi) (r0.hi - r1.lo) (r0.widen2 r1) else full k.width := by
  have hl0 := toInt_bounds r0.lo
  have hl1 := toInt_bounds r1.lo
  have hh0 := toInt_bounds r0.hi
  have hh1 := toInt_bounds r1.hi
  have hlo := toInt_sub_cases r0.lo r1.hi
  have hhi := toInt_sub_cases r0.hi r1.lo
  unfold Nonempty at hr0 hr1
  refine if_congr ?_ rfl rfl
  simp only [xor_slt_zero, Bool.and_eq_true, Bool.or_eq_true, Bool.not_eq_true', bne_eq_false_iff_eq,
    decide_eq_decide]
  omega

theorem sub_within : MonotoneRule (@sub k.width) := by
  intro r0 r0' r1 r1' hr0 hr1 h0 h1
  rw [sub_eq (h0.nonempty hr0) (h1.nonempty hr1)]
  split
  next hfit =>
    obtain ⟨hlo0, hhi0, -⟩ := id h0
    obtain ⟨hlo1, hhi1, -⟩ := id h1
    have hlo := toInt_sub_cases r0.lo r1.hi
    have hhi := toInt_sub_cases r0.hi r1.lo
    have hlo' := toInt_sub_cases r0'.lo r1'.hi
    have hhi' := toInt_sub_cases r0'.hi r1'.lo
    unfold Nonempty at hr0 hr1
    rw [sub_eq hr0 hr1, if_pos (by omega)]
    exact make_within (by omega) (by omega) (by omega) (h0.widen2 h1)
  · exact within_full _

theorem sub_contains (hx : r0.Contains x) (hy : r1.Contains y) : (sub r0 r1).Contains (x - y) := by
  refine sub_within.contains hx hy ?_
  rw [sub_eq le_rfl le_rfl]
  split
  · exact ⟨le_rfl, le_rfl⟩
  · exact contains_full _

end

end IntegerType

/-! ## Products -/

theorem mul_between {a b x : Int} (hax : a ≤ x) (hxb : x ≤ b) (y : Int) :
    min (a * y) (b * y) ≤ x * y ∧ x * y ≤ max (a * y) (b * y) := by
  obtain hy | hy := le_total 0 y
  · exact ⟨(min_le_left _ _).trans (mul_le_mul_of_nonneg_right hax hy),
      (mul_le_mul_of_nonneg_right hxb hy).trans (le_max_right _ _)⟩
  · exact ⟨(min_le_right _ _).trans (mul_le_mul_of_nonpos_right hxb hy),
      (mul_le_mul_of_nonpos_right hax hy).trans (le_max_left _ _)⟩

/-- A product of two integers from intervals lies in the hull of the products of the ends. -/
theorem mul_corners {a b c d x y : Int} (hax : a ≤ x) (hxb : x ≤ b) (hcy : c ≤ y) (hyd : y ≤ d) :
    min (min (a * c) (a * d)) (min (b * c) (b * d)) ≤ x * y ∧
      x * y ≤ max (max (a * c) (a * d)) (max (b * c) (b * d)) := by
  have hx := mul_between hax hxb y
  have ha := mul_between hcy hyd a
  have hb := mul_between hcy hyd b
  rw [mul_comm c, mul_comm d, mul_comm y] at ha hb
  omega

theorem mulOverflows_eq_false {a b : JInt} : mulOverflows a b = false ↔
      -Kind.int.bound ≤ a.toInt * b.toInt ∧ a.toInt * b.toInt < Kind.int.bound := by
  unfold mulOverflows
  rw [decide_eq_false_iff_not, not_not]
  constructor
  · intro h
    rw [← h]
    exact toInt_bounds (k := .int) (a * b)
  · rintro ⟨hlo, hhi⟩
    rw [toInt_mul]
    exact Int.bmod_eq_of_le hlo hhi

namespace TypeInt

variable {r0 r1 r0' r1' : TypeInt} {x y : JInt}

/-- No product of two ends overflows. -/
def CornersFit (r0 r1 : TypeInt) : Prop :=
  mulOverflows r0.lo r1.lo = false ∧ mulOverflows r0.lo r1.hi = false ∧
    mulOverflows r0.hi r1.lo = false ∧ mulOverflows r0.hi r1.hi = false

theorem mulRing_of_not_fit (h : ¬ CornersFit r0 r1) : mulRing r0 r1 = .full 32 := by
  unfold mulRing
  dsimp only
  rcases Bool.eq_false_or_eq_true (mulOverflows r0.lo r1.lo) with hA | hA
  · rw [if_pos hA]
  rcases Bool.eq_false_or_eq_true (mulOverflows r0.lo r1.hi) with hB | hB
  · rw [if_pos hB, ite_self]
  rcases Bool.eq_false_or_eq_true (mulOverflows r0.hi r1.lo) with hC | hC
  · rw [if_pos hC, ite_self, ite_self]
  rcases Bool.eq_false_or_eq_true (mulOverflows r0.hi r1.hi) with hD | hD
  · rw [if_pos hD, ite_self, ite_self, ite_self]
  exact absurd ⟨hA, hB, hC, hD⟩ h

/-- The sorting of the four products finds their hull. -/
theorem mulRing_of_fit (h : CornersFit r0 r1) :
    ∃ lo hi : JInt, mulRing r0 r1 = .make lo hi (r0.widen2 r1) ∧
      lo.toInt = min (min (r0.lo.toInt * r1.lo.toInt) (r0.lo.toInt * r1.hi.toInt))
        (min (r0.hi.toInt * r1.lo.toInt) (r0.hi.toInt * r1.hi.toInt)) ∧
      hi.toInt = max (max (r0.lo.toInt * r1.lo.toInt) (r0.lo.toInt * r1.hi.toInt))
        (max (r0.hi.toInt * r1.lo.toInt) (r0.hi.toInt * r1.hi.toInt)) := by
  obtain ⟨hA, hB, hC, hD⟩ := h
  have exact_mul : ∀ a b : JInt, mulOverflows a b = false → (a * b).toInt = a.toInt * b.toInt := by
    intro a b hab
    simpa [mulOverflows] using hab
  unfold mulRing
  simp only [hA, hB, hC, hD, Bool.false_eq_true, if_false]
  rw [← exact_mul _ _ hA, ← exact_mul _ _ hB, ← exact_mul _ _ hC, ← exact_mul _ _ hD]
  simp only [slt_eq_decide, decide_eq_true_eq]
  generalize r0.lo * r1.lo = A
  generalize r0.lo * r1.hi = B
  generalize r0.hi * r1.lo = C
  generalize r0.hi * r1.hi = D
  split_ifs
  all_goals
    refine ⟨_, _, rfl, ?_, ?_⟩
    all_goals omega

/-- Every product of ends of the smaller ranges lies in the hull of the larger ones. -/
theorem mulRing_within : IntegerType.MonotoneRule mulRing := by
  intro r0 r0' r1 r1' hr0 hr1 h0 h1
  by_cases hfit' : CornersFit r0' r1'
  · obtain ⟨lo', hi', heq', hlo', hhi'⟩ := mulRing_of_fit hfit'
    have hlo0 : r0'.lo.toInt ≤ r0.lo.toInt ∧ r0.lo.toInt ≤ r0'.hi.toInt :=
      ⟨h0.lo, hr0.trans h0.hi⟩
    have hhi0 : r0'.lo.toInt ≤ r0.hi.toInt ∧ r0.hi.toInt ≤ r0'.hi.toInt :=
      ⟨h0.lo.trans hr0, h0.hi⟩
    have hlo1 : r1'.lo.toInt ≤ r1.lo.toInt ∧ r1.lo.toInt ≤ r1'.hi.toInt :=
      ⟨h1.lo, hr1.trans h1.hi⟩
    have hhi1 : r1'.lo.toInt ≤ r1.hi.toInt ∧ r1.hi.toInt ≤ r1'.hi.toInt :=
      ⟨h1.lo.trans hr1, h1.hi⟩
    have hA := mul_corners hlo0.1 hlo0.2 hlo1.1 hlo1.2
    have hB := mul_corners hlo0.1 hlo0.2 hhi1.1 hhi1.2
    have hC := mul_corners hhi0.1 hhi0.2 hlo1.1 hlo1.2
    have hD := mul_corners hhi0.1 hhi0.2 hhi1.1 hhi1.2
    have hb' : -Kind.int.bound ≤ lo'.toInt ∧ lo'.toInt < Kind.int.bound := toInt_bounds (k := .int) lo'
    have hb'' : -Kind.int.bound ≤ hi'.toInt ∧ hi'.toInt < Kind.int.bound := toInt_bounds (k := .int) hi'
    have hfit : CornersFit r0 r1 := by
      refine ⟨?_, ?_, ?_, ?_⟩
      all_goals
        rw [mulOverflows_eq_false]
        omega
    obtain ⟨lo, hi, heq, hlo, hhi⟩ := mulRing_of_fit hfit
    have hleft : lo'.toInt ≤ lo.toInt := by omega
    have hmid : lo.toInt ≤ hi.toInt := by omega
    have hright : hi.toInt ≤ hi'.toInt := by omega
    rw [heq, heq']
    exact IntegerType.make_within (k := .int) hleft hmid hright (h0.widen2 h1)
  · rw [mulRing_of_not_fit hfit']
    exact IntegerType.within_full (k := .int) _

theorem mulRing_contains (hx : r0.Contains x) (hy : r1.Contains y) :
    (mulRing r0 r1).Contains (x * y) := by
  refine mulRing_within.contains hx hy ?_
  by_cases hfit : CornersFit (.con x) (.con y)
  · obtain ⟨lo, hi, heq, hlo, hhi⟩ := mulRing_of_fit hfit
    have hmul : (x * y).toInt = x.toInt * y.toInt := by
      simpa [mulOverflows, IntegerType.con] using hfit.1
    simp only [IntegerType.con, min_self, max_self, ← hmul] at hlo hhi
    rw [heq]
    exact ⟨hlo.le, hhi.ge⟩
  · rw [mulRing_of_not_fit hfit]
    exact IntegerType.contains_full (k := .int) _

end TypeInt

/-! ## Masks -/

/-- Masking with a positive integer gives at most the mask. -/
theorem and_bounds (x : BitVec k.width) {c : BitVec k.width} (hc : 0 < c.toInt) :
    0 ≤ (x &&& c).toInt ∧ (x &&& c).toInt ≤ c.toInt := by
  have hmsb : (x &&& c).msb = false := by
    rw [msb_and, msb_eq_toInt, msb_eq_toInt, Bool.and_eq_false_iff]
    right
    simp only [decide_eq_false_iff_not]
    omega
  have hneg : ¬ (x &&& c).toInt < 0 := by
    rw [msb_eq_toInt, decide_eq_false_iff_not] at hmsb
    exact hmsb
  have hand := toNat_eq_toInt (x &&& c)
  have hcnat := toNat_eq_toInt c
  have hle : (x &&& c).toNat ≤ c.toNat := by
    exact Nat.and_le_right
  omega

namespace IntegerType

variable {r0 r1 r0' r1' other other' : IntegerType k.width} {x y : BitVec k.width}

theorem andRing_comm (other r0 r1 : IntegerType k.width) :
    andRing other r0 r1 = andRing other r1 r0 := by
  unfold andRing widen2
  rw [max_comm]
  cases h0 : r0.isCon <;> cases h1 : r1.isCon
  · rfl
  · rfl
  · rfl
  · simp [BitVec.and_comm]

theorem andRing_contains (hx : r0.Contains x) (hy : r1.Contains y)
    (hother : other.Contains (x &&& y)) : (andRing other r0 r1).Contains (x &&& y) := by
  unfold andRing
  split_ifs with hnone hboth h0 h1
  · exact contains_full _
  · rw [Bool.and_eq_true] at hboth
    rw [hx.eq_lo hboth.1, hy.eq_lo hboth.2]
    exact contains_con _
  · rw [Bool.and_eq_true, slt_eq_decide, decide_eq_true_eq, toInt_zero] at h0
    rw [hx.eq_lo h0.1, BitVec.and_comm]
    simpa [Contains] using and_bounds y h0.2
  · rw [Bool.and_eq_true, slt_eq_decide, decide_eq_true_eq, toInt_zero] at h1
    rw [hy.eq_lo h1.1]
    simpa [Contains] using and_bounds x h1.2
  · exact hother

/-- The order in the case that the larger range on the left is a constant and the one on the
right is not. -/
theorem andRing_within_of_con (hr0 : r0.Nonempty) (h0 : r0.Within r0') (h1 : r1.Within r1')
    (hcon0 : r0'.isCon = true) (hcon1 : r1'.isCon = false)
    (hfold : r1.isCon = true → (con (r0.lo &&& r1.lo)).Within other')
    (hother : r1.isCon = false → other.Within other') :
    (andRing other r0 r1).Within (andRing other' r0' r1') := by
  obtain ⟨hcon, hlo⟩ := h0.isCon hr0 hcon0
  unfold andRing
  simp only [hcon0, hcon1, hcon, hlo, Bool.not_true, Bool.not_false, Bool.false_and, Bool.and_false,
    Bool.true_and, Bool.false_eq_true, if_false]
  by_cases hpos : (0#k.width).slt r0'.lo = true
  · rw [if_pos hpos, if_pos hpos]
    rw [slt_eq_decide, decide_eq_true_eq, toInt_zero] at hpos
    cases hcon1' : r1.isCon with
    | true =>
      have hmask := and_bounds r1.lo hpos
      rw [BitVec.and_comm] at hmask
      exact con_within_make _ (by simpa using hmask.1) hmask.2
    | false =>
      refine make_within le_rfl ?_ le_rfl (h0.widen2 h1)
      simpa using hpos.le
  · rw [if_neg hpos, if_neg hpos]
    cases hcon1' : r1.isCon with
    | true =>
      have hwithin := hfold hcon1'
      rw [hlo] at hwithin
      exact hwithin
    | false => exact hother hcon1'

theorem andRing_within (hr0 : r0.Nonempty) (hr1 : r1.Nonempty) (h0 : r0.Within r0')
    (h1 : r1.Within r1')
    (hfold : r0.isCon = true → r1.isCon = true → (r0'.isCon = true ∨ r1'.isCon = true) →
      (con (r0.lo &&& r1.lo)).Within other')
    (hother0 : r0'.isCon = true → r1.isCon = false → other.Within other')
    (hother1 : r1'.isCon = true → r0.isCon = false → other.Within other') :
    (andRing other r0 r1).Within (andRing other' r0' r1') := by
  cases hcon0 : r0'.isCon with
  | true =>
    obtain ⟨hcon, hlo⟩ := h0.isCon hr0 hcon0
    cases hcon1 : r1'.isCon with
    | true =>
      obtain ⟨hcon', hlo'⟩ := h1.isCon hr1 hcon1
      simp only [andRing, hcon0, hcon1, hcon, hcon', hlo, hlo']
      exact .refl _
    | false =>
      exact andRing_within_of_con hr0 h0 h1 hcon0 hcon1
        (fun hcon' => hfold hcon hcon' (.inl hcon0)) (hother0 hcon0)
  | false =>
    cases hcon1 : r1'.isCon with
    | true =>
      obtain ⟨hcon', hlo'⟩ := h1.isCon hr1 hcon1
      rw [andRing_comm other, andRing_comm other']
      refine andRing_within_of_con hr1 h1 h0 hcon1 hcon0 ?_ (hother1 hcon1)
      intro hcon
      rw [BitVec.and_comm]
      exact hfold hcon hcon' (.inr hcon1)
    | false =>
      have hfull : andRing other' r0' r1' = full k.width := by
        simp [andRing, hcon0, hcon1]
      rw [hfull]
      exact within_full _

end IntegerType

/-! ## Shifts -/

theorem shiftCount_lt (k : Kind) (count : JInt) : k.shiftCount count < k.width := by
  unfold Kind.shiftCount
  refine lt_of_le_of_lt Nat.and_le_right ?_
  cases k <;> decide

theorem toInt_shiftLeft_eq_bmod (x : BitVec k.width) (s : Nat) :
    (x <<< s).toInt = (x.toInt * 2 ^ s).bmod (2 ^ k.width) := by
  rw [toInt_shiftLeft, x.toInt_eq_toNat_bmod, Int.bmod_mul_bmod, Nat.shiftLeft_eq]
  rfl

/-- The integer `x` shifted left by `s` is still one of its kind. -/
def ShiftFits (x : BitVec k.width) (s : Nat) : Prop :=
  -k.bound ≤ x.toInt * 2 ^ s ∧ x.toInt * 2 ^ s < k.bound

variable {x : BitVec k.width}

theorem toInt_shiftLeft_of_fits {s : Nat} (h : ShiftFits x s) :
    (x <<< s).toInt = x.toInt * 2 ^ s := by
  obtain ⟨hlo, hhi⟩ := h
  have := k.bound_ge
  rw [toInt_shiftLeft_eq_bmod]
  have := bmod_cases k (x.toInt * 2 ^ s) (by omega) (by omega)
  omega

/-- Shifting left and back again loses nothing exactly if the shifted integer fits. -/
theorem shiftLeft_sshiftRight_iff (x : BitVec k.width) {s : Nat} (hs : s < k.width) :
    (x <<< s).sshiftRight s = x ↔ ShiftFits x s := by
  have hpow : (0 : Int) < 2 ^ s := by positivity
  rw [← toInt_inj, toInt_sshiftRight, Int.shiftRight_eq_div_pow]
  constructor
  · intro h
    have hdvd : (2 : Int) ^ s ∣ (x <<< s).toInt := by
      have hmod : (x <<< s).toInt % 2 ^ k.width = x.toInt * 2 ^ s % 2 ^ k.width := by
        rw [toInt_shiftLeft_eq_bmod]
        exact_mod_cast Int.bmod_emod
      have hpowdvd : (2 : Int) ^ s ∣ 2 ^ k.width := pow_dvd_pow 2 hs.le
      apply Int.dvd_of_emod_eq_zero
      rw [← Int.emod_emod_of_dvd _ hpowdvd, hmod, Int.emod_emod_of_dvd _ hpowdvd]
      exact Int.mul_emod_left _ _
    have hmul : x.toInt * 2 ^ s = (x <<< s).toInt := by
      rw [← h]
      exact Int.ediv_mul_cancel hdvd
    unfold ShiftFits
    rw [hmul]
    exact toInt_bounds _
  · intro h
    rw [toInt_shiftLeft_of_fits h]
    exact Int.mul_ediv_cancel _ (ne_of_gt hpow)

/-- An integer between two that fit fits. -/
theorem ShiftFits.between {y z : BitVec k.width} {s : Nat} (hx : ShiftFits x s)
    (hz : ShiftFits z s) (hxy : x.toInt ≤ y.toInt) (hyz : y.toInt ≤ z.toInt) : ShiftFits y s := by
  have hpow : (0 : Int) ≤ 2 ^ s := by positivity
  exact ⟨hx.1.trans (mul_le_mul_of_nonneg_right hxy hpow),
    (mul_le_mul_of_nonneg_right hyz hpow).trans_lt hz.2⟩

theorem shiftLeft_mono {y : BitVec k.width} {s : Nat} (hx : ShiftFits x s) (hy : ShiftFits y s)
    (h : x.toInt ≤ y.toInt) : (x <<< s).toInt ≤ (y <<< s).toInt := by
  rw [toInt_shiftLeft_of_fits hx, toInt_shiftLeft_of_fits hy]
  exact mul_le_mul_of_nonneg_right h (by positivity)

section

variable {r1 r1' : IntegerType k.width} {r2 r2' : TypeInt} {x : BitVec k.width} {y : JInt}

open IntegerType LShiftNode

theorem lshiftRange_of_not_con (hcon : r2.isCon = false) : shiftRange k r1 r2 = full k.width := by
  simp [shiftRange, hcon]

theorem lshiftRange_zero (hcon : r2.isCon = true) (hzero : k.shiftCount r2.lo = 0) :
    shiftRange k r1 r2 = r1 := by
  simp [shiftRange, hcon, hzero]

theorem lshiftRange_con (hcon : r2.isCon = true) (hzero : k.shiftCount r2.lo ≠ 0)
    (hcon1 : r1.isCon = true) : shiftRange k r1 r2 = con (r1.lo <<< k.shiftCount r2.lo) := by
  simp [shiftRange, hcon, hzero, hcon1]

theorem lshiftRange_fits (hcon : r2.isCon = true) (hzero : k.shiftCount r2.lo ≠ 0)
    (hcon1 : r1.isCon = false) (hlo : ShiftFits r1.lo (k.shiftCount r2.lo))
    (hhi : ShiftFits r1.hi (k.shiftCount r2.lo)) : shiftRange k r1 r2 =
      make (r1.lo <<< k.shiftCount r2.lo) (r1.hi <<< k.shiftCount r2.lo) (r1.widen2 r2) := by
  rw [← shiftLeft_sshiftRight_iff _ (shiftCount_lt k _)] at hlo hhi
  simp [shiftRange, hcon, hzero, hcon1, hlo, hhi]

theorem lshiftRange_lossy (hcon : r2.isCon = true) (hzero : k.shiftCount r2.lo ≠ 0)
    (hcon1 : r1.isCon = false)
    (hlossy : ¬ (ShiftFits r1.lo (k.shiftCount r2.lo) ∧ ShiftFits r1.hi (k.shiftCount r2.lo))) :
    shiftRange k r1 r2 = full k.width := by
  rw [← shiftLeft_sshiftRight_iff _ (shiftCount_lt k _),
    ← shiftLeft_sshiftRight_iff _ (shiftCount_lt k _)] at hlossy
  simp [shiftRange, hcon, hzero, hcon1, hlossy]

theorem lshiftRange_within : MonotoneRule (shiftRange k) := by
  intro r1 r1' r2 r2' hr1 hr2 h1 h2
  cases hcon' : r2'.isCon with
  | false =>
    rw [lshiftRange_of_not_con hcon']
    exact within_full _
  | true =>
    obtain ⟨hcon, hcount⟩ := h2.isCon hr2 hcon'
    by_cases hzero' : k.shiftCount r2'.lo = 0
    · rw [lshiftRange_zero hcon' hzero', lshiftRange_zero hcon (by rw [hcount, hzero'])]
      exact h1
    have hzero : k.shiftCount r2.lo ≠ 0 := by rwa [hcount]
    cases hcon1' : r1'.isCon with
    | true =>
      obtain ⟨hcon1, hlo1⟩ := h1.isCon hr1 hcon1'
      rw [lshiftRange_con hcon' hzero' hcon1', lshiftRange_con hcon hzero hcon1, hlo1, hcount]
      exact .refl _
    | false =>
      by_cases hfits : ShiftFits r1'.lo (k.shiftCount r2'.lo) ∧ ShiftFits r1'.hi (k.shiftCount r2'.lo)
      · obtain ⟨hlo', hhi'⟩ := hfits
        have hlo := hlo'.between hhi' h1.lo (hr1.trans h1.hi)
        have hhi := hlo'.between hhi' (h1.lo.trans hr1) h1.hi
        rw [lshiftRange_fits hcon' hzero' hcon1' hlo' hhi']
        cases hcon1 : r1.isCon with
        | true =>
          rw [lshiftRange_con hcon hzero hcon1, hcount]
          exact con_within_make _ (shiftLeft_mono hlo' hlo h1.lo)
            (shiftLeft_mono hlo hhi' (hr1.trans h1.hi))
        | false =>
          rw [lshiftRange_fits hcon hzero hcon1 (by rwa [hcount]) (by rwa [hcount]), hcount]
          exact make_within (shiftLeft_mono hlo' hlo h1.lo) (shiftLeft_mono hlo hhi hr1)
            (shiftLeft_mono hhi hhi' h1.hi) (h1.widen2 h2)
      · rw [lshiftRange_lossy hcon' hzero' hcon1' hfits]
        exact within_full _

theorem lshiftRange_contains (hx : r1.Contains x) (hy : r2.Contains y) :
    (shiftRange k r1 r2).Contains (x <<< k.shiftCount y) := by
  refine lshiftRange_within.contains hx hy ?_
  by_cases hzero : k.shiftCount y = 0
  · rw [lshiftRange_zero (isCon_con y) hzero, hzero, shiftLeft_zero]
    exact contains_con x
  · rw [lshiftRange_con (isCon_con y) hzero (isCon_con x)]
    exact contains_con _

/-- What the ends of a right shift have to satisfy: they cover the shifted integers, and
larger ranges have ends further apart. -/
structure CoversShift (k : Kind) (shift : BitVec k.width → Nat → BitVec k.width)
    (ends : IntegerType k.width → Nat → BitVec k.width × BitVec k.width) : Prop where
  covers : ∀ (r : IntegerType k.width) (x : BitVec k.width) (s : Nat), 0 < s → s < k.width →
    r.Contains x → (ends r s).1.toInt ≤ (shift x s).toInt ∧ (shift x s).toInt ≤ (ends r s).2.toInt
  mono : ∀ (r r' : IntegerType k.width) (s : Nat), 0 < s → s < k.width → r.Nonempty → r.Within r' →
    (ends r' s).1.toInt ≤ (ends r s).1.toInt ∧ (ends r s).2.toInt ≤ (ends r' s).2.toInt
  zero : ∀ x, shift x 0 = x

variable {ends : IntegerType k.width → Nat → BitVec k.width × BitVec k.width}

theorem rshiftRange_of_not_con
    (hcon : r2.isCon = false) : RShiftNode.shiftRange k ends r1 r2 = full k.width := by
  simp [RShiftNode.shiftRange, hcon]

theorem rshiftRange_zero (hcon : r2.isCon = true) (hzero : k.shiftCount r2.lo = 0) :
    RShiftNode.shiftRange k ends r1 r2 = r1 := by
  simp [RShiftNode.shiftRange, hcon, hzero]

theorem rshiftRange_eq (hcon : r2.isCon = true) (hzero : k.shiftCount r2.lo ≠ 0) :
    RShiftNode.shiftRange k ends r1 r2 =
      make (ends r1 (k.shiftCount r2.lo)).1 (ends r1 (k.shiftCount r2.lo)).2 (r1.widen2 r2) := by
  simp [RShiftNode.shiftRange, hcon, hzero]

variable {shift : BitVec k.width → Nat → BitVec k.width}

theorem rshiftRange_within (h : CoversShift k shift ends) :
    MonotoneRule (RShiftNode.shiftRange k ends) := by
  intro r1 r1' r2 r2' hr1 hr2 h1 h2
  cases hcon' : r2'.isCon with
  | false =>
    rw [rshiftRange_of_not_con hcon']
    exact within_full _
  | true =>
    obtain ⟨hcon, hcount⟩ := h2.isCon hr2 hcon'
    by_cases hzero : k.shiftCount r2'.lo = 0
    · rw [rshiftRange_zero hcon' hzero, rshiftRange_zero hcon (by rw [hcount, hzero])]
      exact h1
    have hpos := Nat.pos_of_ne_zero hzero
    have hcover := h.covers r1 r1.lo _ hpos (shiftCount_lt k _) ⟨le_rfl, hr1⟩
    obtain ⟨hlo, hhi⟩ := h.mono r1 r1' _ hpos (shiftCount_lt k _) hr1 h1
    rw [rshiftRange_eq hcon' hzero, rshiftRange_eq hcon (by rwa [hcount]), hcount]
    exact make_within hlo (hcover.1.trans hcover.2) hhi (h1.widen2 h2)

theorem rshiftRange_contains (h : CoversShift k shift ends) (hx : r1.Contains x)
    (hy : r2.Contains y) :
    (RShiftNode.shiftRange k ends r1 r2).Contains (shift x (k.shiftCount y)) := by
  refine (rshiftRange_within h).contains hx hy ?_
  by_cases hzero : k.shiftCount y = 0
  · rw [rshiftRange_zero (isCon_con y) hzero, hzero, h.zero]
    exact contains_con x
  · rw [rshiftRange_eq (isCon_con y) hzero]
    exact h.covers _ x _ (Nat.pos_of_ne_zero hzero) (shiftCount_lt k _) (contains_con x)

theorem sshiftRight_mono {x y : BitVec k.width} (h : x.toInt ≤ y.toInt) (s : Nat) :
    (x.sshiftRight s).toInt ≤ (y.sshiftRight s).toInt := by
  rw [toInt_sshiftRight, toInt_sshiftRight, Int.shiftRight_eq_div_pow,
    Int.shiftRight_eq_div_pow]
  exact Int.ediv_le_ediv (by positivity) h

theorem coversShift_signed (k : Kind) : CoversShift k BitVec.sshiftRight signedShift where
  covers _ _ s _ _ hx := ⟨sshiftRight_mono hx.1 s, sshiftRight_mono hx.2 s⟩
  mono _ _ s _ _ _ h := ⟨sshiftRight_mono h.lo s, sshiftRight_mono h.hi s⟩
  zero _ := sshiftRight_zero

/-- A logical shift by at least one leaves a nonnegative integer. -/
theorem toInt_ushiftRight_of_pos (x : BitVec k.width) {s : Nat} (hs : 0 < s) :
    (x >>> s).toInt = (x.toNat / 2 ^ s : Nat) := by
  have hnat := toNat_eq_toInt (x >>> s)
  have hpow := k.cast_two_pow_width
  have hhalf : x.toNat / 2 ^ s ≤ x.toNat / 2 := Nat.div_le_div_left (Nat.le_self_pow (by omega) 2) (by omega)
  have hb := toInt_bounds (x >>> s)
  rw [toNat_ushiftRight, Nat.shiftRight_eq_div_pow] at hnat
  split at hnat <;> omega

theorem toNat_le_of_sign {x y : BitVec k.width} (h : x.toInt ≤ y.toInt)
    (hsign : 0 ≤ x.toInt ∨ y.toInt < 0) : x.toNat ≤ y.toNat := by
  have hx := toNat_eq_toInt x
  have hy := toNat_eq_toInt y
  split at hx <;> split at hy <;> omega

theorem ushiftRight_le {x y : BitVec k.width} {s : Nat} (hs : 0 < s) (h : x.toNat ≤ y.toNat) :
    (x >>> s).toInt ≤ (y >>> s).toInt := by
  rw [toInt_ushiftRight_of_pos x hs, toInt_ushiftRight_of_pos y hs]
  exact_mod_cast Nat.div_le_div_right h

theorem ushiftRight_nonneg (x : BitVec k.width) {s : Nat} (hs : 0 < s) : 0 ≤ (x >>> s).toInt := by
  rw [toInt_ushiftRight_of_pos x hs]
  positivity

theorem ushiftRight_le_allOnes (x : BitVec k.width) {s : Nat} (hs : 0 < s) :
    (x >>> s).toInt ≤ (BitVec.allOnes k.width >>> s).toInt := by
  refine ushiftRight_le hs ?_
  rw [toNat_allOnes]
  omega

/-- The ends of a logically shifted range. -/
theorem unsignedShift_eq (r : IntegerType k.width) {s : Nat} (hs : 0 < s) :
    ((unsignedShift r s).1.toInt =
      if 0 ≤ r.hi.toInt ∧ r.lo.toInt < 0 then 0 else (r.lo >>> s).toInt) ∧
    ((unsignedShift r s).2.toInt =
      if 0 ≤ r.hi.toInt ∧ r.lo.toInt < 0 then (BitVec.allOnes k.width >>> s).toInt
      else (r.hi >>> s).toInt) := by
  have hlo := ushiftRight_nonneg r.lo hs
  have hones := ushiftRight_le_allOnes r.hi hs
  have hsign : (!r.hi.slt 0 && r.lo.slt 0) = decide (0 ≤ r.hi.toInt ∧ r.lo.toInt < 0) := by
    rw [slt_zero, slt_zero, Bool.eq_iff_iff]
    simp only [Bool.and_eq_true, Bool.not_eq_true', decide_eq_false_iff_not, decide_eq_true_eq]
    omega
  simp only [unsignedShift, hsign, decide_eq_true_eq]
  split
  · simp only [toInt_min2, toInt_max2, zero_ushiftRight, toInt_zero]
    omega
  · exact ⟨rfl, rfl⟩

theorem coversShift_unsigned (k : Kind) : CoversShift k (· >>> ·) unsignedShift where
  covers r x s hs _ hx := by
    obtain ⟨hxlo, hxhi⟩ := hx
    obtain ⟨hfst, hsnd⟩ := unsignedShift_eq r hs
    rw [hfst, hsnd]
    split
    · exact ⟨ushiftRight_nonneg x hs, ushiftRight_le_allOnes x hs⟩
    next hsign =>
      exact ⟨ushiftRight_le hs (toNat_le_of_sign hxlo (by omega)),
        ushiftRight_le hs (toNat_le_of_sign hxhi (by omega))⟩
  mono r r' s hs _ hr h := by
    obtain ⟨hlo, hhi, -⟩ := h
    obtain ⟨hfst, hsnd⟩ := unsignedShift_eq r hs
    obtain ⟨hfst', hsnd'⟩ := unsignedShift_eq r' hs
    have hnonneg := ushiftRight_nonneg r.lo hs
    have hones := ushiftRight_le_allOnes r.hi hs
    unfold IntegerType.Nonempty at hr
    rw [hfst, hsnd, hfst', hsnd']
    split
    next hmixed => split <;> omega
    next hsign' =>
      rw [if_neg (by omega), if_neg (by omega)]
      exact ⟨ushiftRight_le hs (toNat_le_of_sign hlo (by omega)),
        ushiftRight_le hs (toNat_le_of_sign hhi (by omega))⟩
  zero x := by simp

end

/-! ## Quotients and remainders -/

@[simp]
theorem toInt_neg_one : (-1#k.width).toInt = -1 := by
  cases k <;> decide

theorem toInt_neg_of_ne (h : x ≠ intMin k.width) : (-x).toInt = -x.toInt := by
  have hx := toInt_bounds x
  have hmin : x.toInt ≠ -k.bound := by
    intro hxmin
    exact h (eq_of_toInt_eq (by rw [hxmin, toInt_intMin]))
  have := bmod_cases k (-x.toInt) (by omega) (by omega)
  rw [toInt_neg]
  omega

/-- The only quotient that overflows. -/
theorem intMin_sdiv_neg_one : (intMin k.width).sdiv (-1#k.width) = intMin k.width := by
  cases k <;> decide

/-- `max/2 + 1` is half of the smallest integer, with the other sign. -/
theorem toInt_half : ((intMax k.width).sdiv 2#k.width + 1#k.width).toInt = k.bound / 2 := by
  cases k <;> decide

theorem tdiv_le_tdiv_of_neg {a b d : Int} (hd : d < 0) (hab : a ≤ b) : b.tdiv d ≤ a.tdiv d := by
  have h := Int.tdiv_le_tdiv (a := a) (b := b) (c := -d) (by omega) hab
  rw [Int.tdiv_neg, Int.tdiv_neg] at h
  omega

namespace IntegerType

variable {i1 i2 i1' i2' : IntegerType k.width} {x y : BitVec k.width}

theorem div_pos_con (hcon : i2.isCon = true) (hd : 0 < i2.lo.toInt) :
    div i1 i2 = make (i1.lo.sdiv i2.lo) (i1.hi.sdiv i2.lo) (i1.widen2 i2) := by
  have hne : i2.lo ≠ 0#k.width := by
    intro h0
    rw [h0, toInt_zero] at hd
    omega
  have hslt : i2.lo.slt 0 = false := by
    rw [slt_zero, decide_eq_false_iff_not]
    omega
  simp only [div, hcon, hne, hslt, ne_eq, not_false_eq_true, decide_true, Bool.true_and, if_true,
    Bool.not_false]

theorem div_neg_con (hcon : i2.isCon = true) (hd : i2.lo.toInt < 0)
    (hmin : ¬ (i2.lo = -1#k.width ∧ i1.lo = intMin k.width)) :
    div i1 i2 = make (i1.hi.sdiv i2.lo) (i1.lo.sdiv i2.lo) (i1.widen2 i2) := by
  have hne : i2.lo ≠ 0#k.width := by
    intro h0
    rw [h0, toInt_zero] at hd
    omega
  have hslt : i2.lo.slt 0 = true := by
    rw [slt_zero, decide_eq_true_eq]
    omega
  simp only [div, hcon, hne, hslt, hmin, ne_eq, not_false_eq_true, decide_true, Bool.true_and,
    if_true, Bool.not_true, Bool.false_eq_true, if_false]

theorem div_min_con (hcon : i2.isCon = true) (hd : i2.lo = -1#k.width)
    (hmin : i1.lo = intMin k.width) : div i1 i2 = make (intMin k.width)
      (if i1.hi = intMin k.width then intMin k.width else intMax k.width)
      (i1.widen2 i2) := by
  have hne : -1#k.width ≠ 0#k.width := by cases k <;> decide
  have hslt : (-1#k.width).slt 0 = true := by cases k <;> decide
  simp only [div, hcon, hd, hmin, hne, hslt, ne_eq, not_false_eq_true, decide_true, Bool.true_and,
    if_true, Bool.not_true, Bool.false_eq_true, if_false, and_self]

/-- The ends of a quotient of a constant by a range. -/
theorem div_dividend_con (hcon : i1.isCon = true) (hdiv : ¬ (i2.isCon = true ∧ i2.lo ≠ 0#k.width)) :
    ∃ lo hi : BitVec k.width, div i1 i2 = make lo hi (i1.widen2 i2) ∧ lo.toInt = -|i1.lo.toInt| ∧
      hi.toInt = if i1.lo = intMin k.width then k.bound / 2 else |i1.lo.toInt| := by
  have hcond : (i2.isCon && decide (i2.lo ≠ 0#k.width)) = false := by
    rw [← Bool.not_eq_true, Bool.and_eq_true, decide_eq_true_eq]
    exact hdiv
  have hbound := k.bound_ge
  simp only [div, hcond, hcon, Bool.false_eq_true, if_false, if_true, slt_zero, decide_eq_true_eq]
  by_cases hmin : i1.lo = intMin k.width
  · refine ⟨_, _, by rw [hmin, toInt_intMin, if_pos (by omega), if_pos rfl], ?_, ?_⟩
    · rw [hmin, toInt_intMin, abs_of_nonpos (by omega)]
      omega
    · rw [if_pos hmin, toInt_half]
  · have hneg := toInt_neg_of_ne hmin
    simp only [hmin, if_false]
    by_cases hsign : i1.lo.toInt < 0
    · refine ⟨_, _, by rw [if_pos hsign], ?_, ?_⟩
      · rw [abs_of_neg hsign]
        omega
      · rw [abs_of_neg hsign, hneg]
    · refine ⟨_, _, by rw [if_neg hsign], ?_, ?_⟩
      · rw [abs_of_nonneg (by omega), hneg]
      · rw [abs_of_nonneg (by omega)]

theorem div_eq_full (hcon : i1.isCon = false) (hdiv : ¬ (i2.isCon = true ∧ i2.lo ≠ 0#k.width)) :
    div i1 i2 = full k.width := by
  have hcond : (i2.isCon && decide (i2.lo ≠ 0#k.width)) = false := by
    rw [← Bool.not_eq_true, Bool.and_eq_true, decide_eq_true_eq]
    exact hdiv
  simp only [div, hcond, hcon, Bool.false_eq_true, if_false]

theorem toInt_ne_zero (h : y ≠ 0#k.width) : y.toInt ≠ 0 := by
  intro h0
  exact h (eq_of_toInt_eq (by rw [h0, toInt_zero]))

/-- Two constants have a constant quotient. -/
theorem div_con (hcon1 : i1.isCon = true) (hcon2 : i2.isCon = true) (hne : i2.lo ≠ 0#k.width) :
    div i1 i2 = con (i1.lo.sdiv i2.lo) := by
  have hhi : i1.hi = i1.lo := (of_decide_eq_true hcon1).symm
  have h0 := toInt_ne_zero hne
  by_cases hpos : 0 < i2.lo.toInt
  · rw [div_pos_con hcon2 hpos, hhi, make_self]
  · by_cases hmin : i2.lo = -1#k.width ∧ i1.lo = intMin k.width
    · rw [div_min_con hcon2 hmin.1 hmin.2, hhi, if_pos hmin.2, hmin.1, hmin.2, intMin_sdiv_neg_one,
        make_self]
    · rw [div_neg_con hcon2 (by omega) hmin, hhi, make_self]

/-- The order of quotients by one and the same constant. -/
theorem div_within_of_con (hr1 : i1.Nonempty) (h1 : i1.Within i1') (h2 : i2.Within i2')
    (hcon : i2.isCon = true) (hcon' : i2'.isCon = true) (hlo2 : i2.lo = i2'.lo)
    (hne : i2'.lo ≠ 0#k.width) : (div i1 i2).Within (div i1' i2') := by
  have h0 := toInt_ne_zero hne
  have hwiden := h1.widen2 h2
  by_cases hpos : 0 < i2'.lo.toInt
  · have hne1 : i2'.lo ≠ -1#k.width := by
      intro h
      rw [h, toInt_neg_one] at hpos
      omega
    rw [div_pos_con hcon' hpos, div_pos_con hcon (by rwa [hlo2]), hlo2]
    refine make_within ?_ ?_ ?_ hwiden
    all_goals
      rw [toInt_sdiv_of_ne_or_ne _ _ (.inr hne1), toInt_sdiv_of_ne_or_ne _ _ (.inr hne1)]
    · exact Int.tdiv_le_tdiv hpos h1.lo
    · exact Int.tdiv_le_tdiv hpos hr1
    · exact Int.tdiv_le_tdiv hpos h1.hi
  · have hneg : i2'.lo.toInt < 0 := by omega
    by_cases hmin' : i2'.lo = -1#k.width ∧ i1'.lo = intMin k.width
    · rw [div_min_con hcon' hmin'.1 hmin'.2]
      split
      next hhi' =>
        have hcon1' : i1'.isCon = true := by
          unfold isCon
          rw [hmin'.2, hhi', decide_eq_true_eq]
        obtain ⟨hcon1, hlo1⟩ := h1.isCon hr1 hcon1'
        rw [div_con hcon1 hcon (by rwa [hlo2]), hlo1, hlo2, hmin'.1, hmin'.2, intMin_sdiv_neg_one,
          make_self]
        exact .refl _
      · rw [make_full]
        exact within_full _
    · have hsafe : ∀ z : BitVec k.width, i1'.lo.toInt ≤ z.toInt →
          z ≠ intMin k.width ∨ i2'.lo ≠ -1#k.width := by
        intro z hz
        by_contra hcontra
        simp only [not_or, not_not] at hcontra
        refine hmin' ⟨hcontra.2, eq_of_toInt_eq ?_⟩
        have := toInt_bounds i1'.lo
        rw [hcontra.1, toInt_intMin] at hz
        rw [toInt_intMin]
        omega
      have hlo := toInt_sdiv_of_ne_or_ne _ _ (hsafe i1.lo h1.lo)
      have hhi := toInt_sdiv_of_ne_or_ne _ _ (hsafe i1.hi (h1.lo.trans hr1))
      have hlo' := toInt_sdiv_of_ne_or_ne _ _ (hsafe i1'.lo le_rfl)
      have hhi' := toInt_sdiv_of_ne_or_ne _ _ (hsafe i1'.hi (h1.nonempty hr1))
      have hmin : ¬ (i2.lo = -1#k.width ∧ i1.lo = intMin k.width) := by
        rw [hlo2]
        rintro ⟨hd, hm⟩
        exact (hsafe i1.lo h1.lo).elim (fun h => h hm) (fun h => h hd)
      rw [div_neg_con hcon' hneg hmin', div_neg_con hcon (by rwa [hlo2]) hmin, hlo2]
      refine make_within ?_ ?_ ?_ hwiden
      · rw [hhi, hhi']
        exact tdiv_le_tdiv_of_neg hneg h1.hi
      · rw [hlo, hhi]
        exact tdiv_le_tdiv_of_neg hneg hr1
      · rw [hlo, hlo']
        exact tdiv_le_tdiv_of_neg hneg h1.lo

theorem div_contains (hx : i1.Contains x) (hy : i2.Contains y) (hne : y ≠ 0#k.width) :
    (div i1 i2).Contains (x.sdiv y) := by
  by_cases hdiv : i2.isCon = true ∧ i2.lo ≠ 0#k.width
  · have h := div_within_of_con le_rfl (con_within_iff.mpr hx) (con_within_iff.mpr hy) (isCon_con y) hdiv.1 (hy.eq_lo hdiv.1) hdiv.2
    rw [div_con (isCon_con x) (isCon_con y) hne] at h
    exact h.contains (contains_con _)
  cases hcon1 : i1.isCon with
  | false =>
    rw [div_eq_full hcon1 hdiv]
    exact contains_full _
  | true =>
    obtain ⟨lo, hi, heq, hlo, hhi⟩ := div_dividend_con hcon1 hdiv
    rw [heq, hx.eq_lo hcon1]
    have hy0 := toInt_ne_zero hne
    have hq := toInt_bounds (i1.lo.sdiv y)
    simp only [Contains, make_lo, make_hi]
    by_cases hmin : i1.lo = intMin k.width
    · have hval : i1.lo.toInt = -k.bound := by rw [hmin, toInt_intMin]
      rw [hlo, hhi, if_pos hmin, hval, abs_of_nonpos (by omega)]
      by_cases hone : y = -1#k.width
      · rw [hmin, hone, intMin_sdiv_neg_one, toInt_intMin]
        omega
      have hq' := toInt_sdiv_of_ne_or_ne i1.lo y (.inr hone)
      have hy1 : y.toInt ≠ -1 := by
        intro h
        exact hone (eq_of_toInt_eq (by rw [h, toInt_neg_one]))
      by_cases hy1' : y.toInt = 1
      · rw [hq', hy1', Int.tdiv_one, hval]
        omega
      · have habs : (i1.lo.toInt.tdiv y.toInt).natAbs ≤ i1.lo.toInt.natAbs / 2 := by
          rw [Int.natAbs_tdiv]
          exact Nat.div_le_div_left (by omega) (by omega)
        omega
    · have hq' := toInt_sdiv_of_ne_or_ne i1.lo y (.inl hmin)
      have habs := Int.natAbs_tdiv_le_natAbs i1.lo.toInt y.toInt
      rw [hlo, hhi, if_neg hmin, hq']
      rw [Int.abs_eq_natAbs]
      omega

theorem div_within : MonotoneRule (@div k.width) := by
  intro i1 i1' i2 i2' hr1 hr2 h1 h2
  by_cases hdiv' : i2'.isCon = true ∧ i2'.lo ≠ 0#k.width
  · obtain ⟨hcon, hlo⟩ := h2.isCon hr2 hdiv'.1
    exact div_within_of_con hr1 h1 h2 hcon hdiv'.1 hlo hdiv'.2
  cases hcon1' : i1'.isCon with
  | false =>
    rw [div_eq_full hcon1' hdiv']
    exact within_full _
  | true =>
    obtain ⟨hcon1, hlo1⟩ := h1.isCon hr1 hcon1'
    obtain ⟨lo', hi', heq', hlo', hhi'⟩ := div_dividend_con hcon1' hdiv'
    by_cases hdiv : i2.isCon = true ∧ i2.lo ≠ 0#k.width
    · -- the quotient of the constants is one the larger divisor allows
      have hmem : (div i1' i2').Contains (i1.lo.sdiv i2.lo) := by
        refine div_contains ⟨h1.lo, hr1.trans h1.hi⟩ ⟨h2.lo, hr2.trans h2.hi⟩ hdiv.2
      rw [heq'] at hmem ⊢
      rw [div_con hcon1 hdiv.1 hdiv.2]
      exact con_within_make _ hmem.1 hmem.2
    · obtain ⟨lo, hi, heq, hlo, hhi⟩ := div_dividend_con hcon1 hdiv
      rw [← hlo1] at hlo' hhi'
      rw [heq, heq']
      refine make_within (by omega) ?_ (by omega) (h1.widen2 h2)
      rw [hlo, hhi]
      have := k.bound_ge
      have := abs_nonneg i1.lo.toInt
      split <;> omega

theorem contains_pos (h : 0 ≤ x.toInt) : (pos k.width).Contains x := by
  have := toInt_bounds x
  refine ⟨?_, ?_⟩
  · simpa [pos] using h
  · rw [pos, toInt_intMax]
    omega

theorem con_within_pos (h : 0 ≤ x.toInt) : (con x).Within (pos k.width) :=
  ⟨(contains_pos h).1, (contains_pos h).2, le_rfl⟩

theorem mod_of_not_con (hcon : ¬ (i1.isCon = true ∧ i2.isCon = true)) :
    mod i1 i2 = if 0 ≤ i1.lo.toInt ∧ 0 ≤ i2.lo.toInt then pos k.width else full k.width := by
  have hcond : (!i1.isCon || !i2.isCon) = true := by
    rw [← Bool.not_and, Bool.not_eq_true', ← Bool.not_eq_true, Bool.and_eq_true]
    exact hcon
  simp only [mod, hcond, if_true, slt_zero, Bool.and_eq_true, Bool.not_eq_true',
    decide_eq_false_iff_not, Int.not_lt]

/-- The smallest integer has remainder zero by `-1`, as the exact remainder does. -/
theorem mod_con (hcon1 : i1.isCon = true) (hcon2 : i2.isCon = true) :
    mod i1 i2 = if i2.lo = 0#k.width then pos k.width else con (i1.lo.srem i2.lo) := by
  simp only [mod, hcon1, hcon2, Bool.not_true, Bool.or_self, Bool.false_eq_true, if_false]
  split
  · rfl
  · split
    next h =>
      congr 1
      apply eq_of_toInt_eq
      rw [toInt_srem, h.2, toInt_neg_one, Int.tmod_neg, Int.tmod_one, toInt_zero]
    · rfl

theorem mod_within : MonotoneRule (@mod k.width) := by
  intro i1 i1' i2 i2' hr1 hr2 h1 h2
  by_cases hcon' : i1'.isCon = true ∧ i2'.isCon = true
  · obtain ⟨hcon1, hlo1⟩ := h1.isCon hr1 hcon'.1
    obtain ⟨hcon2, hlo2⟩ := h2.isCon hr2 hcon'.2
    rw [mod_con hcon'.1 hcon'.2, mod_con hcon1 hcon2, hlo1, hlo2]
    exact .refl _
  · rw [mod_of_not_con hcon']
    split
    next hsign' =>
      by_cases hcon : i1.isCon = true ∧ i2.isCon = true
      · rw [mod_con hcon.1 hcon.2]
        split
        · exact .refl _
        · refine con_within_pos ?_
          rw [toInt_srem]
          exact Int.tmod_nonneg _ (hsign'.1.trans h1.lo)
      · rw [mod_of_not_con hcon, if_pos ⟨hsign'.1.trans h1.lo, hsign'.2.trans h2.lo⟩]
        exact .refl _
    · exact within_full _

theorem mod_contains (hx : i1.Contains x) (hy : i2.Contains y) (hne : y ≠ 0#k.width) :
    (mod i1 i2).Contains (x.srem y) := by
  refine mod_within.contains hx hy ?_
  rw [mod_con (isCon_con x) (isCon_con y)]
  exact if_neg hne ▸ contains_con _

end IntegerType

end Hotspot.Opto
