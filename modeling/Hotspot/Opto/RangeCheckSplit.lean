-- SUMMARY: When range check elimination is sound: constraints, limits and runs.
import Hotspot.Opto.CountedLoopRuns
import Hotspot.Opto.RangeCheckElimination

/-!
# Soundness of range check elimination

The limits are right as long as the words that they are computed from are the numbers that the
algebra beside the code speaks of. Under that condition each constraint holds for the counters
between the two limits, the pre-loop is not lengthened unless its first iteration leaves the
loop, and the main loop never runs past the limit of the original loop.
-/

namespace Hotspot.Opto

open List BoolTest TripCounter SplitLimits

variable {x y : JInt}

theorem toInt_sub_of_isInt (h : IsInt (x.toInt - y.toInt)) : (x - y).toInt = x.toInt - y.toInt :=
  toInt_sub_of_mem h.1 h.2

theorem toInt_add_of_isInt (h : IsInt (x.toInt + y.toInt)) : (x + y).toInt = x.toInt + y.toInt :=
  toInt_add_of_mem h.1 h.2

theorem toInt_neg_of_isInt (h : IsInt (-x.toInt)) : (-x).toInt = -x.toInt := by
  obtain ⟨hlo, hhi⟩ := h
  rw [BitVec.toInt_neg]
  apply Int.bmod_eq_of_le <;> omega

/-! ## The match -/

/-- The match keeps the meaning of the test. -/
theorem LoopExit.passes_of_match {e : LoopExit} {s : ScaledTest} (h : e.matchExit = some s)
    (c : JInt) :
    e.passes c = s.passes c := by
  simp only [matchExit, Option.bind_eq_bind, Option.bind_eq_some_iff, Option.guard_eq_some',
    exists_const,
    Prod.exists, Option.pure_def, Option.some.injEq] at h
  obtain ⟨hlimit, scale, offset, hscaled, hoffset, -, rfl⟩ := h
  have hlimit : e.orient.2.1.isMember = false := by simpa using hlimit
  have hoffset : offset.isMember = false := by simpa using hoffset
  have horient : e.passes c =
      e.orient.2.2.outcome e.unsigned (e.orient.1.eval c) (e.orient.2.1.eval c) := by
    unfold passes orient outcome
    cases e.cmp2.isMember <;> cases e.exitOnTrue <;> cases e.unsigned <;> simp
  rw [horient, LoopNode.eval_of_isScaledIvPlusOffset hscaled,
    LoopNode.eval_of_not_isMember hlimit c 0#32,
    LoopNode.eval_of_not_isMember hoffset c 0#32]
  rfl

/-! ## The constraints in integers -/

namespace Constraint

/-- The constraint at a counter, in integers without bounds. -/
def HoldsAt (c : Constraint) (i : Int) : Prop := c.scale.toInt * i + c.offset.toInt < c.limit.toInt

/-- The quotient of the limit, moved by `one`. -/
def bound (c : Constraint) (one : Int) : Int :=
  (c.limit.toInt - c.offset.toInt).tdiv c.scale.toInt + one

/-- The word that moves a limit is the number it stands for. The product only chooses the limit, so
its sign is enough. -/
structure Fits (c : Constraint) (stride : JInt) : Prop where
  scale_ne : c.scale.toInt ≠ 0
  sign : 0 < (stride * c.scale).toInt ↔ 0 < stride.toInt * c.scale.toInt
  range : IsInt (c.limit.toInt - c.offset.toInt)
  main : 0 < stride.toInt * c.scale.toInt → IsInt (c.bound 0)
  pre : stride.toInt * c.scale.toInt < 0 → IsInt (c.bound (if 0 < c.scale.toInt then -1 else 1))

variable {c : Constraint} {stride : JInt}

/-- The division may wrap around as long as the sum does not. -/
theorem Fits.toInt_quotient_add (h : c.Fits stride) {one : JInt}
    (hint : IsInt (c.bound one.toInt)) :
    (c.quotient + one).toInt = c.bound one.toInt := by
  obtain ⟨hlo, hhi⟩ := hint
  unfold bound at *
  rw [Constraint.quotient, BitVec.toInt_add, BitVec.toInt_sdiv, toInt_sub_of_isInt h.range,
    Int.bmod_add_bmod]
  apply Int.bmod_eq_of_le <;> omega

theorem Fits.toInt_quotient (h : c.Fits stride) (hmain : 0 < stride.toInt * c.scale.toInt) :
    c.quotient.toInt = (c.limit.toInt - c.offset.toInt).tdiv c.scale.toInt := by
  have hsum := @Fits.toInt_quotient_add _ _ h 0#32 (h.main hmain)
  rwa [BitVec.add_zero, bound, BitVec.toInt_zero, add_zero] at hsum

theorem Fits.toInt_adjusted (h : c.Fits stride) (hpre : stride.toInt * c.scale.toInt < 0) :
    c.adjusted.toInt = c.bound (if 0 < c.scale.toInt then -1 else 1) := by
  have hone : (if (0#32).slt c.scale then -1#32 else 1#32 : JInt).toInt = if 0 <
      c.scale.toInt then -1 else 1 := by
    rw [BitVec.slt]
    simp only [BitVec.toInt_zero, decide_eq_true_eq]
    split <;> rfl
  have hsum := h.pre hpre
  rw [← hone] at hsum ⊢
  exact h.toInt_quotient_add hsum

variable {t : TripCounter}

/-- The constraint holds past the pre-loop limit and before the main limit. -/
theorem Fits.holdsAt (h : c.Fits t.stride) (hstride : t.stride.toInt ≠ 0) {i : Int}
    (hmain : 0 < t.stride.toInt * c.scale.toInt → t.toward i < t.toward c.quotient.toInt)
    (hpre : t.stride.toInt * c.scale.toInt < 0 → t.toward c.adjusted.toInt ≤ t.toward i) :
      c.HoldsAt i := by
  have hmain := fun hsign => h.toInt_quotient hsign ▸ hmain hsign
  have hpre := fun hsign => h.toInt_adjusted hsign ▸ hpre hsign
  unfold HoldsAt
  unfold bound at hpre
  rcases lt_or_gt_of_ne h.scale_ne with hscale | hscale
  · have hbound : -i < (c.limit.toInt - c.offset.toInt).tdiv (-c.scale.toInt) := by
      rw [Int.tdiv_neg]
      unfold toward at hmain hpre
      rcases lt_or_gt_of_ne hstride with hdown | hup
      · have := hmain (mul_pos_of_neg_of_neg hdown hscale)
        omega
      · have := hpre (mul_neg_of_pos_of_neg hup hscale)
        omega
    have := mul_lt_of_lt_tdiv (show 0 < -c.scale.toInt by omega) hbound
    rw [neg_mul_neg] at this
    omega
  · have hbound : i < (c.limit.toInt - c.offset.toInt).tdiv c.scale.toInt := by
      rw [if_pos hscale] at hpre
      unfold toward at hmain hpre
      rcases lt_or_gt_of_ne hstride with hdown | hup
      · have := hpre (mul_neg_of_neg_of_pos hdown hscale)
        rw [if_neg (by omega), if_neg (by omega)] at this
        omega
      · have := hmain (mul_pos hup hscale)
        rw [if_pos hup, if_pos hup] at this
        omega
    have := mul_lt_of_lt_tdiv hscale hbound
    omega

/-- The constraint fails well before the pre-loop limit. -/
theorem Fits.not_holdsAt (h : c.Fits t.stride) {i : Int}
    (hproduct : t.stride.toInt * c.scale.toInt < 0)
    (hlt : t.toward i + 1 < t.toward c.adjusted.toInt) : ¬ c.HoldsAt i := by
  rw [h.toInt_adjusted hproduct, bound] at hlt
  unfold HoldsAt
  unfold toward at hlt
  rcases mul_neg_iff.mp hproduct with ⟨hup, hscale⟩ | ⟨hdown, hscale⟩
  · have hbound : (c.limit.toInt - c.offset.toInt).tdiv (-c.scale.toInt) < -i := by
      rw [Int.tdiv_neg]
      omega
    have := lt_mul_of_tdiv_lt (show 0 < -c.scale.toInt by omega) hbound
    rw [neg_mul_neg] at this
    omega
  · have :=
      lt_mul_of_tdiv_lt hscale (show (c.limit.toInt - c.offset.toInt).tdiv c.scale.toInt <
      i by omega)
    omega

end Constraint

/-! ## The tests in integers -/

namespace ScaledTest

/-- The tested value, in integers without bounds. -/
def valueAt (s : ScaledTest) (i : Int) : Int := s.scale.toInt * i + s.offset.toInt

/-- The words of the constraints are the numbers that the algebra gives them. -/
def Exact (s : ScaledTest) : Prop :=
  if s.unsigned then IsInt (-s.scale.toInt) ∧ IsInt (s.offset.toInt + 1) ∧ 0 ≤ s.limit.toInt
  else match s.test with
    | .ge => IsInt (-s.scale.toInt) ∧ IsInt (-s.offset.toInt) ∧ IsInt (1 - s.limit.toInt)
    | .le => IsInt (s.limit.toInt + 1)
    | _ => True

instance (s : ScaledTest) : Decidable s.Exact := by
  unfold Exact
  split
  · infer_instance
  · split <;> infer_instance

variable {s : ScaledTest} {cs : List Constraint} {counter : JInt}

theorem toInt_value (h : IsInt (s.valueAt counter.toInt)) :
    (s.scale * counter + s.offset).toInt = s.valueAt counter.toInt := by
  obtain ⟨hlo, hhi⟩ := h
  unfold valueAt at *
  rw [BitVec.toInt_add, BitVec.toInt_mul, Int.bmod_add_bmod]
  apply Int.bmod_eq_of_le <;> omega

/-- The constraints of an eliminated test together say what the test says. -/
theorem forall_holdsAt_iff (hexact : s.Exact) (hcs : s.constraints = some cs) (i : Int) :
    (∀ c ∈ cs, c.HoldsAt i) ↔ if s.unsigned then 0 ≤ s.valueAt i ∧ s.valueAt i < s.limit.toInt
      else match s.test with
        | .ge => s.limit.toInt ≤ s.valueAt i
        | .le => s.valueAt i ≤ s.limit.toInt
        | _ => s.valueAt i < s.limit.toInt := by
  have hone : (1#32).toInt = 1 := rfl
  have hzero : (0#32).toInt = 0 := rfl
  unfold Exact at hexact
  unfold constraints at hcs
  cases hu : s.unsigned with
  | true =>
    simp only [hu, if_true] at hexact hcs ⊢
    obtain ⟨hscale, hoffset, hlimit⟩ := hexact
    split at hcs
    · cases hcs
      have hplus : (s.offset + 1#32).toInt = s.offset.toInt + 1 := toInt_add_of_isInt hoffset
      have hmem := isInt_toInt s.offset
      have hneg : (0#32 - (s.offset + 1#32)).toInt = -(s.offset.toInt + 1) := by
        rw [toInt_sub_of_isInt, hplus, hzero]
        · omega
        · unfold IsInt at *
          omega
      simp only [mem_cons, not_mem_nil, or_false, forall_eq_or_imp, forall_eq, Constraint.HoldsAt,
        toInt_neg_of_isInt hscale, hneg, hzero, valueAt, neg_mul]
      omega
    · cases hcs
  | false =>
    simp only [hu, Bool.false_eq_true, if_false] at hexact hcs ⊢
    split at hcs
    · next htest =>
      simp only [htest] at hexact ⊢
      cases hcs
      obtain ⟨hscale, hoffset, hlimit⟩ := hexact
      have hneg : (0#32 - s.offset).toInt = -s.offset.toInt := by
        rw [toInt_sub_of_isInt] <;> rw [hzero, zero_sub]
        exact hoffset
      have hbound : (0#32 - s.limit + 1#32).toInt = 1 - s.limit.toInt := by
        rw [BitVec.toInt_add, BitVec.toInt_sub, hzero, hone, Int.bmod_add_bmod]
        obtain ⟨hlo, hhi⟩ := hlimit
        rw [show 0 - s.limit.toInt + 1 = 1 - s.limit.toInt by omega]
        apply Int.bmod_eq_of_le <;> omega
      simp only [mem_cons, not_mem_nil, or_false, forall_eq, Constraint.HoldsAt,
        toInt_neg_of_isInt hscale, hneg, hbound, valueAt, neg_mul]
      omega
    · next htest =>
      simp only [htest] at hexact ⊢
      cases hcs
      have hbound : (s.limit + 1#32).toInt = s.limit.toInt + 1 := toInt_add_of_isInt hexact
      simp only [mem_cons, not_mem_nil, or_false, forall_eq, Constraint.HoldsAt, hbound, valueAt]
      omega
    · next htest =>
      simp only [htest]
      cases hcs
      simp [Constraint.HoldsAt, valueAt]
    · cases hcs

theorem ult_iff_of_nonneg {x y : JInt} (hy : 0 ≤ y.toInt) :
    x.ult y = true ↔ 0 ≤ x.toInt ∧ x.toInt < y.toInt := by
  have hx := BitVec.toInt_eq_toNat_cond x
  have hy' := BitVec.toInt_eq_toNat_cond y
  rw [BitVec.ult_iff_lt, BitVec.lt_def]
  split at hx <;> split at hy' <;> omega

/-- An eliminated test on a value that is an `int`. -/
theorem passes_iff_of_isInt (hexact : s.Exact) (hcs : s.constraints = some cs)
    (hint : IsInt (s.valueAt counter.toInt)) :
    s.passes counter = true ↔ ∀ c ∈ cs, c.HoldsAt counter.toInt := by
  rw [forall_holdsAt_iff hexact hcs, passes, outcome, ← toInt_value hint]
  unfold constraints at hcs
  unfold Exact at hexact
  cases hu : s.unsigned with
  | true =>
    simp only [hu, if_true] at hcs hexact ⊢
    split at hcs
    · next htest => rw [htest, holdsU, ult_iff_of_nonneg hexact.2.2]
    · cases hcs
  | false =>
    simp only [hu, Bool.false_eq_true, if_false] at hcs ⊢
    split at hcs
    · next htest => simp [htest, holds, BitVec.sle, decide_eq_true_eq]
    · next htest => simp [htest, holds, BitVec.sle, decide_eq_true_eq]
    · next htest => simp [htest, holds, BitVec.slt, decide_eq_true_eq]
    · cases hcs

/-- The two constraints of an unsigned test keep its value in the `int` range. -/
theorem passes_of_holdsAt (hexact : s.Exact) (hcs : s.constraints = some cs)
    (hint : s.unsigned = false → IsInt (s.valueAt counter.toInt))
    (hall : ∀ c ∈ cs, c.HoldsAt counter.toInt) : s.passes counter = true := by
  refine (passes_iff_of_isInt hexact hcs ?_).mpr hall
  cases hu : s.unsigned with
  | true =>
    rw [forall_holdsAt_iff hexact hcs, if_pos hu] at hall
    have hlimit := isInt_toInt s.limit
    unfold IsInt at *
    omega
  | false => exact hint hu

end ScaledTest

/-! ## The limits -/

namespace TripCounter

variable (t : TripCounter)

/-- The position of a word in the direction of the loop. -/
def position (x : JInt) : Int := t.toward x.toInt

/-- `MinI` in a loop that counts up and `MaxI` in one that counts down. -/
theorem position_first (a b : JInt) :
    t.position (if 0 < t.stride.toInt then minI a b else maxI a b) = min (t.position a)
      (t.position b) := by
  unfold position toward minI maxI BitVec.slt
  simp only [decide_eq_true_eq]
  split <;> split <;> omega

theorem position_last (a b : JInt) :
    t.position (if 0 < t.stride.toInt then maxI a b else minI a b) = max (t.position a)
      (t.position b) := by
  unfold position toward minI maxI BitVec.slt
  simp only [decide_eq_true_eq]
  split <;> split <;> omega

end TripCounter

theorem minI_eq_or (a b : JInt) : minI a b = a ∨ minI a b = b := by
  unfold minI
  split <;> simp

theorem maxI_eq_or (a b : JInt) : maxI a b = a ∨ maxI a b = b := by
  unfold maxI
  split <;> simp

/-- What the limits say once the constraints in `done` have been added to the limits `start`. -/
structure SplitLimits.Bounded (t : TripCounter) (start : SplitLimits) (done : List Constraint)
    (l : SplitLimits) : Prop where
  main_le_start : t.position l.mainLimit ≤ t.position start.mainLimit
  main_le : ∀ c ∈ done, 0 < t.stride.toInt * c.scale.toInt →
    t.position l.mainLimit ≤ t.position c.quotient
  start_le_pre : t.position start.preLimit ≤ t.position l.preLimit
  le_pre : ∀ c ∈ done, t.stride.toInt * c.scale.toInt < 0 →
    t.position c.adjusted ≤ t.position l.preLimit
  pre_eq : l.preLimit = start.preLimit ∨
    ∃ c ∈ done, t.stride.toInt * c.scale.toInt < 0 ∧ l.preLimit = c.adjusted

namespace SplitLimits

variable {t : TripCounter} {start l : SplitLimits} {done : List Constraint}

theorem slt_zero_iff (x : JInt) : (0#32).slt x = true ↔ 0 < x.toInt := by
  rw [BitVec.slt_iff_toInt_lt]
  rfl

/-- One constraint moves one of the limits. -/
theorem Bounded.addConstraint (hl : Bounded t start done l) {c : Constraint}
    (hfits : c.Fits t.stride)
    (hstride : t.stride.toInt ≠ 0) :
      Bounded t start (done ++ [c]) (addConstraint t.stride l c) := by
  have hproduct : t.stride.toInt * c.scale.toInt ≠ 0 := mul_ne_zero hstride hfits.scale_ne
  unfold SplitLimits.addConstraint
  simp only [slt_zero_iff, hfits.sign]
  split
  · next hpos =>
    have hmin := t.position_first l.mainLimit c.quotient
    have hmain := hmin.le.trans (min_le_left _ _)
    refine ⟨hmain.trans hl.main_le_start, ?_, hl.start_le_pre, ?_, ?_⟩
    · refine forall_mem_append.mpr ⟨fun d hd hsign => hmain.trans (hl.main_le d hd hsign), ?_⟩
      exact forall_mem_singleton.mpr fun _ => hmin.le.trans (min_le_right _ _)
    · exact forall_mem_append.mpr ⟨hl.le_pre, forall_mem_singleton.mpr fun hneg =>
        absurd hneg hpos.not_gt⟩
    · exact hl.pre_eq.imp_right fun ⟨d, hd, heq⟩ => ⟨d, mem_append_left _ hd, heq⟩
  · next hneg =>
    have hsign : t.stride.toInt * c.scale.toInt < 0 := by omega
    -- the scale has the other sign than the stride
    have hside : 0 < c.scale.toInt ↔ ¬ 0 < t.stride.toInt := by
      rcases mul_neg_iff.mp hsign with ⟨hup, hscale⟩ | ⟨hdown, hscale⟩ <;> omega
    have hmax := t.position_last l.preLimit c.adjusted
    have hor :
      (if 0 < t.stride.toInt then maxI l.preLimit c.adjusted else minI l.preLimit c.adjusted) ∈
        [l.preLimit, c.adjusted] := by
      split
      · simpa using maxI_eq_or _ _
      · simpa using minI_eq_or _ _
    simp only [hside, ite_not]
    generalize (if 0 < t.stride.toInt then maxI l.preLimit c.adjusted
      else minI l.preLimit c.adjusted) = pre at *
    have hpre := (le_max_left _ _).trans hmax.ge
    refine ⟨hl.main_le_start, ?_, hl.start_le_pre.trans hpre, ?_, ?_⟩
    · exact forall_mem_append.mpr ⟨hl.main_le, forall_mem_singleton.mpr fun hpos =>
        absurd hpos hneg⟩
    · refine forall_mem_append.mpr ⟨fun d hd hsign' => (hl.le_pre d hd hsign').trans hpre, ?_⟩
      exact forall_mem_singleton.mpr fun _ => (le_max_right _ _).trans hmax.ge
    · rcases mem_pair.mp hor with rfl | rfl
      · exact hl.pre_eq.imp_right fun ⟨d, hd, heq⟩ => ⟨d, mem_append_left _ hd, heq⟩
      · exact .inr ⟨c, mem_append_right _ (mem_singleton.mpr rfl), hsign, rfl⟩

theorem Bounded.foldl_addConstraint (hl : Bounded t start done l) {cs : List Constraint}
    (hfits : ∀ c ∈ cs, c.Fits t.stride) (hstride : t.stride.toInt ≠ 0) :
    Bounded t start (done ++ cs) (cs.foldl (SplitLimits.addConstraint t.stride) l) := by
  induction cs generalizing done l with
  | nil => simpa using hl
  | cons c cs ih =>
    have hstep := hl.addConstraint (hfits c mem_cons_self) hstride
    have hrest := ih hstep fun d hd => hfits d (mem_cons_of_mem c hd)
    rwa [append_assoc, singleton_append] at hrest

/-- All tests of the loop body. -/
theorem Bounded.foldl_addExit (hl : Bounded t start done l) {exits : List LoopExit}
    (hfits : ∀ e ∈ exits, ∀ cs, e.constraints = some cs → ∀ c ∈ cs, c.Fits t.stride)
    (hstride : t.stride.toInt ≠ 0) :
    Bounded t start (done ++ exits.flatMap (·.constraints.getD []))
      (exits.foldl (addExit t.stride) l) := by
  induction exits generalizing done l with
  | nil => simpa using hl
  | cons e exits ih =>
    have hstep : Bounded t start (done ++ e.constraints.getD []) (addExit t.stride l e) := by
      unfold addExit
      cases hcs : e.constraints with
      | none => simpa using hl
      | some cs =>
        have hnew := hl.foldl_addConstraint (hfits e mem_cons_self cs hcs) hstride
        exact ⟨hnew.1, hnew.2, hnew.3, hnew.4, hnew.5⟩
    have hrest := ih hstep fun d hd => hfits d (mem_cons_of_mem e hd)
    rw [flatMap_cons, ← append_assoc]
    exact hrest

theorem conditionalRc_foldl_addConstraint (stride : JInt) (cs : List Constraint) (l : SplitLimits) :
    (cs.foldl (addConstraint stride) l).conditionalRc = l.conditionalRc := by
  induction cs generalizing l with
  | nil => rfl
  | cons c cs ih =>
    rw [foldl_cons, ih]
    unfold addConstraint
    split <;> rfl

/-- If no eliminated test is conditional, all of them dominate the back edge. -/
theorem dominates_of_not_conditionalRc {stride : JInt} {exits : List LoopExit} {l : SplitLimits}
    (h : (exits.foldl (addExit stride) l).conditionalRc = false) :
    l.conditionalRc = false ∧ ∀ e ∈ exits, e.constraints.isSome = true →
      e.dominatesBackedge = true := by
  induction exits generalizing l with
  | nil => exact ⟨h, fun e he => absurd he not_mem_nil⟩
  | cons e exits ih =>
    obtain ⟨hstep, hrest⟩ := ih h
    unfold addExit at hstep
    cases hcs : e.constraints with
    | none =>
      simp only [hcs] at hstep
      refine ⟨hstep, fun d hd hsome => ?_⟩
      rcases mem_cons.mp hd with rfl | hd
      · simp [hcs] at hsome
      · exact hrest d hd hsome
    | some cs =>
      simp only [hcs, conditionalRc_foldl_addConstraint, Bool.or_eq_false_iff,
        Bool.not_eq_false'] at hstep
      refine ⟨hstep.1, fun d hd hsome => ?_⟩
      rcases mem_cons.mp hd with rfl | hd
      · exact hstep.2
      · exact hrest d hd hsome

end SplitLimits

/-! ## The condition -/

namespace RangeCheckLoop

variable (r : RangeCheckLoop)

/-- The first increment wraps around, so that the loop counts from the other end of the `int`
range. -/
def RollsOver : Prop := ¬ IsInt (r.loop.init.toInt + r.loop.stride.toInt)

instance : Decidable r.RollsOver := inferInstanceAs (Decidable (¬ _))

/-- Where the loop counts from. The iteration before a roll-over always belongs to the pre-loop,
which keeps all tests. -/
def first : JInt := if r.RollsOver then r.loop.init + r.loop.stride else r.loop.init

/-- The loop as the pre-loop and the main loop test it. -/
def trip : TripCounter := ⟨r.first, r.loop.stride, r.loop.limit, r.splitTest, false, .int⟩

/-- An eliminated test whose arithmetic stays in the `int` range. A test that shortens the main
loop needs this for the first counter only, and so does an unsigned one. -/
structure TestFits (s : ScaledTest) (cs : List Constraint) : Prop where
  exact : s.Exact
  constraints : ∀ c ∈ cs, c.Fits r.loop.stride
  first : IsInt (s.valueAt r.first.toInt)
  last : s.unsigned = false → (∃ c ∈ cs, r.loop.stride.toInt * c.scale.toInt < 0) →
    IsInt (s.valueAt (r.trip.counter (r.trip.trips - 1)))

/-- The loop counts by one, or no increment wraps around but the first, and the round-up of the main
limit has room. A loop that ends with a roll-over has no test that lengthens the pre-loop, unless
the pre-loop is clipped. -/
structure Fits : Prop where
  steps : r.trip.pace = 1 ∨
    r.trip.NonWrapping ∧ r.trip.distance + r.trip.pace - 1 < 2 ^ 31
  enters : r.RollsOver → (∀ e ∈ r.exits, e.constraints.isSome = true → e.dominatesBackedge = true) →
    0 < r.trip.distance ∨ r.leaves r.loop.init (r.outcomes r.loop.init) = true ∨
      ∀ e ∈ r.exits, ∀ cs, e.constraints = some cs →
        ∀ c ∈ cs, 0 < r.loop.stride.toInt * c.scale.toInt
  tests : ∀ e ∈ r.exits, ∀ s, e.matchExit = some s → ∀ cs, s.constraints = some cs → r.TestFits s cs

variable {r}

theorem stride_ne : r.loop.stride.toInt ≠ 0 := by
  rcases r.canonical with ⟨-, h⟩ | ⟨-, h⟩ | ⟨-, h⟩ <;> omega

theorem stride_ne_zero : r.trip.stride ≠ 0#32 :=
    fun h => stride_ne (r := r) (congrArg BitVec.toInt h)

theorem splitTest_eq : r.splitTest = if 0 < r.loop.stride.toInt then .lt else .gt := by
  unfold splitTest
  simp only [slt_zero_iff]
  rcases r.canonical with ⟨htest, h⟩ | ⟨htest, h⟩ | ⟨htest, -⟩
  · simp [htest, h]
  · simp [htest, show ¬ 0 < r.loop.stride.toInt by omega]
  · simp [htest]

/-- The tests of the pre-loop and of the main loop compare positions. -/
theorem splitTest_holds (x y : JInt) :
    r.splitTest.holds x y = true ↔ r.trip.position x < r.trip.position y := by
  rw [splitTest_eq, position, position, toward, toward]
  show _ ↔ (if 0 < r.loop.stride.toInt then _ else _) < if 0 < r.loop.stride.toInt then _ else _
  split
  · simp [holds, BitVec.slt, decide_eq_true_eq]
  · simp only [holds, BitVec.slt, decide_eq_true_eq]
    omega

variable {x : JInt}

/-- A counter before the limit goes on under the original test, whatever that is. -/
theorem holds_of_position_lt (h : r.trip.position x < r.trip.position r.loop.limit) :
    r.loop.test.holds x r.loop.limit = true := by
  by_cases hne : r.loop.test = .ne
  · have hdiff : x ≠ r.loop.limit := fun heq => absurd (heq ▸ h) (lt_irrefl _)
    simpa [hne, holds] using hdiff
  · rw [← splitTest_holds, splitTest, if_neg hne] at h
    exact h

theorem mainLimit_limits : r.limits.mainLimit = r.rawLimits.mainLimit := by
  unfold limits
  dsimp only
  split <;> rfl

theorem preLimit_limits_of_conditional (h : r.rawLimits.conditionalRc = true) :
    r.trip.position r.limits.preLimit =
      min (r.trip.position r.rawLimits.preLimit) (r.trip.position r.loop.limit) := by
  unfold limits
  simp only [if_pos h, slt_zero_iff]
  exact r.trip.position_first _ _

theorem preLimit_limits_of_not_conditional (h : r.rawLimits.conditionalRc = false) :
    r.limits.preLimit = r.rawLimits.preLimit := by
  unfold limits
  simp [h]

theorem constraints_eq_some {e : LoopExit} {cs : List Constraint} (h : e.constraints = some cs) :
    ∃ s, e.matchExit = some s ∧ s.constraints = some cs := Option.bind_eq_some_iff.mp h

theorem Fits.bounded (h : r.Fits) : SplitLimits.Bounded r.trip
    ⟨r.loop.init + r.loop.stride, r.loop.limit, false⟩
      (r.exits.flatMap (·.constraints.getD [])) r.rawLimits := by
  have hstart : Bounded r.trip ⟨r.loop.init + r.loop.stride, r.loop.limit, false⟩ []
      ⟨r.loop.init + r.loop.stride, r.loop.limit, false⟩ :=
    ⟨le_rfl, fun c hc => absurd hc not_mem_nil, le_rfl, fun c hc => absurd hc not_mem_nil, .inl rfl⟩
  refine hstart.foldl_addExit (fun e he cs hcs => ?_) stride_ne
  obtain ⟨s, hs, hcs⟩ := constraints_eq_some hcs
  exact (h.tests e he s hs cs hcs).constraints

theorem Fits.mainLimit_le (h : r.Fits) :
    r.trip.position r.rawLimits.mainLimit ≤ r.trip.position r.loop.limit := h.bounded.main_le_start

theorem splitTest_ne : r.splitTest ≠ .ne := by
  rw [splitTest_eq]
  split <;> simp

theorem slack_splitTest : r.splitTest.slack = 0 := by
  rw [splitTest_eq]
  split <;> rfl

theorem exitBound_trip : r.trip.exitBound = r.loop.limit.toInt := by
  simp [exitBound, trip, slack_splitTest]

theorem first_of_not_rollsOver (h : ¬ r.RollsOver) : r.first = r.loop.init := if_neg h

theorem first_of_rollsOver (h : r.RollsOver) : r.first = r.loop.init + r.loop.stride := if_pos h

/-- A loop that counts by one wraps around in its first step only. -/
theorem nonWrapping_of_unit (hunit : r.trip.pace = 1) : r.trip.NonWrapping := by
  have hfirst : IsInt (r.first.toInt + r.loop.stride.toInt) := by
    have hinit := isInt_toInt r.loop.init
    have hstride : r.loop.stride.toInt = 1 ∨ r.loop.stride.toInt = -1 := by
      have hpace : (if 0 < r.loop.stride.toInt then r.loop.stride.toInt else -r.loop.stride.toInt) =
          1 := hunit
      split at hpace <;> omega
    by_cases hroll : r.RollsOver
    · have hword := BitVec.toInt_add r.loop.init r.loop.stride
      rw [first_of_rollsOver hroll, hword, Int.bmod_def]
      unfold RollsOver IsInt at *
      omega
    · rw [first_of_not_rollsOver hroll]
      exact not_not.mp hroll
  refine ⟨splitTest_ne, ?_⟩
  rw [trips, hunit]
  rcases lt_or_ge 0 r.trip.distance with hdist | hdist
  · have htrips : (tripsTo r.trip.distance 1 : Int) = r.trip.distance := by
      rw [tripsTo_of_pos one_pos hdist, Int.ediv_one]
      omega
    rw [counter_eq, hunit, htrips, one_mul, distance, toward_toward, exitBound_trip,
      show r.trip.init = r.first from rfl, add_sub_cancel]
    exact isInt_toInt _
  · rw [tripsTo_of_nonpos one_pos hdist]
    simpa [counter, trip, IsInt] using hfirst

theorem Fits.nonWrapping (h : r.Fits) : r.trip.NonWrapping :=
  h.steps.elim nonWrapping_of_unit And.left

theorem exists_of_mem_flatMap {c : Constraint} (h : c ∈ r.exits.flatMap (·.constraints.getD [])) :
    ∃ e ∈ r.exits, ∃ cs, e.constraints = some cs ∧ c ∈ cs := by
  obtain ⟨e, he, hc⟩ := mem_flatMap.mp h
  cases hcs : e.constraints with
  | none => simp [hcs] at hc
  | some cs => exact ⟨e, he, cs, hcs, by rwa [hcs] at hc⟩

theorem mem_flatMap_constraints {e : LoopExit} (he : e ∈ r.exits) {cs : List Constraint}
    (hcs : e.constraints = some cs) {c : Constraint} (hc : c ∈ cs) :
    c ∈ r.exits.flatMap (·.constraints.getD []) :=
  mem_flatMap.mpr ⟨e, he, by rwa [hcs]⟩

variable {n : Nat}

/-- A line that is bounded at the ends of a run, or bounded at its start and moving away from the
other side of a bound that it keeps, stays in the `int` range. -/
theorem TestFits.isInt_valueAt {s : ScaledTest} {cs : List Constraint} (h : r.TestFits s cs)
    (hcs : s.constraints = some cs) (hsigned : s.unsigned = false) (hn : n < r.trip.trips)
    (hall : ∀ c ∈ cs, c.HoldsAt (r.trip.counter n)) : IsInt (s.valueAt (r.trip.counter n)) := by
  have hline : ∀ m : Nat, s.valueAt (r.trip.counter m) =
      s.valueAt r.first.toInt + s.scale.toInt * r.loop.stride.toInt * m := by
    intro m
    simp only [ScaledTest.valueAt, counter, trip]
    ring
  by_cases hpre : ∃ c ∈ cs, r.loop.stride.toInt * c.scale.toInt < 0
  · have hend := h.last hsigned hpre
    rw [hline] at hend ⊢
    exact progression_mem (by omega) h.first hend
  -- the test itself bounds the value on the side that it moves to
  have hbound := (ScaledTest.forall_holdsAt_iff h.exact hcs _).mp hall
  have hlimit := isInt_toInt s.limit
  have hexact := h.exact
  have hstart := h.first
  have hslope : ∀ x : Int, 0 ≤ r.loop.stride.toInt * x → 0 ≤ x * r.loop.stride.toInt * n :=
    fun x hx =>
    mul_nonneg (by rwa [mul_comm]) (Nat.cast_nonneg n)
  push Not at hpre
  rw [hline] at hbound ⊢
  unfold ScaledTest.constraints at hcs
  unfold ScaledTest.Exact at hexact
  simp only [hsigned, Bool.false_eq_true, if_false] at hcs hexact hbound
  unfold IsInt at *
  split at hcs
  · next htest =>
    cases hcs
    simp only [htest] at hexact hbound
    have hdown := hslope _ (hpre _ (mem_singleton.mpr rfl))
    rw [toInt_neg_of_isInt hexact.1, neg_mul, neg_mul] at hdown
    omega
  · next htest =>
    cases hcs
    simp only [htest] at hbound
    have hup := hslope s.scale.toInt (hpre _ (mem_singleton.mpr rfl))
    omega
  · next htest =>
    cases hcs
    simp only [htest] at hbound
    have hup := hslope s.scale.toInt (hpre _ (mem_singleton.mpr rfl))
    omega
  · cases hcs

/-- Between the limits, every eliminated test holds. -/
theorem Fits.passes_of_between (h : r.Fits) (hn : n < r.trip.trips)
    (hx : x.toInt = r.trip.counter n)
    (hlo : r.trip.position r.rawLimits.preLimit ≤ r.trip.position x)
    (hhi : r.trip.position x < r.trip.position r.rawLimits.mainLimit) :
    ∀ e ∈ r.exits, e.constraints.isSome = true → e.passes x = true := by
  intro e he hsome
  obtain ⟨cs, hcs⟩ := Option.isSome_iff_exists.mp hsome
  obtain ⟨s, hs, hscs⟩ := constraints_eq_some hcs
  have hfits := h.tests e he s hs cs hscs
  have hall : ∀ c ∈ cs, c.HoldsAt x.toInt := by
    intro c hc
    have hmem := mem_flatMap_constraints he hcs hc
    exact (hfits.constraints c hc).holdsAt (t := r.trip) stride_ne
      (fun hsign => hhi.trans_le (h.bounded.main_le c hmem hsign))
      (fun hsign => (h.bounded.le_pre c hmem hsign).trans hlo)
  rw [LoopExit.passes_of_match hs]
  refine ScaledTest.passes_of_holdsAt hfits.exact hscs (fun hsigned => ?_) hall
  rw [hx] at hall ⊢
  exact hfits.isInt_valueAt hscs hsigned hn hall

theorem position_counter (hx : x.toInt = r.trip.counter n) :
    r.trip.position x = r.trip.position r.first + r.trip.pace * n := by
  rw [position, hx, toward_counter]
  rfl

/-- The increment of a counter that the loop gets to. -/
theorem Fits.toInt_incr (h : r.Fits) (hn : n < r.trip.trips)
    (hx : x.toInt = r.trip.counter n) :
    (x + r.loop.stride).toInt = r.trip.counter (n + 1) := by
  obtain ⟨hlo, hhi⟩ := counter_mem h.nonWrapping (show n + 1 ≤ r.trip.trips from hn)
  rw [counter_succ, ← hx] at *
  exact toInt_add_of_mem hlo hhi

/-- Unless the first iteration leaves the loop, the pre-loop has only one. -/
theorem Fits.preLimit_le (h : r.Fits) (hcond : r.rawLimits.conditionalRc = false)
    (hstay : r.leaves r.first (r.outcomes r.first) = false) :
    r.trip.position r.rawLimits.preLimit ≤ r.trip.position (r.first + r.loop.stride) := by
  have hpace := pace_pos (r.stride_ne_zero)
  have hinit : r.first.toInt = r.trip.counter 0 := by simp [counter, trip]
  have hincr := h.toInt_incr (tripsTo_pos _ _) hinit
  rw [position_counter hincr]
  rcases h.bounded.pre_eq with heq | ⟨c, hc, hsign, heq⟩
  · rw [heq]
    by_cases hroll : r.RollsOver
    · show r.trip.position (r.loop.init + r.loop.stride) ≤ _
      rw [← first_of_rollsOver hroll]
      omega
    · rw [← first_of_not_rollsOver hroll, position_counter hincr]
  obtain ⟨e, he, cs, hcs, hc⟩ := exists_of_mem_flatMap hc
  obtain ⟨s, hs, hscs⟩ := constraints_eq_some hcs
  obtain ⟨hexact, hfits, hfirst, -⟩ := h.tests e he s hs cs hscs
  by_contra hlt
  rw [not_le, heq] at hlt
  -- the test that lengthens the pre-loop fails in the first iteration
  have hfail : ¬ c.HoldsAt r.first.toInt := by
    refine (hfits c hc).not_holdsAt (t := r.trip) hsign ?_
    unfold position at hlt
    omega
  have hpass : e.passes r.first = false := by
    rw [LoopExit.passes_of_match hs, ← Bool.not_eq_true,
      ScaledTest.passes_iff_of_isInt hexact hscs hfirst]
    exact fun hall => hfail (hall c hc)
  obtain ⟨k, hk⟩ := mem_iff_getElem?.mp he
  have hdom := (dominates_of_not_conditionalRc hcond).2 e he (by rw [hcs]; rfl)
  have hleave :=
    r.leaves_of_dominates k e hk hdom r.first (r.outcomes r.first) (by simp [outcomes, hk, hpass])
  rw [hleave] at hstay
  cases hstay

/-! ## The round-up of the main limit -/

/-- The loop that the round-up computes the exact limit of. -/
def roundCounter (r : RangeCheckLoop) (v : JInt) : TripCounter :=
  ⟨v, r.loop.stride, r.rawLimits.mainLimit, r.splitTest, false, .int⟩

theorem canonical_roundCounter (v : JInt) (h : r.loop.stride ≠ 1#32 ∧ r.loop.stride ≠ -1#32) :
    (r.roundCounter v).canonical = some ⟨v, r.loop.stride, r.roundedMainLimit v, r.splitTest⟩ := by
  unfold roundedMainLimit
  simp only [if_pos h, slt_zero_iff, mainLimit_limits]
  unfold TripCounter.canonical
  simp only [roundCounter, splitTest_eq]
  have hzero : (0#32).toInt = 0 := rfl
  by_cases hup : 0 < r.loop.stride.toInt
  · have hdown : ¬ r.loop.stride.slt 0#32 = true := by
      rw [BitVec.slt_iff_toInt_lt]
      omega
    simp [hup, hdown, finalValue, tripCount, BitVec.add_assoc]
  · simp [hup, slt_zero_iff, finalValue, tripCount, BitVec.add_assoc]

theorem exitBound_roundCounter (v : JInt) :
    (r.roundCounter v).exitBound = r.rawLimits.mainLimit.toInt := by
  simp [exitBound, roundCounter, slack_splitTest]

theorem pace_ne_one (h : r.loop.stride ≠ 1#32 ∧ r.loop.stride ≠ -1#32) : r.trip.pace ≠ 1 := by
  intro hone
  unfold pace toward at hone
  split at hone
  · exact h.1 (BitVec.eq_of_toInt_eq hone)
  · exact h.2
      (BitVec.eq_of_toInt_eq
      (show r.loop.stride.toInt = -1 by simpa [trip] using neg_eq_iff_eq_neg.mp hone))

variable {v : JInt}

/-- A main loop that must not be entered is not entered. -/
theorem position_rounded_le
    (h : r.trip.position r.rawLimits.mainLimit ≤ r.trip.position v) :
    r.trip.position (r.roundedMainLimit v) ≤ r.trip.position v := by
  by_cases hstride : r.loop.stride ≠ 1#32 ∧ r.loop.stride ≠ -1#32
  · have hahead : (r.roundCounter v).ahead ≤ 0 := by
      rw [ahead, exitLimit, exitBound_roundCounter, BitVec.ofInt_toInt, toward_sub]
      exact sub_nonpos.mpr h
    exact toward_newLimit_le_init (canonical_roundCounter v hstride) splitTest_ne stride_ne_zero
      hahead
  · rwa [roundedMainLimit, if_neg hstride, mainLimit_limits]

theorem counter_roundCounter (hv : v.toInt = r.trip.counter n) (k : Nat) :
    (r.roundCounter v).counter k = r.trip.counter (n + k) := by
  simp only [counter, roundCounter, trip] at *
  push_cast
  rw [hv]
  ring

theorem succ_lt_trips_roundCounter (hv : v.toInt = r.trip.counter n) (k : Nat) :
    k + 1 < (r.roundCounter v).trips ↔ r.trip.toward (r.trip.counter (n + (k + 1))) <
      r.trip.position r.rawLimits.mainLimit := by
  rw [succ_lt_trips_iff (t := r.roundCounter v) (stride_ne_zero (r := r)), exitBound_roundCounter,
    counter_roundCounter hv]
  rfl

/-- A counter before the limit is not the last one. -/
theorem position_lt_limit_iff (hx : x.toInt = r.trip.counter (n + 1)) :
    r.trip.position x < r.trip.position r.loop.limit ↔ n + 1 < r.trip.trips := by
  rw [succ_lt_trips_iff stride_ne_zero, ← hx, exitBound_trip]
  rfl

/-- The main loop ends no later than the original one. -/
theorem Fits.trips_roundCounter (h : r.Fits) (hn : n < r.trip.trips)
    (hv : v.toInt = r.trip.counter n) : n + (r.roundCounter v).trips ≤ r.trip.trips := by
  by_contra hlt
  obtain ⟨j, hj⟩ : ∃ j, n + j + 1 = r.trip.trips := ⟨r.trip.trips - n - 1, by omega⟩
  have hmore : j + 1 < (r.roundCounter v).trips := by omega
  rw [succ_lt_trips_roundCounter hv] at hmore
  have hlast : n + j + 1 < r.trip.trips := by
    rw [succ_lt_trips_iff stride_ne_zero, exitBound_trip]
    exact hmore.trans_le h.mainLimit_le
  omega

/-- In the main loop, the rounded limit stops the same counters as the limit itself. -/
theorem Fits.lt_mainLimit_of_lt_rounded (h : r.Fits) {k : Nat} (hn : n < r.trip.trips)
    (hv : v.toInt = r.trip.counter n) (hx : x.toInt = r.trip.counter (n + k))
    (hentry : r.trip.position v < r.trip.position r.rawLimits.mainLimit)
    (hlt : r.trip.position x < r.trip.position (r.roundedMainLimit v)) :
    r.trip.position x < r.trip.position r.rawLimits.mainLimit := by
  by_cases hstride : r.loop.stride ≠ 1#32 ∧ r.loop.stride ≠ -1#32
  · have hpace := pace_pos (r.stride_ne_zero)
    have htrips := h.trips_roundCounter hn hv
    have hwrap : (r.roundCounter v).NonWrapping := by
      refine ⟨splitTest_ne, ?_⟩
      rw [counter_roundCounter hv]
      exact counter_mem h.nonWrapping htrips
    have hdist : (r.roundCounter v).distance ≤ r.trip.distance := by
      rw [distance, distance, exitBound_roundCounter, exitBound_trip, toward_sub, toward_sub]
      have hmain := h.mainLimit_le
      have hv' := position_counter hv
      have hn' : 0 ≤ r.trip.pace * n := by positivity
      unfold position at *
      show r.trip.toward _ - r.trip.toward v.toInt ≤ _ - r.trip.toward r.first.toInt
      omega
    have hroom : (r.roundCounter v).distance + (r.roundCounter v).pace - 1 < 2 ^ 31 := by
      have hsame : (r.roundCounter v).pace = r.trip.pace := rfl
      have hroom := (h.steps.resolve_left (pace_ne_one hstride)).2
      omega
    have hend := (endsAt_of_range (canonical_roundCounter v hstride) stride_ne_zero hwrap hroom).1
    have hk : k < (r.roundCounter v).trips := by
      rw [counter_roundCounter hv] at hend
      have hbelow : r.trip.position x <
          r.trip.toward (r.trip.counter (n + (r.roundCounter v).trips)) := hlt.trans_le hend
      rw [position, hx, toward_counter, toward_counter, add_lt_add_iff_left] at hbelow
      have := lt_of_mul_lt_mul_left hbelow hpace.le
      omega
    cases k with
    | zero =>
      have hsame : x.toInt = v.toInt := by rw [hx, hv, Nat.add_zero]
      rwa [position, hsame]
    | succ j =>
      rw [succ_lt_trips_roundCounter hv, ← hx] at hk
      exact hk
  · rwa [roundedMainLimit, if_neg hstride, mainLimit_limits] at hlt

/-! ## The run of the three loops -/

/-- Where the counter is in each part of the split loop. -/
def Inv (r : RangeCheckLoop) : LoopPart × JInt → Prop
  | (.pre, c) => r.RollsOver ∧ c = r.loop.init ∨
      (∃ n < r.trip.trips, c.toInt = r.trip.counter n) ∧
        (c = r.first ∨ r.rawLimits.conditionalRc = true)
  | (.main limit, c) => ∃ v n k, limit = r.roundedMainLimit v ∧ v.toInt = r.trip.counter n ∧
      c.toInt = r.trip.counter (n + k) ∧ n + k < r.trip.trips ∧
      r.trip.position v < r.trip.position r.rawLimits.mainLimit ∧
      r.trip.position c < r.trip.position r.rawLimits.mainLimit ∧
      r.trip.position r.rawLimits.preLimit ≤ r.trip.position c
  | (.post, _) => True

theorem counter_zero : r.first.toInt = r.trip.counter 0 := by simp [counter, trip]

variable {c : JInt}

theorem position_first_lt_iff :
    r.trip.position r.first < r.trip.position r.loop.limit ↔ 0 < r.trip.distance := by
  rw [distance, toward_sub, exitBound_trip, sub_pos]
  rfl

/-- The pre-loop goes on only to the first counter after a roll-over or if it is clipped, and then
only before the original limit. -/
theorem Fits.pre_goesOn (h : r.Fits) (hinv : r.Inv (.pre, c))
    (hstay : r.leaves c (r.outcomes c) = false)
    (hlt : r.splitTest.holds (c + r.loop.stride) r.limits.preLimit = true) :
    (c + r.loop.stride = r.first ∨ r.rawLimits.conditionalRc = true) ∧
      r.trip.position (c + r.loop.stride) < r.trip.position r.loop.limit := by
  rw [splitTest_holds] at hlt
  cases hcond : r.rawLimits.conditionalRc with
  | true =>
    rw [preLimit_limits_of_conditional hcond] at hlt
    exact ⟨.inr rfl, hlt.trans_le (min_le_right _ _)⟩
  | false =>
    rw [preLimit_limits_of_not_conditional hcond] at hlt
    obtain ⟨hroll, rfl⟩ | ⟨-, rfl | htrue⟩ := hinv
    · rw [← first_of_rollsOver hroll] at hlt ⊢
      refine ⟨.inl rfl, ?_⟩
      rcases h.enters hroll (dominates_of_not_conditionalRc hcond).2 with hdist | hleaves | hnone
      · exact position_first_lt_iff.mpr hdist
      · rw [hleaves] at hstay
        cases hstay
      · -- no test lengthens the pre-loop
        obtain heq | ⟨d, hd, hsign, -⟩ := h.bounded.pre_eq
        · rw [heq, ← first_of_rollsOver hroll] at hlt
          exact absurd hlt (lt_irrefl _)
        · obtain ⟨e, he, cs, hcs, hd⟩ := exists_of_mem_flatMap hd
          exact absurd hsign (hnone e he cs hcs d hd).not_gt
    · exact absurd (h.preLimit_le hcond hstay) (not_le.mpr hlt)
    · rw [hcond] at htrue
      cases htrue

/-- The zero-trip guard of the main loop. -/
theorem lt_mainLimit_of_guard (h : r.splitTest.holds v (r.roundedMainLimit v) = true) :
    r.trip.position v < r.trip.position r.rawLimits.mainLimit := by
  rw [splitTest_holds] at h
  by_contra hge
  exact absurd (position_rounded_le (not_lt.mp hge)) (not_le.mpr h)

theorem Fits.inv_incr (h : r.Fits) (hinv : r.Inv (.pre, c))
    (hlt : r.trip.position (c + r.loop.stride) < r.trip.position r.loop.limit) :
    ∃ n < r.trip.trips, (c + r.loop.stride).toInt = r.trip.counter n := by
  obtain ⟨hroll, rfl⟩ | ⟨⟨n, hn, hc⟩, -⟩ := hinv
  · exact ⟨0, tripsTo_pos _ _, first_of_rollsOver hroll ▸ counter_zero⟩
  · have hincr := h.toInt_incr hn hc
    exact ⟨n + 1, (position_lt_limit_iff hincr).mp hlt, hincr⟩

theorem Fits.step_pre (h : r.Fits) (hinv : r.Inv (.pre, c)) :
    (r.split.goesOn (.pre, c) ↔ r.original.goesOn c) ∧ (r.split.goesOn (.pre, c) →
      r.Inv (r.split.next (.pre, c)) ∧ (r.split.next (.pre, c)).2 = r.original.next c) := by
  refine ⟨⟨?_, fun ⟨hstay, hgo⟩ => ⟨hstay, .inr (.inr hgo)⟩⟩, ?_⟩
  · rintro ⟨hstay, hpre | hmain | hpost⟩
    · exact ⟨hstay, holds_of_position_lt (h.pre_goesOn hinv hstay hpre).2⟩
    · exact ⟨hstay, holds_of_position_lt ((lt_mainLimit_of_guard hmain).trans_le h.mainLimit_le)⟩
    · exact ⟨hstay, hpost⟩
  · rintro ⟨hstay, -⟩
    simp only [split]
    split
    · next hpre =>
      obtain ⟨hcond, hlt⟩ := h.pre_goesOn hinv hstay hpre
      exact ⟨.inr ⟨h.inv_incr hinv hlt, hcond⟩, rfl⟩
    · next hpre =>
      split
      · next hmain =>
        have hentry := lt_mainLimit_of_guard hmain
        have hlt := hentry.trans_le h.mainLimit_le
        obtain ⟨n, hmore, hincr⟩ := h.inv_incr hinv hlt
        refine ⟨⟨c + r.loop.stride, n, 0, rfl, hincr, hincr, hmore, hentry, hentry, ?_⟩, rfl⟩
        rw [splitTest_holds, not_lt] at hpre
        cases hcond : r.rawLimits.conditionalRc with
        | true =>
          rw [preLimit_limits_of_conditional hcond] at hpre
          omega
        | false => rwa [preLimit_limits_of_not_conditional hcond] at hpre
      · exact ⟨trivial, rfl⟩

variable {limit : JInt}

/-- In the main loop, the eliminated tests would have passed. -/
theorem Fits.passes_of_inv (h : r.Fits) (hinv : r.Inv (.main limit, c)) :
    ∀ e ∈ r.exits, e.constraints.isSome = true → e.passes c = true := by
  obtain ⟨v, n, k, -, -, hc, hk, -, hhi, hlo⟩ := hinv
  exact h.passes_of_between hk hc hlo hhi

theorem Fits.mainOutcomes_eq (h : r.Fits) (hinv : r.Inv (.main limit, c)) :
    r.mainOutcomes c = r.outcomes c := by
  funext k
  unfold mainOutcomes outcomes
  cases hk : r.exits[k]? with
  | none => rfl
  | some e =>
    have he : e ∈ r.exits := mem_of_getElem? hk
    cases hsome : e.constraints.isSome with
    | true => simp [hsome, h.passes_of_inv hinv e he hsome]
    | false => simp [hsome]

theorem Fits.step_main (h : r.Fits) (hinv : r.Inv (.main limit, c)) :
    (r.split.goesOn (.main limit, c) ↔ r.original.goesOn c) ∧ (r.split.goesOn (.main limit, c) →
      r.Inv (r.split.next (.main limit, c)) ∧
        (r.split.next (.main limit, c)).2 = r.original.next c) := by
  have houtcomes := h.mainOutcomes_eq hinv
  obtain ⟨v, n, k, rfl, hv, hc, hk, hentry, hhi, hlo⟩ := hinv
  have hincr := h.toInt_incr hk hc
  have hmain : r.splitTest.holds (c + r.loop.stride) (r.roundedMainLimit v) = true →
      r.trip.position (c + r.loop.stride) < r.trip.position r.rawLimits.mainLimit := by
    intro hgo
    rw [splitTest_holds] at hgo
    exact h.lt_mainLimit_of_lt_rounded (by omega) hv (k := k + 1) hincr hentry hgo
  refine ⟨?_, fun _ => ?_⟩
  · show (r.leaves c (r.mainOutcomes c) = false ∧ _) ↔ (r.leaves c (r.outcomes c) = false ∧ _)
    rw [houtcomes]
    refine and_congr_right fun _ => ⟨?_, .inr⟩
    rintro (hgo | hgo)
    · exact holds_of_position_lt ((hmain hgo).trans_le h.mainLimit_le)
    · exact hgo
  · simp only [split]
    split
    · next hgo =>
      have hlt := hmain hgo
      have hpace := pace_pos (r.stride_ne_zero)
      have hmore := (position_lt_limit_iff hincr).mp (hlt.trans_le h.mainLimit_le)
      refine ⟨⟨v, n, k + 1, rfl, hv, hincr, hmore, hentry, hlt, hlo.trans ?_⟩, rfl⟩
      rw [position_counter hincr, position_counter hc, Nat.cast_succ, mul_add, mul_one]
      omega
    · exact ⟨trivial, rfl⟩

theorem Fits.step (h : r.Fits) (s : LoopPart × JInt) (hinv : r.Inv s) :
    (r.split.goesOn s ↔ r.original.goesOn s.2) ∧ (r.split.goesOn s →
      r.Inv (r.split.next s) ∧ (r.split.next s).2 = r.original.next s.2) := by
  match s with
  | (.pre, c) => exact h.step_pre hinv
  | (.main limit, c) => exact h.step_main hinv
  | (.post, c) => exact ⟨Iff.rfl, fun _ => ⟨trivial, rfl⟩⟩

end RangeCheckLoop

end Hotspot.Opto
