-- SUMMARY: The rewrites of Bool and Min nodes: when the replacement has the value of the node.
import Hotspot.Opto.BoolTest
import Hotspot.Opto.FastMod

/-!
# Rewrites of nodes

`Ideal` returns a node to replace another one, or the node itself with other inputs. It may use the
types of the inputs, and that two nodes are the same.
-/

namespace Hotspot.DivNode

open BitVec Opto

/-- What `Ideal` asks about nodes, besides their types. -/
structure PhaseNodes extends PhaseGVN where
  /-- `_idx` -/
  idx : {k : Kind} → Node k → Nat
  eqv : {k : Kind} → Node k → Node k → Bool
  eqv_sound : ∀ {k : Kind} (a b : Node k), eqv a b = true → a.eval input = b.eval input

variable (ph phase : PhaseNodes)

/-! ## MinI -/

/-- An `AddI` of a constant, taken apart. -/
def addOff : Node .int → Node .int × JInt
  | .add a (.con c) => (a, c)
  | n => (n, 0)

/-- Force a right-spline tree, and order the inputs by their index. -/
def minIReorder (l r : Node .int) : Option (Node .int) :=
  match l with
  | .minI a b => some (.minI a (.minI b r))
  | _ =>
    match r with
    | .minI r1 r2 => if phase.idx (addOff r1).1 < phase.idx (addOff l).1
        then some (.minI r1 (.minI l r2)) else none
    | _ => if phase.idx (addOff r).1 < phase.idx (addOff l).1 then some (.minI r l) else none

/-- The minimum of `x + c0`, `x + c1` and the rest of the tree. -/
structure Cover where
  x : Node .int
  c0 : JInt
  c1 : JInt
  rest : Option (Node .int)

/-- One addition covers the other one. -/
def Cover.graph (c : Cover) : Node .int :=
  let sum : Node .int := .add c.x (.con (min2 c.c0 c.c1))
  match c.rest with
  | none => sum
  | some z => .minI sum z

def covers (l y : Node .int) (rest : Option (Node .int)) : Option Cover :=
  if phase.eqv (addOff l).1 (addOff y).1 then some ⟨(addOff l).1, (addOff l).2, (addOff y).2, rest⟩
    else none

def minICover (l : Node .int) : Node .int → Option Cover
  | .minI r1 r2 => covers phase l r1 (some r2)
  | r => covers phase l r none

/-- `MinINode::Ideal` -/
def minIIdeal (l r : Node .int) : Option (Node .int) :=
  match minIReorder phase l r with
  | some q => some q
  | none => (minICover phase l r).map Cover.graph

/-- The addition of the larger constant does not wrap around to a value below all others. -/
def Cover.Safe (c : Cover) : Prop :=
  (phase.eval c.x + min2 c.c0 c.c1).sle (phase.eval c.x + max2 c.c0 c.c1) = true ∨
    ∃ z, c.rest = some z ∧ (phase.eval z).sle (phase.eval c.x + max2 c.c0 c.c1) = true

section Min

variable {ph phase} {l r q : Node .int} {c : Cover}

theorem eval_addOff (n : Node .int) : ph.eval (addOff n).1 + (addOff n).2 = ph.eval n := by
  unfold addOff
  split
  · rfl
  · exact BitVec.add_zero _

@[simp]
theorem toInt_eval_minI (a b : Node .int) :
    (ph.eval (.minI a b)).toInt = min (ph.eval a).toInt (ph.eval b).toInt :=
  toInt_min2 _ _

theorem minIReorder_eval (h : minIReorder ph l r = some q) : ph.eval q = ph.eval (.minI l r) := by
  apply eq_of_toInt_eq
  unfold minIReorder at h
  split at h
  next a b =>
    cases h
    simp only [toInt_eval_minI]
    omega
  · split at h
    next r1 r2 =>
      split at h
      · cases h
        simp only [toInt_eval_minI]
        omega
      · cases h
    · split at h
      · cases h
        simp only [toInt_eval_minI]
        omega
      · cases h

theorem covers_eval {y : Node .int} {rest : Option (Node .int)} (h : covers ph l y rest = some c) :
    c.rest = rest ∧ ph.eval l = ph.eval c.x + c.c0 ∧ ph.eval y = ph.eval c.x + c.c1 := by
  unfold covers at h
  split at h
  next heqv =>
    cases h
    have hsame : ph.eval (addOff l).1 = ph.eval (addOff y).1 := ph.eqv_sound _ _ heqv
    exact ⟨rfl, (eval_addOff l).symm, by rw [hsame, eval_addOff]⟩
  · cases h

/-- One of the additions has the smaller constant, the other one the larger. -/
theorem min2_add_add {w : Nat} (x c0 c1 : BitVec w) :
    min2 (x + c0) (x + c1) = min2 (x + min2 c0 c1) (x + max2 c0 c1) := by
  by_cases hlt : c0.slt c1 = true
  · have hnot : ¬ c1.slt c0 = true := by
      rw [slt_iff_toInt_lt] at hlt ⊢
      omega
    rw [show min2 c0 c1 = c0 from if_pos hlt, show max2 c0 c1 = c1 from if_neg hnot]
  · rw [show min2 c0 c1 = c1 from if_neg hlt]
    by_cases hgt : c1.slt c0 = true
    · rw [show max2 c0 c1 = c0 from if_pos hgt, min2_comm]
    · have heq : c0 = c1 := by
        rw [slt_iff_toInt_lt] at hlt hgt
        exact eq_of_toInt_eq (by omega)
      rw [show max2 c0 c1 = c1 from if_neg hgt, heq]

theorem cover_eval_iff (h : minICover ph l r = some c) :
    ph.eval c.graph = ph.eval (.minI l r) ↔ c.Safe ph := by
  have hadd := congrArg BitVec.toInt (min2_add_add (ph.eval c.x) c.c0 c.c1)
  rw [toInt_min2, toInt_min2] at hadd
  have hsum : ph.eval (.add c.x (.con (min2 c.c0 c.c1))) = ph.eval c.x + min2 c.c0 c.c1 := rfl
  rw [← toInt_inj]
  unfold Cover.Safe Cover.graph
  unfold minICover at h
  split at h
  next r1 r2 =>
    obtain ⟨hrest, hl, hr⟩ := covers_eval h
    simp only [hrest, toInt_eval_minI, hsum, hl, hr, sle_iff_toInt_le, Option.some.injEq,
      exists_eq_left']
    omega
  · obtain ⟨hrest, hl, hr⟩ := covers_eval h
    simp only [hrest, toInt_eval_minI, hsum, hl, hr, sle_iff_toInt_le, reduceCtorEq, false_and,
      exists_false, or_false]
    omega

/-- The replacement of a `MinI` is exact, but for an addition that wraps around and is dropped. -/
theorem minIIdeal_exact_iff (h : minIIdeal phase l r = some q) :
    phase.eval q = phase.eval (.minI l r) ↔
      (minIReorder phase l r).isSome = true ∨ ∀ c, minICover phase l r = some c → c.Safe phase := by
  unfold minIIdeal at h
  split at h
  next q' hreorder =>
    cases h
    rw [hreorder]
    exact ⟨fun _ => .inl rfl, fun _ => minIReorder_eval hreorder⟩
  next hreorder =>
    obtain ⟨c, hcover, rfl⟩ := Option.map_eq_some_iff.mp h
    rw [hreorder, hcover, cover_eval_iff hcover]
    constructor
    · rintro hsafe
      right
      rintro c' ⟨⟩
      exact hsafe
    · rintro (hnone | hsafe)
      · cases hnone
      · exact hsafe c rfl

/-- A graph in which only the constants have types, and inputs are compared by their number. -/
def PhaseNodes.inputs (input : (k : Kind) → Nat → BitVec k.width) : PhaseNodes where
  toPhaseGVN := .constants input
  idx _ := 0
  eqv
    | .input i, .input j => i == j
    | _, _ => false
  eqv_sound a b h := by
    split at h
    next i j =>
      rw [beq_iff_eq] at h
      rw [h]
    · cases h

theorem minIIdeal_exact_iff_small :
    (PhaseNodes.inputs fun _ _ => 5).eval (k := .int) (.add (.input 0) (.con (min2 1 0))) = 5 ∧
      ((minIReorder (.inputs fun _ _ => 5) (.add (.input 0) (.con 1)) (.input 0)).isSome = true ∨
        ∀ c, minICover (.inputs fun _ _ => 5) (.add (.input 0) (.con 1)) (.input 0) = some c →
          c.Safe (.inputs fun _ _ => 5)) :=
  have h : minIIdeal (.inputs fun _ _ => 5) (.add (.input 0) (.con 1)) (.input 0) =
      some (.add (.input 0) (.con (min2 1 0))) := rfl
  ⟨rfl, (minIIdeal_exact_iff h).mp rfl⟩

/-- The sum of the largest int and 1 is dropped. -/
theorem minIIdeal_max_jint :
    minIIdeal (.inputs fun k _ => BitVec.intMax k.width) (.add (.input 0) (.con 1)) (.input 0) =
        some (.add (.input 0) (.con (min2 1 0))) ∧
      (PhaseNodes.inputs fun k _ => BitVec.intMax k.width).eval (k := .int)
    (.add (.input 0) (.con (min2 1 0))) = 2147483647 ∧
      (PhaseNodes.inputs fun k _ => BitVec.intMax k.width).eval
        (.minI (.add (.input 0) (.con 1)) (.input 0)) =
        -2147483648 :=
  ⟨rfl, by decide, by decide⟩

end Min

/-! ## Bool -/

inductive Cmp where
  | cmpI (a b : Node .int)
  | cmpU (a b : Node .int)
  /-- `CmpP` of a pointer and `NULL_PTR` -/
  | cmpNull (a : Node .long)

def Cmp.make (unsigned : Bool) (a b : Node .int) : Cmp := if unsigned then .cmpU a b else .cmpI a b

/-- The truth value of a `Bool`. No address is below `NULL_PTR`. -/
def Cmp.holds (phase : PhaseGVN) (test : BoolTest) : Cmp → Bool
  | .cmpI a b => test.holds (phase.eval a) (phase.eval b)
  | .cmpU a b => test.holdsU (phase.eval a) (phase.eval b)
  | .cmpNull a => test.holdsU (if phase.eval a = 0 then 0 else 1) 0

def Node.isCon {k : Kind} : Node k → Bool
  | .con _ => true
  | _ => false

/-- A compare of the input of a `Conv2B`, by its type. -/
def conv2BCmp (cmp2 : Node .int) : {k : Kind} → Node k → Cmp
  | .int, x => .cmpI x cmp2
  | .long, x => .cmpNull x

/-- `TypeInt::SYMINT` -/
def symInt : TypeInt := .make (-BitVec.intMax 32) (BitVec.intMax 32) WidenMin

/-- `BoolNode::Ideal` for a `CmpI` or a `CmpU`. A constant is not moved past an `Opaque1`, or in the
exit test of a counted loop. -/
def boolIdeal (phase : PhaseGVN) (isOpaque1 isCountedLoopExitTest unsigned : Bool)
    (cmp1 cmp2 : Node .int)
    (test : BoolTest) : Option (Cmp × BoolTest) :=
  let isZero := phase.typeOf cmp2 = some (.con 0)
  let isEquality := test = .eq ∨ test = .ne
  if cmp1.isCon ∧ ¬ cmp2.isCon ∧ ¬ isOpaque1 ∧ ¬ isCountedLoopExitTest then
    some (.make unsigned cmp2 cmp1, test.commute)
  else
    match cmp1 with
    | .xor x y =>
      if isZero ∧ phase.typeOf y = some (.con 1) ∧
        isEquality then some (.cmpI x cmp2, test.negate) else none
    | .conv2B x => if isZero ∧ isEquality then some (conv2BCmp cmp2 x, test) else none
    | .sub a b =>
      if isEquality ∧ ¬ unsigned ∧ isZero then some (.cmpI a b, test)
      else if ¬ unsigned ∧ isZero ∧ phase.typeOf a = some (.con 0) ∧
        (phase.typeOf b).any (fun t => t.meet symInt = symInt) then
        some (.cmpI b cmp2, test.commute)
      else none
    | _ => none

section Bool

variable {ph phase : PhaseGVN} {cmp1 cmp2 : Node .int} {test : BoolTest}

theorem eval_of_typeOf_con {k : Kind} {n : Node k} {c : BitVec k.width}
    (h : ph.typeOf n = some (.con c)) :
    ph.eval n = c :=
  (ph.sound n _ h).eq_lo (decide_eq_true rfl)

/-- An equality does not depend on the sign. -/
theorem make_holds_of_equality (unsigned : Bool) (h : test = .eq ∨ test = .ne) :
    (Cmp.make unsigned cmp1 cmp2).holds ph test = test.holds (ph.eval cmp1) (ph.eval cmp2) := by
  rcases h with rfl | rfl <;> cases unsigned <;> rfl

theorem make_holds_commute (unsigned : Bool) :
    (Cmp.make unsigned cmp2 cmp1).holds ph test.commute =
    (Cmp.make unsigned cmp1 cmp2).holds ph test := by
  cases unsigned
  · exact BoolTest.holds_commute _ _ _
  · exact BoolTest.holdsU_commute _ _ _

/-- Negation turns the order round, but for the smallest int. -/
theorem holds_neg_zero {a : JInt} (h : -2147483648 < a.toInt) :
    test.holds (0 - a) 0 = test.commute.holds a 0 := by
  have hneg : (0#32 - a).toInt = -a.toInt := by
    have hbound : Kind.int.bound = 2147483648 := rfl
    have hzero : (0#32).toInt = 0 := rfl
    have := toInt_bounds (k := .int) a
    have := toInt_sub_cases (k := .int) 0#32 a
    omega
  rw [BoolTest.holds_commute, Bool.eq_iff_iff]
  unfold BoolTest.holds
  cases test
  all_goals
    simp only [beq_iff_eq, bne_iff_ne, ne_eq, slt_iff_toInt_lt, sle_iff_toInt_le, ← toInt_inj, hneg,
      ofNat_eq_ofNat, toInt_zero]
    omega

theorem symInt_lo_lt {t : TypeInt} {x : JInt} (h : t.meet symInt = symInt) (hx : t.Contains x) :
    -2147483648 < x.toInt := by
  have hlo := toInt_min2 t.lo symInt.lo
  have hsym : symInt.lo.toInt = -2147483647 := by decide
  rw [show min2 t.lo symInt.lo = symInt.lo from congrArg IntegerType.lo h] at hlo
  have := hx.1
  omega

theorem sub_zero_holds {a b : JInt} (h : test = .eq ∨ test = .ne) :
    test.holds a b = test.holds (a - b) 0 := by
  have hsub : a - b = 0 ↔ a = b := by
    rw [BitVec.sub_eq_iff_eq_add, BitVec.ofNat_eq_ofNat, BitVec.zero_add]
  rw [Bool.eq_iff_iff]
  rcases h with rfl | rfl
  all_goals
    simp only [BoolTest.holds, beq_iff_eq, bne_iff_ne, ne_eq, hsub]

theorem xor_one_holds {x : JInt} (h : test = .eq ∨ test = .ne) :
    test.negate.holds x 0 = test.holds (x ^^^ 1) 0 ↔ x = 0 ∨ x = 1 := by
  have hxor : x ^^^ 1 = 0 ↔ x = 1 := BitVec.xor_eq_zero_iff
  rw [BoolTest.holds_negate, Bool.eq_iff_iff]
  rcases h with rfl | rfl
  all_goals
    simp only [BoolTest.holds, Bool.not_eq_true', beq_eq_false_iff_ne, bne_eq_false_iff_eq,
      bne_iff_ne, beq_iff_eq, hxor, ne_eq]
    grind

theorem conv2BCmp_holds {k : Kind} (x : Node k) (hzero : ph.eval cmp2 = 0)
    (h : test = .eq ∨ test = .ne) :
    (conv2BCmp cmp2 x).holds ph test = test.holds (ph.eval (.conv2B x)) 0 := by
  have hconv : ph.eval (.conv2B x) = if ph.eval x = 0 then 0 else 1 := rfl
  rw [hconv]
  cases k with
  | int =>
    show test.holds (ph.eval x) (ph.eval cmp2) = _
    rw [hzero]
    by_cases hx : ph.eval x = 0
    · rw [hx, if_pos rfl]
    · rw [if_neg hx]
      rcases h with rfl | rfl
      · exact beq_eq_false_iff_ne.mpr hx
      · exact bne_iff_ne.mpr hx
  | long => rcases h with rfl | rfl <;> rfl

/-- The rewritten `Bool` has the truth value of the old one, but for an `xor` with 1 of an int that
is not a boolean. -/
theorem boolIdeal_holds_iff {isOpaque1 isCountedLoopExitTest unsigned : Bool} {q : Cmp × BoolTest}
    (h : boolIdeal phase isOpaque1 isCountedLoopExitTest unsigned cmp1 cmp2 test = some q) :
    q.1.holds phase q.2 = (Cmp.make unsigned cmp1 cmp2).holds phase test ↔
      ∀ x y, cmp1 = .xor x y → phase.eval x = 0 ∨ phase.eval x = 1 := by
  unfold boolIdeal at h
  dsimp only at h
  split at h
  next hcon =>
    cases h
    refine ⟨?_, fun _ => make_holds_commute unsigned⟩
    rintro - x y rfl
    cases hcon.1
  · split at h
    next x y _ =>
      split at h
      next hrule =>
        cases h
        obtain ⟨hzero, hone, heq⟩ := hrule
        rw [make_holds_of_equality unsigned heq]
        show test.negate.holds (phase.eval x) (phase.eval cmp2) =
          test.holds (phase.eval x ^^^ phase.eval y) (phase.eval cmp2) ↔ _
        rw [eval_of_typeOf_con hzero, eval_of_typeOf_con hone, xor_one_holds heq]
        constructor
        · rintro hx x' y' ⟨⟩
          exact hx
        · intro hx
          exact hx x y rfl
      · cases h
    next x _ =>
      split at h
      next hrule =>
        cases h
        refine ⟨nofun, fun _ => ?_⟩
        rw [make_holds_of_equality unsigned hrule.2,
          conv2BCmp_holds x (eval_of_typeOf_con hrule.1) hrule.2,
          eval_of_typeOf_con hrule.1]
      · cases h
    next a b _ =>
      split at h
      next hrule =>
        cases h
        obtain ⟨heq, -, hzero⟩ := hrule
        refine ⟨nofun, fun _ => ?_⟩
        rw [make_holds_of_equality unsigned heq, eval_of_typeOf_con hzero]
        exact sub_zero_holds heq
      · split at h
        next hrule =>
          cases h
          obtain ⟨hsigned, hzero, ha, hsym⟩ := hrule
          refine ⟨nofun, fun _ => ?_⟩
          obtain ⟨t, htype, hmeet⟩ := (Option.any_eq_true _ _).mp hsym
          rw [Bool.eq_false_of_not_eq_true hsigned]
          show test.commute.holds (phase.eval b) (phase.eval cmp2) =
            test.holds (phase.eval a - phase.eval b) (phase.eval cmp2)
          rw [eval_of_typeOf_con hzero, eval_of_typeOf_con ha]
          exact (holds_neg_zero
            (symInt_lo_lt (of_decide_eq_true hmeet) (phase.sound b t htype))).symm
        · cases h
    · cases h

theorem boolIdeal_holds_iff_sub :
    (Cmp.cmpI (.input 0) (.input 1)).holds (.constants fun _ _ => 5) .eq =
      (Cmp.cmpI (.sub (.input 0) (.input 1)) (.con 0)).holds (.constants fun _ _ => 5) .eq :=
  have h : boolIdeal (.constants fun _ _ => 5) false false false (.sub (.input 0) (.input 1))
    (.con 0) .eq =
      some (.cmpI (.input 0) (.input 1), .eq) := rfl
  (boolIdeal_holds_iff h).mpr nofun

/-- `2 ^ 1 == 0` does not hold, but `2 != 0` does. -/
theorem boolIdeal_xor_two :
    boolIdeal (.constants fun _ _ => 2) false false false (.xor (.input 0) (.con 1)) (.con 0) .eq =
        some (.cmpI (.input 0) (.con 0), .ne) ∧
      (Cmp.cmpI (.input 0) (.con 0)).holds (.constants fun _ _ => 2) .ne = true ∧
      (Cmp.make false (.xor (.input 0) (.con 1)) (.con 0)).holds (.constants fun _ _ => 2) .eq =
        false :=
  ⟨rfl, by decide, by decide⟩

end Bool

end Hotspot.DivNode
