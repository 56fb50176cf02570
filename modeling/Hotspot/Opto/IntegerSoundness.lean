-- SUMMARY: Soundness of the integer Value functions, on every expression graph.
import Hotspot.Base.Except
import Hotspot.Opto.IntegerRange

/-!
# Soundness of integer types

On ranges, the `Value` functions reduce to functions from ranges to ranges. Each of
these covers the results of its Java operation, and by induction over a graph so does
every type that is computed bottom-up.
-/

namespace Hotspot.Opto

open BitVec hiding and_comm not_not not_or or_self

open Option hiding or_self

variable {k : Kind}

/-! ## Types that are ranges -/

namespace IntegerType

theorem meet_eq_right_iff {w : Nat} {r s : IntegerType w} : r.meet s = s ↔ r.Within s := by
  constructor
  · intro h
    have hlo := congrArg (fun t : IntegerType w => t.lo.toInt) h
    have hhi := congrArg (fun t : IntegerType w => t.hi.toInt) h
    have hwiden := congrArg IntegerType.widen h
    simp only [meet, toInt_min2, toInt_max2] at hlo hhi hwiden
    exact ⟨by omega, by omega, max_eq_right_iff.mp hwiden⟩
  · rintro ⟨hlo, hhi, hwiden⟩
    ext1
    · exact eq_of_toInt_eq (by rw [meet, toInt_min2]; omega)
    · exact eq_of_toInt_eq (by rw [meet, toInt_max2]; omega)
    · exact max_eq_right hwiden

/-- Only a constant itself lies within it. -/
theorem within_con_iff {w : Nat} {r : IntegerType w} (hr : r.Nonempty) {c : BitVec w} :
    r.Within (con c) ↔ r = con c := by
  constructor
  · rintro ⟨hlo, hhi, hwiden⟩
    unfold Nonempty at hr
    simp only [con] at hlo hhi
    ext1
    · exact eq_of_toInt_eq (show r.lo.toInt = c.toInt by omega)
    · exact eq_of_toInt_eq (show r.hi.toInt = c.toInt by omega)
    · exact Fin.le_zero_iff.mp hwiden
  · rintro rfl
    exact .refl _

instance {w : Nat} (r s : IntegerType w) : Decidable (r.Within s) :=
  decidable_of_iff (s.lo.toInt ≤ r.lo.toInt ∧ r.hi.toInt ≤ s.hi.toInt ∧ r.widen ≤ s.widen)
    ⟨fun h => ⟨h.1, h.2.1, h.2.2⟩, fun h => ⟨h.lo, h.hi, h.widen⟩⟩

end IntegerType

namespace Ty

@[simp]
theorem range_inj {r s : IntegerType k.width} : Ty.range k r = Ty.range k s ↔ r = s := by
  cases k with
  | int => exact ⟨Ty.int.inj, congrArg Ty.int⟩
  | long => exact ⟨Ty.long.inj, congrArg Ty.long⟩

@[simp]
theorem range_ne_top (r : IntegerType k.width) : Ty.range k r ≠ .top := by
  cases k <;> nofun

@[simp]
theorem range_ne_bottom (r : IntegerType k.width) : Ty.range k r ≠ .bottom := by
  cases k <;> nofun

@[simp]
theorem isRange_range (r : IntegerType k.width) : Ty.isRange k (.range k r) = some r := by
  cases k <;> rfl

@[simp]
theorem isRange_int (r : TypeInt) : Ty.isRange .int (.int r) = some r := rfl

theorem xmeet_range (r s : IntegerType k.width) :
    (Ty.range k r).xmeet (.range k s) = some (.range k (r.meet s)) := by
  cases k with
  | int => exact xmeet_int_int r s
  | long => exact xmeet_long_long r s

@[simp]
theorem higherEqual_range (r s : IntegerType k.width) :
    (Ty.range k r).higherEqual (.range k s) = some (decide (r.Within s)) := by
  rw [higherEqual, xmeet_range, map_some, some.injEq, decide_eq_decide, range_inj,
    IntegerType.meet_eq_right_iff]

end Ty

/-! ## Values of ranges -/

/-- `AddNode::Value` on ranges. -/
def AddNode.ranges (n : AddNode k) (r1 r2 : IntegerType k.width) : IntegerType k.width :=
  if r1 = .full k.width ∨ r2 = .full k.width then .full k.width
  else if r1.Within n.addId then r2
  else if r2.Within n.addId then r1
  else n.addRing r1 r2

theorem AddNode.value_range (n : AddNode k) (r1 r2 : IntegerType k.width) :
    n.value (.range k r1) (.range k r2) = some (.range k (n.ranges r1 r2)) := by
  unfold AddNode.value AddNode.ranges
  simp only [Ty.range_ne_top, Ty.range_ne_bottom, Ty.range_inj, Ty.higherEqual_range,
    Ty.isRange_range, if_false, or_false, some_bind, decide_eq_true_eq]
  split_ifs <;> rfl

/-- `SubNode::Value` on ranges. -/
def SubNode.ranges (k : Kind) (eqv : Bool) (r1 r2 : IntegerType k.width) : IntegerType k.width :=
  if eqv then .con 0 else r1.sub r2

theorem SubNode.value_range (eqv : Bool) (r1 r2 : IntegerType k.width) :
    SubNode.value k eqv (.range k r1) (.range k r2) = some (.range k (SubNode.ranges k eqv r1 r2)) := by
  unfold SubNode.value SubNode.ranges
  simp only [Ty.range_ne_top, Ty.range_ne_bottom, Ty.isRange_range, if_false, or_self, some_bind]
  split_ifs <;> rfl

/-- `MulNode::Value` on ranges. -/
def MulNode.ranges (k : Kind)
    (mulRing : IntegerType k.width → IntegerType k.width → IntegerType k.width)
    (r1 r2 : IntegerType k.width) : IntegerType k.width :=
  if r1.Within (.con 0) then .con 0
  else if r2.Within (.con 0) then .con 0
  else mulRing r1 r2

theorem MulNode.value_range
    (mulRing : IntegerType k.width → IntegerType k.width → IntegerType k.width)
    (r1 r2 : IntegerType k.width) : MulNode.value k mulRing (.range k r1) (.range k r2) =
      some (.range k (MulNode.ranges k mulRing r1 r2)) := by
  unfold MulNode.value MulNode.ranges
  simp only [Ty.range_ne_top, Ty.range_ne_bottom, Ty.higherEqual_range, Ty.isRange_range, if_false,
    or_self, some_bind, decide_eq_true_eq]
  split_ifs <;> rfl

/-- `LShiftNode::Value` on ranges. -/
def LShiftNode.ranges (k : Kind) (r1 : IntegerType k.width) (r2 : TypeInt) : IntegerType k.width :=
  if r1 = .con 0 then .con 0
  else if r2 = .con 0 then r1
  else if r1 = .full k.width ∨ r2 = .full 32 then .full k.width
  else LShiftNode.shiftRange k r1 r2

theorem LShiftNode.value_range (r1 : IntegerType k.width) (r2 : TypeInt) :
    LShiftNode.value k (.range k r1) (.int r2) = some (.range k (LShiftNode.ranges k r1 r2)) := by
  unfold LShiftNode.value LShiftNode.ranges
  simp only [Ty.range_ne_top, Ty.range_ne_bottom, Ty.range_inj, Ty.isRange_range, reduceCtorEq,
    Ty.int.injEq, if_false, or_false, some_bind, Ty.isRange_int]
  split_ifs <;> rfl

/-- The right shifts' `Value` on ranges. -/
def RShiftNode.ranges (k : Kind)
    (ends : IntegerType k.width → Nat → BitVec k.width × BitVec k.width)
    (r1 : IntegerType k.width) (r2 : TypeInt) : IntegerType k.width :=
  if r1 = .con 0 then .con 0
  else if r2 = .con 0 then r1
  else if r2 = .full 32 then .full k.width
  else RShiftNode.shiftRange k ends r1 r2

theorem RShiftNode.value_range (ends : IntegerType k.width → Nat → BitVec k.width × BitVec k.width)
    (r1 : IntegerType k.width) (r2 : TypeInt) : RShiftNode.value k ends (.range k r1) (.int r2) =
      some (.range k (RShiftNode.ranges k ends r1 r2)) := by
  unfold RShiftNode.value RShiftNode.ranges
  simp only [Ty.range_ne_top, Ty.range_ne_bottom, Ty.range_inj, Ty.isRange_range, reduceCtorEq,
    Ty.int.injEq, if_false, or_self, some_bind, Ty.isRange_int]
  split_ifs <;> rfl

/-- `DivNode::Value` on ranges. -/
def DivNode.ranges (k : Kind) (eqv : Bool) (r1 r2 : IntegerType k.width) : IntegerType k.width :=
  if eqv then .con 1
  else if r1 = .full k.width ∨ r2 = .full k.width then .full k.width
  else r1.div r2

theorem DivNode.value_range (eqv : Bool) (r1 r2 : IntegerType k.width) :
    DivNode.value k eqv (.range k r1) (.range k r2) = some (.range k (DivNode.ranges k eqv r1 r2)) := by
  unfold DivNode.value DivNode.ranges
  simp only [Ty.range_ne_top, Ty.range_ne_bottom, Ty.range_inj, Ty.isRange_range, if_false, or_false,
    some_bind]
  split_ifs <;> rfl

/-- `ModNode::Value` on ranges. -/
def ModNode.ranges (k : Kind) (eqv : Bool) (r1 r2 : IntegerType k.width) : IntegerType k.width :=
  if r1 = .con 0 then .con 0
  else if eqv then .con 0
  else if r1 = .full k.width ∨ r2 = .full k.width then .full k.width
  else r1.mod r2

theorem ModNode.value_range (eqv : Bool) (r1 r2 : IntegerType k.width) :
    ModNode.value k eqv (.range k r1) (.range k r2) = some (.range k (ModNode.ranges k eqv r1 r2)) := by
  unfold ModNode.value ModNode.ranges
  simp only [Ty.range_ne_top, Ty.range_ne_bottom, Ty.range_inj, Ty.isRange_range, if_false, or_false,
    some_bind]
  split_ifs <;> rfl

/-! ## Booleans -/

theorem contains_bool {x : JInt} : TypeInt.bool.Contains x ↔ x = 0#32 ∨ x = 1#32 := by
  constructor
  · rintro ⟨hlo, hhi⟩
    have hlo' : 0 ≤ x.toInt := hlo
    have hhi' : x.toInt ≤ 1 := hhi
    obtain h | h : x.toInt = 0 ∨ x.toInt = 1 := by omega
    · exact .inl (eq_of_toInt_eq h)
    · exact .inr (eq_of_toInt_eq h)
  · rintro (rfl | rfl) <;> exact ⟨by decide, by decide⟩

theorem contains_one {x : JInt} (hx : TypeInt.one.Contains x) : x = 1#32 :=
  hx.eq_lo rfl

/-- A boolean mask leaves a boolean. -/
theorem contains_bool_and (x : JInt) {y : JInt} (hy : TypeInt.bool.Contains y) :
    TypeInt.bool.Contains (x &&& y) := by
  obtain rfl | rfl := contains_bool.mp hy
  · rw [and_zero]
    exact hy
  · exact and_bounds (k := .int) x (by decide)

namespace TypeInt

variable {r0 r1 : TypeInt} {x y : JInt}

theorem orRing_contains (hx : r0.Contains x) (hy : r1.Contains y) :
    (orRing r0 r1).Contains (x ||| y) := by
  unfold orRing
  split_ifs with hbo hbb hob
  · obtain ⟨rfl, rfl⟩ := hbo
    rw [contains_one hy]
    obtain rfl | rfl := contains_bool.mp hx <;> exact ⟨by decide, by decide⟩
  · obtain ⟨rfl, rfl⟩ := hbb
    rw [contains_bool]
    obtain rfl | rfl := contains_bool.mp hx <;> obtain rfl | rfl := contains_bool.mp hy <;> decide
  · obtain ⟨rfl, rfl⟩ := hob
    rw [contains_one hx]
    obtain rfl | rfl := contains_bool.mp hy <;> exact ⟨by decide, by decide⟩
  · exact IntegerType.foldRing_contains (k := .int) _ hx hy

theorem xorRing_contains (hx : r0.Contains x) (hy : r1.Contains y) :
    (xorRing r0 r1).Contains (x ^^^ y) := by
  unfold xorRing
  split_ifs with hbool
  · obtain ⟨rfl, hr1⟩ := hbool
    have hy' : TypeInt.bool.Contains y := by
      obtain rfl | rfl := hr1
      · rw [contains_one hy]
        exact ⟨by decide, by decide⟩
      · exact hy
    rw [contains_bool]
    obtain rfl | rfl := contains_bool.mp hx <;> obtain rfl | rfl := contains_bool.mp hy' <;> decide
  · exact IntegerType.foldRing_contains (k := .int) _ hx hy

theorem andRing_contains (hx : r0.Contains x) (hy : r1.Contains y) :
    (andRing r0 r1).Contains (x &&& y) := by
  refine IntegerType.andRing_contains (k := .int) hx hy ?_
  split
  next hbool =>
    obtain rfl | rfl := hbool
    · rw [BitVec.and_comm]
      exact contains_bool_and y hx
    · exact contains_bool_and x hy
  · exact IntegerType.contains_full (k := .int) _

end TypeInt

/-! ## Each operation is covered -/

section

open IntegerType

variable {r1 r2 : IntegerType k.width} {x y : BitVec k.width}

/-- What makes an `AddNode` sound: its ring sum covers the operation, and its identity is one. -/
structure AddNode.Sound (n : AddNode k) (f : BitVec k.width → BitVec k.width → BitVec k.width)
    (c : BitVec k.width) : Prop where
  addId_eq : n.addId = con c
  id_left : ∀ x, f c x = x
  id_right : ∀ x, f x c = x
  contains : ∀ {r0 r1 : IntegerType k.width} {x y : BitVec k.width}, r0.Contains x → r1.Contains y →
    (n.addRing r0 r1).Contains (f x y)

theorem AddNode.Sound.ranges_contains {n : AddNode k}
    {f : BitVec k.width → BitVec k.width → BitVec k.width} {c : BitVec k.width} (h : n.Sound f c)
    (hx : r1.Contains x) (hy : r2.Contains y) : (n.ranges r1 r2).Contains (f x y) := by
  unfold AddNode.ranges
  simp only [h.addId_eq, within_con_iff hx.nonempty, within_con_iff hy.nonempty]
  split_ifs with hfull hid1 hid2
  · exact contains_full _
  · rw [hid1] at hx
    rw [hx.eq_con, h.id_left]
    exact hy
  · rw [hid2] at hy
    rw [hy.eq_con, h.id_right]
    exact hx
  · exact h.contains hx hy

theorem AddINode.sound : AddINode.Sound (· + ·) 0 :=
  ⟨rfl, fun x => BitVec.zero_add x, fun x => BitVec.add_zero x, addRing_contains (k := .int)⟩

theorem AddLNode.sound : AddLNode.Sound (· + ·) 0 :=
  ⟨rfl, fun x => BitVec.zero_add x, fun x => BitVec.add_zero x, addRing_contains (k := .long)⟩

theorem OrINode.sound : OrINode.Sound (· ||| ·) 0 :=
  ⟨rfl, fun _ => zero_or, fun _ => or_zero, TypeInt.orRing_contains⟩

theorem OrLNode.sound : OrLNode.Sound (· ||| ·) 0 :=
  ⟨rfl, fun _ => zero_or, fun _ => or_zero, foldRing_contains (k := .long) _⟩

theorem XorINode.sound : XorINode.Sound (· ^^^ ·) 0 :=
  ⟨rfl, fun _ => zero_xor, fun _ => xor_zero, TypeInt.xorRing_contains⟩

theorem XorLNode.sound : XorLNode.Sound (· ^^^ ·) 0 :=
  ⟨rfl, fun _ => zero_xor, fun _ => xor_zero, foldRing_contains (k := .long) _⟩

theorem max2_intMin_left (x : BitVec k.width) : max2 (BitVec.intMin k.width) x = x := by
  apply eq_of_toInt_eq
  rw [toInt_max2, toInt_intMin]
  exact max_eq_right (toInt_bounds x).1

theorem min2_intMax_left (x : BitVec k.width) : min2 (BitVec.intMax k.width) x = x := by
  apply eq_of_toInt_eq
  rw [toInt_min2, toInt_intMax]
  exact min_eq_right (Int.le_sub_one_of_lt (toInt_bounds x).2)

theorem MaxINode.sound : MaxINode.Sound max2 (BitVec.intMin 32) where
  addId_eq := rfl
  id_left x := max2_intMin_left (k := .int) x
  id_right x := (max2_comm _ _).trans (max2_intMin_left (k := .int) x)
  contains := maxRing_contains (k := .int)

theorem MinINode.sound : MinINode.Sound min2 (BitVec.intMax 32) where
  addId_eq := rfl
  id_left x := min2_intMax_left (k := .int) x
  id_right x := (min2_comm _ _).trans (min2_intMax_left (k := .int) x)
  contains := minRing_contains (k := .int)

/-- If both inputs are one node, their values are the same. -/
theorem SubNode.ranges_contains {eqv : Bool} (heqv : eqv = true → x = y) (hx : r1.Contains x)
    (hy : r2.Contains y) : (SubNode.ranges k eqv r1 r2).Contains (x - y) := by
  unfold SubNode.ranges
  split
  next h =>
    rw [heqv h, BitVec.sub_self]
    exact contains_con _
  · exact sub_contains hx hy

theorem MulNode.ranges_contains {f : BitVec k.width → BitVec k.width → BitVec k.width}
    {mulRing : IntegerType k.width → IntegerType k.width → IntegerType k.width}
    (hzero : ∀ x, f 0 x = 0) (hzero' : ∀ x, f x 0 = 0)
    (hring : ∀ {r1 r2 : IntegerType k.width} {x y : BitVec k.width}, r1.Contains x → r2.Contains y →
      (mulRing r1 r2).Contains (f x y))
    (hx : r1.Contains x) (hy : r2.Contains y) : (MulNode.ranges k mulRing r1 r2).Contains (f x y) := by
  unfold MulNode.ranges
  simp only [within_con_iff hx.nonempty, within_con_iff hy.nonempty]
  split_ifs with h1 h2
  · rw [h1] at hx
    rw [hx.eq_con, hzero]
    exact contains_con _
  · rw [h2] at hy
    rw [hy.eq_con, hzero']
    exact contains_con _
  · exact hring hx hy

theorem shiftCount_zero : k.shiftCount (0 : JInt) = 0 := by
  cases k <;> decide

theorem LShiftNode.ranges_contains {r2 : TypeInt} {y : JInt} (hx : r1.Contains x)
    (hy : r2.Contains y) : (LShiftNode.ranges k r1 r2).Contains (x <<< k.shiftCount y) := by
  unfold LShiftNode.ranges
  split_ifs with h1 h2
  · rw [h1] at hx
    rw [hx.eq_con, show (0 : BitVec k.width) <<< k.shiftCount y = 0 from zero_shiftLeft _]
    exact contains_con _
  · rw [h2] at hy
    rw [Contains.eq_con hy, shiftCount_zero, shiftLeft_zero]
    exact hx
  · exact contains_full _
  · exact lshiftRange_contains hx hy

theorem RShiftNode.ranges_contains {shift : BitVec k.width → Nat → BitVec k.width}
    {ends : IntegerType k.width → Nat → BitVec k.width × BitVec k.width}
    (h : CoversShift k shift ends) (hzero : ∀ s, shift 0 s = 0) {r2 : TypeInt} {y : JInt}
    (hx : r1.Contains x) (hy : r2.Contains y) :
    (RShiftNode.ranges k ends r1 r2).Contains (shift x (k.shiftCount y)) := by
  unfold RShiftNode.ranges
  split_ifs with h1 h2
  · rw [h1] at hx
    rw [hx.eq_con, hzero]
    exact contains_con _
  · rw [h2] at hy
    rw [Contains.eq_con hy, shiftCount_zero, h.zero]
    exact hx
  · exact contains_full _
  · exact rshiftRange_contains h hx hy

theorem DivNode.ranges_contains {eqv : Bool} (heqv : eqv = true → x = y) (hne : y ≠ 0#k.width)
    (hx : r1.Contains x) (hy : r2.Contains y) : (DivNode.ranges k eqv r1 r2).Contains (x.sdiv y) := by
  unfold DivNode.ranges
  split_ifs with h hfull
  · have hone : y.sdiv y = 1 := by
      have h0 := toInt_ne_zero hne
      have hsafe : y ≠ BitVec.intMin k.width ∨ y ≠ -1#k.width := by
        by_contra hcontra
        simp only [not_or, not_not] at hcontra
        have hmin := congrArg BitVec.toInt hcontra.1
        have hbound := k.bound_ge
        rw [hcontra.2, toInt_neg_one, toInt_intMin] at hmin
        omega
      apply eq_of_toInt_eq
      rw [toInt_sdiv_of_ne_or_ne _ _ hsafe, Int.tdiv_self h0]
      cases k <;> rfl
    rw [heqv h, hone]
    exact contains_con _
  · exact contains_full _
  · exact div_contains hx hy hne

theorem ModNode.ranges_contains {eqv : Bool} (heqv : eqv = true → x = y) (hne : y ≠ 0#k.width)
    (hx : r1.Contains x) (hy : r2.Contains y) : (ModNode.ranges k eqv r1 r2).Contains (x.srem y) := by
  unfold ModNode.ranges
  split_ifs with h1 h hfull
  · rw [h1] at hx
    have hrem : (0 : BitVec k.width).srem y = 0 := by
      apply eq_of_toInt_eq
      rw [toInt_srem]
      simp
    rw [hx.eq_con, hrem]
    exact contains_con _
  · have hrem : y.srem y = 0 := by
      apply eq_of_toInt_eq
      rw [toInt_srem]
      simp
    rw [heqv h, hrem]
    exact contains_con _
  · exact contains_full _
  · exact mod_contains hx hy hne

end

/-! ## Operations -/

namespace BinOp

/-- `Value` on ranges. -/
def ranges : (op : BinOp) → Bool → IntegerType op.kind.width → IntegerType op.kind2.width →
    IntegerType op.kind.width
  | .add .int, _ => AddINode.ranges
  | .add .long, _ => AddLNode.ranges
  | .sub k, eqv => SubNode.ranges k eqv
  | .mulI, _ => MulNode.ranges .int TypeInt.mulRing
  | .and .int, _ => MulNode.ranges .int TypeInt.andRing
  | .and .long, _ => MulNode.ranges .long TypeLong.andRing
  | .or .int, _ => OrINode.ranges
  | .or .long, _ => OrLNode.ranges
  | .xor .int, _ => XorINode.ranges
  | .xor .long, _ => XorLNode.ranges
  | .minI, _ => MinINode.ranges
  | .maxI, _ => MaxINode.ranges
  | .div k, eqv => DivNode.ranges k eqv
  | .mod k, eqv => ModNode.ranges k eqv
  | .lshift k, _ => LShiftNode.ranges k
  | .rshift k, _ => RShiftNode.ranges k signedShift
  | .urshift k, _ => RShiftNode.ranges k unsignedShift

theorem value_range (op : BinOp) (eqv : Bool) (r1 : IntegerType op.kind.width)
    (r2 : IntegerType op.kind2.width) : op.value eqv (.range op.kind r1) (.range op.kind2 r2) =
      some (.range op.kind (op.ranges eqv r1 r2)) := by
  cases op with
  | add k => cases k <;> exact AddNode.value_range _ r1 r2
  | or k => cases k <;> exact AddNode.value_range _ r1 r2
  | xor k => cases k <;> exact AddNode.value_range _ r1 r2
  | minI => exact AddNode.value_range _ r1 r2
  | maxI => exact AddNode.value_range _ r1 r2
  | sub k => cases k <;> exact SubNode.value_range eqv r1 r2
  | mulI => exact MulNode.value_range _ r1 r2
  | and k => cases k <;> exact MulNode.value_range _ r1 r2
  | div k => cases k <;> exact DivNode.value_range eqv r1 r2
  | mod k => cases k <;> exact ModNode.value_range eqv r1 r2
  | lshift k => cases k <;> exact LShiftNode.value_range r1 r2
  | rshift k => cases k <;> exact RShiftNode.value_range _ r1 r2
  | urshift k => cases k <;> exact RShiftNode.value_range _ r1 r2

theorem ranges_contains (op : BinOp) {eqv : Bool} {r1 : IntegerType op.kind.width}
    {r2 : IntegerType op.kind2.width} {x : BitVec op.kind.width} {y : BitVec op.kind2.width}
    {z : BitVec op.kind.width} (hz : op.compute x y = some z)
    (heqv : eqv = true → JavaValue.of op.kind x = JavaValue.of op.kind2 y)
    (hx : r1.Contains x) (hy : r2.Contains y) : (op.ranges eqv r1 r2).Contains z := by
  have of_inj : ∀ {k : Kind} {a b : BitVec k.width}, JavaValue.of k a = JavaValue.of k b → a = b := by
    intro k a b h
    cases k with
    | int => exact JavaValue.int.inj h
    | long => exact JavaValue.long.inj h
  cases op
  case div k =>
    simp only [compute] at hz
    split at hz
    · cases hz
    next hne =>
      cases hz
      exact DivNode.ranges_contains (fun h => of_inj (heqv h)) hne hx hy
  case mod k =>
    simp only [compute] at hz
    split at hz
    · cases hz
    next hne =>
      cases hz
      exact ModNode.ranges_contains (fun h => of_inj (heqv h)) hne hx hy
  all_goals cases hz
  case add k =>
    cases k with
    | int => exact AddINode.sound.ranges_contains hx hy
    | long => exact AddLNode.sound.ranges_contains hx hy
  case or k =>
    cases k with
    | int => exact OrINode.sound.ranges_contains hx hy
    | long => exact OrLNode.sound.ranges_contains hx hy
  case xor k =>
    cases k with
    | int => exact XorINode.sound.ranges_contains hx hy
    | long => exact XorLNode.sound.ranges_contains hx hy
  case minI => exact MinINode.sound.ranges_contains hx hy
  case maxI => exact MaxINode.sound.ranges_contains hx hy
  case sub k => exact SubNode.ranges_contains (fun h => of_inj (heqv h)) hx hy
  case mulI =>
    exact MulNode.ranges_contains (k := .int) (f := (· * ·)) (fun _ => zero_mul)
      (fun _ => mul_zero) TypeInt.mulRing_contains hx hy
  case and k =>
    cases k with
    | int =>
      exact MulNode.ranges_contains (k := .int) (f := (· &&& ·)) (fun _ => zero_and)
        (fun _ => and_zero) TypeInt.andRing_contains hx hy
    | long =>
      exact MulNode.ranges_contains (k := .long) (f := (· &&& ·)) (fun _ => zero_and)
        (fun _ => and_zero)
        (fun hx hy => IntegerType.andRing_contains (k := .long) hx hy
          (IntegerType.contains_full (k := .long) _)) hx hy
  case lshift k => exact LShiftNode.ranges_contains hx hy
  case rshift k => exact RShiftNode.ranges_contains (coversShift_signed k) (fun _ => zero_sshiftRight) hx hy
  case urshift k => exact RShiftNode.ranges_contains (coversShift_unsigned k) (fun _ => zero_ushiftRight) hx hy

end BinOp

/-! ## No empty ranges -/

namespace IntegerType

theorem con_nonempty (c : BitVec k.width) : (con c).Nonempty := (contains_con c).nonempty

theorem full_nonempty : (full k.width).Nonempty := (contains_full 0).nonempty

theorem pos_nonempty : (pos k.width).Nonempty :=
  (contains_pos (x := 0#k.width) (by rw [toInt_zero])).nonempty

theorem Nonempty.contains_lo {w : Nat} {r : IntegerType w} (h : r.Nonempty) : r.Contains r.lo :=
  ⟨le_rfl, h⟩

theorem sle_iff_nonempty {w : Nat} {r : IntegerType w} : r.lo.sle r.hi = true ↔ r.Nonempty := by
  rw [sle_eq_decide, decide_eq_true_eq, Nonempty]

/-- Also a divisor that is always zero gives some range. -/
theorem div_nonempty {i1 i2 : IntegerType k.width} (h1 : i1.Nonempty) (h2 : i2.Nonempty) :
    (div i1 i2).Nonempty := by
  by_cases hdiv : i2.isCon = true ∧ i2.lo ≠ 0#k.width
  · exact (div_contains h1.contains_lo h2.contains_lo hdiv.2).nonempty
  cases hcon : i1.isCon with
  | false =>
    rw [div_eq_full hcon hdiv]
    exact full_nonempty
  | true =>
    obtain ⟨lo, hi, heq, hlo, hhi⟩ := div_dividend_con hcon hdiv
    have hbound := k.bound_ge
    have habs := abs_nonneg i1.lo.toInt
    rw [heq, Nonempty, make_lo, make_hi, hlo, hhi]
    split <;> omega

theorem mod_nonempty (i1 i2 : IntegerType k.width) : (mod i1 i2).Nonempty := by
  by_cases hcon : i1.isCon = true ∧ i2.isCon = true
  · rw [mod_con hcon.1 hcon.2]
    split
    · exact pos_nonempty
    · exact con_nonempty _
  · rw [mod_of_not_con hcon]
    split
    · exact pos_nonempty
    · exact full_nonempty

end IntegerType

theorem BinOp.ranges_nonempty (op : BinOp) (eqv : Bool) {r1 : IntegerType op.kind.width}
    {r2 : IntegerType op.kind2.width} (h1 : r1.Nonempty) (h2 : r2.Nonempty) :
    (op.ranges eqv r1 r2).Nonempty := by
  -- the range covers what the operation makes of the lower ends, where that is defined
  have total : ∀ z, op.compute r1.lo r2.lo = some z → (op.ranges false r1 r2).Nonempty :=
    fun z hz => (op.ranges_contains hz (Bool.false_ne_true · |>.elim) h1.contains_lo h2.contains_lo).nonempty
  cases op with
  | sub k =>
    cases eqv with
    | false => exact total _ rfl
    | true => exact IntegerType.con_nonempty _
  | div k =>
    simp only [ranges, DivNode.ranges]
    split_ifs
    · exact IntegerType.con_nonempty _
    · exact IntegerType.full_nonempty
    · exact IntegerType.div_nonempty h1 h2
  | mod k =>
    simp only [ranges, ModNode.ranges]
    split_ifs
    · exact IntegerType.con_nonempty _
    · exact IntegerType.con_nonempty _
    · exact IntegerType.full_nonempty
    · exact IntegerType.mod_nonempty _ _
  | add k | or k | xor k | and k => cases k <;> exact total _ rfl
  | mulI | minI | maxI | lshift k | rshift k | urshift k => exact total _ rfl

/-! ## Graphs -/

namespace Ty

/-- The values of a type that is a range. -/
def Contains : Ty → JavaValue → Prop
  | .int r, .int x => r.Contains x
  | .long r, .long x => r.Contains x
  | _, _ => False

theorem contains_of {t : Ty} {x : BitVec k.width} (h : t.Contains (.of k x)) :
    ∃ r : IntegerType k.width, t = .range k r ∧ r.Contains x := by
  cases k with
  | int =>
    cases t with
    | int r => exact ⟨r, rfl, h⟩
    | _ => exact h.elim
  | long =>
    cases t with
    | long r => exact ⟨r, rfl, h⟩
    | _ => exact h.elim

theorem contains_range {r : IntegerType k.width} {x : BitVec k.width} (h : r.Contains x) :
    (Ty.range k r).Contains (.of k x) := by
  cases k <;> exact h

/-- The kind of a range that is not empty. -/
def kind? : Ty → Option Kind
  | .int r => if r.lo.sle r.hi then some .int else none
  | .long r => if r.lo.sle r.hi then some .long else none
  | _ => none

theorem kind?_eq_some {t : Ty} :
    t.kind? = some k ↔ ∃ r : IntegerType k.width, t = .range k r ∧ r.Nonempty := by
  constructor
  · intro h
    cases t with
    | int r =>
      simp only [kind?, ite_none_right_eq_some, some.injEq] at h
      obtain ⟨hle, rfl⟩ := h
      exact ⟨r, rfl, IntegerType.sle_iff_nonempty.mp hle⟩
    | long r =>
      simp only [kind?, ite_none_right_eq_some, some.injEq] at h
      obtain ⟨hle, rfl⟩ := h
      exact ⟨r, rfl, IntegerType.sle_iff_nonempty.mp hle⟩
    | _ => cases h
  · rintro ⟨r, rfl, hr⟩
    have hle := IntegerType.sle_iff_nonempty.mpr hr
    cases k <;> simp [range, kind?, hle]

end Ty

variable {v : JavaValue}

theorem JavaValue.as_eq_some {x : BitVec k.width} (h : v.as k = some x) : v = .of k x := by
  cases k <;> cases v <;> cases h <;> rfl

theorem BinOp.eval_eq_some {op : BinOp} {v1 v2 : JavaValue} (h : op.eval v1 v2 = some v) :
    ∃ x y z, v1 = .of op.kind x ∧ v2 = .of op.kind2 y ∧ op.compute x y = some z ∧
      v = .of op.kind z := by
  simp only [eval, bind_eq_bind, bind_eq_some_iff, pure_def,
    some.injEq] at h
  obtain ⟨x, hx, y, hy, z, hz, rfl⟩ := h
  exact ⟨x, y, z, JavaValue.as_eq_some hx, JavaValue.as_eq_some hy, hz, rfl⟩

/-- `Value` is sound: the result of the operation has the type that is computed. -/
theorem BinOp.value_sound {op : BinOp} {eqv : Bool} {t1 t2 : Ty} {v1 v2 : JavaValue}
    (h : op.eval v1 v2 = some v) (heqv : eqv = true → v1 = v2) (h1 : t1.Contains v1)
    (h2 : t2.Contains v2) : ∃ t, op.value eqv t1 t2 = some t ∧ t.Contains v := by
  obtain ⟨x, y, z, rfl, rfl, hz, rfl⟩ := eval_eq_some h
  obtain ⟨r1, rfl, hx⟩ := Ty.contains_of h1
  obtain ⟨r2, rfl, hy⟩ := Ty.contains_of h2
  exact ⟨_, op.value_range eqv r1 r2, Ty.contains_range (op.ranges_contains hz heqv hx hy)⟩

/-- `Value` of ranges of the right kinds is a range, and not an empty one. -/
theorem BinOp.value_kind (op : BinOp) (eqv : Bool) {t1 t2 : Ty} (h1 : t1.kind? = some op.kind)
    (h2 : t2.kind? = some op.kind2) : ∃ t, op.value eqv t1 t2 = some t ∧ t.kind? = some op.kind := by
  obtain ⟨r1, rfl, hr1⟩ := Ty.kind?_eq_some.mp h1
  obtain ⟨r2, rfl, hr2⟩ := Ty.kind?_eq_some.mp h2
  exact ⟨_, op.value_range eqv r1 r2, Ty.kind?_eq_some.mpr ⟨_, rfl, op.ranges_nonempty eqv hr1 hr2⟩⟩

/-- The kind of a node whose inputs have the kinds its operation takes. -/
def Node.kindOf (kinds : List Kind) : Node → Option Kind
  | .leaf t => t.kind?
  | .bin op in1 in2 =>
    if kinds[in1]? = some op.kind ∧ kinds[in2]? = some op.kind2 then some op.kind else none

namespace Graph

/-- The kinds of all nodes of a graph that is well-typed and has no empty leaf. -/
def kindsFrom (kinds : List Kind) : List Node → Option (List Kind)
  | [] => some kinds
  | n :: ns => do
    let k ← n.kindOf kinds
    kindsFrom (kinds ++ [k]) ns

def kinds (ns : List Node) : Option (List Kind) := kindsFrom [] ns

variable {ts : List Ty}

/-- A node of a well-typed graph gets a type of its kind. -/
theorem typeOf_step {ks : List Kind} {n : Node} {kind : Kind}
    (hts : List.Forall₂ (fun k t => Ty.kind? t = some k) ks ts) (hkind : n.kindOf ks = some kind) :
    ∃ t, n.typeOf ts = some t ∧ t.kind? = some kind := by
  cases n with
  | leaf t => exact ⟨t, rfl, hkind⟩
  | bin op in1 in2 =>
    simp only [Node.kindOf, ite_none_right_eq_some, some.injEq] at hkind
    obtain ⟨⟨hin1, hin2⟩, rfl⟩ := hkind
    have lookup : ∀ {i : Nat} {k : Kind}, ks[i]? = some k → ∃ t, ts[i]? = some t ∧ t.kind? = some k := by
      intro i k hi
      obtain ⟨hlt, rfl⟩ := List.getElem?_eq_some_iff.mp hi
      have hlt' : i < ts.length := hts.length_eq ▸ hlt
      exact ⟨ts[i], List.getElem?_eq_getElem hlt', hts.get hlt hlt'⟩
    obtain ⟨t1, ht1, hk1⟩ := lookup hin1
    obtain ⟨t2, ht2, hk2⟩ := lookup hin2
    obtain ⟨t, ht, hk⟩ := op.value_kind (in1 = in2) hk1 hk2
    refine ⟨t, ?_, hk⟩
    simp only [Node.typeOf, ht1, ht2, some_bind, ht]

/-- A value that a node computes has the type the node gets. -/
theorem valueOf_step {vs : List JavaValue} {n : Node} {t : Ty} {input v : JavaValue}
    (hvs : List.Forall₂ Ty.Contains ts vs) (hleaf : ∀ t, n = .leaf t → t.Contains input)
    (ht : n.typeOf ts = some t) (hv : n.valueOf input vs = some v) : t.Contains v := by
  cases n with
  | leaf t' =>
    obtain rfl := some.inj ht
    obtain rfl := some.inj hv
    exact hleaf t' rfl
  | bin op in1 in2 =>
    simp only [Node.typeOf, Node.valueOf, bind_eq_bind, bind_eq_some_iff] at ht hv
    obtain ⟨t1, ht1, t2, ht2, ht⟩ := ht
    obtain ⟨v1, hv1, v2, hv2, hv⟩ := hv
    have lookup : ∀ {i : Nat} {t : Ty} {v : JavaValue}, ts[i]? = some t → vs[i]? = some v → t.Contains v := by
      intro i t v hi hi'
      obtain ⟨hlt, rfl⟩ := List.getElem?_eq_some_iff.mp hi
      obtain ⟨hlt', rfl⟩ := List.getElem?_eq_some_iff.mp hi'
      exact hvs.get hlt hlt'
    have heqv : decide (in1 = in2) = true → v1 = v2 := by
      intro h
      rw [of_decide_eq_true h, hv2] at hv1
      exact (some.inj hv1).symm
    obtain ⟨t', ht', hmem⟩ := BinOp.value_sound hv heqv (lookup ht1 hv1) (lookup ht2 hv2)
    rw [ht] at ht'
    obtain rfl := some.inj ht'
    exact hmem

theorem typesFrom_kinds (ns : List Node) {ks ks' : List Kind}
    (hts : List.Forall₂ (fun k t => Ty.kind? t = some k) ks ts) (hks : kindsFrom ks ns = some ks') :
    ∃ ts', typesFrom ts ns = some ts' ∧ List.Forall₂ (fun k t => Ty.kind? t = some k) ks' ts' := by
  induction ns generalizing ks ts with
  | nil =>
    cases hks
    exact ⟨ts, rfl, hts⟩
  | cons n ns ih =>
    simp only [kindsFrom, bind_eq_bind, bind_eq_some_iff] at hks
    obtain ⟨kind, hkind, hks⟩ := hks
    obtain ⟨t, ht, hk⟩ := typeOf_step hts hkind
    obtain ⟨ts', hts', hall⟩ := ih (List.rel_append hts (.cons hk .nil)) hks
    exact ⟨ts', by simp only [typesFrom, ht, some_bind, hts'], hall⟩

theorem valuesFrom_contains (ns : List Node) {input : Nat → JavaValue} {ts' : List Ty}
    {vs vs' : List JavaValue} (hvs : List.Forall₂ Ty.Contains ts vs)
    (hleaf : ∀ (i : Nat) (t : Ty), ns[i]? = some (.leaf t) → t.Contains (input (vs.length + i)))
    (hts' : typesFrom ts ns = some ts') (hvs' : valuesFrom input vs ns = some vs') :
    List.Forall₂ Ty.Contains ts' vs' := by
  induction ns generalizing ts vs with
  | nil =>
    cases hts'
    cases hvs'
    exact hvs
  | cons n ns ih =>
    simp only [typesFrom, valuesFrom, bind_eq_bind, bind_eq_some_iff] at hts' hvs'
    obtain ⟨t, ht, hts'⟩ := hts'
    obtain ⟨v, hv, hvs'⟩ := hvs'
    have hmem : t.Contains v := by
      refine valueOf_step hvs (fun t' hn => ?_) ht hv
      exact hleaf 0 t' (by rw [hn]; rfl)
    refine ih (List.rel_append hvs (.cons hmem .nil)) ?_ hts' hvs'
    intro i t' hi
    rw [List.length_append, List.length_singleton, Nat.add_assoc, Nat.add_comm 1]
    exact hleaf (i + 1) t' hi

/-- Every well-typed graph over ranges that are not empty gets types that are not empty, and
whatever values its leaves have in their ranges, every value it computes has the type of its
node. -/
theorem types_sound (ns : List Node) (ks : List Kind) (hks : kinds ns = some ks) :
    ∃ ts, types ns = some ts ∧ List.Forall₂ (fun k t => Ty.kind? t = some k) ks ts ∧
      ∀ (input : Nat → JavaValue) (vs : List JavaValue),
        (∀ (i : Nat) (t : Ty), ns[i]? = some (.leaf t) → t.Contains (input i)) →
        values input ns = some vs → List.Forall₂ Ty.Contains ts vs := by
  obtain ⟨ts, hts, hall⟩ := typesFrom_kinds ns .nil hks
  refine ⟨ts, hts, hall, ?_⟩
  intro input vs hleaf hvs
  refine valuesFrom_contains ns .nil ?_ hts hvs
  intro i t hi
  rw [List.length_nil, Nat.zero_add]
  exact hleaf i t hi

/-- `(x + y) - (x + y)` and `x / y`, with `x` from 0 to 9 and `y` from 1 to 3. -/
theorem types_sound_shared :
    ∃ ts, types [.leaf (.int ⟨0, 9, 1⟩), .leaf (.int ⟨1, 3, 0⟩), .bin (.add .int) 0 1,
        .bin (.sub .int) 2 2, .bin (.div .int) 0 1] = some ts ∧
      List.Forall₂ Ty.Contains ts [.int 7, .int 2, .int 9, .int 0, .int 3] := by
  obtain ⟨ts, hts, -, hsound⟩ := types_sound
    [.leaf (.int ⟨0, 9, 1⟩), .leaf (.int ⟨1, 3, 0⟩), .bin (.add .int) 0 1,
      .bin (.sub .int) 2 2, .bin (.div .int) 0 1] [.int, .int, .int, .int, .int] (by decide)
  refine ⟨ts, hts, hsound (fun i => if i = 0 then .int 7 else .int 2) _ ?_ (by decide)⟩
  intro i t hi
  match i, hi with
  | 0, hi => cases hi; exact ⟨by decide, by decide⟩
  | 1, hi => cases hi; exact ⟨by decide, by decide⟩
  | 2, hi => cases hi
  | 3, hi => cases hi
  | 4, hi => cases hi
  | i + 5, hi => cases hi

end Graph

end Hotspot.Opto
