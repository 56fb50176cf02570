-- SUMMARY: The tests of a compare: negated, commuted, and their outcome on words.
import Hotspot.Base.JavaTypes

/-!
# Tests

A `Bool` node tests the outcome of a compare. `CmpI` compares its inputs as signed words and
`CmpU` as unsigned ones.
-/

namespace Hotspot.Opto

inductive BoolTest where
  | eq | gt | lt | ne | le | ge
deriving DecidableEq, Repr

namespace BoolTest

def negate : BoolTest → BoolTest
  | .eq => .ne
  | .gt => .le
  | .lt => .ge
  | .ne => .eq
  | .le => .gt
  | .ge => .lt

def commute : BoolTest → BoolTest
  | .eq => .eq
  | .gt => .lt
  | .lt => .gt
  | .ne => .ne
  | .le => .ge
  | .ge => .le

/-- The outcome of a `CmpI` of two values under the test. -/
def holds : BoolTest → JInt → JInt → Bool
  | .eq, a, b => a == b
  | .gt, a, b => b.slt a
  | .lt, a, b => a.slt b
  | .ne, a, b => a != b
  | .le, a, b => a.sle b
  | .ge, a, b => b.sle a

@[simp] theorem holds_negate (t : BoolTest) (a b : JInt) : t.negate.holds a b = !t.holds a b := by
  cases t <;> simp [negate, holds, BitVec.sle_eq_not_slt, bne]

@[simp] theorem holds_commute (t : BoolTest) (a b : JInt) : t.commute.holds a b = t.holds b a := by
  cases t <;> simp [commute, holds, bne, BEq.comm]

/-- The outcome of a `CmpU` of two values under the test. -/
def holdsU : BoolTest → JInt → JInt → Bool
  | .eq, a, b => a == b
  | .gt, a, b => b.ult a
  | .lt, a, b => a.ult b
  | .ne, a, b => a != b
  | .le, a, b => a.ule b
  | .ge, a, b => b.ule a

@[simp] theorem holdsU_negate (t : BoolTest) (a b : JInt) : t.negate.holdsU a b = !t.holdsU a b := by
  cases t <;> simp [negate, holdsU, BitVec.ule_eq_not_ult, bne]

@[simp] theorem holdsU_commute (t : BoolTest) (a b : JInt) : t.commute.holdsU a b = t.holdsU b a := by
  cases t <;> simp [commute, holdsU, bne, BEq.comm]

/-- The outcome of a compare of either kind. -/
def outcome (unsigned : Bool) (t : BoolTest) (a b : JInt) : Bool :=
  if unsigned then t.holdsU a b else t.holds a b

end BoolTest

end Hotspot.Opto
