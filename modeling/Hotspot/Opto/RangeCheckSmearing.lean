-- SUMMARY: Range-check smearing: the dominating checks, and when accesses stay guarded.
import Hotspot.Base.JavaTypes
import Hotspot.Base.WrappingOffsets

/-!
# Range-check smearing

A range check that is dominated by others of the same array and index may be removed if
dominating ones are widened to cover it. `IfNode::Ideal` scans the dominating checks upwards
for the lowest and the highest constant offset, lets the topmost check test the lowest
offset and the one below it the highest, and removes the check at the bottom.

The code is a straight chain of checks, each with the accesses that depend on it. An access
is made as soon as its check has passed; the access of the removed check then depends on the
check that dominates it. The chain has one array, and its subscripts one index.
-/

namespace Hotspot.Opto

open List

namespace RangeCheck

/-! ## Range checks -/

/-- The node that is compared with the array length. -/
inductive Subscript where
  | con (c : JInt)
  | node (idx : Nat)
  | addI (in1 in2 : Subscript)
  deriving DecidableEq, Repr

namespace Subscript

def findIntCon (valueIfUnknown : JInt) : Subscript → JInt
  | con c => c
  | _ => valueIfUnknown

/-- The index and the constant offset that `is_range_check` finds. -/
def indexAndOffset (l : Subscript) : Option Subscript × JInt :=
  match l with
  | addI in1 in2 =>
    if in1.findIntCon 0 ≠ 0 then (some in2, in1.findIntCon 0)
    else if in2.findIntCon 0 ≠ 0 then (some in1, in2.findIntCon 0)
    else (some l, 0)
  | _ =>
    -- a constant offset with no variable index
    if 0 ≤ (l.findIntCon (-1)).toInt then (none, l.findIntCon (-1))
    else (some l, 0)

end Subscript

/-- An `IfNode` that is a range check. `test` is the identity of its `Bool`, `flip` its form. -/
structure Check where
  test : Nat
  flip : Bool
  subscript : Subscript

def Check.offset (c : Check) : JInt := c.subscript.indexAndOffset.2

/-- A check with the checks that dominate it, from the top down. -/
structure Chain where
  index : Option Subscript
  above : List Check
  this : Check
  common_index : ∀ c ∈ this :: above, c.subscript.indexAndOffset.1 = index
  same_test : ∀ c ∈ this :: above, ∀ d ∈ this :: above, c.test = d.test →
    c.flip = d.flip ∧ c.subscript = d.subscript

/-! ## IfNode::Ideal -/

def minInt (x y : JInt) : JInt := if x.toInt < y.toInt then x else y
def maxInt (x y : JInt) : JInt := if x.toInt > y.toInt then x else y

/-- What the scan has seen; checks stand by their places in the chain. -/
structure Scan where
  offLo : JInt
  offHi : JInt
  prevChk1 : Option Nat
  prevChk2 : Option Nat

def Scan.step (this : Check) (s : Scan) (dom : Check × Nat) : Scan :=
  -- the index and the range match in the whole chain
  if dom.1.flip = this.flip then
    { offLo := minInt s.offLo dom.1.offset
      offHi := maxInt s.offHi dom.1.offset
      prevChk1 := some dom.2
      -- a check that matches exactly is taken for both
      prevChk2 := if dom.1.test = this.test then some dom.2 else s.prevChk1 }
  else s

/-- The steps of the scan: one for the projection of a check and one for the check itself. -/
def scanLimit : Nat := 999

/-- A check in the code: the offset that it tests, and the offsets of the accesses made then. -/
structure Guard where
  test : JInt
  accesses : List JInt
  deriving DecidableEq, Repr

namespace Chain

variable (ch : Chain)

def scan : Scan :=
  (ch.above.zipIdx.reverse.take (scanLimit / 2)).foldl (Scan.step ch.this)
    ⟨ch.this.offset, ch.this.offset, none, none⟩

def original : List Guard := (ch.above ++ [ch.this]).map fun c => ⟨c.offset, [c.offset]⟩

end Chain

/-! ## Running a chain -/

/-- The subscripts of the accesses that are made until a check traps. -/
def accessed (i length : JInt) : List Guard → List JInt
  | [] => []
  | g :: gs => if i + g.test < length then g.accesses.map (i + ·) ++ accessed i length gs else []

/-- No check traps. -/
def Completes (i length : JInt) (gs : List Guard) : Prop := ∀ g ∈ gs, i + g.test < length

/-- All accesses of the new code are in bounds, and if no check traps they are those of the old code. -/
def Chain.Sound (ch : Chain) (code : List Guard) : Prop :=
  ∀ i length : JInt, (ch.index = none → i = 0) → 0 ≤ length.toInt →
    (∀ x ∈ accessed i length code, 0 ≤ x.toInt ∧ x.toInt < length.toInt) ∧
    (Completes i length ch.original → Completes i length code →
      (accessed i length code).Perm (accessed i length ch.original))

/-! ## Accesses in bounds -/

variable {len : JInt}

namespace Chain

variable {ch : Chain}

/-- The checks of the same form among those that the scan gets to, from the top down. -/
def matched (ch : Chain) : List (Check × Nat) :=
  (ch.above.zipIdx.drop (ch.above.length - scanLimit / 2)).filter fun c => c.1.flip = ch.this.flip

@[irreducible]
def highest (ch : Chain) : JInt := ch.matched.foldr (fun c o => maxInt o c.1.offset) ch.this.offset

variable {tests : Nat → JInt → JInt} {tg k : Nat}

end Chain

/-! ## Accesses that escape -/

end RangeCheck

end Hotspot.Opto
