-- SUMMARY: The Value functions of int and long nodes, and the Java operations.
import Hotspot.Opto.Type

/-!
# Integer nodes

The `Value` functions of the int and long nodes compute a type for a node from the
types of its two inputs. The int and long versions of a node are the same function at
two widths, except for the special cases of `TypeInt::BOOL`.

`phase->eqv(in(1), in(2))`, which asks whether both inputs are one node, is a flag.
-/

namespace Hotspot.Opto

open BitVec (intMin intMax)

/-! ## Two widths -/

inductive Kind where
  | int
  | long
  deriving DecidableEq, Repr

/-- `BitsPerJavaInteger`, and twice that. -/
abbrev Kind.width : Kind → Nat
  | .int => 32
  | .long => 64

/-- The bits of a shift count that Java looks at. -/
def Kind.shiftCount (k : Kind) (count : JInt) : Nat := (count &&& BitVec.ofNat 32 (k.width - 1)).toNat

namespace Ty

/-- A range as a type. -/
def range : (k : Kind) → IntegerType k.width → Ty
  | .int, r => .int r
  | .long, r => .long r

/-- `is_int()` and `is_long()`, which assert the kind of the type. -/
def isRange : (k : Kind) → Ty → Option (IntegerType k.width)
  | .int, .int r => some r
  | .long, .long r => some r
  | _, _ => none

/-- `t->higher_equal(u)`: the meet with `u` is `u`. -/
def higherEqual (t u : Ty) : Option Bool := (t.xmeet u).map fun m => decide (m = u)

end Ty

/-! ## Making ranges -/

namespace IntegerType

variable {w : Nat}

/-- Small ranges do not count widenings, and the full range has had them all. -/
def make (lo hi : BitVec w) (widen : Widen) : IntegerType w :=
  let widen := if lo.sle hi && (hi - lo).toNat ≤ 3 then WidenMin else widen
  let widen := if lo.sle hi && (hi - lo).toNat ≥ 2 ^ w - 1 then WidenMax else widen
  ⟨lo, hi, widen⟩

/-- `make` of one value. -/
def con (c : BitVec w) : IntegerType w := ⟨c, c, WidenMin⟩

/-- `TypeInt::INT` and `TypeLong::LONG`. -/
def full (w : Nat) : IntegerType w := ⟨intMin w, intMax w, WidenMax⟩

/-- `TypeInt::POS` and `TypeLong::POS`. -/
def pos (w : Nat) : IntegerType w := ⟨0, intMax w, WidenMin⟩

def isCon (r : IntegerType w) : Bool := r.lo = r.hi

/-- The widen bits of a binary result. -/
def widen2 {w' : Nat} (r0 : IntegerType w) (r1 : IntegerType w') : Widen := max r0.widen r1.widen

end IntegerType

def TypeInt.bool : TypeInt := ⟨0, 1, WidenMin⟩

def TypeInt.one : TypeInt := .con 1

/-! ## AddNode -/

/-- What the subclasses of `AddNode` define. `bottom_type` is the full range for all of them. -/
structure AddNode (k : Kind) where
  addId : IntegerType k.width
  addRing : IntegerType k.width → IntegerType k.width → IntegerType k.width

def AddNode.value {k : Kind} (n : AddNode k) (t1 t2 : Ty) : Option Ty :=
  let bot := Ty.range k (.full k.width)
  let zero := Ty.range k n.addId
  if t1 = .top then some .top
  else if t2 = .top then some .top
  else if t1 = bot ∨ t2 = bot ∨ t1 = .bottom ∨ t2 = .bottom then some bot
  else do
    -- an addition of the identity has the type of the other input
    if ← t1.higherEqual zero then some t2
    else if ← t2.higherEqual zero then some t1
    else
      let r0 ← t1.isRange k
      let r1 ← t2.isRange k
      some (.range k (n.addRing r0 r1))

namespace IntegerType

variable {w : Nat}

/-- The sums of the ends, or everything if one of them overflows. Two constants wrap around. -/
def addRing (r0 r1 : IntegerType w) : IntegerType w :=
  let lo := r0.lo + r1.lo
  let hi := r0.hi + r1.hi
  if !(r0.isCon && r1.isCon) then
    if (r0.lo &&& r1.lo).slt 0 && !lo.slt 0 then
      make (intMin w) (intMax w) (widen2 r0 r1)
    else if (~~~(r0.hi ||| r1.hi)).slt 0 && hi.slt 0 then
      make (intMin w) (intMax w) (widen2 r0 r1)
    else if hi.slt lo then make (intMin w) (intMax w) (widen2 r0 r1)
    else make lo hi (widen2 r0 r1)
  else make lo hi (widen2 r0 r1)

/-- `OrLNode::add_ring` and `XorLNode::add_ring`: fold constants. -/
def foldRing (f : BitVec w → BitVec w → BitVec w) (r0 r1 : IntegerType w) : IntegerType w :=
  if !r0.isCon || !r1.isCon then full w
  else con (f r0.lo r1.lo)

def maxRing (r0 r1 : IntegerType w) : IntegerType w :=
  make (max2 r0.lo r1.lo) (max2 r0.hi r1.hi) (widen2 r0 r1)

def minRing (r0 r1 : IntegerType w) : IntegerType w :=
  make (min2 r0.lo r1.lo) (min2 r0.hi r1.hi) (widen2 r0 r1)

end IntegerType

/-- `OrINode::add_ring`, which knows more about booleans than `OrLNode`. -/
def TypeInt.orRing (r0 r1 : TypeInt) : TypeInt :=
  if r0 = TypeInt.bool ∧ r1 = TypeInt.one then TypeInt.one
  else if r0 = TypeInt.bool ∧ r1 = TypeInt.bool then TypeInt.bool
  else if r0 = TypeInt.one ∧ r1 = TypeInt.bool then TypeInt.one
  else IntegerType.foldRing (· ||| ·) r0 r1

/-- `XorINode::add_ring`. A boolean is looked for on the left only. -/
def TypeInt.xorRing (r0 r1 : TypeInt) : TypeInt :=
  if r0 = TypeInt.bool ∧ (r1 = TypeInt.one ∨ r1 = TypeInt.bool) then TypeInt.bool
  else IntegerType.foldRing (· ^^^ ·) r0 r1

def AddINode : AddNode .int := ⟨.con 0, .addRing⟩

def AddLNode : AddNode .long := ⟨.con 0, .addRing⟩

def OrINode : AddNode .int := ⟨.con 0, TypeInt.orRing⟩

def OrLNode : AddNode .long := ⟨.con 0, .foldRing (· ||| ·)⟩

def XorINode : AddNode .int := ⟨.con 0, TypeInt.xorRing⟩

def XorLNode : AddNode .long := ⟨.con 0, .foldRing (· ^^^ ·)⟩

def MaxINode : AddNode .int := ⟨.con (intMin 32), .maxRing⟩

def MinINode : AddNode .int := ⟨.con (intMax 32), .minRing⟩

/-! ## SubNode -/

/-- `SubINode::sub` and `SubLNode::sub`: the signs tell whether an end overflows. -/
def IntegerType.sub {w : Nat} (r0 r1 : IntegerType w) : IntegerType w :=
  let lo := r0.lo - r1.hi
  let hi := r0.hi - r1.lo
  if (!(r0.lo ^^^ r1.hi).slt 0 || !(r0.lo ^^^ lo).slt 0) &&
      (!(r0.hi ^^^ r1.lo).slt 0 || !(r0.hi ^^^ hi).slt 0) then
    make lo hi (widen2 r0 r1)
  else full w

/-- `SubNode::Value`, without the test for a node that is its own input. -/
def SubNode.value (k : Kind) (eqv : Bool) (t1 t2 : Ty) : Option Ty :=
  if t1 = .top then some .top
  else if t2 = .top then some .top
  else if eqv then some (.range k (.con 0))
  else if t1 = .bottom ∨ t2 = .bottom then some (.range k (.full k.width))
  else do
    let r0 ← t1.isRange k
    let r1 ← t2.isRange k
    some (.range k (r0.sub r1))

def SubINode.value : Bool → Ty → Ty → Option Ty := SubNode.value .int

def SubLNode.value : Bool → Ty → Ty → Option Ty := SubNode.value .long

/-! ## MulNode -/

/-- The integer case of `MulNode::Value`, where zero annihilates. -/
def MulNode.value (k : Kind) (mulRing : IntegerType k.width → IntegerType k.width → IntegerType k.width)
    (t1 t2 : Ty) : Option Ty :=
  let zero := Ty.range k (.con 0)
  if t1 = .top then some .top
  else if t2 = .top then some .top
  else do
    if ← t1.higherEqual zero then some zero
    else if ← t2.higherEqual zero then some zero
    else if t1 = .bottom ∨ t2 = .bottom then some (.range k (.full k.width))
    else
      let r0 ← t1.isRange k
      let r1 ← t2.isRange k
      some (.range k (mulRing r0 r1))

/-- The 32-bit product differs from the exact one. -/
def mulOverflows (a b : JInt) : Bool := (a * b).toInt ≠ a.toInt * b.toInt

/-- `MulINode::mul_ring`: the hull of the products of the ends, if none overflows. -/
def TypeInt.mulRing (r0 r1 : TypeInt) : TypeInt :=
  let A := r0.lo * r1.lo
  let B := r0.lo * r1.hi
  let C := r0.hi * r1.lo
  let D := r0.hi * r1.hi
  if mulOverflows r0.lo r1.lo then .full 32
  else if mulOverflows r0.lo r1.hi then .full 32
  else if mulOverflows r0.hi r1.lo then .full 32
  else if mulOverflows r0.hi r1.hi then .full 32
  else
    -- sort the range endpoints
    let lo0 := if A.slt B then A else B
    let hi0 := if A.slt B then B else A
    if C.slt D then
      .make (if C.slt lo0 then C else lo0) (if hi0.slt D then D else hi0) (r0.widen2 r1)
    else
      .make (if D.slt lo0 then D else lo0) (if hi0.slt C then C else hi0) (r0.widen2 r1)

namespace IntegerType

variable {w : Nat}

/-- `AndLNode::mul_ring`, and `AndINode::mul_ring` up to its last test: a constant mask
bounds the result if it is positive. `other` is the result if nothing is known. -/
def andRing (other : IntegerType w) (r0 r1 : IntegerType w) : IntegerType w :=
  if !r0.isCon && !r1.isCon then full w
  else if r0.isCon && r1.isCon then con (r0.lo &&& r1.lo)
  else if r0.isCon && (0#w).slt r0.lo then make 0 r0.lo (widen2 r0 r1)
  else if r1.isCon && (0#w).slt r1.lo then make 0 r1.lo (widen2 r0 r1)
  else other

end IntegerType

def TypeInt.andRing (r0 r1 : TypeInt) : TypeInt :=
  IntegerType.andRing (if r0 = TypeInt.bool ∨ r1 = TypeInt.bool then TypeInt.bool else .full 32) r0 r1

def TypeLong.andRing (r0 r1 : TypeLong) : TypeLong := IntegerType.andRing (.full 64) r0 r1

def MulINode.value : Ty → Ty → Option Ty := MulNode.value .int TypeInt.mulRing

def AndINode.value : Ty → Ty → Option Ty := MulNode.value .int TypeInt.andRing

def AndLNode.value : Ty → Ty → Option Ty := MulNode.value .long TypeLong.andRing

/-! ## Shift nodes -/

/-- A left shift by a constant shifts the ends, unless that loses bits. -/
def LShiftNode.shiftRange (k : Kind) (r1 : IntegerType k.width) (r2 : TypeInt) :
    IntegerType k.width :=
  if !r2.isCon then .full k.width
  else
    let shift := k.shiftCount r2.lo
    if shift = 0 then r1
    else if !r1.isCon then
      if (r1.lo <<< shift).sshiftRight shift = r1.lo ∧ (r1.hi <<< shift).sshiftRight shift = r1.hi then
        .make (r1.lo <<< shift) (r1.hi <<< shift) (r1.widen2 r2)
      else .full k.width
    else .con (r1.lo <<< shift)

def LShiftNode.value (k : Kind) (t1 t2 : Ty) : Option Ty :=
  if t1 = .top then some .top
  else if t2 = .top then some .top
  else if t1 = .range k (.con 0) then some (.range k (.con 0))
  else if t2 = .int (.con 0) then some t1
  else if t1 = .range k (.full k.width) ∨ t2 = .int (.full 32) ∨ t1 = .bottom ∨ t2 = .bottom then
    some (.range k (.full k.width))
  else do
    let r1 ← t1.isRange k
    let r2 ← t2.isRange .int
    some (.range k (LShiftNode.shiftRange k r1 r2))

def LShiftINode.value : Ty → Ty → Option Ty := LShiftNode.value .int

def LShiftLNode.value : Ty → Ty → Option Ty := LShiftNode.value .long

/-- The ends of a range shifted right with the sign. -/
def signedShift {w : Nat} (r1 : IntegerType w) (shift : Nat) : BitVec w × BitVec w :=
  (r1.lo.sshiftRight shift, r1.hi.sshiftRight shift)

/-- The ends of a range shifted right without the sign. A range with both signs is
shifted as two halves. -/
def unsignedShift {w : Nat} (r1 : IntegerType w) (shift : Nat) : BitVec w × BitVec w :=
  let lo := r1.lo >>> shift
  let hi := r1.hi >>> shift
  if !r1.hi.slt 0 && r1.lo.slt 0 then
    let negLo := lo
    let negHi := BitVec.allOnes w >>> shift
    let posLo := 0#w >>> shift
    let posHi := hi
    (min2 negLo posLo, max2 negHi posHi)
  else (lo, hi)

/-- A right shift by a constant shifts the ends. -/
def RShiftNode.shiftRange (k : Kind)
    (ends : IntegerType k.width → Nat → BitVec k.width × BitVec k.width)
    (r1 : IntegerType k.width) (r2 : TypeInt) : IntegerType k.width :=
  if r2.isCon then
    let shift := k.shiftCount r2.lo
    if shift = 0 then r1
    else
      let (lo, hi) := ends r1 shift
      .make lo hi (r1.widen2 r2)
  else .full k.width

/-- What both right shifts share. With a variable count the code behind the constant case
gives up. -/
def RShiftNode.value (k : Kind)
    (ends : IntegerType k.width → Nat → BitVec k.width × BitVec k.width)
    (t1 t2 : Ty) : Option Ty :=
  if t1 = .top then some .top
  else if t2 = .top then some .top
  else if t1 = .range k (.con 0) then some (.range k (.con 0))
  else if t2 = .int (.con 0) then some t1
  else if t1 = .bottom ∨ t2 = .bottom then some (.range k (.full k.width))
  else if t2 = .int (.full 32) then some (.range k (.full k.width))
  else do
    let r1 ← t1.isRange k
    let r2 ← t2.isRange .int
    some (.range k (RShiftNode.shiftRange k ends r1 r2))

def RShiftINode.value : Ty → Ty → Option Ty := RShiftNode.value .int signedShift

def RShiftLNode.value : Ty → Ty → Option Ty := RShiftNode.value .long signedShift

def URShiftINode.value : Ty → Ty → Option Ty := RShiftNode.value .int unsignedShift

def URShiftLNode.value : Ty → Ty → Option Ty := RShiftNode.value .long unsignedShift

/-! ## Division and remainder -/

namespace IntegerType

variable {w : Nat}

/-- The range of a quotient: exact ends for a constant divisor, and the dividend with
both signs for a constant dividend. The smallest integer divided by `-1` is itself. -/
def div (i1 i2 : IntegerType w) : IntegerType w :=
  let widen := widen2 i1 i2
  if i2.isCon && i2.lo ≠ 0#w then
    let d := i2.lo
    if !d.slt 0 then make (i1.lo.sdiv d) (i1.hi.sdiv d) widen
    else if d = -1#w ∧ i1.lo = intMin w then
      make (intMin w) (if i1.hi = intMin w then intMin w else intMax w) widen
    else make (i1.hi.sdiv d) (i1.lo.sdiv d) widen
  else if i1.isCon then
    let d := i1.lo
    if d.slt 0 then
      if d = intMin w then make (intMin w) ((intMax w).sdiv 2#w + 1#w) widen
      else make d (-d) widen
    else make (-d) d widen
  else full w

/-- The range of a remainder: two constants fold, two nonnegative ranges stay nonnegative. -/
def mod (i1 i2 : IntegerType w) : IntegerType w :=
  if !i1.isCon || !i2.isCon then
    if !i1.lo.slt 0 && !i2.lo.slt 0 then pos w
    else full w
  else if i2.lo = 0#w then pos w
  else if i1.lo = intMin w ∧ i2.lo = -1#w then con 0#w
  else con (i1.lo.srem i2.lo)

end IntegerType

def DivNode.value (k : Kind) (eqv : Bool) (t1 t2 : Ty) : Option Ty :=
  let bot := Ty.range k (.full k.width)
  if t1 = .top then some .top
  else if t2 = .top then some .top
  else if eqv then some (.range k (.con 1))
  else if t1 = bot ∨ t2 = bot ∨ t1 = .bottom ∨ t2 = .bottom then some bot
  else do
    let i1 ← t1.isRange k
    let i2 ← t2.isRange k
    some (.range k (i1.div i2))

def DivINode.value : Bool → Ty → Ty → Option Ty := DivNode.value .int

def DivLNode.value : Bool → Ty → Ty → Option Ty := DivNode.value .long

def ModNode.value (k : Kind) (eqv : Bool) (t1 t2 : Ty) : Option Ty :=
  let bot := Ty.range k (.full k.width)
  if t1 = .top then some .top
  else if t2 = .top then some .top
  else if t1 = .range k (.con 0) then some (.range k (.con 0))
  else if eqv then some (.range k (.con 0))
  else if t1 = bot ∨ t2 = bot ∨ t1 = .bottom ∨ t2 = .bottom then some bot
  else do
    let i1 ← t1.isRange k
    let i2 ← t2.isRange k
    some (.range k (i1.mod i2))

def ModINode.value : Bool → Ty → Ty → Option Ty := ModNode.value .int

def ModLNode.value : Bool → Ty → Ty → Option Ty := ModNode.value .long

/-! ## Operations and their values -/

/-- The binary integer nodes. -/
inductive BinOp where
  | add (k : Kind)
  | sub (k : Kind)
  | mulI
  | and (k : Kind)
  | or (k : Kind)
  | xor (k : Kind)
  | minI
  | maxI
  | div (k : Kind)
  | mod (k : Kind)
  | lshift (k : Kind)
  | rshift (k : Kind)
  | urshift (k : Kind)
  deriving DecidableEq, Repr

namespace BinOp

/-- The kind of the first input and of the result. -/
def kind : BinOp → Kind
  | .add k | .sub k | .and k | .or k | .xor k | .div k | .mod k
  | .lshift k | .rshift k | .urshift k => k
  | .mulI | .minI | .maxI => .int

/-- The kind of the second input: a shift count is an int. -/
def kind2 : BinOp → Kind
  | .add k | .sub k | .and k | .or k | .xor k | .div k | .mod k => k
  | .mulI | .minI | .maxI | .lshift _ | .rshift _ | .urshift _ => .int

/-- The virtual call `Value`. -/
def value (op : BinOp) (eqv : Bool) (t1 t2 : Ty) : Option Ty :=
  match op with
  | .add .int => AddINode.value t1 t2
  | .add .long => AddLNode.value t1 t2
  | .sub .int => SubINode.value eqv t1 t2
  | .sub .long => SubLNode.value eqv t1 t2
  | .mulI => MulINode.value t1 t2
  | .and .int => AndINode.value t1 t2
  | .and .long => AndLNode.value t1 t2
  | .or .int => OrINode.value t1 t2
  | .or .long => OrLNode.value t1 t2
  | .xor .int => XorINode.value t1 t2
  | .xor .long => XorLNode.value t1 t2
  | .minI => MinINode.value t1 t2
  | .maxI => MaxINode.value t1 t2
  | .div .int => DivINode.value eqv t1 t2
  | .div .long => DivLNode.value eqv t1 t2
  | .mod .int => ModINode.value eqv t1 t2
  | .mod .long => ModLNode.value eqv t1 t2
  | .lshift .int => LShiftINode.value t1 t2
  | .lshift .long => LShiftLNode.value t1 t2
  | .rshift .int => RShiftINode.value t1 t2
  | .rshift .long => RShiftLNode.value t1 t2
  | .urshift .int => URShiftINode.value t1 t2
  | .urshift .long => URShiftLNode.value t1 t2

/-- What Java computes. A division by zero throws. -/
def compute : (op : BinOp) → BitVec op.kind.width → BitVec op.kind2.width →
    Option (BitVec op.kind.width)
  | .add k => fun (x y : BitVec k.width) => some (x + y)
  | .sub k => fun (x y : BitVec k.width) => some (x - y)
  | .mulI => fun (x y : JInt) => some (x * y)
  | .and k => fun (x y : BitVec k.width) => some (x &&& y)
  | .or k => fun (x y : BitVec k.width) => some (x ||| y)
  | .xor k => fun (x y : BitVec k.width) => some (x ^^^ y)
  | .minI => fun (x y : JInt) => some (min2 x y)
  | .maxI => fun (x y : JInt) => some (max2 x y)
  | .div k => fun (x y : BitVec k.width) => if y = 0#k.width then none else some (x.sdiv y)
  | .mod k => fun (x y : BitVec k.width) => if y = 0#k.width then none else some (x.srem y)
  | .lshift k => fun (x : BitVec k.width) (y : JInt) => some (x <<< k.shiftCount y)
  | .rshift k => fun (x : BitVec k.width) (y : JInt) => some (x.sshiftRight (k.shiftCount y))
  | .urshift k => fun (x : BitVec k.width) (y : JInt) => some (x >>> k.shiftCount y)

end BinOp

inductive JavaValue where
  | int (x : JInt)
  | long (x : JLong)
  deriving DecidableEq, Repr

namespace JavaValue

def of : (k : Kind) → BitVec k.width → JavaValue
  | .int, x => .int x
  | .long, x => .long x

def as : (k : Kind) → JavaValue → Option (BitVec k.width)
  | .int, .int x => some x
  | .long, .long x => some x
  | _, _ => none

end JavaValue

def BinOp.eval (op : BinOp) (v1 v2 : JavaValue) : Option JavaValue := do
  let x ← v1.as op.kind
  let y ← v2.as op.kind2
  let z ← op.compute x y
  return .of op.kind z

/-! ## Graphs -/

/-- A node of an expression graph. Inputs are the indices of earlier nodes, so that a node
may be used several times. A leaf has a type that is known. -/
inductive Node where
  | leaf (t : Ty)
  | bin (op : BinOp) (in1 in2 : Nat)
  deriving DecidableEq, Repr

namespace Node

/-- The type of a node, given those of the nodes before it. -/
def typeOf (types : List Ty) : Node → Option Ty
  | .leaf t => some t
  | .bin op in1 in2 => do
    let t1 ← types[in1]?
    let t2 ← types[in2]?
    op.value (in1 = in2) t1 t2

/-- The value of a node, given those of the nodes before it and that of a leaf. -/
def valueOf (input : JavaValue) (values : List JavaValue) : Node → Option JavaValue
  | .leaf _ => some input
  | .bin op in1 in2 => do
    let v1 ← values[in1]?
    let v2 ← values[in2]?
    op.eval v1 v2

end Node

namespace Graph

/-- The types of all nodes, bottom-up. -/
def typesFrom (types : List Ty) : List Node → Option (List Ty)
  | [] => some types
  | n :: ns => do
    let t ← n.typeOf types
    typesFrom (types ++ [t]) ns

def types (ns : List Node) : Option (List Ty) := typesFrom [] ns

/-- The values of all nodes, where `input i` is the value of a leaf at index `i`. -/
def valuesFrom (input : Nat → JavaValue) (values : List JavaValue) :
    List Node → Option (List JavaValue)
  | [] => some values
  | n :: ns => do
    let v ← n.valueOf (input values.length) values
    valuesFrom input (values ++ [v]) ns

def values (input : Nat → JavaValue) (ns : List Node) : Option (List JavaValue) :=
  valuesFrom input [] ns

end Graph

end Hotspot.Opto
