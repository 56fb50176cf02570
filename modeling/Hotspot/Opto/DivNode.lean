-- SUMMARY: Division and remainder by a constant: magic constants and the graphs.
import Hotspot.Opto.IntegerRange

/-!
# Division by constants

The graph that replaces a division is a tree over nodes whose values are given. `phase->transform`
may replace a node by one of the same value and is left out. The int and long versions of a
function are one definition at two widths where they do the same.
-/

namespace Hotspot.DivNode

open Opto

/-! ## Graphs -/

/-- A node that computes an int or a long. A shift count is a constant. -/
inductive Node : Kind → Type
  | input {k : Kind} (id : Nat) : Node k
  | con {k : Kind} (c : BitVec k.width) : Node k
  | add {k : Kind} (a b : Node k) : Node k
  | sub {k : Kind} (a b : Node k) : Node k
  | mul {k : Kind} (a b : Node k) : Node k
  | and {k : Kind} (a b : Node k) : Node k
  | lshift {k : Kind} (a : Node k) (count : JInt) : Node k
  | rshift {k : Kind} (a : Node k) (count : JInt) : Node k
  | urshift {k : Kind} (a : Node k) (count : JInt) : Node k
  | mod {k : Kind} (a b : Node k) : Node k
  | xor {k : Kind} (a b : Node k) : Node k
  | minI (a b : Node .int) : Node .int
  /-- `Conv2B` of an int, or of a pointer, which is a long here. -/
  | conv2B {k : Kind} (a : Node k) : Node .int
  | convI2L (a : Node .int) : Node .long
  | convL2I (a : Node .long) : Node .int
  | mulHiL (a b : Node .long) : Node .long
  /-- `CMoveI` or `CMoveL` of a `Bool` with the test `ge` of a compare of `a` and `b`. -/
  | cmoveGe {k : Kind} (a b ifFalse ifTrue : Node k) : Node k

/-- The upper half of the signed product. -/
def mulHigh (a b : JLong) : JLong := BitVec.ofInt 64 (a.toInt * b.toInt / 2 ^ 64)

/-- The value of a node, with Java's semantics. -/
def Node.eval (input : (k : Kind) → Nat → BitVec k.width) : {k : Kind} → Node k → BitVec k.width
  | k, .input id => input k id
  | _, .con c => c
  | _, .add a b => a.eval input + b.eval input
  | _, .sub a b => a.eval input - b.eval input
  | _, .mul a b => a.eval input * b.eval input
  | _, .and a b => a.eval input &&& b.eval input
  | k, .lshift a count => a.eval input <<< k.shiftCount count
  | k, .rshift a count => (a.eval input).sshiftRight (k.shiftCount count)
  | k, .urshift a count => a.eval input >>> k.shiftCount count
  | _, .mod a b => (a.eval input).srem (b.eval input)
  | _, .xor a b => a.eval input ^^^ b.eval input
  | _, .minI a b => min2 (a.eval input) (b.eval input)
  | _, .conv2B a => if a.eval input = 0 then 0 else 1
  | _, .convI2L a => (a.eval input).signExtend 64
  | _, .convL2I a => (a.eval input).setWidth 32
  | _, .mulHiL a b => mulHigh (a.eval input) (b.eval input)
  | _, .cmoveGe a b ifFalse ifTrue =>
    if (b.eval input).sle (a.eval input) then ifTrue.eval input else ifFalse.eval input

/-- What the optimizer knows of the nodes of a graph in one run. -/
structure PhaseGVN where
  input : (k : Kind) → Nat → BitVec k.width
  /-- `isa_int` and `isa_long` of `type(n)` -/
  typeOf : {k : Kind} → Node k → Option (IntegerType k.width)
  sound : ∀ {k : Kind} (n : Node k) (t : IntegerType k.width), typeOf n = some t → t.Contains (n.eval input)

def PhaseGVN.eval (phase : PhaseGVN) {k : Kind} (n : Node k) : BitVec k.width := n.eval phase.input

/-- `phase->intcon` as a shift count. -/
def intcon (i : Nat) : JInt := BitVec.ofNat 32 i

/-! ## Powers of two -/

section Width

variable {w : Nat}

/-- `is_power_of_2` and `is_power_of_2_long` -/
def isPowerOf2 (x : BitVec w) : Bool := x ≠ 0 && x &&& (x - 1) = 0

/-- The loop of `log2_intptr` and `log2_long`. The power overflows to 0 after `w` rounds. -/
def log2Loop (x : BitVec w) : Nat → Int → BitVec w → Int
  | 0, i, _ => i
  | fuel + 1, i, p => if p ≠ 0 ∧ p ≤ x then log2Loop x fuel (i + 1) (p * 2) else i

/-- The largest `i` such that `2^i <= x`. -/
def log2 (x : BitVec w) : Int := log2Loop x w (-1) 1

/-! ## Magic constants -/

/-- The variables of the loop. -/
structure MagicState (w : Nat) where
  p : Nat
  q1 : BitVec w
  r1 : BitVec w
  q2 : BitVec w
  r2 : BitVec w

/-- Update quotient and remainder when the dividend doubles. -/
def double (q r a : BitVec w) : BitVec w × BitVec w :=
  if a ≤ 2 * r then (2 * q + 1, 2 * r - a) else (2 * q, 2 * r)

def MagicState.step (ad anc : BitVec w) (st : MagicState w) : MagicState w :=
  let d1 := double st.q1 st.r1 anc
  let d2 := double st.q2 st.r2 ad
  ⟨st.p + 1, d1.1, d1.2, d2.1, d2.2⟩

/-- The test at the bottom of the loop. -/
def MagicState.goesOn (ad : BitVec w) (st : MagicState w) : Bool :=
  let delta := ad - st.r2
  st.q1 < delta || (st.q1 = delta && st.r1 = 0)

def magicLoop (ad anc : BitVec w) : Nat → MagicState w → Option (MagicState w)
  | 0, _ => none
  | fuel + 1, st =>
    let st := st.step ad anc
    if st.goesOn ad then magicLoop ad anc fuel st else some st

/-- `magic_int_divide_constants` and `magic_long_divide_constants`: the multiplier and the shift, or
nothing for 0 and 1. There is no result at all if the loop does not end. -/
def magicDivideConstants (fuel : Nat) (d : BitVec w) : Option (Option (BitVec w × Nat)) :=
  let two := BitVec.twoPow w (w - 1)
  let ad := if (0#w).slt d then d else -d
  if d = 0 ∨ d = 1 then some none
  else
    let t := two + d >>> (w - 1)
    let anc := t - 1 - t % ad
    let q1 := two / anc
    let q2 := two / ad
    (magicLoop ad anc fuel ⟨w - 1, q1, two - q1 * anc, q2, two - q2 * ad⟩).map fun st =>
      let m := st.q2 + 1
      some (if d.slt 0 then -m else m, st.p - w)

end Width

/-! ## Division -/

variable (phase : PhaseGVN)

/-- Division by a power of two, without the sign of the divisor. `noRounding` is the test for a type
that needs no rounding. -/
def shiftDivide {k : Kind} (noRounding : IntegerType k.width → Bool) (dividend : Node k) (d : BitVec k.width) : Node k :=
  let l := (log2 (d - 1) + 1).toNat
  let rounded : Node k :=
    .add dividend (.urshift (.rshift dividend (intcon (k.width - 1))) (intcon (k.width - l)))
  let shifted : Node k :=
    if (phase.typeOf dividend).any noRounding then dividend
    else
      match dividend with
      | .and a b =>
        -- An AND mask of sufficient size clears the low bits
        if (phase.typeOf b).any fun t => t.lo = -d ∧ t.hi = -d then a else rounded
      | _ => rounded
  .rshift shifted (intcon l)

/-- Swapping the addends negates the quotient. -/
def signedSub {k : Kind} (dPos : Bool) (a b : Node k) : Node k := if dPos then .sub a b else .sub b a

/-- The multiply of ints is done in long. -/
def intMagicDivide (dividend : Node .int) (dPos : Bool) (magic : JInt) (shift : Nat) : Node .int :=
  let product : Node .long := .mul (.convI2L dividend) (.con (magic.signExtend 64))
  let mulHi : Node .int :=
    if magic.slt 0 then
      let sum : Node .int := .add dividend (.convL2I (.rshift product (intcon 32)))
      if shift ≠ 0 then .rshift sum (intcon shift) else sum
    else .convL2I (.rshift product (intcon (32 + shift)))
  signedSub dPos mulHi (.rshift dividend (intcon 31))

def transformIntDivide (dividend : Node .int) (divisor : JInt) : Option (Node .int) :=
  let dPos := (0#32).sle divisor
  let d := if dPos then divisor else -divisor
  if d = 1 then if dPos then none else some (.sub (.con 0#32) dividend)
  else if isPowerOf2 d then
    let q := shiftDivide phase (k := .int) (fun t => (0#32).sle t.lo) dividend d
    some (if dPos then q else .sub (.con 0#32) q)
  else
    match magicDivideConstants 32 d with
    | some (some (magic, shift)) => some (intMagicDivide dividend dPos magic shift)
    | _ => none

/-- The upper half of a product of longs, with or without a machine instruction for it. -/
def longByLongMulhi (hasMulHiL : Bool) (dividend : Node .long) (magic : JLong) : Node .long :=
  if hasMulHiL then .mulHiL dividend (.con magic)
  else
    let uHi : Node .long := .rshift dividend (intcon 32)
    let uLo : Node .long := .and dividend (.con 0xFFFFFFFF#64)
    let vHi : Node .long := .con (magic.sshiftRight 32)
    let vLo : Node .long := .con (magic &&& 0xFFFFFFFF#64)
    let t1 : Node .long := .urshift (.mul uLo vLo) (intcon 32)
    let t2 : Node .long := .add (.mul uHi vLo) t1
    let t3 : Node .long := .rshift t2 (intcon 32)
    let t4 : Node .long := .and t2 (.con 0xFFFFFFFF#64)
    let t5 : Node .long := .add t4 (.mul uLo vHi)
    let t6 : Node .long := .rshift t5 (intcon 32)
    let t7 : Node .long := .add t3 (.mul uHi vHi)
    .add t7 t6

def longMagicDivide (hasMulHiL : Bool) (dividend : Node .long) (dPos : Bool) (magic : JLong) (shift : Nat) : Node .long :=
  let mulHi := longByLongMulhi hasMulHiL dividend magic
  let mulHi : Node .long := if magic.slt 0 then .add dividend mulHi else mulHi
  let mulHi : Node .long := if shift ≠ 0 then .rshift mulHi (intcon shift) else mulHi
  signedSub dPos mulHi (.rshift dividend (intcon 63))

/-- Only a positive dividend needs no rounding here; 0 is left out. -/
def transformLongDivide (hasMulHiL : Bool) (dividend : Node .long) (divisor : JLong) : Option (Node .long) :=
  let dPos := (0#64).sle divisor
  let d := if dPos then divisor else -divisor
  if d = 1 then if dPos then none else some (.sub (.con 0#64) dividend)
  else if isPowerOf2 d then
    let q := shiftDivide phase (k := .long) (fun t => (0#64).slt t.lo) dividend d
    some (if dPos then q else .sub (.con 0#64) q)
  else
    match magicDivideConstants 64 d with
    | some (some (magic, shift)) => some (longMagicDivide hasMulHiL dividend dPos magic shift)
    | _ => none

end Hotspot.DivNode
