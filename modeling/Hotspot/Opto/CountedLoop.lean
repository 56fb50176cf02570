-- SUMMARY: Counted loops: the match of the increment, the truncation and the exit test.
import Hotspot.Base.BottomTested
import Hotspot.Opto.BoolTest

/-!
# Counted loops

`is_counted_loop` looks at a loop that tests at the bottom. It matches the value of the
back edge against an increment by a constant, finds the limit in the exit test, and builds a
canonical loop that compares the increment with a limit computed from the trip count. All
of the arithmetic is that of the nodes it builds, so it wraps around.
-/

namespace Hotspot.Opto

/-! ## The nodes of a loop -/

/-- The nodes that the loop optimizations look at. `phi` is the counter at the loop head; a node outside
of the loop is an `invariant` with the value it has in this run. Nodes with the same
inputs are the same node, as value numbering leaves them. -/
inductive LoopNode where
  | phi
  | con (value : JInt)
  | invariant (name : Nat) (value : JInt)
  | addI (in1 in2 : LoopNode)
  | subI (in1 in2 : LoopNode)
  | mulI (in1 in2 : LoopNode)
  | andI (in1 in2 : LoopNode)
  | lShiftI (in1 in2 : LoopNode)
  | rShiftI (in1 in2 : LoopNode)
deriving DecidableEq, Repr

namespace LoopNode

/-- The value of a node in an iteration whose counter is `counter`. -/
def eval (counter : JInt) : LoopNode → JInt
  | .phi => counter
  | .con c => c
  | .invariant _ v => v
  | .addI a b => a.eval counter + b.eval counter
  | .subI a b => a.eval counter - b.eval counter
  | .mulI a b => a.eval counter * b.eval counter
  | .andI a b => a.eval counter &&& b.eval counter
  | .lShiftI a b => a.eval counter <<< ((b.eval counter).toNat % 32)
  | .rShiftI a b => (a.eval counter).sshiftRight ((b.eval counter).toNat % 32)

/-- `is_member`: the node depends on the counter, so that its control is inside of the loop. -/
def isMember : LoopNode → Bool
  | .phi => true
  | .con _ => false
  | .invariant _ _ => false
  | .addI a b => a.isMember || b.isMember
  | .subI a b => a.isMember || b.isMember
  | .mulI a b => a.isMember || b.isMember
  | .andI a b => a.isMember || b.isMember
  | .lShiftI a b => a.isMember || b.isMember
  | .rShiftI a b => a.isMember || b.isMember

def con? : LoopNode → Option JInt
  | .con c => some c
  | _ => none

theorem eval_of_con? {n : LoopNode} {c : JInt} (h : n.con? = some c) (counter : JInt) :
    n.eval counter = c := by
  cases n <;> simp_all [con?, eval]

/-- A loop-invariant node has one value in all iterations. -/
theorem eval_of_not_isMember {n : LoopNode} (h : n.isMember = false) (c c' : JInt) :
    n.eval c = n.eval c' := by
  induction n with
  | phi => simp [isMember] at h
  | con v => rfl
  | invariant name v => rfl
  | addI a b iha ihb | subI a b iha ihb | mulI a b iha ihb | andI a b iha ihb
  | lShiftI a b iha ihb | rShiftI a b iha ihb =>
    simp only [isMember, Bool.or_eq_false_iff] at h
    simp only [eval, iha h.1, ihb h.2]

end LoopNode

/-! ## The increment and its truncation -/

/-- The truncations that the match strips from an increment. -/
inductive Truncation where
  | int | char | short | byte
deriving DecidableEq, Repr

namespace Truncation

def apply : Truncation → JInt → JInt
  | .int, x => x
  | .char, x => x &&& 0x7fff#32
  | .short, x => (x <<< 16).sshiftRight 16
  | .byte, x => (x <<< 8).sshiftRight 8

/-- The bounds of the type that the match gives the truncated value. -/
def lo : Truncation → JInt
  | .int => BitVec.intMin 32
  | .char => 0#32
  | .short => -32768#32
  | .byte => -128#32

def hi : Truncation → JInt
  | .int => BitVec.intMax 32
  | .char => 65535#32
  | .short => 32767#32
  | .byte => 127#32

end Truncation

/-- Strips `(n1 & M)` or `(n1 << N >> N)` from the expression. -/
def stripTruncation : LoopNode → LoopNode × Truncation
  | .andI n1 (.con mask) => if mask = 0x7fff#32 then (n1, .char) else (.andI n1 (.con mask), .int)
  | .rShiftI (.lShiftI n1 shift') (.con shift) =>
    if shift' = .con shift ∧ shift = 16#32 then (n1, .short)
    else if shift' = .con shift ∧ shift = 8#32 then (n1, .byte)
    else (.rShiftI (.lShiftI n1 shift') (.con shift), .int)
  | n => (n, .int)

/-- The inputs of the increment and the truncation that was around it. -/
def matchIncrWithOptionalTruncation (expr : LoopNode) : Option ((LoopNode × LoopNode) × Truncation) :=
  match stripTruncation expr with
  | (.addI in1 in2, trunc) => some ((in1, in2), trunc)
  | _ => none

theorem eval_stripTruncation (n : LoopNode) (counter : JInt) :
    n.eval counter = (stripTruncation n).2.apply ((stripTruncation n).1.eval counter) := by
  unfold stripTruncation
  split
  case h_1 n1 mask =>
    split
    · next hmask => simp [LoopNode.eval, Truncation.apply, hmask]
    · rfl
  case h_2 n1 shift' shift =>
    split
    · next h => simp [LoopNode.eval, Truncation.apply, h.1, h.2]
    · split
      · next h => simp [LoopNode.eval, Truncation.apply, h.1, h.2]
      · rfl
  case h_3 => rfl

/-! ## The loop and the loop it is turned into -/

/-- A loop that tests at the bottom: the counter is a phi of `init` and `back`, and the exit
test compares `cmp1` with `cmp2`. -/
structure LoopGraph where
  init : JInt
  back : LoopNode
  cmp1 : LoopNode
  cmp2 : LoopNode
  test : BoolTest
  /-- The back edge leaves the test on its false side. -/
  backOnFalse : Bool
deriving DecidableEq, Repr

/-- The loop as it runs before the conversion. -/
def LoopGraph.run (g : LoopGraph) : BottomTested JInt where
  start := g.init
  next c := g.back.eval c
  goesOn c := (g.test.holds (g.cmp1.eval c) (g.cmp2.eval c) ^^ g.backOnFalse) = true

/-- A loop with the filtered type of its counter, a range that holds every counter of the run. -/
structure TypedLoop extends LoopGraph where
  phiLo : JInt
  phiHi : JInt
  counter_mem : ∀ n, toLoopGraph.run.Executes n →
    phiLo.sle (toLoopGraph.run.value n) = true ∧ (toLoopGraph.run.value n).sle phiHi = true

/-- A counter of type `int`. -/
def LoopGraph.typed (g : LoopGraph) : TypedLoop where
  toLoopGraph := g
  phiLo := BitVec.intMin 32
  phiHi := BitVec.intMax 32
  counter_mem n _ := by
    have hlo := BitVec.le_toInt (g.run.value n)
    have hhi := BitVec.toInt_lt (x := g.run.value n)
    rw [BitVec.sle_iff_toInt_le, BitVec.sle_iff_toInt_le]
    simp only [BitVec.toInt_intMin, BitVec.toInt_intMax]
    omega

/-- What the match knows of a loop: its stride, the limit and the test that goes on, whether
the test reads the counter in place of the increment, and the truncation. -/
structure TripCounter where
  init : JInt
  stride : JInt
  limit : JInt
  test : BoolTest
  onCounter : Bool
  trunc : Truncation
deriving DecidableEq, Repr

def TripCounter.run (t : TripCounter) : BottomTested JInt where
  start := t.init
  next c := t.trunc.apply (c + t.stride)
  goesOn c := t.test.holds (if t.onCounter then c else t.trunc.apply (c + t.stride)) t.limit = true

/-- The counted loop: its increment has no truncation and its test reads the increment. -/
structure CountedLoop where
  init : JInt
  stride : JInt
  limit : JInt
  test : BoolTest
deriving DecidableEq, Repr

def CountedLoop.run (l : CountedLoop) : BottomTested JInt where
  start := l.init
  next c := c + l.stride
  goesOn c := l.test.holds (c + l.stride) l.limit = true

/-! ## The conversion -/

/-- The increment that the exit test leads to, with the limit and the test turned around if
the limit stands first. -/
def LoopGraph.findLimit (g : LoopGraph) : LoopNode × LoopNode × BoolTest :=
  let bt := if g.backOnFalse then g.test.negate else g.test
  if !g.cmp1.isMember then (g.cmp2, g.cmp1, bt.commute) else (g.cmp1, g.cmp2, bt)

/-- The matching part of `is_counted_loop`. A stride of zero stops the compiler in an
assertion. -/
def LoopGraph.matchLoop (g : LoopGraph) : Option TripCounter := do
  let (incr, limit, bt) := g.findLimit
  guard (!limit.isMember)
  let incr := if incr = .phi then g.back else incr
  let ((in1, in2), trunc) ← matchIncrWithOptionalTruncation incr
  -- the increment is commutative, so the constant may stand on either side
  let (xphi, stride) := if in2.con?.isSome then (in1, in2) else (in2, in1)
  let strideCon ← stride.con?
  guard (xphi = .phi)
  guard (strideCon ≠ 0#32)
  guard (g.back = incr)
  return { init := g.init, stride := strideCon, limit := limit.eval g.init, test := bt,
           onCounter := g.cmp1 = .phi || g.cmp2 = .phi, trunc }

/-- The counter can reach a value that the truncation changes. -/
def TripCounter.mayTruncate (t : TripCounter) (phiLo phiHi : JInt) : Bool :=
  if (0#32).slt t.stride then (t.trunc.hi - phiHi).slt t.stride || phiLo.slt t.trunc.lo
  else t.stride.slt (t.trunc.lo - phiLo) || t.trunc.hi.slt phiHi

/-- The new limit, from the trip count. -/
def TripCounter.finalValue (t : TripCounter) (tripCount : JInt) : JInt := tripCount * t.stride + t.init

/-- The trip count of a loop with test `lt` or `gt`; `one` is -1 or 1. -/
def TripCounter.tripCount (t : TripCounter) (limit one : JInt) : JInt :=
  (limit - t.init + t.stride + one).sdiv t.stride

/-- The canonical exit test. -/
def TripCounter.canonical (t : TripCounter) : Option CountedLoop :=
  let limit := if t.onCounter then t.limit + t.stride else t.limit
  match t.test with
  | .eq => none
  | .ne =>
    if t.stride = 1#32 then some ⟨t.init, t.stride, t.finalValue (limit - t.init), .ne⟩
    else if t.stride = -1#32 then some ⟨t.init, t.stride, t.finalValue (t.init - limit), .ne⟩
    else none
  | .le =>
    if t.stride.slt 0#32 then none
    else some ⟨t.init, t.stride, t.finalValue (t.tripCount (limit + 1#32) (-1#32)), .lt⟩
  | .lt =>
    if t.stride.slt 0#32 then none
    else some ⟨t.init, t.stride, t.finalValue (t.tripCount limit (-1#32)), .lt⟩
  | .ge =>
    if (0#32).slt t.stride then none
    else some ⟨t.init, t.stride, t.finalValue (t.tripCount (limit + -1#32) 1#32), .gt⟩
  | .gt =>
    if (0#32).slt t.stride then none
    else some ⟨t.init, t.stride, t.finalValue (t.tripCount limit 1#32), .gt⟩

def TypedLoop.isCountedLoop (l : TypedLoop) : Option CountedLoop := do
  let t ← l.matchLoop
  guard (t.trunc = .int || !t.mayTruncate l.phiLo l.phiHi)
  t.canonical

end Hotspot.Opto
