-- SUMMARY: Range check elimination: the match of the tests, limits and loops.
import Hotspot.Opto.CountedLoop

/-!
# Range check elimination

`do_range_check` works on a main loop that has a pre-loop before it and a post-loop after it.
It looks for tests of the trip counter, scaled and offset by loop-invariant values, that leave
the loop. For each one it lengthens the pre-loop or shortens the main loop until the test
always holds in the main loop, and then removes the test from it.
-/

namespace Hotspot.Opto

/-! ## Scaled induction variables -/

namespace LoopNode

/-- A constant times the trip counter. -/
def isScaledIv : LoopNode → Option JInt
  | .phi => some 1#32
  | .mulI .phi (.con c) => some c
  | .mulI (.con c) .phi => some c
  | .lShiftI .phi (.con k) => some (1#32 <<< (k.toNat % 32))
  | _ => none

/-- A scale and an offset, which may still depend on the trip counter. -/
def isScaledIvPlusOffset (depth : Nat) : LoopNode → Option (JInt × LoopNode)
  | .addI a b =>
    match a.isScaledIv with
    | some scale => some (scale, b)
    | none =>
      if b.con?.isSome ∧ depth < 2 then
        match a.isScaledIvPlusOffset (depth + 1) with
        | some (scale, offset2) => some (scale, .addI offset2 b)
        | none => none
      else none
  | .subI a b =>
    match a.isScaledIv with
    | some scale => some (scale, .subI (.con 0#32) b)
    | none => b.isScaledIv.map fun scale => (-scale, a)
  | exp => exp.isScaledIv.map fun scale => (scale, .con 0#32)

theorem eval_of_isScaledIv {n : LoopNode} {scale : JInt} (h : n.isScaledIv = some scale) (c : JInt) :
    n.eval c = scale * c := by
  unfold isScaledIv at h
  split at h
  · cases h
    exact (BitVec.one_mul c).symm
  · cases h
    exact BitVec.mul_comm c _
  · cases h
    rfl
  · cases h
    rw [eval, eval, eval, BitVec.shiftLeft_eq_mul_twoPow, BitVec.shiftLeft_eq_mul_twoPow, BitVec.one_mul,
      BitVec.mul_comm]
  · cases h

theorem eval_of_isScaledIvPlusOffset {n offset : LoopNode} {scale : JInt} {depth : Nat}
    (h : n.isScaledIvPlusOffset depth = some (scale, offset)) (c : JInt) :
    n.eval c = scale * c + offset.eval c := by
  induction n generalizing offset depth with
  | addI a b iha _ =>
    simp only [isScaledIvPlusOffset] at h
    split at h
    · next hscale =>
      obtain ⟨rfl, rfl⟩ : _ = scale ∧ b = offset := by simpa using h
      rw [eval, eval_of_isScaledIv hscale]
    split at h
    · split at h
      · next hoffset =>
        obtain ⟨rfl, rfl⟩ : _ = scale ∧ addI _ b = offset := by simpa using h
        rw [eval, iha hoffset, eval, BitVec.add_assoc]
      · cases h
    · cases h
  | subI a b _ _ =>
    simp only [isScaledIvPlusOffset] at h
    split at h
    · next hscale =>
      obtain ⟨rfl, rfl⟩ : _ = scale ∧ subI (con 0#32) b = offset := by simpa using h
      simp only [eval, eval_of_isScaledIv hscale, BitVec.sub_eq_add_neg, BitVec.zero_add]
    · obtain ⟨scale', hscale, hpair⟩ := Option.map_eq_some_iff.mp h
      obtain ⟨rfl, rfl⟩ : -scale' = scale ∧ a = offset := by simpa using hpair
      rw [eval, eval_of_isScaledIv hscale, BitVec.neg_mul, BitVec.sub_eq_add_neg, BitVec.add_comm]
  | phi | con | invariant | mulI | andI | lShiftI | rShiftI =>
    obtain ⟨scale', hscale, hpair⟩ := Option.map_eq_some_iff.mp h
    obtain ⟨rfl, rfl⟩ : scale' = scale ∧ con 0#32 = offset := by simpa using hpair
    rw [eval_of_isScaledIv hscale, eval, BitVec.add_zero]

end LoopNode

/-! ## The tests that leave the loop -/

/-- An `If` of the loop body that leaves the loop on one side. -/
structure LoopExit where
  cmp1 : LoopNode
  cmp2 : LoopNode
  /-- The compare is a `CmpU`. -/
  unsigned : Bool
  test : BoolTest
  exitOnTrue : Bool
  dominatesBackedge : Bool
  /-- The limit or the offset is pinned below the zero-trip test of the main loop. -/
  pinned : Bool
deriving DecidableEq, Repr

/-- The iteration stays in the loop. -/
def LoopExit.passes (e : LoopExit) (counter : JInt) : Bool :=
  e.test.outcome e.unsigned (e.cmp1.eval counter) (e.cmp2.eval counter) ^^ e.exitOnTrue

/-- The test `scale * I + offset :: limit`, which holds for as long as the loop is not left. -/
structure ScaledTest where
  scale : JInt
  offset : JInt
  limit : JInt
  unsigned : Bool
  test : BoolTest
deriving DecidableEq, Repr

def ScaledTest.passes (s : ScaledTest) (counter : JInt) : Bool :=
  s.test.outcome s.unsigned (s.scale * counter + s.offset) s.limit

/-- The trip counter side, the limit and the test, commuted if the limit is in the loop. -/
def LoopExit.orient (e : LoopExit) : LoopNode × LoopNode × BoolTest :=
  let bt := if e.exitOnTrue then e.test.negate else e.test
  if e.cmp2.isMember then (e.cmp2, e.cmp1, bt.commute) else (e.cmp1, e.cmp2, bt)

def LoopExit.matchExit (e : LoopExit) : Option ScaledTest := do
  let (rcExp, limit, bt) := e.orient
  guard (!limit.isMember)
  let (scale, offset) ← rcExp.isScaledIvPlusOffset 0
  guard (!offset.isMember)
  guard (!e.pinned)
  return { scale, offset := offset.eval 0#32, limit := limit.eval 0#32, unsigned := e.unsigned, test := bt }

/-! ## The constraints -/

/-- `scale * I + offset < limit` -/
structure Constraint where
  scale : JInt
  offset : JInt
  limit : JInt
deriving DecidableEq, Repr

/-- The constraints that stand for a test, if it can be eliminated. -/
def ScaledTest.constraints (s : ScaledTest) : Option (List Constraint) :=
  if s.unsigned then
    match s.test with
    -- an unsigned compare is really two tests
    | .lt => some [⟨s.scale, s.offset, s.limit⟩, ⟨-s.scale, 0#32 - (s.offset + 1#32), 0#32⟩]
    | _ => none
  else
    match s.test with
    | .ge => some [⟨-s.scale, 0#32 - s.offset, 0#32 - s.limit + 1#32⟩]
    | .le => some [⟨s.scale, s.offset, s.limit + 1#32⟩]
    | .lt => some [⟨s.scale, s.offset, s.limit⟩]
    | _ => none

def LoopExit.constraints (e : LoopExit) : Option (List Constraint) := e.matchExit.bind (·.constraints)

def minI (a b : JInt) : JInt := if a.slt b then a else b
def maxI (a b : JInt) : JInt := if a.slt b then b else a

/-- `(limit - offset) / scale_con` -/
def Constraint.quotient (c : Constraint) : JInt := (c.limit - c.offset).sdiv c.scale

/-- The quotient moved by one, away from the iterations that break the constraint. -/
def Constraint.adjusted (c : Constraint) : JInt :=
  c.quotient + if (0#32).slt c.scale then -1#32 else 1#32

structure SplitLimits where
  preLimit : JInt
  mainLimit : JInt
  conditionalRc : Bool
deriving DecidableEq, Repr

def SplitLimits.addConstraint (stride : JInt) (l : SplitLimits) (c : Constraint) : SplitLimits :=
  if (0#32).slt (stride * c.scale) then
    { l with mainLimit := if (0#32).slt stride then minI l.mainLimit c.quotient else maxI l.mainLimit c.quotient }
  else
    { l with preLimit := if (0#32).slt c.scale then minI l.preLimit c.adjusted else maxI l.preLimit c.adjusted }

/-- One test of the loop body. -/
def SplitLimits.addExit (stride : JInt) (l : SplitLimits) (e : LoopExit) : SplitLimits :=
  match e.constraints with
  | some cs =>
    let l := cs.foldl (addConstraint stride) l
    { l with conditionalRc := l.conditionalRc || !e.dominatesBackedge }
  | none => l

/-! ## The three loops -/

/-- A counted loop with the tests of its body. Whether an iteration leaves the loop depends on
the outcomes of these tests and on whatever else the body does. -/
structure RangeCheckLoop where
  loop : CountedLoop
  exits : List LoopExit
  leaves : JInt → (Nat → Bool) → Bool
  canonical : loop.test = .lt ∧ 0 < loop.stride.toInt ∨ loop.test = .gt ∧ loop.stride.toInt < 0 ∨
    loop.test = .ne ∧ (loop.stride.toInt = 1 ∨ loop.stride.toInt = -1)
  /-- A test that dominates the back edge leaves the loop whenever it fails. -/
  leaves_of_dominates : ∀ k e, exits[k]? = some e → e.dominatesBackedge = true →
    ∀ i outcomes, outcomes k = false → leaves i outcomes = true

/-- The part of the split loop that an iteration belongs to. The limit of the main loop is
rounded when the loop is entered. -/
inductive LoopPart where
  | pre
  | main (limit : JInt)
  | post
deriving DecidableEq, Repr

namespace RangeCheckLoop

variable (r : RangeCheckLoop)

/-- The limits after all tests of the body. The pre-loop starts with one iteration. -/
def rawLimits : SplitLimits :=
  r.exits.foldl (SplitLimits.addExit r.loop.stride) ⟨r.loop.init + r.loop.stride, r.loop.limit, false⟩

/-- A conditional test could lengthen the pre-loop beyond the original limit. -/
def limits : SplitLimits :=
  let l := r.rawLimits
  if l.conditionalRc then
    { l with preLimit := if (0#32).slt r.loop.stride then minI l.preLimit r.loop.limit
                         else maxI l.preLimit r.loop.limit }
  else l

/-- "Standard" round-up logic: `([main_limit-init+(y-1)]/y)*y+init`, where `init` is what the
main loop is entered with. -/
def roundedMainLimit (init : JInt) : JInt :=
  if r.loop.stride ≠ 1#32 ∧ r.loop.stride ≠ -1#32 then
    let rndup := r.loop.stride + if (0#32).slt r.loop.stride then -1#32 else 1#32
    (r.limits.mainLimit - init + rndup).sdiv r.loop.stride * r.loop.stride + init
  else r.limits.mainLimit

/-- The test of the pre-loop, of the main loop and of its zero-trip guard. -/
def splitTest : BoolTest :=
  if r.loop.test = .ne then (if (0#32).slt r.loop.stride then .lt else .gt) else r.loop.test

/-- The outcomes of the tests in an iteration that still has all of them. -/
def outcomes (counter : JInt) (k : Nat) : Bool :=
  match r.exits[k]? with
  | some e => e.passes counter
  | none => true

/-- The outcomes in the main loop, where the eliminated tests are the constant that stays. -/
def mainOutcomes (counter : JInt) (k : Nat) : Bool :=
  match r.exits[k]? with
  | some e => e.constraints.isSome || e.passes counter
  | none => true

/-- The loop before it is split. -/
def original : BottomTested JInt where
  start := r.loop.init
  next c := c + r.loop.stride
  goesOn c := r.leaves c (r.outcomes c) = false ∧ r.loop.test.holds (c + r.loop.stride) r.loop.limit = true

/-- The pre-loop, the main loop behind its zero-trip guard, and the post-loop behind its own. -/
def split : BottomTested (LoopPart × JInt) where
  start := (.pre, r.loop.init)
  next
    | (.pre, c) =>
      let incr := c + r.loop.stride
      if r.splitTest.holds incr r.limits.preLimit then (.pre, incr)
      else if r.splitTest.holds incr (r.roundedMainLimit incr) then (.main (r.roundedMainLimit incr), incr)
      else (.post, incr)
    | (.main limit, c) =>
      let incr := c + r.loop.stride
      if r.splitTest.holds incr limit then (.main limit, incr) else (.post, incr)
    | (.post, c) => (.post, c + r.loop.stride)
  goesOn
    | (.pre, c) =>
      let incr := c + r.loop.stride
      r.leaves c (r.outcomes c) = false ∧ (r.splitTest.holds incr r.limits.preLimit = true ∨
        r.splitTest.holds incr (r.roundedMainLimit incr) = true ∨ r.loop.test.holds incr r.loop.limit = true)
    | (.main limit, c) =>
      let incr := c + r.loop.stride
      r.leaves c (r.mainOutcomes c) = false ∧
        (r.splitTest.holds incr limit = true ∨ r.loop.test.holds incr r.loop.limit = true)
    | (.post, c) =>
      r.leaves c (r.outcomes c) = false ∧ r.loop.test.holds (c + r.loop.stride) r.loop.limit = true

end RangeCheckLoop

end Hotspot.Opto
