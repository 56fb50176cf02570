-- SUMMARY: The lowering of switches: ranges of keys, jump tables, and tests.
import Hotspot.Opto.BoolTest

/-!
# Switches

The parser turns a switch into ranges of keys that together cover all of `int`, prunes them by
the type of the key, and generates a tree of tests. Where the ranges are dense enough it
generates a jump table. A step of the table's loop that counts up to the largest `int` does not
end, so the functions that may get there take fuel and return nothing when it runs out.
-/

namespace Hotspot.Opto

/-! ## Ranges -/

/-- A range of integers coupled with a bci destination and an index into the method data. -/
structure SwitchRange where
  lo : JInt
  hi : JInt
  dest : Int
  tableIndex : Option Nat
deriving DecidableEq, Repr, Inhabited

namespace SwitchRange

def isSingleton (r : SwitchRange) : Bool := r.lo == r.hi

/-- The range grows if the new one continues it, with the same destination. -/
def adjoinRange (r : SwitchRange) (lo hi : JInt) (dest : Int) (tableIndex : Option Nat) : Option SwitchRange :=
  if lo = r.hi + 1#32 ∧ dest = r.dest ∧ tableIndex = r.tableIndex then some { r with hi } else none

end SwitchRange

/-- The ranges while they are made, the current one first. -/
abbrev RangeStack := List SwitchRange

namespace RangeStack

/-- `ranges[++rp].setRange(...)`, unless the current range takes the new one in. -/
def adjoinOrPush (rs : RangeStack) (lo hi : JInt) (dest : Int) (tableIndex : Option Nat) : RangeStack :=
  match rs with
  | [] => [⟨lo, hi, dest, tableIndex⟩]
  | r :: rest =>
    match r.adjoinRange lo hi dest tableIndex with
    | some r' => r' :: rest
    | none => ⟨lo, hi, dest, tableIndex⟩ :: r :: rest

/-- The key after the ones made so far. -/
def nextLo : RangeStack → JInt
  | [] => BitVec.intMin 32
  | r :: _ => r.hi + 1#32

/-- The keys above the highest one of the switch. -/
def finish (rs : RangeStack) (highest : JInt) (defaultDest : Int) : List SwitchRange :=
  (if highest ≠ BitVec.intMax 32 then rs.adjoinOrPush (highest + 1#32) (BitVec.intMax 32) defaultDest none
   else rs).reverse

end RangeStack

/-! ## The two instructions -/

/-- A tableswitch of a method that passed verification. The bound on its size is that of a code
array. -/
structure TableSwitch where
  defaultDest : Int
  lo : JInt
  hi : JInt
  dests : List Int
  le : lo.toInt ≤ hi.toInt
  length_eq : (dests.length : Int) = hi.toInt - lo.toInt + 1
  length_lt : dests.length < 2 ^ 16

namespace TableSwitch

/-- The destination that the bytecode specifies. -/
def target (s : TableSwitch) (key : JInt) : Int :=
  if s.lo.toInt ≤ key.toInt ∧ key.toInt ≤ s.hi.toInt then s.dests.getD (key.toInt - s.lo.toInt).toNat 0
  else s.defaultDest

/-- The loop over the cases, from case `j` on. -/
def addCases (profiling : Bool) (lo : JInt) : List Int → Nat → RangeStack → RangeStack
  | [], _, rs => rs
  | dest :: dests, j, rs =>
    let matchInt := lo + BitVec.ofNat 32 j
    addCases profiling lo dests (j + 1)
      (rs.adjoinOrPush matchInt matchInt dest (if profiling then some j else none))

def ranges (s : TableSwitch) (profiling : Bool) : List SwitchRange :=
  let start : RangeStack :=
    if s.lo ≠ BitVec.intMin 32 then [⟨BitVec.intMin 32, s.lo - 1#32, s.defaultDest, none⟩] else []
  let highest := s.lo + BitVec.ofNat 32 (s.dests.length - 1)
  (addCases profiling s.lo s.dests 0 start).finish highest s.defaultDest

end TableSwitch

/-- A lookupswitch with the keys of its cases, all different. -/
structure LookupSwitch where
  defaultDest : Int
  cases : List (JInt × Int)
  nodup : (cases.map Prod.fst).Nodup

namespace LookupSwitch

def target (s : LookupSwitch) (key : JInt) : Int :=
  match s.cases.find? (·.1 = key) with
  | some (_, dest) => dest
  | none => s.defaultDest

/-- `jint_cmp` -/
def keyLe (a b : JInt × Int) : Prop := a.1.toInt ≤ b.1.toInt

instance : DecidableRel keyLe := fun a b => inferInstanceAs (Decidable (a.1.toInt ≤ b.1.toInt))

/-- The loop over the sorted table, from case `j` on. -/
def addCases (profiling : Bool) (defaultDest : Int) : List (JInt × Int) → Nat → RangeStack → RangeStack
  | [], _, rs => rs
  | (matchInt, dest) :: table, j, rs =>
    let nextLo := rs.nextLo
    let rs : RangeStack := if matchInt ≠ nextLo then ⟨nextLo, matchInt - 1#32, defaultDest, none⟩ :: rs else rs
    addCases profiling defaultDest table (j + 1)
      (rs.adjoinOrPush matchInt matchInt dest (if profiling then some j else none))

def table (s : LookupSwitch) : List (JInt × Int) := s.cases.insertionSort keyLe

def ranges (s : LookupSwitch) (profiling : Bool) : List SwitchRange :=
  let highest := (s.table.getLast?.map Prod.fst).getD 0#32
  (addCases profiling s.defaultDest s.table 0 []).finish highest s.defaultDest

end LookupSwitch

/-! ## The generated code -/

/-- The tests and jump tables on the key. -/
inductive SwitchCode where
  | goto (dest : Int)
  | test (t : BoolTest) (value : JInt) (ifTrue ifFalse : SwitchCode)
  /-- The key less `lowval` selects an entry, after a guard against keys outside of the table. -/
  | jumpTable (lowval : JInt) (guard : Option (JInt × Int)) (entries : List (JInt × Int))
deriving Repr

namespace SwitchCode

/-- The entry of a jump table; a key without one jumps to nowhere. -/
def lookup (entries : List (JInt × Int)) (index : JInt) : Option Int :=
  (entries.find? (·.1 = index)).map Prod.snd

def run (key : JInt) : SwitchCode → Option Int
  | .goto dest => some dest
  | .test t value ifTrue ifFalse => if t.holds key value then ifTrue.run key else ifFalse.run key
  | .jumpTable lowval guard entries =>
    match guard with
    | some (size, defaultDest) =>
      if BoolTest.ge.holdsU (key - lowval) size then some defaultDest else lookup entries (key - lowval)
    | none => lookup entries (key - lowval)

end SwitchCode

/-! ## Jump tables -/

/-- The flags that decide on jump tables. -/
structure JumpTableFlags where
  useJumpTables : Bool
  hasJumpRule : Bool
  methodDataUpdate : Bool
  minJumpTableSize : Int
  maxJumpTableSize : Int
  maxJumpTableSparseness : Int
  maxSize_lt : maxJumpTableSize < 2 ^ 31

/-- The loop `for (int j = r->lo(); j <= r->hi(); j++, i++)` over one range. -/
def fillRange (lowval hi : JInt) (dest : Int) : Nat → JInt → Option (List (JInt × Int))
  | 0, _ => none
  | fuel + 1, j =>
    if j.sle hi then (fillRange lowval hi dest fuel (j + 1#32)).map ((j - lowval, dest) :: ·) else some []

def fillTable (fuel : Nat) (lowval : JInt) : List SwitchRange → Option (List (JInt × Int))
  | [] => some []
  | r :: rs => do
    let entries ← fillRange lowval r.hi r.dest fuel r.lo
    let rest ← fillTable fuel lowval rs
    return entries ++ rest

/-- A table that will be made: its ranges, its size and the destination of its guard. -/
structure TablePlan where
  ranges : List SwitchRange
  lowval : JInt
  numCases : Int
  guard : Option Int
deriving DecidableEq, Repr

/-- The part of `create_jump_tables` that decides, for two ranges or more. -/
def planJumpTable (f : JumpTableFlags) (ranges : List SwitchRange) : Option TablePlan :=
  if !f.useJumpTables || !f.hasJumpRule || f.methodDataUpdate then none
  else
    let lo := ranges.getD 0 default
    let hi := ranges.getD (ranges.length - 1) default
    let hiSize := hi.hi.toInt - hi.lo.toInt + 1
    let loSize := lo.hi.toInt - lo.lo.toInt + 1
    let (totalOutlierSize, defaultDest) :=
      if lo.dest = hi.dest then (hiSize + loSize, lo.dest)
      else if hiSize < loSize then (loSize, lo.dest)
      else (hiSize, hi.dest)
    let needsGuard := f.maxJumpTableSparseness * 4 < totalOutlierSize
    -- a guard lops off the end ranges that go to its destination
    let first := if needsGuard ∧ defaultDest = lo.dest then 1 else 0
    let stop := if needsGuard ∧ defaultDest = hi.dest then ranges.length - 1 else ranges.length
    let lo := ranges.getD first default
    let hi := ranges.getD (stop - 1) default
    let numCases := hi.hi.toInt - lo.lo.toInt + 1
    let numRange := (stop : Int) - first
    if numCases < f.minJumpTableSize ∨ f.maxJumpTableSize < numCases then none
    else if f.maxJumpTableSparseness * numRange < numCases then none
    else some { ranges := (ranges.take stop).drop first, lowval := lo.lo, numCases,
                guard := if needsGuard then some defaultDest else none }

/-- The part that generates the guard and the table. -/
def TablePlan.emit (p : TablePlan) (fuel : Nat) : Option SwitchCode := do
  let entries ← fillTable fuel p.lowval p.ranges
  return .jumpTable p.lowval (p.guard.map fun dest => (BitVec.ofInt 32 p.numCases, dest)) entries

/-! ## The tree of tests -/

/-- The pivot: the middle range, or the singleton before it. -/
def pivot (ranges : List SwitchRange) : Nat :=
  let nr := ranges.length
  let mid := nr / 2
  if 3 < nr ∧ !(ranges.getD mid default).isSingleton ∧ (ranges.getD (mid - 1) default).isSingleton then mid - 1
  else mid

/-- The ranges above the pivot that get code of their own. With three ranges, the high and the
low one going to the same place, the test for the high one is left out. -/
def upperRanges (ranges : List SwitchRange) : Option (List SwitchRange) :=
  let nr := ranges.length
  let mid := pivot ranges
  if (ranges.getD mid default).isSingleton then
    let eqTestOnly := nr = 3 ∧ (ranges.getD (nr - 1) default).dest = (ranges.getD 0 default).dest
    if mid + 1 < nr ∧ ¬ eqTestOnly then some (ranges.drop (mid + 1)) else none
  else if mid + 1 = nr then none
  else some (ranges.drop mid)

/-- The tests around the pivot. -/
def emitTests (mid : SwitchRange) (upper : Option SwitchCode) (lower : SwitchCode) : SwitchCode :=
  if mid.isSingleton then
    match upper with
    | some upper => .test .ne mid.lo (.test .le mid.lo lower upper) (.goto mid.dest)
    | none => .test .ne mid.lo lower (.goto mid.dest)
  else
    match upper with
    | some upper => .test .ge mid.lo upper lower
    | none => .test .ge mid.lo (.goto mid.dest) lower

/-- `jump_switch_ranges`, below the pruning of the top-level call. -/
def jumpSwitchRanges (f : JumpTableFlags) : Nat → List SwitchRange → Option SwitchCode
  | 0, _ => none
  | _, [] => none
  | _, [r] => some (.goto r.dest)
  | fuel + 1, ranges =>
    match planJumpTable f ranges with
    | some plan => plan.emit fuel
    | none => do
      let upper ← match upperRanges ranges with
        | some rs => (jumpSwitchRanges f fuel rs).map some
        | none => some none
      let lower ← jumpSwitchRanges f fuel (ranges.take (pivot ranges))
      return emitTests (ranges.getD (pivot ranges) default) upper lower

/-! ## The top-level call -/

/-- The bounds that the type of the key gives. -/
structure KeyType where
  minVal : JInt
  maxVal : JInt
  le : minVal.toInt ≤ maxVal.toInt

def KeyType.Contains (t : KeyType) (key : JInt) : Prop := t.minVal.toInt ≤ key.toInt ∧ key.toInt ≤ t.maxVal.toInt

/-- The ranges below the type of the key go, and the first one that is left starts in it. -/
def pruneLow (minVal : JInt) (ranges : List SwitchRange) : List SwitchRange :=
  match ranges.dropWhile (·.hi.slt minVal) with
  | [] => []
  | r :: rs => (if r.lo.slt minVal then { r with lo := minVal } else r) :: rs

def pruneHigh (maxVal : JInt) (ranges : List SwitchRange) : List SwitchRange :=
  match ranges.reverse.dropWhile (maxVal.slt ·.lo) with
  | [] => []
  | r :: rs => ((if maxVal.slt r.hi then { r with hi := maxVal } else r) :: rs).reverse

def KeyType.prune (t : KeyType) (ranges : List SwitchRange) : List SwitchRange :=
  pruneHigh t.maxVal (pruneLow t.minVal ranges)

inductive Switch where
  | table (s : TableSwitch)
  | lookup (s : LookupSwitch)

namespace Switch

def target : Switch → JInt → Int
  | .table s, key => s.target key
  | .lookup s, key => s.target key

def defaultDest : Switch → Int
  | .table s => s.defaultDest
  | .lookup s => s.defaultDest

/-- `len` -/
def size : Switch → Nat
  | .table s => s.dests.length
  | .lookup s => s.cases.length

def ranges (profiling : Bool) : Switch → List SwitchRange
  | .table s => s.ranges profiling
  | .lookup s => s.ranges profiling

/-- `do_tableswitch` and `do_lookupswitch` -/
def lower (s : Switch) (f : JumpTableFlags) (t : KeyType) (fuel : Nat) : Option SwitchCode :=
  if s.size < 1 then some (.goto s.defaultDest)
  else jumpSwitchRanges f fuel (t.prune (s.ranges f.methodDataUpdate))

end Switch

end Hotspot.Opto
