-- SUMMARY: The hash table of value numbering: lookup, insertion, deletion and growth.
import Hotspot.Base.JavaTypes
import Hotspot.Base.OpenAddressing

/-!
# NodeHash

The table of value numbering holds pointers to nodes. A slot is `NULL`, the sentinel that
replaces a deleted node, or a node. The virtual functions of the node classes are a
parameter, because they belong to hundreds of classes. The counters that only statistics
use are left out.

An operation has no result if it reads or writes outside the array or if it probes for ever.
-/

namespace Hotspot.Opto

namespace Gvn

open OpenAddressing

/-! ## Nodes -/

/-- The identity of a node other than the sentinel. -/
abbrev NodeId := Nat

/-- What the table may ask a node for. `special` is all that `cmp` looks at beyond the rest. -/
structure Node (β : Type) where
  idx : Nat
  opcode : Int
  inputs : List (Option NodeId)
  special : β

namespace Node

variable {β : Type}

def NO_HASH : UInt := 0

def req (n : Node β) : Nat := n.inputs.length

end Node

/-- `TypeFunc::Control`. -/
def Control : UInt := 0

/-- The virtual functions of the nodes, and what the table relies on. -/
structure NodeClasses (β : Type) where
  hash : Node β → UInt
  cmp : Node β → Node β → Bool
  /-- `(uint)(uintptr_t)` of a pointer. -/
  address : NodeId → UInt
  projNode : Option NodeId → UInt → Bool → Node β
  hash_projNode : ∀ src con isIoUse, hash (projNode src con isIoUse) =
    src.elim 0 address + (con <<< 1) + (if isIoUse then 1 else 0)
  cmp_self : ∀ n, cmp n n = true
  /-- Nodes that compare equal have the same hash. -/
  hash_eq : ∀ n k, n.opcode = k.opcode → n.inputs = k.inputs → cmp n k = true → hash n = hash k

namespace NodeClasses

variable {β : Type} (cls : NodeClasses β)

/-- Same number of inputs, same opcode, same inputs, and nothing special about them. -/
def congruent (n k : Node β) : Bool :=
  k.req == n.req && k.opcode == n.opcode && n.inputs == k.inputs && cls.cmp n k

/-- The node that `_sentinel` points to. -/
def sentinelNode : Node β := cls.projNode none Control false

end NodeClasses

/-- A `Node*` in the table. -/
inductive Slot where
  | null
  | sentinel
  | node (n : NodeId)
  deriving DecidableEq, Repr

/-! ## The table -/

structure NodeHash where
  max : UInt
  inserts : UInt
  insertLimit : UInt
  table : List Slot

namespace NodeHash

/-- `insert_limit()`: 75% of the slots, rounded up. -/
def limitOf (max : UInt) : UInt := max - (max >>> 2)

def empty (max : UInt) : NodeHash := ⟨max, 0, limitOf max, List.replicate max.toNat .null⟩

def NODE_HASH_MINIMUM_SIZE : UInt := 255

/-- `while (i < x) i <<= 1`, which gets stuck at zero if no power of two is large enough. -/
def roundUpLoop (x : UInt) : Nat → UInt → Option UInt
  | 0, _ => none
  | fuel + 1, i => if i < x then roundUpLoop x fuel (i <<< 1) else some i

def roundUp (x : UInt) : Option UInt :=
  let x := x + (x >>> 2)
  if x < 16 then some 16 else roundUpLoop x 32 16

/-- The constructor. -/
def new (estMaxSize : UInt) : Option NodeHash := do
  let max ← roundUp (if estMaxSize < NODE_HASH_MINIMUM_SIZE then NODE_HASH_MINIMUM_SIZE
    else estMaxSize)
  return empty max

variable (this : NodeHash)

/-- `_table[key]` -/
def read (key : UInt) : Option Slot := this.table[key.toNat]?

/-- `_table[key] = k` -/
def write (key : UInt) (k : Slot) : Option NodeHash :=
  if key.toNat < this.table.length then some { this with table := this.table.set key.toNat k }
  else none

def homeKey (hash : UInt) : UInt := hash &&& (this.max - 1)

def strideOf (key : UInt) : UInt := key ||| 0x01

def nextKey (stride key : UInt) : UInt := (key + stride) &&& (this.max - 1)

/-- The loops that go from the home slot to the first slot that satisfies `stop`. After `_max`
probes they are back where they started. -/
def probe (hash : UInt) (stop : Slot → Bool) : Option (UInt × Slot) :=
  let key := this.homeKey hash
  search this.read (this.nextKey (strideOf key)) stop this.max.toNat key

section Operations

variable {β : Type} (cls : NodeClasses β) (nodes : NodeId → Node β)

/-- A node is compared with what a slot points to. -/
def hits (n : NodeId) : Slot → Bool
  | .null => false
  | .sentinel => cls.congruent (nodes n) cls.sentinelNode
  | .node k => cls.congruent (nodes n) (nodes k)

def hashFind (n : NodeId) : Option Slot :=
  let hash := cls.hash (nodes n)
  if hash = Node.NO_HASH then some .null
  else do
    let (_, k) ← this.probe hash fun k => k == .null || hits cls nodes n k
    return k

/-! ## Insertion and growth -/

/-- `check_grow`, with the call of `grow` left open. -/
def checkGrowWith (grow : NodeHash → Option NodeHash) : Option NodeHash :=
  let this := { this with inserts := this.inserts + 1 }
  if this.inserts = this.insertLimit then grow this else some this

/-- `hash_insert`, with the call of `grow` left open. -/
def hashInsertWith (grow : NodeHash → Option NodeHash) (n : NodeId) : Option NodeHash :=
  let hash := cls.hash (nodes n)
  if hash = Node.NO_HASH then some this
  else do
    let this ← this.checkGrowWith grow
    let (key, _) ← this.probe hash fun k => k == .null || k == .sentinel
    this.write key (.node n)

/-- Insert what one slot of the old table holds. -/
def reinsertWith (grow : NodeHash → Option NodeHash) : Slot → Option NodeHash
  | .null => some this
  | .sentinel => some this
  | .node m => this.hashInsertWith cls nodes grow m

/-- Calls of `grow` may be nested, but 33 doublings leave no slots at all. -/
def growLoop : Nat → NodeHash → Option NodeHash
  | 0, _ => none
  | fuel + 1, this =>
    List.foldlM (fun that slot => reinsertWith that cls nodes (growLoop fuel) slot)
      (empty (this.max <<< 1)) this.table

def grow : Option NodeHash := growLoop cls nodes 33 this

def checkGrow : Option NodeHash := this.checkGrowWith fun that => that.grow cls nodes

def hashInsert (n : NodeId) : Option NodeHash :=
  this.hashInsertWith cls nodes (fun that => that.grow cls nodes) n

/-- The outcome of probing in `hash_find_insert`. -/
inductive Probed where
  | hit (k : Slot)
  | miss (key : UInt)
  deriving DecidableEq, Repr

/-- The loop of `hash_find_insert`. Zero stands for no sentinel seen. -/
def findInsertLoop (n : NodeId) (stride : UInt) : Nat → UInt → UInt → Option Probed
  | 0, _, _ => none
  | fuel + 1, key, firstSentinel => do
    let k ← this.read key
    if k = .null then return .miss (if firstSentinel = 0 then key else firstSentinel)
    let firstSentinel := if firstSentinel = 0 ∧ k = .sentinel then key else firstSentinel
    if hits cls nodes n k then return .hit k
    findInsertLoop n stride fuel (this.nextKey stride key) firstSentinel

def hashFindInsert (n : NodeId) : Option (Slot × NodeHash) :=
  let hash := cls.hash (nodes n)
  if hash = Node.NO_HASH then some (.null, this)
  else do
    let key := this.homeKey hash
    match ← this.findInsertLoop cls nodes n (strideOf key) this.max.toNat key 0 with
    | .hit k => return (k, this)
    | .miss key =>
      let this ← this.write key (.node n)
      let this ← this.checkGrow cls nodes
      return (.null, this)

/-! ## Removal -/

def hashDelete (n : NodeId) : Option (Bool × NodeHash) :=
  let hash := cls.hash (nodes n)
  if hash = Node.NO_HASH then some (false, this)
  else do
    let (key, k) ← this.probe hash fun k => k == .null || k == .node n
    if k = .null then return (false, this)
    let this ← this.write key .sentinel
    return (true, this)

/-- What is left of a slot; `useful` is asked for the index of a node. -/
def removeUseless (useful : Nat → Bool) : Slot → Slot
  | .node n => if useful (nodes n).idx then .node n else .sentinel
  | k => k

def removeUselessNodes (useful : Nat → Bool) : NodeHash :=
  { this with table := this.table.map (removeUseless nodes useful) }

def clear : NodeHash := { this with table := List.replicate this.max.toNat .null }

end Operations

end NodeHash

end Gvn

end Hotspot.Opto
