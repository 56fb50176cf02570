-- SUMMARY: Live ranges, their interference graph, and the passes Simplify and Select.
import Hotspot.Opto.RegMask

/-!
# Chaitin-Briggs register allocation

`simplify` takes the live ranges out of the interference graph, those of low degree first. `select`
puts them back in reverse order and gives each a register that none of its neighbours has. The
worklists are linked through the live ranges in the source; they are lists here.
-/

namespace Hotspot.Chaitin

/-! ## Live ranges -/

/-- `LRG::SPILL_REG` -/
def spillReg : Int := 29999

/-- A live range. What the spill heuristic computes with floating point is only compared. -/
structure LRG where
  alive : Bool
  mustSpill : Bool
  fatProj : Bool
  wasSpilled2 : Bool
  atRisk : Bool
  numRegs : Nat
  mask : RegMask
  maskSize : Nat
  effDegree : Int
  reg : Int
  riskBias : Nat
  copyBias : Nat
  score : Rat
  area : Rat

namespace LRG

def degreesOfFreedom (lrg : LRG) : Int := lrg.maskSize - lrg.numRegs

/-- Trivially colorable. -/
def loDegree (lrg : LRG) : Bool := lrg.effDegree ≤ lrg.degreesOfFreedom

/-- Just barely low degree. -/
def justLoDegree (lrg : LRG) : Bool := lrg.effDegree = lrg.degreesOfFreedom

/-- If either is mis-aligned or not adjacent, the sizes multiply. -/
def computeDegree (lrg l : LRG) : Nat :=
  if lrg.fatProj || l.fatProj then lrg.numRegs * l.numRegs else max lrg.numRegs l.numRegs

/-- An aligned pair of registers. -/
def isPair (lrg : LRG) : Bool := lrg.numRegs = 2 && !lrg.fatProj

end LRG

/-! ## The interference graph -/

/-- What does not change during the allocation. -/
structure Config where
  /-- Live ranges are numbered from 1. -/
  maxlrg : Nat
  /-- `RM_SIZE` -/
  rmSize : Nat
  /-- The first stack slot. -/
  stack0 : Int
  /-- The union-find tree of coalesced live ranges. -/
  find : Nat → Nat
  rmSize_pos : 0 < rmSize
  /-- The spill register is beyond the first chunk. -/
  chunk_le : (32 * rmSize : Int) ≤ spillReg

/-- `PhaseChaitin` with its `PhaseIFG`. The ranges in `spilled` have got the spill registers from
    `SPILL_REG` on, the last one first. -/
structure Phase where
  lrgs : Nat → LRG
  adjs : Nat → Nat → Bool
  yanked : Nat → Bool
  loDegree : List Nat
  loStkDegree : List Nat
  hiDegree : List Nat
  simplified : List Nat
  alternate : Nat
  maxReg : Int
  spilled : List Nat

variable (cfg : Config)

/-- `RegMask::CHUNK_SIZE` -/
def Config.chunkSize : Int := 32 * cfg.rmSize

/-- `compute_mask_size` -/
def Config.maskSize (m : RegMask) : Nat := if m.isAllStack cfg.rmSize then 65535 else m.size cfg.rmSize

namespace Phase

/-- The elements of an index set, in increasing order. -/
def neighbors (s : Phase) (a : Nat) : List Nat := (List.range cfg.maxlrg).filter (s.adjs a)

def effectiveDegree (s : Phase) (a : Nat) : Nat :=
  ((s.neighbors cfg a).map fun n => (s.lrgs a).computeDegree (s.lrgs n)).sum

/-- Yank a live range and all connected edges. -/
def removeNode (s : Phase) (a : Nat) : Phase :=
  { s with
    yanked := Function.update s.yanked a true
    adjs := fun i j => s.adjs i j && !(decide (j = a) && s.adjs a i)
    lrgs := fun i =>
      if s.adjs a i then { s.lrgs i with effDegree := (s.lrgs i).effDegree - (s.lrgs a).computeDegree (s.lrgs i) }
      else s.lrgs i }

/-- Mark the current neighbors of a live range that is at risk. -/
def markRisk (s : Phase) (lo : Nat) : Phase :=
  if (s.lrgs lo).atRisk then
    { s with lrgs := fun i => if s.adjs lo i then { s.lrgs i with riskBias := lo } else s.lrgs i }
  else s

/-- Pull a live range from the high degree list. There is no result if it is not on that list: its
links would be those of another one. -/
def pullHigh (s : Phase) (i : Nat) : Option Phase :=
  if i ∈ s.hiDegree then some { s with hiDegree := s.hiDegree.erase i } else none

/-- A neighbor of a live range that was taken out may just have become of low degree. -/
def visitNeighbor (s : Phase) (n : Nat) : Option Phase :=
  if (s.lrgs n).justLoDegree && !(s.lrgs n).mustSpill then
    (s.pullHigh n).map fun s => { s with loDegree := n :: s.loDegree }
  else some s

/-- Take out a live range that has been pulled from a low degree list. -/
def simplifyOne (s : Phase) (lo : Nat) : Option Phase :=
  let s := { s with simplified := lo :: s.simplified }
  let s := (s.markRisk lo).removeNode lo
  (s.neighbors cfg lo).foldlM visitNeighbor s

/-- Smaller cost/area wins, and in a tie after spilling twice, the larger area. -/
def cheaper (s : Phase) (i loScore : Nat) : Bool :=
  let lrg := s.lrgs i
  let lo := s.lrgs loScore
  lrg.score < lo.score || (lrg.score = lo.score && lo.area < lrg.area && lo.wasSpilled2)

/-- Find the cheapest live range of the list, unless one has become of low degree. -/
def findCheapest (s : Phase) : Nat → List Nat → Nat
  | loScore, [] => loScore
  | loScore, i :: rest =>
    if (s.lrgs i).loDegree then i
    else if s.cheaper i loScore then findCheapest s i rest
    else findCheapest s loScore rest

/-- Jam a live range on the low degree list, despite its high degree. -/
def jam (s : Phase) (i : Nat) : Phase :=
  { s with
    hiDegree := s.hiDegree.erase i
    lrgs := Function.update s.lrgs i { s.lrgs i with atRisk := true }
    loDegree := [i] }

/-- The two nested loops. -/
def simplify : Nat → Phase → Option Phase
  | 0, _ => none
  | fuel + 1, s =>
    match s.loDegree, s.loStkDegree, s.hiDegree with
    | lo :: rest, _, _ => ({ s with loDegree := rest }.simplifyOne cfg lo).bind (simplify fuel)
    | [], lo :: rest, _ => ({ s with loStkDegree := rest }.simplifyOne cfg lo).bind (simplify fuel)
    | [], [], [] => some s
    | [], [], hi :: rest => simplify fuel (s.jam (s.findCheapest hi (hi :: rest)))

/-! ## Select -/

/-- A register of another live range that is legal for a live range with the mask `m`. -/
def legal (lrg : LRG) (m : RegMask) (chunk reg : Int) : Bool :=
  chunk ≤ reg && reg < chunk + cfg.chunkSize && m.member (reg - chunk).toNat && (lrg.numRegs = 1 || reg % 2 = 1)

/-- What the search for a color ends with. -/
structure Choice where
  reg : Int
  chunk : Int
  /-- The mask that is left. -/
  mask : RegMask
  alternate : Nat

/-- Restrict the mask to just what was picked. -/
def restrict (lrg : LRG) (c : Choice) : LRG :=
  let reg := (c.reg - c.chunk).toNat
  let lrg := { lrg with reg := c.reg }
  if lrg.numRegs = 1 then { lrg with mask := RegMask.clear.insert reg, maskSize := 1 }
  else if !lrg.fatProj then { lrg with mask := (RegMask.clear.insert reg).insert (reg - 1), maskSize := 2 }
  else { lrg with mask := c.mask }

/-- Record the color, or that there is none. -/
def record (s : Phase) (lidx : Nat) (c : Choice) : Phase :=
  let s := { s with alternate := c.alternate }
  let lrg := s.lrgs lidx
  if isValid c.reg then
    { s with
      lrgs := Function.update s.lrgs lidx (restrict lrg c)
      maxReg := if s.maxReg ≤ c.reg then c.reg + 1 else s.maxReg }
  else
    { s with
      lrgs := Function.update s.lrgs lidx { lrg with reg := spillReg + s.spilled.length, mask := c.mask }
      spilled := lidx :: s.spilled }

end Phase

/-! ## Interference graphs -/

/-- A live range with an allowed mask: single registers, aligned pairs or a fat projection, which
takes all registers of its mask. -/
structure LRG.Wellformed (lrg : LRG) : Prop where
  numRegs_pos : 0 < lrg.numRegs
  single_or_pair : lrg.fatProj = false → lrg.numRegs = 1 ∨ lrg.numRegs = 2
  aligned : lrg.isPair = true → lrg.mask.isAlignedPairs cfg.rmSize = true
  fat : lrg.fatProj = true → lrg.mask.isAllStack cfg.rmSize = false ∧ lrg.mask.size cfg.rmSize = lrg.numRegs
  maskSize_eq : lrg.maskSize = cfg.maskSize lrg.mask

/-- What the allocator starts from: a square interference graph with its effective degrees, and
empty lists. -/
structure Graph extends Phase where
  symm : ∀ i j, adjs i j = true → adjs j i = true
  irrefl : ∀ i, adjs i i = false
  bounds : ∀ i j, adjs i j = true → 0 < i ∧ i < cfg.maxlrg
  /-- Dead live ranges have no edges. -/
  alive : ∀ i j, adjs i j = true → (lrgs i).alive = true
  wellformed : ∀ i, 0 < i → i < cfg.maxlrg → (lrgs i).alive = true → (lrgs i).Wellformed cfg
  degree : ∀ i < cfg.maxlrg, (lrgs i).effDegree = toPhase.effectiveDegree cfg i
  yanked_eq : yanked = fun _ => false
  lists_eq : loDegree = [] ∧ loStkDegree = [] ∧ hiDegree = [] ∧ simplified = []

end Hotspot.Chaitin
