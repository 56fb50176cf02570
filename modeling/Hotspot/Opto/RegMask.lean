-- SUMMARY: Register masks as arrays of words, and the sets of registers they stand for.
import Mathlib

/-!
# Register masks

A mask has a bit for each machine register and for the stack slots that follow them, `RM_SIZE`
words in all. The last bit also says that the mask goes on with ones for all further stack slots.
-/

namespace Hotspot.Chaitin

open BitVec List

/-- `OptoReg::Bad` -/
def bad : Int := -1

/-- `OptoReg::is_valid` -/
def isValid (reg : Int) : Bool := reg ≠ bad

/-- The words `_A` of a mask. -/
structure RegMask where
  words : Nat → BitVec 32

namespace RegMask

/-! ## Words -/

/-- One word has only aligned pairs of bits: each round takes out the lowest pair, and 16 rounds are
enough. -/
def alignedWord : Nat → BitVec 32 → Bool
  | 0, bits => bits = 0
  | n + 1, bits =>
    if bits = 0 then true
    else
      let bit := bits &&& -bits
      -- Low bit is not odd means its mis-aligned.
      if bit &&& 0x55555555#32 = 0 then false
      else
        let bits := bits - bit
        if bits &&& (bit <<< 1) = 0 then false else alignedWord n (bits - (bit <<< 1))

variable {bits : BitVec 32}

variable {i : Nat}

variable (sz rmSize : Nat) (m : RegMask)

def member (reg : Nat) : Bool := (m.words (reg / 32)).getLsbD (reg % 32)

/-- The mask repeats indefinitely with ones. -/
def isAllStack : Bool := (m.words (rmSize - 1)).msb

def isAlignedPairs : Bool := (List.range rmSize).all fun i => alignedWord 16 (m.words i)

def clear : RegMask := ⟨fun _ => 0⟩

def insert (reg : Nat) : RegMask :=
  ⟨Function.update m.words (reg / 32) (m.words (reg / 32) ||| 1#32 <<< (reg % 32))⟩

def remove (reg : Nat) : RegMask :=
  ⟨Function.update m.words (reg / 32) (m.words (reg / 32) &&& ~~~(1#32 <<< (reg % 32)))⟩

def and (rm : RegMask) : RegMask := ⟨fun i => m.words i &&& rm.words i⟩

/-- The number of bits. -/
def size : Nat := ((List.range rmSize).map fun i => (List.range 32).countP (m.words i).getLsbD).sum

/-! ## Sets of registers -/

/-- The registers of the mask. -/
def regs : Finset Nat := (Finset.range (32 * rmSize)).filter fun r => m.member r

variable {sz m}

@[simp] theorem mem_regs {r : Nat} : r ∈ m.regs sz ↔ r < 32 * sz ∧ m.member r = true := by
  simp [regs]

end RegMask

end Hotspot.Chaitin
