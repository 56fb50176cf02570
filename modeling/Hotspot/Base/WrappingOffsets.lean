-- SUMMARY: Offsets in wrapping arithmetic: when some bounds imply another.
import Mathlib

/-!
# Offsets in wrapping arithmetic

Let an index plus each of some offsets be below a length, where the sums wrap. The offsets
then lie on an arc of the circle of numbers that is shorter than the length, and another
offset has to be below the length exactly if it lies on that arc. `Covered` says this about
the offsets alone.
-/

namespace Hotspot

variable {w : Nat} {os : List (BitVec w)} {a : BitVec w}

/-- From each offset that has the others in front of it at a distance, some of them is beyond `a`. -/
def Covered (os : List (BitVec w)) (a : BitVec w) : Prop :=
  ∀ o ∈ os, (∀ o' ∈ os, (o' - o).toNat + 1 < 2 ^ (w - 1)) →
    ∃ o' ∈ os, (a - o).toNat ≤ (o' - o).toNat

instance (os : List (BitVec w)) (a : BitVec w) : Decidable (Covered os a) :=
  decidable_of_iff
    (os.all fun o => (os.all fun o' => (o' - o).toNat + 1 < 2 ^ (w - 1)) →
      os.any fun o' => (a - o).toNat ≤ (o' - o).toNat)
    (by simp only [Covered, List.all_eq_true, List.any_eq_true, decide_eq_true_eq])

theorem toNat_sub_of_le {x y : BitVec w} (h : x.toNat ≤ y.toNat) : (y - x).toNat = y.toNat - x.toNat :=
  BitVec.toNat_sub_of_le h

end Hotspot
