-- SUMMARY: The fixed-width integer types of the Java virtual machine and of its C++ sources.
import Mathlib

/-!
# Java types

The virtual machine passes between a signed type and the unsigned type of the
same width by plain casts, so one bit vector stands for both. Where the sign
matters the definitions use the signed operations of `BitVec`.
-/

namespace Hotspot

abbrev UChar := BitVec 8
abbrev JBoolean := BitVec 8
abbrev JByte := BitVec 8
abbrev JChar := BitVec 16
abbrev JShort := BitVec 16
abbrev JInt := BitVec 32
abbrev JLong := BitVec 64
abbrev UInt := BitVec 32

namespace JLong

def low (value : JLong) : JInt := value.setWidth 32
def high (value : JLong) : JInt := (value.sshiftRight 32).setWidth 32

/-- `jlong_from`: the high word is shifted into place, the low one is zero-extended. -/
def ofWords (h l : JInt) : JLong := (h.signExtend 64 <<< 32) ||| l.setWidth 64

theorem ofWords_high_low (value : JLong) : ofWords (high value) (low value) = value := by
  apply BitVec.eq_of_getLsbD_eq
  intro i hi
  simp only [ofWords, high, low, BitVec.getLsbD_or, BitVec.getLsbD_shiftLeft,
    BitVec.getLsbD_signExtend, BitVec.getLsbD_setWidth, BitVec.getLsbD_sshiftRight]
  by_cases hlow : i < 32
  · simp [hlow, hi]
  · have hword : i - 32 < 32 := by omega
    simp [hlow, hi, hword, show i - 32 < 64 by omega, show 32 + (i - 32) = i by omega]

end JLong

end Hotspot
