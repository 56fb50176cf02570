-- SUMMARY: The back-skips with the types of the code, and how far they are defined.
import Hotspot.Memory.BlockLookup

/-!
# Back-skips in machine arithmetic

`power_to_cards_back` shifts an `int` and widens the result to `size_t`. A shift of an `int` by 32
bits has no defined result, so that the loop over the powers of 16 may only get to the seventh. -/

namespace Hotspot.Memory

/-- `size_t` -/
abbrev SizeT := BitVec 64

/-- `1 << n`, if it is defined. -/
def shiftOne (n : Nat) : Option JInt := if n < 32 then some (1#32 <<< n) else none

/-- `power_to_cards_back` with the types of the code. -/
def powerToCardsBackInt (i : Nat) : Option SizeT :=
  (shiftOne (LogBase * i)).map (BitVec.signExtend 64)

namespace BlockOffsetSharedArray

/-- The loop of `set_remainder_to_point_to_start_incl` with the types of the code, and
    `start_card_for_region` after it. -/
def remainderLoopInt (startCard endCard : SizeT) :
    Nat → SizeT → BlockOffsetSharedArray → Option (BlockOffsetSharedArray × SizeT)
  | 0, startCardForRegion, this => some (this, startCardForRegion)
  | n + 1, startCardForRegion, this => do
    let i := nPowers - (n + 1)
    let power ← powerToCardsBackInt (i + 1)
    let reach := startCard - 1 + (power - 1)
    let offset : UChar := BitVec.ofNat 8 (this.nWords + i)
    if reach.toNat ≥ endCard.toNat then
      return (this.setOffsetArrayRange startCardForRegion.toNat endCard.toNat offset, reach + 1)
    else
      remainderLoopInt startCard endCard n (reach + 1)
        (this.setOffsetArrayRange startCardForRegion.toNat reach.toNat offset)

/-- The guarantees of `check_all_cards` at a card behind the first one. -/
def CheckCard (this : BlockOffsetSharedArray) (startCard c : SizeT) : Prop :=
  let entry := (this.offsetArray c.toNat).toNat
  ((c - startCard).toNat > 16 → this.nWords < entry) ∧ this.nWords ≤ entry ∧
    ∃ backskip, powerToCardsBackInt (entry - this.nWords) = some backskip ∧
      let landing := (c - backskip).toNat
      startCard.toNat - 1 ≤ landing ∧
        if startCard.toNat ≤ landing then (this.offsetArray landing).toNat ≤ entry
        else landing = startCard.toNat - 1 ∧ (this.offsetArray landing).toNat ≤ this.nWords

def CheckAllCards (this : BlockOffsetSharedArray) (startCard endCard : SizeT) : Prop :=
  (this.offsetArray startCard.toNat).toNat = this.nWords ∧
    ∀ c : SizeT, startCard.toNat < c.toNat → c.toNat ≤ endCard.toNat → this.CheckCard startCard c

variable {t that : BlockOffsetSharedArray} {startCard endCard : SizeT} {i k n : Nat}

theorem powerToCardsBackInt_eq (hi : i < 8) :
    powerToCardsBackInt i = some (BitVec.ofNat 64 (16 ^ i)) := by
  interval_cases i <;> rfl

section

variable (hstart : startCard.toNat = k + 1) (hend : endCard.toNat < 2 ^ 55)

include hstart hend

/-- Up to a distance of `2 ^ 28` cards the loop is the one over numbers without bounds, and beyond
it is not defined. -/
theorem remainderLoopInt_eq (hn : i + n = nPowers) (hi : i ≤ 7) (hleft : 16 ^ i ≤ endCard.toNat - k)
    {region : SizeT} : ∃ next : SizeT, endCard.toNat < next.toNat ∧
      remainderLoopInt startCard endCard n region t =
        if endCard.toNat - k < 2 ^ 28 then
          some (remainderLoop (k + 1) endCard.toNat n region.toNat t, next)
        else none := by
  induction n generalizing i t region with
  | zero =>
    simp only [nPowers] at hn
    omega
  | succ n ih =>
    have hpower : nPowers - (n + 1) = i := by omega
    rw [remainderLoopInt, remainderLoop, hpower]
    rcases hi.eq_or_lt with rfl | hlt
    · exact ⟨endCard + 1#64, by bv_omega, by rw [if_neg (by omega)]; rfl⟩
    · have hpow : 16 ^ (i + 1) ≤ 16 ^ 7 := Nat.pow_le_pow_right (by decide) (by omega)
      have hpos : 0 < 16 ^ (i + 1) := Nat.pow_pos (by decide)
      have hreach : (startCard - 1 + (BitVec.ofNat 64 (16 ^ (i + 1)) - 1)).toNat =
          k + (16 ^ (i + 1) - 1) := by
        bv_omega
      have hnext : (startCard - 1 + (BitVec.ofNat 64 (16 ^ (i + 1)) - 1) + 1).toNat =
          k + (16 ^ (i + 1) - 1) + 1 := by
        bv_omega
      rw [powerToCardsBackInt_eq (by omega), powerToCardsBack_eq, Nat.add_sub_cancel]
      simp only [Option.bind_eq_bind, Option.bind_some, hreach]
      split
      · next hge =>
        exact ⟨_, by rw [hnext]; omega, (if_pos (by omega)).symm⟩
      · next hge =>
        rw [← hnext]
        exact ih (i := i + 1) (by omega) (by omega) (by omega)

/-- The cards that point back by powers of 16 pass the check. -/
theorem checkAllCards_of_pointsBack (h : t.PointsBack that k (k + 1) endCard.toNat)
    (hle : k + 1 ≤ endCard.toNat) (hoffset : (t.offsetArray k).toNat ≤ t.nWords)
    (hnear : endCard.toNat - k < 2 ^ 28) : that.CheckAllCards startCard endCard := by
  have hmono : ∀ {a b : Nat}, 16 ^ a < 16 ^ (b + 1) → a ≤ b := fun h =>
    Nat.lt_succ_iff.mp ((Nat.pow_lt_pow_iff_right (by decide)).mp h)
  constructor
  · obtain ⟨i, -, hlo, hhi, hentry⟩ := h.log (k + 1) le_rfl hle
    obtain rfl : i = 0 := Nat.le_zero.mp (hmono (by omega))
    rw [hstart, hentry, Nat.add_zero]
  · intro c hlt hc
    obtain ⟨i, -, hlo, hhi, hentry⟩ := h.log c.toNat (by omega) hc
    have hi : i ≤ 6 := hmono (by omega)
    simp only [CheckCard, hentry, Nat.add_sub_cancel_left]
    have hland : (c - BitVec.ofNat 64 (16 ^ i)).toNat = c.toNat - 16 ^ i := by
      bv_omega
    refine ⟨fun hfar => ?_, Nat.le_add_right _ _, _, powerToCardsBackInt_eq (by omega), ?_⟩
    · have : i ≠ 0 := by
        rintro rfl
        bv_omega
      omega
    · simp only [hland, hstart, Nat.add_sub_cancel]
      refine ⟨by omega, ?_⟩
      split
      · obtain ⟨j, -, hlo', -, hentry'⟩ := h.log (c.toNat - 16 ^ i) (by omega) (by omega)
        have : j ≤ i := hmono (by omega)
        omega
      · have : c.toNat - 16 ^ i = k := by omega
        rw [this, h.frame k (by omega), h.same.nWords]
        exact ⟨rfl, hoffset⟩

end

/-- With the types of the code the loop keeps its promises just for cards less than `2 ^ 28` behind
the one with the offset. -/
theorem remainderLoopInt_iff (bottomCard : SizeT) (hbottom : bottomCard.toNat < startCard.toNat)
    (hle : startCard.toNat ≤ endCard.toNat) (hend : endCard.toNat < 2 ^ 55)
    (hoffset : (t.offsetArray (startCard.toNat - 1)).toNat ≤ t.nWords) :
    (∃ that next, remainderLoopInt startCard endCard nPowers startCard t = some (that, next) ∧
      t.PointsBack that (startCard.toNat - 1) startCard.toNat endCard.toNat ∧
        endCard.toNat < next.toNat ∧
      that.CheckAllCards startCard endCard) ↔ endCard.toNat - startCard.toNat + 1 < 2 ^ 28 := by
  obtain ⟨k, hstart⟩ : ∃ k, startCard.toNat = k + 1 := ⟨startCard.toNat - 1, by omega⟩
  obtain ⟨next, hnext, hloop⟩ :=
    remainderLoopInt_eq (i := 0) (t := t) hstart hend (Nat.zero_add nPowers)
    (Nat.zero_le 7) (by rw [pow_zero]; omega)
  rw [hloop, hstart, Nat.add_sub_cancel]
  rw [hstart, Nat.add_sub_cancel] at hoffset
  split
  · next hnear =>
    have hspec := @remainderLoop_spec t k endCard.toNat 0 nPowers (Nat.zero_add _)
      (hnear.trans (by decide))
    refine iff_of_true ⟨_, next, rfl, hspec, hnext, ?_⟩ (by omega)
    exact checkAllCards_of_pointsBack hstart hend hspec (by omega) hoffset hnear
  · next hfar => exact iff_of_false (by rintro ⟨_, _, h, -⟩; cases h) (by omega)

theorem remainderLoopInt_two_cards : ∃ that next, remainderLoopInt 1#64 2#64 nPowers 1#64
    ⟨.eight, 0, fun _ => 0⟩ = some (that, next) ∧
      PointsBack ⟨.eight, 0, fun _ => 0⟩ that 0 1 2 ∧ 2 < next.toNat ∧
        that.CheckAllCards 1#64 2#64 :=
  (remainderLoopInt_iff 0#64 (by decide) (by decide) (by decide) (by decide)).mpr (by decide)

/-- A block of `2 ^ 28` cards, or 128 GB, makes the code shift by 32 bits. -/
theorem remainderLoopInt_undefined :
    (remainderLoopInt 1#64 0x10000000#64 nPowers 1#64 ⟨.eight, 0, fun _ => 0⟩).isNone = true := by
  decide

end BlockOffsetSharedArray

end Hotspot.Memory
