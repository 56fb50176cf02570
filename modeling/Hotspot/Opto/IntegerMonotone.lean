-- SUMMARY: Which integer Value functions are monotone, and the exact inputs on which one is not.
import Hotspot.Opto.IntegerSoundness

/-!
# Monotonicity of integer types

Conditional constant propagation lowers the types of the inputs of a node again and
again, and asserts that the type of the node only ever goes down with them. On ranges
that is `Within`, which also compares the widen bits.

All nodes but the subclasses of `AddNode` are monotone. Those return an input unchanged
when the other one is the identity, with whatever widen bits it has, and `XorINode`
recognises a boolean on its left only.
-/

namespace Hotspot.Opto

variable {k : Kind}

open IntegerType RShiftNode LShiftNode MulNode TypeInt

/-! ## Constants and booleans -/

namespace IntegerType

variable {r r' : IntegerType k.width} {c : BitVec k.width}

theorem Within.eq_con (h : r.Within (con c)) (hr : r.Nonempty) : r = con c :=
  (within_con_iff hr).mp h

theorem Nonempty.contains_hi {w : Nat} {r : IntegerType w} (h : r.Nonempty) : r.Contains r.hi :=
  ⟨h, le_rfl⟩

/-- A range whose ends are covered lies within a type if its widen bits do. -/
theorem within_iff_widen (hlo : r'.Contains r.lo) (hhi : r'.Contains r.hi) :
    r.Within r' ↔ r.widen ≤ r'.widen :=
  ⟨fun h => h.widen, fun h => ⟨hlo.1, hhi.2, h⟩⟩

theorem Within.ne_full (h : r.Within r') (hne : r' ≠ full k.width) : r ≠ full k.width := by
  rintro rfl
  exact hne (eq_full_of_within h)

end IntegerType

/-- The types within `TypeInt::BOOL`. -/
theorem within_bool {r : TypeInt} (hr : r.Nonempty) (h : r.Within bool) :
    r = .con 0 ∨ r = TypeInt.one ∨ r = bool := by
  have hlo := contains_bool.mp (h.contains hr.contains_lo)
  have hhi := contains_bool.mp (h.contains hr.contains_hi)
  have hwiden : r.widen = WidenMin := Fin.le_zero_iff.mp h.widen
  obtain ⟨lo, hi, widen⟩ := r
  obtain rfl | rfl := hlo <;> obtain rfl | rfl := hhi <;> subst hwiden
  · exact .inl rfl
  · exact .inr (.inr rfl)
  · exact absurd (show (1 : Int) ≤ 0 from hr) (by decide)
  · exact .inr (.inl rfl)

/-! ## AddNode -/

/-- How the ring sum of an `AddNode` depends on its inputs. A `narrow` pair has a sum without
widen bits; `skew` tells where the ring sum itself is not monotone. -/
structure AddNode.Laws (n : AddNode k) (narrow : IntegerType k.width → IntegerType k.width → Prop)
    (skew : IntegerType k.width → IntegerType k.width → IntegerType k.width →
      IntegerType k.width → Prop) : Prop where
  ring_within : ∀ {r0 r1 r0' r1' : IntegerType k.width}, r0.Nonempty → r1.Nonempty →
    r0.Within r0' → r1.Within r1' → r0 ≠ n.addId → r1 ≠ n.addId →
    ((n.addRing r0 r1).Within (n.addRing r0' r1') ↔ ¬ skew r0 r1 r0' r1')
  widen_narrow : ∀ {r0 r1 : IntegerType k.width}, r0.Nonempty → r1.Nonempty → narrow r0 r1 →
    (n.addRing r0 r1).widen = WidenMin
  widen_wide : ∀ {r0 r1 : IntegerType k.width}, r0.Nonempty → r1.Nonempty → ¬ narrow r0 r1 →
    r0.widen2 r1 ≤ (n.addRing r0 r1).widen
  skew_ne : ∀ {r0 r1 r0' r1' : IntegerType k.width}, skew r0 r1 r0' r1' →
    r0 ≠ n.addId ∧ r1 ≠ n.addId

/-- The inputs on which the type of an `AddNode` goes up although those of its inputs go down. -/
def AddNode.Rises (n : AddNode k) (narrow : IntegerType k.width → IntegerType k.width → Prop)
    (skew : IntegerType k.width → IntegerType k.width → IntegerType k.width →
      IntegerType k.width → Prop)
    (r1 r2 r1' r2' : IntegerType k.width) : Prop :=
  r1' ≠ .full k.width ∧ r2' ≠ .full k.width ∧
    ((r1 = n.addId ∧ r1' ≠ n.addId ∧ WidenMin < r2.widen ∧ narrow r1' r2') ∨
      (r2 = n.addId ∧ r2' ≠ n.addId ∧ WidenMin < r1.widen ∧ narrow r1' r2') ∨
      skew r1 r2 r1' r2')

namespace AddNode

variable {n : AddNode k} {f : BitVec k.width → BitVec k.width → BitVec k.width} {c : BitVec k.width}
  {narrow : IntegerType k.width → IntegerType k.width → Prop}
  {skew : IntegerType k.width → IntegerType k.width → IntegerType k.width →
    IntegerType k.width → Prop}
  {r1 r2 r1' r2' : IntegerType k.width}

theorem ranges_full (h : r1 = .full k.width ∨ r2 = .full k.width) :
    n.ranges r1 r2 = .full k.width :=
  if_pos h

theorem ranges_id_left (h1 : r1 = n.addId) (h2 : r2 ≠ .full k.width)
    (hne : n.addId ≠ .full k.width) : n.ranges r1 r2 = r2 := by
  subst h1
  rw [ranges, if_neg (not_or.mpr ⟨hne, h2⟩), if_pos (.refl _)]

theorem ranges_id_right (hid : n.addId = con c) (hr1 : r1.Nonempty) (h1 : r1 ≠ .full k.width)
    (hne1 : r1 ≠ n.addId) (h2 : r2 = n.addId) (hne : n.addId ≠ .full k.width) :
    n.ranges r1 r2 = r1 := by
  subst h2
  rw [ranges, if_neg (not_or.mpr ⟨h1, hne⟩), if_neg, if_pos (.refl _)]
  rw [hid, within_con_iff hr1, ← hid]
  exact hne1

theorem ranges_ring (hid : n.addId = con c) (hr1 : r1.Nonempty) (hr2 : r2.Nonempty)
    (h1 : r1 ≠ .full k.width) (h2 : r2 ≠ .full k.width) (hne1 : r1 ≠ n.addId) (hne2 : r2 ≠ n.addId) :
    n.ranges r1 r2 = n.addRing r1 r2 := by
  rw [ranges, if_neg (not_or.mpr ⟨h1, h2⟩), if_neg, if_neg]
  · rw [hid, within_con_iff hr2, ← hid]
    exact hne2
  · rw [hid, within_con_iff hr1, ← hid]
    exact hne1

/-- What passes through beside an identity lies within the ring sum, up to the widen bits. -/
theorem Laws.pass_within_iff (h : n.Laws narrow skew) {r : IntegerType k.width}
    (hr1 : r1'.Nonempty) (hr2 : r2'.Nonempty) (hlo : (n.addRing r1' r2').Contains r.lo)
    (hhi : (n.addRing r1' r2').Contains r.hi) (hwiden : r.widen ≤ r1'.widen2 r2') :
    r.Within (n.addRing r1' r2') ↔ ¬ (WidenMin < r.widen ∧ narrow r1' r2') := by
  rw [within_iff_widen hlo hhi]
  by_cases hnarrow : narrow r1' r2'
  · rw [h.widen_narrow hr1 hr2 hnarrow, and_iff_left hnarrow, not_lt]
  · simp only [hnarrow, and_false, not_false_eq_true, iff_true]
    exact hwiden.trans (h.widen_wide hr1 hr2 hnarrow)

section

variable (hs : n.Sound f c) (hne : n.addId ≠ .full k.width) (hr1 : r1.Nonempty) (hr2 : r2.Nonempty)
  (h1 : r1.Within r1') (h2 : r2.Within r2') (hfull1 : r1' ≠ .full k.width)
  (hfull2 : r2' ≠ .full k.width)

include hs hr1 h1 in
/-- An input that is not the identity does not become it. -/
theorem Sound.ne_id (hid : r1 ≠ n.addId) : r1' ≠ n.addId := by
  intro heq
  rw [heq, hs.addId_eq] at h1
  exact hid (hs.addId_eq ▸ h1.eq_con hr1)

include hs hne hr2 h1 h2 hfull1 hfull2 in
theorem Laws.id_left_within_iff (h : n.Laws narrow skew) (hid : r1 = n.addId) :
    r2.Within (n.ranges r1' r2') ↔ ¬ (r1' ≠ n.addId ∧ WidenMin < r2.widen ∧ narrow r1' r2') := by
  have hc : r1.Contains c := by
    rw [hid, hs.addId_eq]
    exact contains_con c
  have hr1' := (h1.contains hc).nonempty
  have hr2' := h2.nonempty hr2
  by_cases hid1' : r1' = n.addId
  · rw [ranges_id_left hid1' hfull2 hne]
    exact iff_of_true h2 (fun hrise => hrise.1 hid1')
  by_cases hid2' : r2' = n.addId
  · -- both inputs were the identity
    have hid2 : r2 = n.addId := Classical.byContradiction fun hid2 => hs.ne_id hr2 h2 hid2 hid2'
    rw [ranges_id_right hs.addId_eq hr1' hfull1 hid1' hid2' hne]
    refine iff_of_true ?_ ?_
    · rw [hid2, ← hid]
      exact h1
    · rintro ⟨-, hwiden, -⟩
      rw [hid2, hs.addId_eq] at hwiden
      exact lt_irrefl _ hwiden
  · rw [ranges_ring hs.addId_eq hr1' hr2' hfull1 hfull2 hid1' hid2', and_iff_right hid1']
    refine h.pass_within_iff hr1' hr2' ?_ ?_ (h2.widen.trans (le_max_right _ _))
    · have hlo := hs.contains (h1.contains hc) (h2.contains hr2.contains_lo)
      rwa [hs.id_left] at hlo
    · have hhi := hs.contains (h1.contains hc) (h2.contains hr2.contains_hi)
      rwa [hs.id_left] at hhi

include hs hne hr1 h1 h2 hfull1 hfull2 in
theorem Laws.id_right_within_iff (h : n.Laws narrow skew) (hid1' : r1' ≠ n.addId)
    (hid : r2 = n.addId) :
    r1.Within (n.ranges r1' r2') ↔ ¬ (r2' ≠ n.addId ∧ WidenMin < r1.widen ∧ narrow r1' r2') := by
  have hc : r2.Contains c := by
    rw [hid, hs.addId_eq]
    exact contains_con c
  have hr1' := h1.nonempty hr1
  have hr2' := (h2.contains hc).nonempty
  by_cases hid2' : r2' = n.addId
  · rw [ranges_id_right hs.addId_eq hr1' hfull1 hid1' hid2' hne]
    exact iff_of_true h1 (fun hrise => hrise.1 hid2')
  rw [ranges_ring hs.addId_eq hr1' hr2' hfull1 hfull2 hid1' hid2', and_iff_right hid2']
  refine h.pass_within_iff hr1' hr2' ?_ ?_ (h1.widen.trans (le_max_left _ _))
  · have hlo := hs.contains (h1.contains hr1.contains_lo) (h2.contains hc)
    rwa [hs.id_right] at hlo
  · have hhi := hs.contains (h1.contains hr1.contains_hi) (h2.contains hc)
    rwa [hs.id_right] at hhi

include hs hne hr1 hr2 h1 h2 in
/-- An `AddNode` is monotone except where it rises. -/
theorem Laws.ranges_within_iff (h : n.Laws narrow skew) :
    (n.ranges r1 r2).Within (n.ranges r1' r2') ↔ ¬ n.Rises narrow skew r1 r2 r1' r2' := by
  by_cases hfull : r1' = .full k.width ∨ r2' = .full k.width
  · rw [ranges_full hfull]
    exact iff_of_true (within_full _) (fun hrise => hfull.elim hrise.1 hrise.2.1)
  obtain ⟨hfull1', hfull2'⟩ := not_or.mp hfull
  have hfull1 := h1.ne_full hfull1'
  have hfull2 := h2.ne_full hfull2'
  have hidw : ¬ WidenMin < n.addId.widen := by
    rw [hs.addId_eq]
    exact lt_irrefl _
  rw [Rises, and_iff_right hfull1', and_iff_right hfull2']
  by_cases hid1 : r1 = n.addId
  · rw [ranges_id_left hid1 hfull2 hne,
      h.id_left_within_iff hs hne hr2 h1 h2 hfull1' hfull2' hid1, and_iff_right hid1, or_iff_left]
    rintro (⟨-, -, hwiden, -⟩ | hskew)
    · exact hidw (hid1 ▸ hwiden)
    · exact (h.skew_ne hskew).1 hid1
  · have hid1' := hs.ne_id hr1 h1 hid1
    rw [or_iff_right (fun hrise => hid1 hrise.1)]
    by_cases hid2 : r2 = n.addId
    · rw [ranges_id_right hs.addId_eq hr1 hfull1 hid1 hid2 hne,
        h.id_right_within_iff hs hne hr1 h1 h2 hfull1' hfull2' hid1' hid2, and_iff_right hid2,
        or_iff_left (fun hskew => (h.skew_ne hskew).2 hid2)]
    · have hid2' := hs.ne_id hr2 h2 hid2
      rw [ranges_ring hs.addId_eq hr1 hr2 hfull1 hfull2 hid1 hid2,
        ranges_ring hs.addId_eq (h1.nonempty hr1) (h2.nonempty hr2) hfull1' hfull2' hid1' hid2',
        h.ring_within hr1 hr2 h1 h2 hid1 hid2, or_iff_right (fun hrise => hid2 hrise.1)]

end

end AddNode

/-! ## The subclasses of AddNode -/

namespace IntegerType

section

variable {lo hi : BitVec k.width} {v : Widen}

theorem make_widen_small (h : lo.toInt ≤ hi.toInt) (hsmall : hi.toInt - lo.toInt ≤ 3) :
    (make lo hi v).widen = WidenMin := by
  have hbound := k.bound_ge
  rw [make_widen h, if_neg (by omega), if_pos hsmall]

end

/-- Both inputs are constants. -/
def ConPair {w : Nat} (r0 r1 : IntegerType w) : Prop := r0.isCon = true ∧ r1.isCon = true

/-- The sum has at most four values, which the type of an addition tells. -/
def SmallSum (r0 r1 : IntegerType k.width) : Prop :=
  r0.ConPair r1 ∨ (-k.bound ≤ r0.lo.toInt + r1.lo.toInt ∧ r0.hi.toInt + r1.hi.toInt < k.bound ∧
      (r0.hi.toInt + r1.hi.toInt) - (r0.lo.toInt + r1.lo.toInt) ≤ 3)

/-- The maximum has at most four values. -/
def SmallMax (r0 r1 : IntegerType k.width) : Prop :=
  max r0.hi.toInt r1.hi.toInt - max r0.lo.toInt r1.lo.toInt ≤ 3

/-- The minimum has at most four values. -/
def SmallMin (r0 r1 : IntegerType k.width) : Prop :=
  min r0.hi.toInt r1.hi.toInt - min r0.lo.toInt r1.lo.toInt ≤ 3

variable {r0 r1 : IntegerType k.width}

/-- The type of a sum that fits. -/
theorem addRing_fits (hr0 : r0.Nonempty) (hr1 : r1.Nonempty) (hcon : ¬ r0.ConPair r1)
    (hlo : -k.bound ≤ r0.lo.toInt + r1.lo.toInt) (hhi : r0.hi.toInt + r1.hi.toInt < k.bound) :
    ∃ lo hi : BitVec k.width, addRing r0 r1 = make lo hi (r0.widen2 r1) ∧
      lo.toInt = r0.lo.toInt + r1.lo.toInt ∧ hi.toInt = r0.hi.toInt + r1.hi.toInt := by
  unfold Nonempty at hr0 hr1
  refine ⟨_, _, (addRing_eq hr0 hr1 hcon).trans (if_pos ⟨hlo, hhi⟩), ?_, ?_⟩
  · have hsum := toInt_add_cases r0.lo r1.lo
    omega
  · have hsum := toInt_add_cases r0.hi r1.hi
    omega

theorem addRing_widen_small (hr0 : r0.Nonempty) (hr1 : r1.Nonempty) (h : r0.SmallSum r1) :
    (addRing r0 r1).widen = WidenMin := by
  by_cases hcon : r0.ConPair r1
  · rw [addRing_con hcon.1 hcon.2]
    rfl
  obtain ⟨hlo, hhi, hspan⟩ := h.resolve_left hcon
  obtain ⟨lo, hi, heq, hlo', hhi'⟩ := addRing_fits hr0 hr1 hcon hlo hhi
  unfold Nonempty at hr0 hr1
  rw [heq]
  exact make_widen_small (by omega) (by omega)

theorem addRing_widen_big (hr0 : r0.Nonempty) (hr1 : r1.Nonempty) (h : ¬ r0.SmallSum r1) :
    r0.widen2 r1 ≤ (addRing r0 r1).widen := by
  obtain ⟨hcon, hbig⟩ := not_or.mp h
  by_cases hfits : -k.bound ≤ r0.lo.toInt + r1.lo.toInt ∧ r0.hi.toInt + r1.hi.toInt < k.bound
  · obtain ⟨lo, hi, heq, hlo', hhi'⟩ := addRing_fits hr0 hr1 hcon hfits.1 hfits.2
    rw [heq]
    refine le_make_widen (by omega) (fun hsmall => hbig ⟨hfits.1, hfits.2, by omega⟩)
  · rw [addRing_eq hr0 hr1 hcon, if_neg hfits]
    exact Fin.le_last _

variable (f : BitVec k.width → BitVec k.width → BitVec k.width)

theorem foldRing_con (h : r0.ConPair r1) : foldRing f r0 r1 = con (f r0.lo r1.lo) := by
  simp [foldRing, h.1, h.2]

theorem foldRing_full (h : ¬ r0.ConPair r1) : foldRing f r0 r1 = full k.width := by
  simp only [ConPair, not_and, Bool.not_eq_true] at h
  unfold foldRing
  cases hcon : r0.isCon with
  | false => rfl
  | true => simp [h hcon]

end IntegerType

/-- The ring sum is monotone. -/
def NoSkew (_ _ _ _ : IntegerType k.width) : Prop := False

theorem addRing_laws : AddNode.Laws (k := k) ⟨con 0, addRing⟩ SmallSum NoSkew where
  ring_within hr0 hr1 h0 h1 _ _ := iff_of_true (addRing_within hr0 hr1 h0 h1) not_false
  widen_narrow := addRing_widen_small
  widen_wide := addRing_widen_big
  skew_ne := False.elim

theorem foldRing_laws (f : BitVec k.width → BitVec k.width → BitVec k.width) :
    AddNode.Laws ⟨con 0, foldRing f⟩ ConPair NoSkew where
  ring_within hr0 hr1 h0 h1 _ _ := iff_of_true (foldRing_within f hr0 hr1 h0 h1) not_false
  widen_narrow _ _ h := congrArg IntegerType.widen (foldRing_con f h)
  widen_wide _ _ h :=
    le_of_le_of_eq (Fin.le_last _) (congrArg IntegerType.widen (foldRing_full f h)).symm
  skew_ne := False.elim

theorem maxRing_laws (c : BitVec k.width) : AddNode.Laws ⟨con c, maxRing⟩ SmallMax NoSkew where
  ring_within hr0 hr1 h0 h1 _ _ := iff_of_true (maxRing_within hr0 hr1 h0 h1) not_false
  widen_narrow hr0 hr1 h := by
    refine make_widen_small ?_ ?_ <;> rw [toInt_max2, toInt_max2]
    · exact max_le_max hr0 hr1
    · exact h
  widen_wide hr0 hr1 h := by
    refine le_make_widen ?_ ?_ <;> rw [toInt_max2, toInt_max2]
    · exact max_le_max hr0 hr1
    · exact h
  skew_ne := False.elim

theorem minRing_laws (c : BitVec k.width) : AddNode.Laws ⟨con c, minRing⟩ SmallMin NoSkew where
  ring_within hr0 hr1 h0 h1 _ _ := iff_of_true (minRing_within hr0 hr1 h0 h1) not_false
  widen_narrow hr0 hr1 h := by
    refine make_widen_small ?_ ?_ <;> rw [toInt_min2, toInt_min2]
    · exact min_le_min hr0 hr1
    · exact h
  widen_wide hr0 hr1 h := by
    refine le_make_widen ?_ ?_ <;> rw [toInt_min2, toInt_min2]
    · exact min_le_min hr0 hr1
    · exact h
  skew_ne := False.elim

namespace TypeInt

variable {r0 r1 r0' r1' : TypeInt}

theorem bool_or_one (hr : r0.Nonempty) (h : r0.Within r0') (hid : r0 ≠ .con 0)
    (hr' : r0' = bool ∨ r0' = one) : r0 = bool ∨ r0 = one := by
  obtain rfl | rfl := hr'
  · obtain hzero | hone | hbool := within_bool hr h
    · exact absurd hzero hid
    · exact .inr hone
    · exact .inl hbool
  · exact .inr (h.eq_con (k := .int) hr)

theorem con_ne_bool (h : r0.isCon = true) : r0 ≠ bool := by
  rintro rfl
  cases h

/-- The boolean cases of `OrINode::add_ring` and `XorINode::add_ring` fall between constants. -/
theorem foldRing_within_of_con {f : JInt → JInt → JInt} (ring : TypeInt → TypeInt → TypeInt)
    (hring : ∀ {r0 r1 : TypeInt}, r0 ≠ bool → r1 ≠ bool → ring r0 r1 = foldRing f r0 r1)
    (hr0 : r0.Nonempty) (hr1 : r1.Nonempty) (h0 : r0.Within r0') (h1 : r1.Within r1') :
    (ring r0 r1).Within (foldRing f r0' r1') := by
  by_cases hcon : r0'.ConPair r1'
  · have hcon0 := (h0.isCon hr0 hcon.1).1
    have hcon1 := (h1.isCon hr1 hcon.2).1
    rw [hring (con_ne_bool hcon0) (con_ne_bool hcon1)]
    exact foldRing_within (k := .int) f hr0 hr1 h0 h1
  · rw [foldRing_full (k := .int) f hcon]
    exact within_full (k := .int) _

theorem orRing_eq_foldRing (h0 : r0 ≠ bool) (h1 : r1 ≠ bool) :
    orRing r0 r1 = foldRing (· ||| ·) r0 r1 := by
  simp [orRing, h0, h1]

theorem xorRing_eq_foldRing (h0 : r0 ≠ bool) : xorRing r0 r1 = foldRing (· ^^^ ·) r0 r1 := by
  simp [xorRing, h0]

theorem orRing_within (hr0 : r0.Nonempty) (hr1 : r1.Nonempty) (h0 : r0.Within r0')
    (h1 : r1.Within r1') (hid0 : r0 ≠ .con 0) (hid1 : r1 ≠ .con 0) :
    (orRing r0 r1).Within (orRing r0' r1') := by
  have hold := foldRing_within_of_con orRing orRing_eq_foldRing hr0 hr1 h0 h1
  by_cases hbool : (r0' = bool ∨ r0' = one) ∧ (r1' = bool ∨ r1' = one)
  · -- sixteen pairs of booleans
    obtain ⟨hbool0, hbool1⟩ := hbool
    have hb0 := bool_or_one hr0 h0 hid0 hbool0
    have hb1 := bool_or_one hr1 h1 hid1 hbool1
    obtain rfl | rfl := hbool0 <;> obtain rfl | rfl := hbool1 <;>
      obtain rfl | rfl := hb0 <;> obtain rfl | rfl := hb1 <;> revert h0 h1 <;> decide
  · have heq : orRing r0' r1' = foldRing (· ||| ·) r0' r1' := by
      unfold orRing
      split_ifs with hbo hbb hob
      · exact absurd ⟨.inl hbo.1, .inr hbo.2⟩ hbool
      · exact absurd ⟨.inl hbb.1, .inl hbb.2⟩ hbool
      · exact absurd ⟨.inr hob.1, .inl hob.2⟩ hbool
      · rfl
    rw [heq]
    exact hold

/-- `1 ^ b` for a boolean `b`: the one is on the left, where it is not recognised. -/
def XorSkew (r0 r1 r0' r1' : TypeInt) : Prop :=
  r0 = one ∧ r1 = bool ∧ r0' = bool ∧ r1' = bool

instance (r0 r1 r0' r1' : TypeInt) : Decidable (XorSkew r0 r1 r0' r1') :=
  inferInstanceAs (Decidable (_ ∧ _ ∧ _ ∧ _))

theorem xorRing_within_iff (hr0 : r0.Nonempty) (hr1 : r1.Nonempty) (h0 : r0.Within r0')
    (h1 : r1.Within r1') (hid0 : r0 ≠ .con 0) (hid1 : r1 ≠ .con 0) :
    (xorRing r0 r1).Within (xorRing r0' r1') ↔ ¬ XorSkew r0 r1 r0' r1' := by
  by_cases hbool : r0' = bool ∧ (r1' = one ∨ r1' = bool)
  · obtain ⟨rfl, hbool1⟩ := hbool
    have hb0 := bool_or_one hr0 h0 hid0 (.inl rfl)
    have hb1 := bool_or_one hr1 h1 hid1 hbool1.symm
    obtain rfl | rfl := hbool1 <;> obtain rfl | rfl := hb0 <;> obtain rfl | rfl := hb1 <;>
      revert h0 h1 <;> decide
  · have heq : xorRing r0' r1' = foldRing (· ^^^ ·) r0' r1' := if_neg hbool
    rw [heq]
    refine iff_of_true ?_ (fun hskew => hbool ⟨hskew.2.2.1, .inr hskew.2.2.2⟩)
    exact foldRing_within_of_con xorRing (fun h _ => xorRing_eq_foldRing h) hr0 hr1 h0 h1

theorem orRing_widen (h : ¬ r0.ConPair r1) : r0.widen2 r1 ≤ (orRing r0 r1).widen := by
  unfold orRing
  split_ifs with hbo hbb hob
  · obtain ⟨rfl, rfl⟩ := hbo
    decide
  · obtain ⟨rfl, rfl⟩ := hbb
    decide
  · obtain ⟨rfl, rfl⟩ := hob
    decide
  · rw [foldRing_full (k := .int) _ h]
    exact Fin.le_last _

theorem xorRing_widen (h : ¬ r0.ConPair r1) : r0.widen2 r1 ≤ (xorRing r0 r1).widen := by
  unfold xorRing
  split_ifs with hbool
  · obtain ⟨rfl, rfl | rfl⟩ := hbool <;> decide
  · rw [foldRing_full (k := .int) _ h]
    exact Fin.le_last _

end TypeInt

theorem OrINode.laws : OrINode.Laws ConPair NoSkew where
  ring_within hr0 hr1 h0 h1 hid0 hid1 :=
    iff_of_true (orRing_within hr0 hr1 h0 h1 hid0 hid1) not_false
  widen_narrow _ _ h := congrArg IntegerType.widen <|
    (orRing_eq_foldRing (con_ne_bool h.1) (con_ne_bool h.2)).trans
      (foldRing_con (k := .int) _ h)
  widen_wide _ _ h := orRing_widen h
  skew_ne := False.elim

theorem XorINode.laws : XorINode.Laws ConPair TypeInt.XorSkew where
  ring_within hr0 hr1 h0 h1 hid0 hid1 := xorRing_within_iff hr0 hr1 h0 h1 hid0 hid1
  widen_narrow _ _ h := congrArg IntegerType.widen <|
    (xorRing_eq_foldRing (con_ne_bool h.1)).trans (foldRing_con (k := .int) _ h)
  widen_wide _ _ h := xorRing_widen h
  skew_ne h := by
    obtain ⟨rfl, rfl, -, -⟩ := h
    decide

/-! ## The monotone nodes -/

section

variable {r1 r2 r1' r2' : IntegerType k.width}

theorem SubNode.ranges_within (eqv : Bool) : MonotoneRule (SubNode.ranges k eqv) := by
  intro r1 r1' r2 r2' hr1 hr2 h1 h2
  unfold SubNode.ranges
  split
  · exact .refl _
  · exact sub_within hr1 hr2 h1 h2

theorem MulNode.ranges_within {f : BitVec k.width → BitVec k.width → BitVec k.width}
    {mulRing : IntegerType k.width → IntegerType k.width → IntegerType k.width}
    (hzero : ∀ x, f 0 x = 0) (hzero' : ∀ x, f x 0 = 0)
    (hring : ∀ {r1 r2 : IntegerType k.width} {x y : BitVec k.width}, r1.Contains x → r2.Contains y →
      (mulRing r1 r2).Contains (f x y))
    (hwithin : ∀ {r1 r2 r1' r2' : IntegerType k.width}, r1.Nonempty → r2.Nonempty →
      r1.Within r1' → r2.Within r2' → r1 ≠ con 0 → r2 ≠ con 0 →
      (mulRing r1 r2).Within (mulRing r1' r2'))
    (hr1 : r1.Nonempty) (hr2 : r2.Nonempty) (h1 : r1.Within r1') (h2 : r2.Within r2') :
    (ranges k mulRing r1 r2).Within (ranges k mulRing r1' r2') := by
  have covers : ∀ {x y : BitVec k.width}, r1.Contains x → r2.Contains y →
      (ranges k mulRing r1' r2').Contains (f x y) := fun hx hy =>
    ranges_contains hzero hzero' hring (h1.contains hx) (h2.contains hy)
  by_cases hid : r1 = con 0 ∨ r2 = con 0
  · -- zero is covered by whatever the lower inputs give
    have heq : ranges k mulRing r1 r2 = con 0 := by
      simp only [ranges, within_con_iff hr1, within_con_iff hr2]
      split_ifs with hid1 hid2
      · rfl
      · rfl
      · exact (hid.elim hid1 hid2).elim
    rw [heq, con_within_iff]
    obtain rfl | rfl := hid
    · have hmem := covers (contains_con 0) hr2.contains_lo
      rwa [hzero] at hmem
    · have hmem := covers hr1.contains_lo (contains_con 0)
      rwa [hzero'] at hmem
  · obtain ⟨hid1, hid2⟩ := not_or.mp hid
    have hid1' : r1' ≠ con 0 := fun heq => hid1 ((heq ▸ h1).eq_con hr1)
    have hid2' : r2' ≠ con 0 := fun heq => hid2 ((heq ▸ h2).eq_con hr2)
    simp only [ranges, within_con_iff hr1, within_con_iff hr2,
      within_con_iff (h1.nonempty hr1), within_con_iff (h2.nonempty hr2), hid1, hid2, hid1', hid2',
      if_false]
    exact hwithin hr1 hr2 h1 h2 hid1 hid2

theorem full_isCon : (full k.width).isCon = false := by
  cases k <;> decide

theorem LShiftNode.ranges_eq {r1 : IntegerType k.width} {r2 : TypeInt} (hid : r1 ≠ con 0) :
    ranges k r1 r2 = shiftRange k r1 r2 := by
  have hcount : k.shiftCount 0 = 0 := by cases k <;> rfl
  rw [ranges, if_neg hid]
  split_ifs with hzero hfull
  · subst hzero
    exact (lshiftRange_zero rfl hcount).symm
  · cases hcon : r2.isCon with
    | false => exact (lshiftRange_of_not_con hcon).symm
    | true =>
      -- a full range either passes unchanged or loses bits
      obtain rfl | rfl := hfull
      · by_cases hshift : k.shiftCount r2.lo = 0
        · exact (lshiftRange_zero hcon hshift).symm
        refine (lshiftRange_lossy hcon hshift full_isCon ?_).symm
        rintro ⟨hlo, -⟩
        have hpow : (2 : Int) ≤ 2 ^ k.shiftCount r2.lo := by
          have hmono : (2 : Int) ^ 1 ≤ 2 ^ k.shiftCount r2.lo :=
            pow_le_pow_right₀ (by norm_num) (Nat.one_le_iff_ne_zero.mpr hshift)
          simpa using hmono
        have hlo := hlo.1
        have hbound := k.bound_ge
        simp only [full, toInt_intMin] at hlo
        nlinarith
      · exact absurd hcon (by decide)
  · rfl

theorem LShiftNode.ranges_within : MonotoneRule (ranges k) := by
  intro r1 r1' r2 r2' hr1 hr2 h1 h2
  by_cases hid : r1 = con 0
  · subst hid
    rw [ranges, if_pos rfl, con_within_iff]
    have hmem := ranges_contains (h1.contains (contains_con 0))
      (h2.contains hr2.contains_lo)
    have hzero : (0 : BitVec k.width) <<< k.shiftCount r2.lo = 0 := BitVec.zero_shiftLeft _
    rwa [hzero] at hmem
  · have hid' : r1' ≠ con 0 := fun heq => hid ((heq ▸ h1).eq_con hr1)
    rw [ranges_eq hid, ranges_eq hid']
    exact lshiftRange_within hr1 hr2 h1 h2

theorem RShiftNode.ranges_eq {ends : IntegerType k.width → Nat → BitVec k.width × BitVec k.width}
    {r1 : IntegerType k.width} {r2 : TypeInt} (hid : r1 ≠ con 0) :
    ranges k ends r1 r2 = shiftRange k ends r1 r2 := by
  have hcount : k.shiftCount 0 = 0 := by cases k <;> rfl
  rw [ranges, if_neg hid]
  split_ifs with hzero hfull
  · subst hzero
    exact (rshiftRange_zero rfl hcount).symm
  · subst hfull
    exact (rshiftRange_of_not_con rfl).symm
  · rfl

theorem RShiftNode.ranges_within {shift : BitVec k.width → Nat → BitVec k.width}
    {ends : IntegerType k.width → Nat → BitVec k.width × BitVec k.width}
    (h : CoversShift k shift ends) (hzero : ∀ s, shift 0 s = 0) :
    MonotoneRule (ranges k ends) := by
  intro r1 r1' r2 r2' hr1 hr2 h1 h2
  by_cases hid : r1 = con 0
  · subst hid
    rw [ranges, if_pos rfl, con_within_iff]
    have hmem := ranges_contains h hzero (h1.contains (contains_con 0))
      (h2.contains hr2.contains_lo)
    rwa [hzero] at hmem
  · have hid' : r1' ≠ con 0 := fun heq => hid ((heq ▸ h1).eq_con hr1)
    rw [ranges_eq hid, ranges_eq hid']
    exact rshiftRange_within h hr1 hr2 h1 h2

/-- A rule may give up on full ranges. -/
theorem within_ite_full {x y : IntegerType k.width} (h1 : r1.Within r1') (h2 : r2.Within r2')
    (h : x.Within y) : Within (if r1 = full _ ∨ r2 = full _ then full _ else x)
      (if r1' = full _ ∨ r2' = full _ then full _ else y) := by
  split_ifs with hfull hfull' hfull'
  · exact .refl _
  · obtain rfl | rfl := hfull
    · exact absurd (.inl (eq_full_of_within h1)) hfull'
    · exact absurd (.inr (eq_full_of_within h2)) hfull'
  · exact within_full _
  · exact h

theorem DivNode.ranges_within (eqv : Bool) : MonotoneRule (DivNode.ranges k eqv) := by
  intro r1 r1' r2 r2' hr1 hr2 h1 h2
  unfold DivNode.ranges
  split
  · exact .refl _
  · exact within_ite_full h1 h2 (div_within hr1 hr2 h1 h2)

/-- A remainder of zero may be zero, also for a divisor that is always zero. -/
theorem mod_contains_zero (h : r1.Contains 0) : (mod r1 r2).Contains 0#k.width := by
  have hpos : (pos k.width).Contains 0#k.width := contains_pos (by rw [BitVec.toInt_zero])
  by_cases hcon : r1.isCon = true ∧ r2.isCon = true
  · rw [mod_con hcon.1 hcon.2]
    split
    · exact hpos
    · have hzero : r1.lo.srem r2.lo = 0#k.width := by
        rw [← h.eq_lo hcon.1]
        apply BitVec.eq_of_toInt_eq
        simp
      rw [hzero]
      exact contains_con _
  · rw [mod_of_not_con hcon]
    split
    · exact hpos
    · exact contains_full _

theorem ModNode.ranges_within (eqv : Bool) : MonotoneRule (ModNode.ranges k eqv) := by
  intro r1 r1' r2 r2' hr1 hr2 h1 h2
  by_cases hid : r1 = con 0
  · subst hid
    rw [ModNode.ranges, if_pos rfl, con_within_iff, ModNode.ranges]
    split_ifs
    · exact contains_con _
    · exact contains_con _
    · exact contains_full _
    · exact mod_contains_zero (h1.contains (contains_con 0))
  · have hid' : r1' ≠ con 0 := fun heq => hid ((heq ▸ h1).eq_con hr1)
    rw [ModNode.ranges, ModNode.ranges, if_neg hid, if_neg hid']
    split
    · exact .refl _
    · exact within_ite_full h1 h2 (mod_within hr1 hr2 h1 h2)

end

/-- `AndINode::mul_ring` looks for `TypeInt::BOOL` only after it has looked for constants. -/
theorem TypeInt.andRing_within {r0 r1 r0' r1' : TypeInt} (hr0 : r0.Nonempty) (hr1 : r1.Nonempty)
    (h0 : r0.Within r0') (h1 : r1.Within r1') (hid0 : r0 ≠ con 0) (hid1 : r1 ≠ con 0) :
    (andRing r0 r1).Within (andRing r0' r1') := by
  have not_con : ∀ {r r' : TypeInt}, r.Nonempty → r.Within r' → r ≠ con 0 → r' = bool →
      r.isCon = false → r = bool := by
    intro r r' hr h hid hbool hcon
    obtain hbool | hone := bool_or_one hr h hid (.inl hbool)
    · exact hbool
    · rw [hone] at hcon
      cases hcon
  have other_within : ((r0' = bool ∨ r1' = bool) → (r0 = bool ∨ r1 = bool)) →
      Within (if r0 = bool ∨ r1 = bool then bool else full 32)
        (if r0' = bool ∨ r1' = bool then bool else full 32) := by
    intro himp
    by_cases hbool : r0' = bool ∨ r1' = bool
    · rw [if_pos hbool, if_pos (himp hbool)]
      exact .refl _
    · rw [if_neg hbool]
      exact within_full (k := .int) _
  refine IntegerType.andRing_within (k := .int) hr0 hr1 h0 h1 ?_ ?_ ?_
  · intro _ _ _
    rw [con_within_iff]
    split
    next hbool =>
      obtain rfl | rfl := hbool
      · rw [BitVec.and_comm]
        exact contains_bool_and _ (h0.contains hr0.contains_lo)
      · exact contains_bool_and _ (h1.contains hr1.contains_lo)
    · exact contains_full (k := .int) _
  · intro hcon0' hcon1
    refine other_within (fun hbool => .inr ?_)
    exact not_con hr1 h1 hid1 (hbool.resolve_left (con_ne_bool hcon0')) hcon1
  · intro hcon1' hcon0
    refine other_within (fun hbool => .inl ?_)
    exact not_con hr0 h0 hid0 (hbool.resolve_right (con_ne_bool hcon1')) hcon0

/-! ## Operations -/

namespace BinOp

/-- The ranges on which the type of a node goes up although those of its inputs go down. -/
def Rises : (op : BinOp) → IntegerType op.kind.width → IntegerType op.kind2.width →
    IntegerType op.kind.width → IntegerType op.kind2.width → Prop
  | .add .int => AddINode.Rises SmallSum NoSkew
  | .add .long => AddLNode.Rises SmallSum NoSkew
  | .or .int => OrINode.Rises ConPair NoSkew
  | .or .long => OrLNode.Rises ConPair NoSkew
  | .xor .int => XorINode.Rises ConPair TypeInt.XorSkew
  | .xor .long => XorLNode.Rises ConPair NoSkew
  | .minI => MinINode.Rises SmallMin NoSkew
  | .maxI => MaxINode.Rises SmallMax NoSkew
  | .sub _ | .mulI | .and _ | .div _ | .mod _ | .lshift _ | .rshift _ | .urshift _ =>
    fun _ _ _ _ => False

theorem ranges_within_iff (op : BinOp) (eqv : Bool) {r1 r1' : IntegerType op.kind.width}
    {r2 r2' : IntegerType op.kind2.width} (hr1 : r1.Nonempty) (hr2 : r2.Nonempty)
    (h1 : r1.Within r1') (h2 : r2.Within r2') :
    (op.ranges eqv r1 r2).Within (op.ranges eqv r1' r2') ↔ ¬ op.Rises r1 r2 r1' r2' := by
  cases op with
  | add k =>
    cases k with
    | int => exact (addRing_laws (k := .int)).ranges_within_iff AddINode.sound (by decide) hr1 hr2 h1 h2
    | long => exact (addRing_laws (k := .long)).ranges_within_iff AddLNode.sound (by decide) hr1 hr2 h1 h2
  | or k =>
    cases k with
    | int => exact OrINode.laws.ranges_within_iff OrINode.sound (by decide) hr1 hr2 h1 h2
    | long =>
      exact (foldRing_laws (k := .long) _).ranges_within_iff OrLNode.sound (by decide) hr1 hr2 h1 h2
  | xor k =>
    cases k with
    | int => exact XorINode.laws.ranges_within_iff XorINode.sound (by decide) hr1 hr2 h1 h2
    | long =>
      exact (foldRing_laws (k := .long) _).ranges_within_iff XorLNode.sound (by decide) hr1 hr2 h1 h2
  | minI =>
    exact (minRing_laws (k := .int) _).ranges_within_iff MinINode.sound (by decide) hr1 hr2 h1 h2
  | maxI =>
    exact (maxRing_laws (k := .int) _).ranges_within_iff MaxINode.sound (by decide) hr1 hr2 h1 h2
  | sub k => exact iff_of_true (SubNode.ranges_within eqv hr1 hr2 h1 h2) not_false
  | mulI =>
    refine iff_of_true (ranges_within (k := .int) (f := (· * ·)) (fun _ => BitVec.zero_mul)
      (fun _ => BitVec.mul_zero) mulRing_contains ?_ hr1 hr2 h1 h2) not_false
    exact fun hr1 hr2 h1 h2 _ _ => mulRing_within hr1 hr2 h1 h2
  | and k =>
    cases k with
    | int =>
      exact iff_of_true (ranges_within (k := .int) (f := (· &&& ·))
        (fun _ => BitVec.zero_and) (fun _ => BitVec.and_zero) andRing_contains
        andRing_within hr1 hr2 h1 h2) not_false
    | long =>
      have hfull : ∀ x, (full 64).Contains x := contains_full (k := .long)
      refine iff_of_true (ranges_within (k := .long) (f := (· &&& ·))
        (fun _ => BitVec.zero_and) (fun _ => BitVec.and_zero)
        (fun hx hy => andRing_contains (k := .long) hx hy (hfull _)) ?_ hr1 hr2 h1 h2)
        not_false
      intro r1 r2 r1' r2' hr1 hr2 h1 h2 _ _
      exact andRing_within (k := .long) hr1 hr2 h1 h2
        (fun _ _ _ => within_full (k := .long) _) (fun _ _ => .refl _) (fun _ _ => .refl _)
  | div k => exact iff_of_true (DivNode.ranges_within eqv hr1 hr2 h1 h2) not_false
  | mod k => exact iff_of_true (ModNode.ranges_within eqv hr1 hr2 h1 h2) not_false
  | lshift k => exact iff_of_true (ranges_within hr1 hr2 h1 h2) not_false
  | rshift k =>
    exact iff_of_true (ranges_within (coversShift_signed k)
      (fun _ => BitVec.zero_sshiftRight) hr1 hr2 h1 h2) not_false
  | urshift k =>
    exact iff_of_true (ranges_within (coversShift_unsigned k)
      (fun _ => BitVec.zero_ushiftRight) hr1 hr2 h1 h2) not_false

end BinOp

/-! ## Types -/

namespace Ty

/-- The types an input of a kind has: nothing is known of it, or a range that is not empty. -/
def IsInput (k : Kind) (t : Ty) : Prop := t = .top ∨ t.kind? = some k

instance (k : Kind) (t : Ty) : Decidable (t.IsInput k) := inferInstanceAs (Decidable (_ ∨ _))

theorem IsInput.cases {t : Ty} (h : t.IsInput k) :
    t = .top ∨ ∃ r : IntegerType k.width, t = .range k r ∧ r.Nonempty :=
  h.imp_right kind?_eq_some.mp

theorem higherEqual_top (u : Ty) : Ty.top.higherEqual u = some true := by
  have hmeet : top.xmeet u = some u := by cases u <;> rfl
  rw [higherEqual, hmeet, Option.map_some, decide_eq_true rfl]

theorem higherEqual_range_iff {r s : IntegerType k.width} :
    (Ty.range k r).higherEqual (.range k s) = some true ↔ r.Within s := by
  rw [higherEqual_range, Option.some.injEq, decide_eq_true_eq]

theorem not_higherEqual_top (r : IntegerType k.width) :
    (Ty.range k r).higherEqual .top ≠ some true := by
  cases k <;> simp [range, higherEqual, xmeet, TypeInt.xmeet, TypeLong.xmeet]

end Ty

namespace BinOp

/-- Every `Value` first looks for inputs of which nothing is known yet. -/
theorem top_first {t1 t2 : Ty} (h : t1 = .top ∨ t2 = .top) (e : Option Ty) :
    (if t1 = .top then some .top else if t2 = .top then some .top else e) = some Ty.top := by
  split_ifs with h1 h2
  · rfl
  · rfl
  · exact (h.elim h1 h2).elim

theorem value_top (op : BinOp) (eqv : Bool) {t1 t2 : Ty} (h : t1 = .top ∨ t2 = .top) :
    op.value eqv t1 t2 = some .top := by
  cases op with
  | add k | sub k | and k | or k | xor k | div k | mod k | lshift k | rshift k | urshift k =>
    cases k <;> exact top_first h _
  | mulI | minI | maxI => exact top_first h _

/-- The types on which the type of a node goes up although those of its inputs go down. -/
def RisesAt (op : BinOp) (t1 t2 t1' t2' : Ty) : Prop :=
  ∃ r1 r2 r1' r2', t1 = .range op.kind r1 ∧ t2 = .range op.kind2 r2 ∧ t1' = .range op.kind r1' ∧
    t2' = .range op.kind2 r2' ∧ op.Rises r1 r2 r1' r2'

/-- `Value` of lower inputs exists and is lower, unless the inputs are among those on which
the node rises. -/
theorem value_higherEqual_iff (op : BinOp) (eqv : Bool) (t1 t2 t1' t2' : Ty)
    (hin1 : t1.IsInput op.kind) (hin2 : t2.IsInput op.kind2) (hin1' : t1'.IsInput op.kind)
    (hin2' : t2'.IsInput op.kind2) (h1 : t1.higherEqual t1' = some true)
    (h2 : t2.higherEqual t2' = some true) :
    (∃ u u', op.value eqv t1 t2 = some u ∧ op.value eqv t1' t2' = some u' ∧
      u.higherEqual u' = some true) ↔ ¬ op.RisesAt t1 t2 t1' t2' := by
  by_cases htop : t1 = .top ∨ t2 = .top
  · refine iff_of_true ?_ ?_
    · have hdefined : ∃ u', op.value eqv t1' t2' = some u' := by
        obtain rfl | ⟨r1', rfl, -⟩ := hin1'.cases
        · exact ⟨_, op.value_top eqv (.inl rfl)⟩
        · obtain rfl | ⟨r2', rfl, -⟩ := hin2'.cases
          · exact ⟨_, op.value_top eqv (.inr rfl)⟩
          · exact ⟨_, op.value_range eqv r1' r2'⟩
      obtain ⟨u', hu'⟩ := hdefined
      exact ⟨.top, u', op.value_top eqv htop, hu', Ty.higherEqual_top u'⟩
    · rintro ⟨r1, r2, -, -, rfl, rfl, -⟩
      exact htop.elim (Ty.range_ne_top r1) (Ty.range_ne_top r2)
  · obtain ⟨htop1, htop2⟩ := not_or.mp htop
    obtain ⟨r1, rfl, hr1⟩ := hin1.cases.resolve_left htop1
    obtain ⟨r2, rfl, hr2⟩ := hin2.cases.resolve_left htop2
    -- a lower input is not the top either
    obtain ⟨r1', rfl, -⟩ := hin1'.cases.resolve_left (fun h => Ty.not_higherEqual_top r1 (h ▸ h1))
    obtain ⟨r2', rfl, -⟩ := hin2'.cases.resolve_left (fun h => Ty.not_higherEqual_top r2 (h ▸ h2))
    have hranges := op.ranges_within_iff eqv hr1 hr2 (Ty.higherEqual_range_iff.mp h1)
      (Ty.higherEqual_range_iff.mp h2)
    constructor
    · rintro ⟨u, u', hu, hu', hle⟩ ⟨s1, s2, s1', s2', heq1, heq2, heq1', heq2', hrises⟩
      rw [op.value_range] at hu hu'
      cases hu
      cases hu'
      obtain rfl := Ty.range_inj.mp heq1
      obtain rfl := Ty.range_inj.mp heq2
      obtain rfl := Ty.range_inj.mp heq1'
      obtain rfl := Ty.range_inj.mp heq2'
      exact hranges.mp (Ty.higherEqual_range_iff.mp hle) hrises
    · intro hrises
      refine ⟨_, _, op.value_range eqv r1 r2, op.value_range eqv r1' r2', ?_⟩
      rw [Ty.higherEqual_range_iff, hranges]
      exact fun hrise => hrises ⟨r1, r2, r1', r2', rfl, rfl, rfl, rfl, hrise⟩

/-- A sum of constants that turns into a sum of ranges. -/
theorem value_higherEqual_sum :
    ∃ u u', (BinOp.add .int).value false (.int (.con 1)) (.int (.con 2)) = some u ∧
      (BinOp.add .int).value false (.int ⟨0, 9, 1⟩) (.int ⟨2, 5, 0⟩) = some u' ∧
      u.higherEqual u' = some true := by
  refine (value_higherEqual_iff (.add .int) false (.int (.con 1)) (.int (.con 2)) (.int ⟨0, 9, 1⟩)
    (.int ⟨2, 5, 0⟩) (by decide) (by decide) (by decide) (by decide) (by decide) (by decide)).mpr ?_
  rintro ⟨r1, r2, _, _, h1, h2, -, -, -, -, ⟨hid, -⟩ | ⟨hid, -⟩ | hskew⟩
  · cases h1
    exact absurd hid (by decide)
  · cases h2
    exact absurd hid (by decide)
  · exact hskew

/-- `1 ^ b` may be any integer, as long as the left input is known to be one; once both inputs
are only known to be booleans, so is the result. -/
theorem xor_value_not_monotone : (Ty.int TypeInt.one).higherEqual (.int TypeInt.bool) = some true ∧
      (Ty.int TypeInt.bool).higherEqual (.int TypeInt.bool) = some true ∧
      (BinOp.xor .int).value false (.int TypeInt.one) (.int TypeInt.bool) = some (.int (.full 32)) ∧
      (BinOp.xor .int).value false (.int TypeInt.bool) (.int TypeInt.bool) =
        some (.int TypeInt.bool) ∧
      (Ty.int (.full 32)).higherEqual (.int TypeInt.bool) = some false := by
  decide

end BinOp

end Hotspot.Opto
