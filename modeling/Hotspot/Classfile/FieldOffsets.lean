-- SUMMARY: Without overflow the fields of a class are aligned and do not overlap.
import Hotspot.Base.Sections
import Hotspot.Classfile.FieldLayout

/-!
# Field offsets

The sections of the kinds and the parts of the gap follow each other. The loop over the fields takes
the slots of these sections, so two fields never overlap.
-/

namespace Hotspot.FieldLayout

open List FieldKind Assignment

@[simp]
theorem exact_int (x : Int) : Arithmetic.exact.int x = x := rfl

@[simp]
theorem exact_ushort (x : Int) : Arithmetic.exact.ushort x = x := rfl

theorem RefWidth.heapOopSize_cases (wd : RefWidth) : wd.heapOopSize = 4 ∨ wd.heapOopSize = 8 := by
  cases wd <;> simp [RefWidth.heapOopSize]

/-! ## Alignment -/

theorem le_alignSizeUp (x : Int) {a : Nat} (ha : 0 < a) : x ≤ alignSizeUp x a := by
  have hpos : (0 : Int) < a := by omega
  have hdiv := Int.mul_ediv_add_emod (x + (a - 1)) a
  have hmod := Int.emod_lt_of_pos (x + (a - 1)) hpos
  rw [mul_comm] at hdiv
  unfold alignSizeUp
  omega

theorem alignSizeUp_lt (x : Int) {a : Nat} (ha : 0 < a) : alignSizeUp x a < x + a := by
  have hpos : (0 : Int) < a := by omega
  have hdiv := Int.mul_ediv_add_emod (x + (a - 1)) a
  have hmod := Int.emod_nonneg (x + (a - 1)) hpos.ne'
  rw [mul_comm] at hdiv
  unfold alignSizeUp
  omega

theorem dvd_alignSizeUp (x : Int) (a : Nat) : (a : Int) ∣ alignSizeUp x a := dvd_mul_left _ _

/-! ## The gap -/

theorem fillSpace_le (size length c : Nat) :
    fillSpace size length c * size ≤ length ∧ fillSpace size length c ≤ c := by
  induction c generalizing length with
  | zero => exact ⟨by simp [fillSpace], le_rfl⟩
  | succ c ih =>
    rw [fillSpace]
    split
    · obtain ⟨hlength, hcount⟩ := ih (length - size)
      rw [add_mul]
      omega
    · omega

/-- The fields in the gap from `offset` to `stop`, one kind after the other. -/
structure Gap.Fits (heapOopSize style : Nat) (offset stop : Int) (count : FieldKind → Nat) (gap : Gap) : Prop where
  count_le : ∀ kind, gap.count kind ≤ count kind
  double : gap.count .double = 0
  word : 0 < gap.count .word → gap.offset .word = offset
  short : 0 < gap.count .short → gap.offset .short = offset + gap.count .word * 4
  byte : 0 < gap.count .byte → gap.offset .byte = offset + gap.count .word * 4 + gap.count .short * 2
  /-- A reference has the gap for itself. -/
  oop : 0 < gap.count .oop → gap.offset .oop = offset ∧ offset + heapOopSize ≤ stop ∧ style ≠ 0 ∧
    gap.count .oop = 1 ∧ gap.count .word = 0 ∧ gap.count .short = 0 ∧ gap.count .byte = 0
  bound : offset + gap.count .word * 4 + gap.count .short * 2 + gap.count .byte ≤ stop

theorem Gap.fits_empty {hos sty : Nat} {offset stop : Int} {c : FieldKind → Nat} (hle : offset ≤ stop) :
    Gap.Fits hos sty offset stop c Gap.empty where
  count_le _ := Nat.zero_le _
  double := rfl
  word h := absurd h (lt_irrefl 0)
  short h := absurd h (lt_irrefl 0)
  byte h := absurd h (lt_irrefl 0)
  oop h := absurd h (lt_irrefl 0)
  bound := by
    show offset + ((0 : Nat) : Int) * 4 + ((0 : Nat) : Int) * 2 + ((0 : Nat) : Int) ≤ stop
    omega

/-- The gap is a word long, so a reference fits only if nothing else is in it. -/
theorem fillGap_fits {hos sty : Nat} {offset : Int} {c : FieldKind → Nat} (hoop : 4 ≤ hos) :
    Gap.Fits hos sty offset (offset + 4) c (fillGap .exact hos sty offset 4 c) := by
  obtain ⟨words, hwords⟩ : ∃ w, w = if 0 < c .word then 1 else 0 := ⟨_, rfl⟩
  obtain ⟨shorts, hshorts⟩ : ∃ s, s = fillSpace 2 (4 - words * 4) (c .short) := ⟨_, rfl⟩
  obtain ⟨bytes, hbytes⟩ : ∃ b, b = fillSpace 1 (4 - words * 4 - shorts * 2) (c .byte) := ⟨_, rfl⟩
  obtain ⟨oops, hoops⟩ : ∃ o, o = if hos ≤ 4 - words * 4 - shorts * 2 - bytes && 0 < c .oop && sty != 0
    then 1 else 0 := ⟨_, rfl⟩
  have hshort := fillSpace_le 2 (4 - words * 4) (c .short)
  have hbyte := fillSpace_le 1 (4 - words * 4 - shorts * 2) (c .byte)
  have hword : words ≤ 1 ∧ words ≤ c .word := by split at hwords <;> omega
  have hoop' : 0 < oops → hos = 4 ∧ sty ≠ 0 ∧ oops = 1 ∧ words = 0 ∧ shorts = 0 ∧ bytes = 0 := by
    intro hpos
    split at hoops
    · rename_i hcond
      simp only [Bool.and_eq_true, decide_eq_true_eq, bne_iff_ne] at hcond
      omega
    · omega
  have hoop_le : oops ≤ c .oop := by
    split at hoops
    · rename_i hcond
      simp only [Bool.and_eq_true, decide_eq_true_eq] at hcond
      omega
    · omega
  generalize hgap : fillGap .exact hos sty offset 4 c = gap
  have hcount : gap.count .word = words ∧ gap.count .short = shorts ∧ gap.count .byte = bytes ∧
      gap.count .oop = oops ∧ gap.count .double = 0 := by
    subst hgap hoops hbytes hshorts hwords
    exact ⟨rfl, rfl, rfl, rfl, rfl⟩
  have hoffset : gap.offset .word = offset ∧ gap.offset .short = offset + words * 4 ∧
      gap.offset .byte = offset + words * 4 + shorts * 2 ∧ gap.offset .oop = offset + words * 4 + shorts * 2 := by
    subst hgap hbytes hshorts hwords
    exact ⟨rfl, rfl, rfl, rfl⟩
  refine ⟨fun k => ?_, by omega, by omega, by omega, by omega, fun hpos => ?_, by omega⟩
  · cases k <;> omega
  · have := hoop' (by omega)
    omega

/-! ## The sections -/

section Starts

variable {hos sty : Nat} {cp : Bool} {nx : Int} {c : FieldKind → Nat}

theorem beforeDoubles_eq : beforeDoubles .exact hos sty nx c =
    nx + (if sty = 0 then (c .oop : Int) * hos else 0) := by
  unfold beforeDoubles
  split
  · rfl
  · rw [add_zero]

theorem dvd_beforeDoubles (hoop : hos = 4 ∨ hos = 8) (hnext : (hos : Int) ∣ nx) :
    4 ∣ beforeDoubles .exact hos sty nx c := by
  rw [beforeDoubles_eq]
  rcases hoop with rfl | rfl <;> split <;> omega

variable (hos sty nx c) in
theorem doubleOffset_eq : doubleOffset .exact hos sty nx c =
    if 0 < c .double then (beforeDoubles .exact hos sty nx c + 7) / 8 * 8
    else beforeDoubles .exact hos sty nx c := rfl

variable (sty cp c) in
theorem gapBeforeDoubles_fits (hoop : hos = 4 ∨ hos = 8) (hnext : (hos : Int) ∣ nx) :
    Gap.Fits hos sty (beforeDoubles .exact hos sty nx c) (doubleOffset .exact hos sty nx c) c
      (gapBeforeDoubles .exact hos sty cp nx c) := by
  have hdvd : 4 ∣ beforeDoubles .exact hos sty nx c := dvd_beforeDoubles hoop hnext
  have hdouble := doubleOffset_eq hos sty nx c
  unfold gapBeforeDoubles
  dsimp only
  split
  · rename_i hcond
    simp only [Bool.and_eq_true, decide_eq_true_eq, bne_iff_ne] at hcond
    have heq : doubleOffset .exact hos sty nx c =
        beforeDoubles .exact hos sty nx c + 4 := by omega
    have hlength : (Arithmetic.exact.int (doubleOffset .exact hos sty nx c -
        beforeDoubles .exact hos sty nx c)).toNat = 4 := by
      show Int.toNat (_ - _) = 4
      omega
    rw [hlength, heq]
    exact fillGap_fits (by omega)
  · refine Gap.fits_empty ?_
    split at hdouble <;> omega

/-- The sections of the fields that are not placed yet. -/
def sections (width : RefWidth) (cursor : FieldKind → Cursor) (count : FieldKind → Nat) : Sections (FieldKind × Bool) where
  size q := q.1.size width
  start q := if q.2 then (cursor q.1).spaceOffset else (cursor q.1).nextOffset
  count q := if q.2 then (cursor q.1).spaceCount else count q.1 - (cursor q.1).spaceCount

/-- The order of the sections. -/
def sectionOrder (style : Nat) : FieldKind × Bool → Nat
  | (.oop, false) => if style = 0 then 0 else 9
  | (.word, true) => 1
  | (.short, true) => 2
  | (.byte, true) => 3
  | (.oop, true) => 4
  | (.double, false) => 5
  | (.word, false) => 6
  | (.short, false) => 7
  | (.byte, false) => 8
  | (.double, true) => 10

theorem sectionOrder_injective (sty : Nat) : Function.Injective (sectionOrder sty) := by
  rintro ⟨k, gap⟩ ⟨kind', gap'⟩ heq
  by_cases hstyle : sty = 0 <;> cases k <;> cases gap <;> cases kind' <;> cases gap' <;>
    simp [sectionOrder, hstyle] at heq ⊢

variable (heapOopSize style compact next count) in
/-- Where a section begins at the earliest, by its place in the order. -/
def sectionBound : Nat → Int
  | 0 => next
  | 1 => beforeDoubles .exact heapOopSize style next count
  | 2 => beforeDoubles .exact heapOopSize style next count +
      (gapBeforeDoubles .exact heapOopSize style compact next count).count .word * 4
  | 3 => beforeDoubles .exact heapOopSize style next count +
      (gapBeforeDoubles .exact heapOopSize style compact next count).count .word * 4 +
      (gapBeforeDoubles .exact heapOopSize style compact next count).count .short * 2
  | 4 => beforeDoubles .exact heapOopSize style next count +
      (gapBeforeDoubles .exact heapOopSize style compact next count).count .word * 4 +
      (gapBeforeDoubles .exact heapOopSize style compact next count).count .short * 2 +
      (gapBeforeDoubles .exact heapOopSize style compact next count).count .byte
  | 5 => doubleOffset .exact heapOopSize style next count
  | 6 => wordOffset .exact heapOopSize style next count
  | 7 => shortOffset .exact heapOopSize style compact next count
  | 8 => byteOffset .exact heapOopSize style compact next count
  | 9 => bytesEnd .exact heapOopSize style compact next count
  | _ => (computeStarts .exact heapOopSize style compact next count).notalignedOffset

theorem notalignedOffset_eq : (computeStarts .exact hos sty cp nx c).notalignedOffset =
    if sty = 0 then bytesEnd .exact hos sty cp nx c
    else oopOffset .exact hos sty cp nx c +
      left .exact hos sty cp nx c .oop * hos := rfl

theorem oopOffset_eq : oopOffset .exact hos sty cp nx c =
    if sty = 0 then nx
    else if 0 < left .exact hos sty cp nx c .oop then
      alignSizeUp (bytesEnd .exact hos sty cp nx c) hos
    else bytesEnd .exact hos sty cp nx c := rfl

theorem bytesEnd_le_notalignedOffset (hoop : hos = 4 ∨ hos = 8) : bytesEnd .exact hos sty cp nx c ≤
      (computeStarts .exact hos sty cp nx c).notalignedOffset := by
  have hpos : 0 < hos := by omega
  have halign := le_alignSizeUp (bytesEnd .exact hos sty cp nx c) hpos
  rw [notalignedOffset_eq, oopOffset_eq]
  have hnonneg : (0 : Int) ≤ (left .exact hos sty cp nx c .oop : Int) * hos :=
    mul_nonneg (Int.natCast_nonneg _) (Int.natCast_nonneg _)
  split
  · exact le_rfl
  · split <;> omega

theorem notalignedOffset_lt (hoop : hos = 4 ∨ hos = 8) (hcount : ∀ k, c k < 2 ^ 16) :
    (computeStarts .exact hos sty cp nx c).notalignedOffset < nx + 2 ^ 22 := by
  have hleft : ∀ k, left .exact hos sty cp nx c k < 2 ^ 16 := fun k =>
    (Nat.sub_le _ _).trans_lt (hcount k)
  have hpos : 0 < hos := by omega
  have halign := alignSizeUp_lt (bytesEnd .exact hos sty cp nx c) hpos
  have hend : bytesEnd .exact hos sty cp nx c =
      doubleOffset .exact hos sty nx c + c .double * 8 +
        left .exact hos sty cp nx c .word * 4 +
        left .exact hos sty cp nx c .short * 2 +
        left .exact hos sty cp nx c .byte := rfl
  have hbefore : beforeDoubles .exact hos sty nx c ≤ nx + c .oop * 8 := by
    rw [beforeDoubles_eq]
    rcases hoop with rfl | rfl <;> split <;> omega
  have hdouble : doubleOffset .exact hos sty nx c ≤ beforeDoubles .exact hos sty nx c + 7 := by
    rw [doubleOffset_eq]
    split <;> omega
  have hoops : (left .exact hos sty cp nx c .oop : Int) * hos ≤ 2 ^ 16 * 8 := by
    have := hleft .oop
    rcases hoop with rfl | rfl <;> omega
  have hd := hcount .double
  have ho := hcount .oop
  have hw := hleft .word
  have hs := hleft .short
  have hb := hleft .byte
  have hoop' : oopOffset .exact hos sty cp nx c ≤
      max nx (bytesEnd .exact hos sty cp nx c + 8) := by
    rw [oopOffset_eq]
    split
    · exact le_max_left _ _
    · split <;> omega
  rw [notalignedOffset_eq]
  split <;> omega

/-- Without fields nothing is added. -/
theorem notalignedOffset_of_count_eq_zero (hcount : ∀ k, c k = 0) :
    (computeStarts .exact hos sty cp nx c).notalignedOffset = nx := by
  have hleft : ∀ k, left .exact hos sty cp nx c k = 0 := fun k => by
    rw [left, hcount, Nat.zero_sub]
  have hend : bytesEnd .exact hos sty cp nx c = nx := by
    simp only [bytesEnd, byteOffset, shortOffset, wordOffset, exact_int, hleft, doubleOffset_eq, beforeDoubles_eq, hcount]
    simp
  rw [notalignedOffset_eq, oopOffset_eq, hleft, hend]
  simp

theorem sectionBound_monotone (hoop : hos = 4 ∨ hos = 8) (hnext : (hos : Int) ∣ nx) :
    Monotone (sectionBound hos sty cp nx c) := by
  have hgap := (gapBeforeDoubles_fits sty cp c hoop hnext).bound
  refine monotone_nat_of_le_succ fun n => ?_
  match n with
  | 0 =>
    show nx ≤ beforeDoubles .exact hos sty nx c
    rw [beforeDoubles_eq]
    rcases hoop with rfl | rfl <;> split <;> omega
  | 1 | 2 | 3 =>
    simp only [sectionBound]
    omega
  | 4 => exact hgap
  | 5 | 6 | 7 | 8 =>
    simp only [sectionBound, wordOffset, shortOffset, byteOffset, bytesEnd, exact_int]
    omega
  | 9 => exact bytesEnd_le_notalignedOffset hoop
  | n + 10 => exact le_rfl

/-- The sections before the first field is placed. -/
def startSections (width : RefWidth) (style : Nat) (compact : Bool) (next : Int) (count : FieldKind → Nat) :
    Sections (FieldKind × Bool) :=
  sections width (computeStarts .exact width.heapOopSize style compact next count).cursor count

variable {wd : RefWidth}

theorem startSections_bounds (hnext : (wd.heapOopSize : Int) ∣ nx) (q : FieldKind × Bool)
    (hq : 0 < (startSections wd sty cp nx c).count q) :
    sectionBound wd.heapOopSize sty cp nx c (sectionOrder sty q) ≤
        (startSections wd sty cp nx c).start q ∧ (startSections wd sty cp nx c).stop q ≤
        sectionBound wd.heapOopSize sty cp nx c (sectionOrder sty q + 1) := by
  have hoop := wd.heapOopSize_cases
  have hgap := gapBeforeDoubles_fits sty cp c hoop hnext
  obtain ⟨k, gap⟩ := q
  cases gap with
  | true =>
    have hpos : 0 < (gapBeforeDoubles .exact wd.heapOopSize sty cp nx c).count k := hq
    have hstop : (startSections wd sty cp nx c).stop (k, true) =
      (gapBeforeDoubles .exact wd.heapOopSize sty cp nx c).offset k +
        (gapBeforeDoubles .exact wd.heapOopSize sty cp nx c).count k * (k.size wd : Nat) := rfl
    have hstart : (startSections wd sty cp nx c).start (k, true) =
      (gapBeforeDoubles .exact wd.heapOopSize sty cp nx c).offset k := rfl
    rw [hstop, hstart]
    cases k with
    | oop =>
      obtain ⟨hoffset, hbound, -, hone, hword, hshort, hbyte⟩ := hgap.oop hpos
      simp only [sectionBound, sectionOrder, size, hoffset, hone, hword, hshort, hbyte]
      omega
    | byte =>
      simp only [sectionBound, sectionOrder, size, hgap.byte hpos]
      omega
    | short =>
      simp only [sectionBound, sectionOrder, size, hgap.short hpos]
      omega
    | word =>
      simp only [sectionBound, sectionOrder, size, hgap.word hpos]
      omega
    | double =>
      rw [hgap.double] at hpos
      omega
  | false =>
    have hpos : 0 < left .exact wd.heapOopSize sty cp nx c k := hq
    have hstop : (startSections wd sty cp nx c).stop (k, false) =
      nextOffset .exact wd.heapOopSize sty cp nx c k +
        left .exact wd.heapOopSize sty cp nx c k * (k.size wd : Nat) := rfl
    have hstart : (startSections wd sty cp nx c).start (k, false) =
      nextOffset .exact wd.heapOopSize sty cp nx c k := rfl
    rw [hstop, hstart]
    cases k with
    | oop =>
      have hpos' : 0 < wd.heapOopSize := by omega
      have halign := le_alignSizeUp (bytesEnd .exact wd.heapOopSize sty cp nx c) hpos'
      have hle : left .exact wd.heapOopSize sty cp nx c .oop ≤ c .oop := Nat.sub_le _ _
      simp only [sectionOrder, nextOffset, oopOffset_eq, size]
      by_cases hstyle : sty = 0
      · simp only [hstyle, ite_true, sectionBound, beforeDoubles_eq]
        rw [hstyle] at hle
        exact ⟨le_rfl, Int.add_le_add_left (Int.mul_le_mul_of_nonneg_right (by omega) (by omega)) _⟩
      · simp only [hstyle, ite_false, sectionBound, notalignedOffset_eq, oopOffset_eq, if_pos hpos]
        exact ⟨halign, le_rfl⟩
    | byte =>
      simp only [sectionBound, sectionOrder, size, nextOffset, bytesEnd, exact_int]
      omega
    | short =>
      simp only [sectionBound, sectionOrder, size, nextOffset, byteOffset, exact_int]
      omega
    | word =>
      simp only [sectionBound, sectionOrder, size, nextOffset, shortOffset, exact_int]
      omega
    | double =>
      have hdouble : left .exact wd.heapOopSize sty cp nx c .double = c .double := by
        rw [left, hgap.double, Nat.sub_zero]
      simp only [sectionBound, sectionOrder, size, nextOffset, wordOffset, hdouble, exact_int]
      omega

theorem startSections_aligned (hnext : (wd.heapOopSize : Int) ∣ nx) (q : FieldKind × Bool)
    (hq : 0 < (startSections wd sty cp nx c).count q) :
    ((startSections wd sty cp nx c).size q : Int) ∣ (startSections wd sty cp nx c).start q := by
  have hoop := wd.heapOopSize_cases
  have hgap := gapBeforeDoubles_fits sty cp c hoop hnext
  have hbefore : 4 ∣ beforeDoubles .exact wd.heapOopSize sty nx c := dvd_beforeDoubles hoop hnext
  have hdouble := doubleOffset_eq wd.heapOopSize sty nx c
  obtain ⟨k, gap⟩ := q
  cases gap with
  | true =>
    have hpos : 0 < (gapBeforeDoubles .exact wd.heapOopSize sty cp nx c).count k := hq
    show ((k.size wd : Nat) : Int) ∣ (gapBeforeDoubles .exact wd.heapOopSize sty cp nx c).offset k
    cases k with
    | oop =>
      obtain ⟨hoffset, hbound, -⟩ := hgap.oop hpos
      rw [hoffset]
      rcases hoop with h4 | h8
      · simp only [size, h4] at hbefore ⊢
        exact hbefore
      · -- the gap is shorter than a reference of two words
        rw [hdouble, h8] at hbound
        split at hbound <;> omega
    | byte => exact one_dvd _
    | short =>
      rw [hgap.short hpos]
      simp only [size]
      omega
    | word =>
      rw [hgap.word hpos]
      exact hbefore
    | double =>
      rw [hgap.double] at hpos
      omega
  | false =>
    have hpos : 0 < left .exact wd.heapOopSize sty cp nx c k := hq
    show ((k.size wd : Nat) : Int) ∣ nextOffset .exact wd.heapOopSize sty cp nx c k
    cases k with
    | oop =>
      simp only [size, nextOffset, oopOffset_eq]
      split
      · exact hnext
      · exact dvd_alignSizeUp _ _
    | byte => exact one_dvd _
    | short =>
      simp [nextOffset, size, shortOffset, wordOffset, exact_int]
      omega
    | word =>
      simp only [nextOffset, size, wordOffset, exact_int]
      omega
    | double =>
      have hcount : 0 < c .double := hpos.trans_le (Nat.sub_le _ _)
      simp [nextOffset, size]
      omega

theorem startSections_placed (hnext : (wd.heapOopSize : Int) ∣ nx) :
    (startSections wd sty cp nx c).Placed nx
      (computeStarts .exact wd.heapOopSize sty cp nx c).notalignedOffset := by
  have hoop := wd.heapOopSize_cases
  have hmono : Monotone (sectionBound wd.heapOopSize sty cp nx c) := sectionBound_monotone hoop hnext
  refine ⟨startSections_aligned hnext, fun q hq => ?_,
    Sections.apart_of_order (sectionOrder sty) _ hmono (sectionOrder_injective sty) (startSections_bounds hnext)⟩
  obtain ⟨hstart, hstop⟩ := startSections_bounds hnext q hq
  refine ⟨(hmono (Nat.zero_le _)).trans hstart, le_trans hstop ?_⟩
  -- from the tenth on the bounds are the end
  rcases Nat.le_total (sectionOrder sty q + 1) 10 with hle | hge
  · exact hmono hle
  · obtain ⟨n, hn⟩ := Nat.exists_eq_add_of_le hge
    rw [hn, Nat.add_comm]
    exact le_rfl

end Starts

/-! ## The loop over the fields -/

/-- The bytes of a field. -/
def fieldRange (width : RefWidth) (field : FieldKind × Int) : ByteRange := ⟨field.2, field.1.size width⟩

/-- The section that the next field of a kind is taken from. -/
def nextSection (a : Assignment) (kind : FieldKind) : FieldKind × Bool := (kind, 0 < (a.cursor kind).spaceCount)

section Loop

variable {wd : RefWidth} {a : Assignment} {k : FieldKind} {kinds : List FieldKind}

theorem nextSection_count_pos : 0 < (sections wd a.cursor (k :: kinds).count).count (nextSection a k) := by
  simp only [sections, nextSection, decide_eq_true_eq, count_cons_self]
  split <;> omega

variable (kinds) in
theorem place_fields (ar : Arithmetic) : (a.place ar wd k).fields =
    a.fields ++ [(k, (sections wd a.cursor (k :: kinds).count).start (nextSection a k))] := by
  simp only [place, Cursor.take, sections, nextSection, decide_eq_true_eq]
  split <;> rfl

theorem place_cursor_self : (a.place .exact wd k).cursor k =
    ((a.cursor k).take .exact (k.size wd)).2 := Function.update_self _ _ _

theorem place_cursor_of_ne {kind' : FieldKind} (hne : kind' ≠ k) (ar : Arithmetic) :
    (a.place ar wd k).cursor kind' = a.cursor kind' := Function.update_of_ne hne _ _

theorem sections_place : sections wd (a.place .exact wd k).cursor kinds.count =
    (sections wd a.cursor (k :: kinds).count).next (nextSection a k) := by
  simp only [sections, Sections.next, Sections.mk.injEq, true_and]
  constructor <;> funext ⟨kind', gap⟩ <;> rcases eq_or_ne kind' k with rfl | hne
  · rw [place_cursor_self, Cursor.take]
    by_cases hpos : 0 < (a.cursor kind').spaceCount <;> cases gap <;> simp [nextSection, hpos, Function.update_apply]
  · rw [place_cursor_of_ne hne, Function.update_of_ne (by simp [nextSection, hne])]
  · rw [place_cursor_self, Cursor.take]
    by_cases hpos : 0 < (a.cursor kind').spaceCount <;> cases gap <;> simp [nextSection, hpos, Function.update_apply] <;> omega
  · rw [place_cursor_of_ne hne, Function.update_of_ne (by simp [nextSection, hne]), count_cons_of_ne hne.symm]

/-- The loop invariant: the inherited fields and those placed so far do not overlap the sections. -/
theorem Taken.place {lo hi : Int} {rs : List ByteRange}
    (h : (sections wd a.cursor (k :: kinds).count).Taken lo hi (rs ++ a.fields.map (fieldRange wd))) :
    (sections wd (a.place .exact wd k).cursor kinds.count).Taken lo hi
      (rs ++ (a.place .exact wd k).fields.map (fieldRange wd)) := by
  have hnext := h.next nextSection_count_pos
  rw [sections_place, place_fields kinds, map_append, ← append_assoc]
  exact hnext

theorem Taken.foldl_place {lo hi : Int} {rs : List ByteRange}
    (h : (sections wd a.cursor kinds.count).Taken lo hi (rs ++ a.fields.map (fieldRange wd))) :
    ∃ S : Sections (FieldKind × Bool),
      S.Taken lo hi (rs ++ (kinds.foldl (Assignment.place .exact wd) a).fields.map (fieldRange wd)) := by
  induction kinds generalizing a with
  | nil => exact ⟨_, h⟩
  | cons k kinds ih => exact ih (Taken.place h)

/-! ## The references -/

/-- The offsets of the references among the fields. -/
def oopOffsets (fields : List (FieldKind × Int)) : List Int :=
  fields.filterMap fun field => if field.1 = .oop then some field.2 else none

theorem mem_oopOffsets {fields : List (FieldKind × Int)} {o : Int} : o ∈ oopOffsets fields ↔ (.oop, o) ∈ fields := by
  simp only [oopOffsets, mem_filterMap, Option.ite_none_right_eq_some, Option.some.injEq, Prod.exists]
  constructor
  · rintro ⟨k, o', hmem, rfl, rfl⟩
    exact hmem
  · intro hmem
    exact ⟨.oop, o, hmem, rfl, rfl⟩

/-- The maps are made from the references in the order of the loop. -/
theorem foldl_place_maps (ar : Arithmetic) (wd : RefWidth) (kinds : List FieldKind) (a : Assignment) : ∃ fields,
    (kinds.foldl (place ar wd) a).fields = a.fields ++ fields ∧ (kinds.foldl (place ar wd) a).maps =
      (oopOffsets fields).foldl (OopMaps.add ar wd.heapOopSize) a.maps := by
  induction kinds generalizing a with
  | nil => exact ⟨[], (append_nil _).symm, rfl⟩
  | cons k kinds ih =>
    obtain ⟨fields, hfields, hmaps⟩ := ih (a.place ar wd k)
    refine ⟨(k, ((a.cursor k).take ar (k.size wd)).1) :: fields, ?_, ?_⟩
    · rw [foldl_cons, hfields]
      simp [place]
    · rw [foldl_cons, hmaps]
      by_cases hoop : k = .oop <;> simp [place, oopOffsets, hoop]

/-- Each reference is behind the previous ones, and the first at `stop` or behind it. -/
def Ascending (heapOopSize : Nat) : Int → List Int → Prop
  | _, [] => True
  | stop, o :: os => stop ≤ o ∧ Ascending heapOopSize (o + heapOopSize) os

variable {stop : Int}

theorem Ascending.le {hos : Nat} {os : List Int} (h : Ascending hos stop os) :
    ∀ o ∈ os, stop ≤ o := by
  induction os generalizing stop with
  | nil => exact forall_mem_nil _
  | cons o os ih =>
    refine forall_mem_cons.mpr ⟨h.1, fun o' ho' => ?_⟩
    have := ih h.2 o' ho'
    have := h.1
    omega

/-- The references that are still to be placed are at `stop` or behind it, those in the gap first. -/
structure Cursor.Ahead (heapOopSize : Nat) (stop : Int) (c : Cursor) : Prop where
  gap : 0 < c.spaceCount → stop ≤ c.spaceOffset ∧ c.spaceOffset + c.spaceCount * heapOopSize ≤ c.nextOffset
  noGap : c.spaceCount = 0 → stop ≤ c.nextOffset

theorem Cursor.Ahead.take {hos : Nat} {c : Cursor} (h : c.Ahead hos stop) :
    stop ≤ (c.take .exact hos).1 ∧
      (c.take .exact hos).2.Ahead hos ((c.take .exact hos).1 + hos) := by
  unfold Cursor.take
  split
  · rename_i hpos
    obtain ⟨hstop, hle⟩ := h.gap hpos
    obtain ⟨n, hn⟩ : ∃ n, c.spaceCount = n + 1 := ⟨c.spaceCount - 1, by omega⟩
    rw [hn, Nat.cast_succ, add_mul, one_mul] at hle
    simp only [hn, Nat.add_sub_cancel, exact_int]
    refine ⟨hstop, ⟨fun _ => ⟨le_rfl, ?_⟩, fun hzero => ?_⟩⟩
    · show c.spaceOffset + hos + n * hos ≤ c.nextOffset
      omega
    · have hzero : n = 0 := hzero
      rw [hzero] at hle
      show c.spaceOffset + hos ≤ c.nextOffset
      omega
  · rename_i hpos
    exact ⟨h.noGap (by omega), ⟨fun hpos' => absurd hpos' hpos, fun _ => le_rfl⟩⟩

theorem foldl_place_ascending (kinds : List FieldKind) (h : (a.cursor .oop).Ahead wd.heapOopSize stop) :
    ∃ fields, (kinds.foldl (place .exact wd) a).fields = a.fields ++ fields ∧
      Ascending wd.heapOopSize stop (oopOffsets fields) := by
  induction kinds generalizing a stop with
  | nil => exact ⟨[], (append_nil _).symm, trivial⟩
  | cons k kinds ih =>
    obtain ⟨o, ho⟩ : ∃ o, o = ((a.cursor k).take .exact (k.size wd)).1 := ⟨_, rfl⟩
    have hfields : (a.place .exact wd k).fields = a.fields ++ [(k, o)] := ho ▸ rfl
    rcases eq_or_ne k .oop with rfl | hne
    · have htake := h.take
      rw [← show oop.size wd = wd.heapOopSize from rfl, ← ho, ← place_cursor_self] at htake
      obtain ⟨hstop, hahead⟩ := htake
      obtain ⟨fields, hall, hasc⟩ := ih hahead
      refine ⟨(.oop, o) :: fields, ?_, ?_⟩
      · rw [foldl_cons, hall, hfields, append_assoc, singleton_append]
      · exact ⟨hstop, hasc⟩
    · rw [← place_cursor_of_ne hne.symm .exact] at h
      obtain ⟨fields, hall, hasc⟩ := ih h
      refine ⟨(k, o) :: fields, ?_, ?_⟩
      · rw [foldl_cons, hall, hfields, append_assoc, singleton_append]
      · have hskip : oopOffsets ((k, o) :: fields) = oopOffsets fields := by
          simp [oopOffsets, if_neg hne]
        rw [hskip]
        exact hasc

theorem computeStarts_ahead {sty : Nat} {cp : Bool} {nx : Int} {c : FieldKind → Nat}
    (hnext : (wd.heapOopSize : Int) ∣ nx) (hstop : stop ≤ nx) :
    ((computeStarts .exact wd.heapOopSize sty cp nx c).cursor .oop).Ahead wd.heapOopSize stop := by
  have hoop := wd.heapOopSize_cases
  have hgap := gapBeforeDoubles_fits sty cp c hoop hnext
  have hmono : Monotone (sectionBound wd.heapOopSize sty cp nx c) := sectionBound_monotone hoop hnext
  have hpos : 0 < wd.heapOopSize := by omega
  have halign := le_alignSizeUp (bytesEnd .exact wd.heapOopSize sty cp nx c) hpos
  have hend : sty ≠ 0 → bytesEnd .exact wd.heapOopSize sty cp nx c ≤
      oopOffset .exact wd.heapOopSize sty cp nx c := by
    intro hstyle
    rw [oopOffset_eq, if_neg hstyle]
    split
    · exact halign
    · exact le_rfl
  constructor
  · intro hcount
    have hcount : 0 < (gapBeforeDoubles .exact wd.heapOopSize sty cp nx c).count .oop := hcount
    obtain ⟨hoffset, hbound, hstyle, hone, -⟩ := hgap.oop hcount
    have hbefore : nx ≤ beforeDoubles .exact wd.heapOopSize sty nx c := hmono (Nat.zero_le 1)
    have hdouble : doubleOffset .exact wd.heapOopSize sty nx c ≤
      bytesEnd .exact wd.heapOopSize sty cp nx c := hmono (show 5 ≤ 9 by omega)
    have := hend hstyle
    simp only [computeStarts, nextOffset, hoffset, hone]
    omega
  · intro _
    show stop ≤ oopOffset .exact wd.heapOopSize sty cp nx c
    rcases eq_or_ne sty 0 with hstyle | hstyle
    · rw [oopOffset_eq, if_pos hstyle]
      exact hstop
    · have hle : nx ≤ bytesEnd .exact wd.heapOopSize sty cp nx c := hmono (Nat.zero_le 9)
      have := hend hstyle
      omega

end Loop

end Hotspot.FieldLayout
