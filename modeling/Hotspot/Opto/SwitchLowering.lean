-- SUMMARY: The generated tests and jump tables select the target of the switch.
import Hotspot.Base.Tiling
import Hotspot.Opto.SwitchRanges

/-!
# Correctness of switches

The ranges of a switch tile all of `int`, and each key is in a range that goes to its target.
Pruning, lopping off end ranges and splitting at a pivot keep such a tiling. The only step that
can fail is the loop that fills a jump table: it does not end if the table has the largest `int`
as a key.
-/

namespace Hotspot.Opto

open BitVec SwitchCode

open Option

open List hiding cons_append lookup

/-! ## Covers -/

/-- The ranges tile the interval from `a` to `b`. -/
def Covers (rs : List SwitchRange) (a b : Int) : Prop := Tiles (·.lo.toInt) (·.hi.toInt) rs a b

variable {r : SwitchRange}

theorem covers_cons {rs : List SwitchRange} {a b : Int} :
    Covers (r :: rs) a b ↔ r.lo.toInt = a ∧ a ≤ r.hi.toInt ∧ Covers rs (r.hi.toInt + 1) b := Iff.rfl

/-- The destination of a key. -/
def destOf (rs : List SwitchRange) (key : JInt) : Option Int :=
  (rangeOf (fun r : SwitchRange => r.lo.toInt) (·.hi.toInt) rs key.toInt).map (·.dest)

variable {key : JInt}

theorem destOf_append_left {rs rs' : List SwitchRange} {m b : Int} (h' : Covers rs' (m + 1) b)
    (hk : key.toInt ≤ m) : destOf (rs ++ rs') key = destOf rs key := by
  rw [destOf, Tiles.rangeOf_append_left h' hk, destOf]

theorem destOf_append_right {rs rs' : List SwitchRange} {a m : Int} (h : Covers rs a m)
    (hk : m < key.toInt) : destOf (rs ++ rs') key = destOf rs' key := by
  rw [destOf, Tiles.rangeOf_append_right h hk, destOf]

theorem destOf_singleton (hlo : r.lo.toInt ≤ key.toInt)
    (hhi : key.toInt ≤ r.hi.toInt) : destOf [r] key = some r.dest := by
  simp [destOf, rangeOf, hlo, hhi]

theorem toInt_minJint : (BitVec.intMin 32).toInt = -2 ^ 31 := rfl
theorem toInt_maxJint : (BitVec.intMax 32).toInt = 2 ^ 31 - 1 := rfl

theorem toInt_succ {x : JInt} (h : x.toInt < 2 ^ 31 - 1) : (x + 1#32).toInt = x.toInt + 1 := by
  have hlo := le_toInt x
  rw [toInt_add, show (1#32).toInt = 1 from rfl]
  apply Int.bmod_eq_of_le <;> omega

theorem toInt_pred {x : JInt} (h : -2 ^ 31 < x.toInt) : (x - 1#32).toInt = x.toInt - 1 := by
  have hhi := toInt_lt (x := x)
  rw [toInt_sub, show (1#32).toInt = 1 from rfl]
  apply Int.bmod_eq_of_le <;> omega

/-! ## Filling a table -/

theorem lookup_append (es es' : List (JInt × Int)) (index : JInt) :
    lookup (es ++ es') index = (lookup es index).or (lookup es' index) := by
  simp only [lookup, find?_append]
  cases es.find? (·.1 = index) <;> rfl

variable {lo : JInt}

/-- One range, up to a key that is not the largest `int`. -/
theorem fillRange_spec {hi : JInt} {dest : Int} (hhi : hi.toInt < 2 ^ 31 - 1) (n : Nat) (j : JInt)
    (hn : (n : Int) = hi.toInt - j.toInt + 1) : ∃ es, (∀ fu > n, fillRange lo hi dest fu j = some es) ∧
      ∀ key : JInt, lookup es (key - lo) =
        if j.toInt ≤ key.toInt ∧ key.toInt ≤ hi.toInt then some dest else none := by
  induction n generalizing j with
  | zero =>
    refine ⟨[], ?_, ?_⟩
    · rintro (_ | fu) hfuel
      · omega
      · have hstop : ¬ j.sle hi = true := by
          rw [sle_iff_toInt_le]
          omega
        rw [fillRange, if_neg hstop]
    · intro key
      rw [if_neg (by omega)]
      rfl
  | succ n ih =>
    have hj : j.toInt ≤ hi.toInt := by omega
    have hsucc := toInt_succ (show j.toInt < 2 ^ 31 - 1 by omega)
    obtain ⟨es, hes, hlookup⟩ := ih (j + 1#32) (by omega)
    refine ⟨(j - lo, dest) :: es, ?_, ?_⟩
    · rintro (_ | fu) hfuel
      · omega
      · rw [fillRange, if_pos (sle_iff_toInt_le.mpr hj), hes fu (by omega)]
        rfl
    · intro key
      by_cases hkey : key = j
      · rw [if_pos (by rw [hkey]; omega), hkey]
        simp [lookup]
      have hne : key.toInt ≠ j.toInt := fun heq => hkey (eq_of_toInt_eq heq)
      have hskip : lookup ((j - lo, dest) :: es) (key - lo) = lookup es (key - lo) := by
        have hdiff : ¬ j - lo = key - lo := by
          intro heq
          exact hkey (by bv_omega)
        simp [lookup, hdiff]
      rw [hskip, hlookup, hsucc]
      congr 1
      simp
      omega

/-- The loop over a range that ends at the largest `int` never stops. -/
theorem fillRange_intMax (lo : JInt) (dest : Int) (fu : Nat) (j : JInt) :
    fillRange lo (BitVec.intMax 32) dest fu j = none := by
  induction fu generalizing j with
  | zero => rfl
  | succ fu ih =>
    have hle : j.sle (intMax 32) = true := by
      have := toInt_lt (x := j)
      rw [sle_iff_toInt_le, toInt_maxJint]
      omega
    rw [fillRange, if_pos hle, ih]
    rfl

theorem fillTable_spec {rs : List SwitchRange} {a b : Int} (h : Covers rs a b)
    (hmax : ∀ r ∈ rs, r.hi ≠ BitVec.intMax 32) :
    ∃ es, (∀ fu > 2 ^ 32, fillTable fu lo rs = some es) ∧
      ∀ key : JInt, lookup es (key - lo) = destOf rs key := by
  induction rs generalizing a with
  | nil => exact ⟨[], fun fu _ => rfl, fun key => rfl⟩
  | cons r rs ih =>
    obtain ⟨hlo, hle, hrest⟩ := covers_cons.mp h
    have hlt : r.hi.toInt < 2 ^ 31 - 1 := by
      have hne : r.hi.toInt ≠ (intMax 32).toInt := fun heq =>
        hmax r mem_cons_self (eq_of_toInt_eq heq)
      have := toInt_lt (x := r.hi)
      rw [toInt_maxJint] at hne
      omega
    have hmin := le_toInt r.lo
    obtain ⟨es, hes, hlookup⟩ := @fillRange_spec lo r.hi r.dest hlt
      (r.hi.toInt - r.lo.toInt + 1).toNat r.lo (by omega)
    obtain ⟨es', hes', hlookup'⟩ := ih hrest fun s hs => hmax s (mem_cons_of_mem r hs)
    refine ⟨es ++ es', ?_, ?_⟩
    · intro fu hfuel
      simp only [fillTable, hes fu (by omega), hes' fu hfuel]
      rfl
    intro key
    rw [lookup_append, hlookup, hlookup']
    show _ = destOf ([r] ++ rs) key
    split
    · next hmem => rw [destOf_append_left hrest hmem.2, destOf_singleton hmem.1 hmem.2, some_or]
    · next hnot =>
      rw [none_or]
      unfold destOf rangeOf
      rw [find?_append, find?_singleton, if_neg (by simpa using hnot), none_or]

theorem fillTable_intMax {rs : List SwitchRange} (hr : r ∈ rs)
    (hmax : r.hi = BitVec.intMax 32) (fu : Nat) : fillTable fu lo rs = none := by
  induction rs with
  | nil => cases hr
  | cons s rs ih =>
    rcases mem_cons.mp hr with rfl | hr
    · simp only [fillTable, hmax, fillRange_intMax]
      rfl
    · simp only [fillTable, ih hr]
      cases fillRange lo s.hi s.dest fu s.lo <;> rfl

/-! ## Jump tables -/

variable {x y : SwitchRange} {m : List SwitchRange}

/-- Three parts of a cover. -/
theorem covers_ends {a b : Int} (h : Covers (x :: (m ++ [y])) a b) :
    ∃ q, x.lo.toInt = a ∧ a ≤ x.hi.toInt ∧ Covers m (x.hi.toInt + 1) q ∧ y.lo.toInt = q + 1 ∧
      q + 1 ≤ y.hi.toInt ∧ y.hi.toInt = b := by
  obtain ⟨hlo, hle, hrest⟩ := covers_cons.mp h
  obtain ⟨q, hm, hy⟩ := Tiles.append_iff.mp hrest
  obtain ⟨hylo, hyle, hend⟩ := covers_cons.mp hy
  have hend : y.hi.toInt + 1 = b + 1 := hend
  exact ⟨q, hlo, hle, hm, hylo, hyle, by omega⟩

/-- The first range after the lowest one. -/
theorem lo_getD_one {a b : Int} (h : Covers (x :: (m ++ [y])) a b) :
    ((x :: (m ++ [y])).getD 1 default).lo.toInt = x.hi.toInt + 1 := by
  obtain ⟨-, -, hrest⟩ := covers_cons.mp h
  cases m with
  | nil => exact (covers_cons.mp hrest).1
  | cons r m => exact (covers_cons.mp hrest).1

/-- The last range before the highest one. -/
theorem hi_getD_length {a b : Int} (h : Covers (x :: (m ++ [y])) a b) :
    ((x :: (m ++ [y])).getD m.length default).hi.toInt = y.lo.toInt - 1 := by
  obtain ⟨q, hlo, hle, hm, hylo, -, -⟩ := covers_ends h
  have hxm : Covers (x :: m) a q := ⟨hlo, hle, hm⟩
  have hget : (x :: (m ++ [y])).getD m.length default = (x :: m).getLast (cons_ne_nil x m) := by
    rw [← List.cons_append, getD_eq_getElem?_getD, getElem?_append_left (by simp),
      getLast_eq_getElem, List.getElem?_eq_getElem (by simp)]
    simp
  rw [← dropLast_append_getLast (cons_ne_nil x m)] at hxm
  have := Tiles.hi_last hxm
  rw [hget]
  omega

/-- The table has a part of the ranges, with the end ranges lopped off or not. -/
theorem lop_spec {a b : Int} (h : Covers (x :: (m ++ [y])) a b)
    {first stop : Nat} {lopLo lopHi : Prop} [Decidable lopLo] [Decidable lopHi]
    (hfirst : first = if lopLo then 1 else 0)
    (hstop : stop = if lopHi then (x :: (m ++ [y])).length - 1 else (x :: (m ++ [y])).length) :
    ∃ a' b', a' = (if lopLo then x.hi.toInt + 1 else a) ∧ b' = (if lopHi then y.lo.toInt - 1 else b) ∧
      Covers (((x :: (m ++ [y])).take stop).drop first) a' b' ∧
      ((x :: (m ++ [y])).getD first default).lo.toInt = a' ∧
      ((x :: (m ++ [y])).getD (stop - 1) default).hi.toInt = b' ∧
      ∀ key : JInt, a' ≤ key.toInt → key.toInt ≤ b' →
        destOf (x :: (m ++ [y])) key = destOf (((x :: (m ++ [y])).take stop).drop first) key := by
  obtain ⟨q, hlo, hle, hm, hylo, hyle, hyhi⟩ := covers_ends h
  have hx : Covers [x] a x.hi.toInt := ⟨hlo, hle, rfl⟩
  have hy : Covers [y] (q + 1) b := ⟨hylo, hyle, show y.hi.toInt + 1 = b + 1 by omega⟩
  have hone := lo_getD_one h
  have hpenult := hi_getD_length h
  have hlast : (x :: (m ++ [y])).getD (m.length + 1) default = y := by simp
  have hrest : Covers (m ++ [y]) (x.hi.toInt + 1) b := Tiles.append hm hy
  have hlen : (x :: (m ++ [y])).length = m.length + 2 := by simp
  refine ⟨_, _, rfl, rfl, ?_⟩
  subst hfirst hstop
  rw [hlen]
  by_cases hl : lopLo <;> by_cases hh : lopHi <;>
    simp only [hl, hh, if_true, if_false, show m.length + 2 - 1 = m.length + 1 by omega]
  · have hslice : ((x :: (m ++ [y])).take (m.length + 1)).drop 1 = m := by simp
    rw [hslice]
    refine ⟨by rwa [hylo, add_sub_cancel_right], hone, hpenult, fun key hmin hmax => ?_⟩
    rw [← singleton_append, destOf_append_right hx (by omega), destOf_append_left hy (by omega)]
  · have hslice : ((x :: (m ++ [y])).take (m.length + 2)).drop 1 = m ++ [y] := by
      rw [← hlen, take_length]
      rfl
    rw [hslice]
    refine ⟨hrest, hone, by rw [hlast, hyhi], fun key hmin hmax => ?_⟩
    rw [← singleton_append, destOf_append_right hx (by omega)]
  · have hslice : ((x :: (m ++ [y])).take (m.length + 1)).drop 0 = x :: m := by simp
    rw [hslice]
    refine ⟨⟨hlo, hle, by rwa [hylo, add_sub_cancel_right]⟩, hlo, hpenult, fun key hmin hmax => ?_⟩
    rw [← List.cons_append, destOf_append_left hy (by omega)]
  · have hslice : ((x :: (m ++ [y])).take (m.length + 2)).drop 0 = x :: (m ++ [y]) := by
      rw [← hlen, take_length]
      rfl
    rw [hslice]
    exact ⟨h, hlo, by rw [hlast, hyhi], fun key hmin hmax => rfl⟩

variable {f : JumpTableFlags}

/-- What `create_jump_tables` decides: the table has a part of the ranges, and its guard goes
where the ranges that were lopped off go. -/
theorem planJumpTable_spec {p : TablePlan}
    {a b : Int} (h : Covers (x :: (m ++ [y])) a b) (hp : planJumpTable f (x :: (m ++ [y])) = some p) :
    ∃ a' b', Covers p.ranges a' b' ∧ p.lowval.toInt = a' ∧ p.numCases = b' - a' + 1 ∧ p.numCases < 2 ^ 31 ∧
      a ≤ a' ∧ b' ≤ b ∧ (p.guard = none → a' = a ∧ b' = b) ∧
      (∀ key : JInt, a' ≤ key.toInt → key.toInt ≤ b' → destOf (x :: (m ++ [y])) key = destOf p.ranges key) ∧
      ∀ d, p.guard = some d → ∀ key : JInt, a ≤ key.toInt → key.toInt ≤ b →
        (key.toInt < a' ∨ b' < key.toInt) → destOf (x :: (m ++ [y])) key = some d := by
  have hlast : (x :: (m ++ [y])).getD ((x :: (m ++ [y])).length - 1) default = y := by simp
  obtain ⟨q, hlo, hle, hm, hylo, hyle, hyhi⟩ := covers_ends h
  unfold planJumpTable at hp
  simp only [hlast, getD_cons_zero] at hp
  split at hp
  · cases hp
  generalize hout : (if x.dest = y.dest then _ else _ : Int × Int) = out at hp
  generalize hfirst : (if f.maxJumpTableSparseness * 4 < out.1 ∧ out.2 = x.dest then 1 else 0) = first at hp
  generalize hstop : (if f.maxJumpTableSparseness * 4 < out.1 ∧ out.2 = y.dest then (x :: (m ++ [y])).length - 1
    else (x :: (m ++ [y])).length) = stop at hp
  split at hp
  · cases hp
  next hsize =>
  split at hp
  · cases hp
  cases hp
  obtain ⟨a', b', ha, hb, hcover, hlow, hhigh, hsame⟩ := lop_spec h hfirst.symm hstop.symm
  have hmax := f.maxSize_lt
  refine ⟨a', b', hcover, hlow, by dsimp only; omega, by dsimp only; omega, ?_, ?_, ?_, hsame, ?_⟩
  · rw [ha]
    split <;> omega
  · rw [hb]
    split <;> omega
  · intro hguard
    have hno : ¬ f.maxJumpTableSparseness * 4 < out.1 := by simpa using hguard
    rw [ha, hb, if_neg (fun hl => hno hl.1), if_neg (fun hh => hno hh.1)]
    exact ⟨rfl, rfl⟩
  · intro d hguard key hmin hmaxk hout
    obtain ⟨hneeds, rfl⟩ : f.maxJumpTableSparseness * 4 < out.1 ∧ out.2 = d := by simpa using hguard
    rcases hout with hbelow | habove
    · -- the key is in the lowest range, which was lopped off
      rw [ha] at hbelow
      split at hbelow
      · next hl =>
        rw [hl.2]
        exact congrArg (Option.map _) (h.rangeOf_cons_of_le hmin (by omega))
      · omega
    · rw [hb] at habove
      split at habove
      · next hh =>
        have hxm : Covers (x :: m) a q := ⟨hlo, hle, hm⟩
        rw [← List.cons_append, destOf_append_right hxm (by omega), destOf_singleton (by omega) (by omega), hh.2]
      · omega

/-- The guard sends the keys outside of the table away. -/
theorem guard_holds_iff {numCases : Int} (hnum : 0 ≤ numCases) (hlt : numCases < 2 ^ 31) :
    BoolTest.ge.holdsU (key - lo) (BitVec.ofInt 32 numCases) = true ↔
      numCases ≤ (key.toInt - lo.toInt) % 2 ^ 32 := by
  have hsize : ((BitVec.ofInt 32 numCases).toNat : Int) = numCases := by
    rw [toNat_ofInt]
    omega
  have hkey := toInt_eq_toNat_cond key
  have hlow := toInt_eq_toNat_cond lo
  have hindex : ((key - lo).toNat : Int) = (key.toInt - lo.toInt) % 2 ^ 32 := by
    rw [toNat_sub]
    have := key.isLt
    have := lo.isLt
    split at hkey <;> split at hlow <;> omega
  rw [BoolTest.holdsU, ule_iff_le, le_def]
  omega

/-- A jump table that is made selects the destination of its key. -/
theorem emit_spec {p : TablePlan} {a b : Int}
    (h : Covers (x :: (m ++ [y])) a b) (hp : planJumpTable f (x :: (m ++ [y])) = some p)
    (hmax : ∀ r ∈ p.ranges, r.hi ≠ BitVec.intMax 32) :
    ∃ code, (∀ fu > 2 ^ 32, p.emit fu = some code) ∧
      ∀ key : JInt, a ≤ key.toInt → key.toInt ≤ b → code.run key = destOf (x :: (m ++ [y])) key := by
  obtain ⟨a', b', hcover, hlow, hnum, hsize, ha, hb, hnone, hsame, hguard⟩ := planJumpTable_spec h hp
  obtain ⟨es, hes, hlookup⟩ := @fillTable_spec p.lowval _ _ _ hcover hmax
  obtain ⟨-, -, -, -, -, -, hend⟩ := covers_ends h
  have hendHi := toInt_lt (x := y.hi)
  have hle := hcover.le_succ
  refine ⟨.jumpTable p.lowval (p.guard.map fun dest => (BitVec.ofInt 32 p.numCases, dest)) es, ?_, ?_⟩
  · intro fu hfuel
    simp only [TablePlan.emit, hes fu hfuel]
    rfl
  intro key hmin hmaxk
  have hkeyLo := le_toInt key
  have hlowLo := le_toInt p.lowval
  cases hg : p.guard with
  | none =>
    obtain ⟨rfl, rfl⟩ := hnone hg
    simp only [map_none, run]
    rw [hlookup, hsame key hmin hmaxk]
  | some d =>
    simp only [run, map_some]
    have hiff := @guard_holds_iff key p.lowval _ (show 0 ≤ p.numCases by omega) hsize
    split
    · next hout =>
      rw [hiff] at hout
      exact (hguard d hg key hmin hmaxk (by omega)).symm
    · next hin =>
      rw [hiff] at hin
      rw [hlookup, hsame key (by omega) (by omega)]

/-! ## The tree of tests -/

variable {rgs : List SwitchRange}

theorem pivot_mem (h : 2 ≤ rgs.length) : 0 < pivot rgs ∧ pivot rgs < rgs.length := by
  unfold pivot
  dsimp only
  split <;> omega

theorem split_pivot (h : 2 ≤ rgs.length) : rgs = rgs.take (pivot rgs) ++
      rgs.getD (pivot rgs) default :: rgs.drop (pivot rgs + 1) := by
  have hlt := (pivot_mem h).2
  rw [getD_eq_getElem?_getD, List.getElem?_eq_getElem hlt, getD_some, getElem_cons_drop,
    take_append_drop]

/-- Which ranges above the pivot get code of their own. -/
theorem upperRanges_cases (h : 2 ≤ rgs.length) :
    ((rgs.getD (pivot rgs) default).isSingleton = true ∧
        upperRanges rgs = some (rgs.drop (pivot rgs + 1))) ∨
      ((rgs.getD (pivot rgs) default).isSingleton = false ∧ upperRanges rgs = some (rgs.drop (pivot rgs))) ∨
      (upperRanges rgs = none ∧ (rgs.drop (pivot rgs + 1) = [] ∨
        (rgs.getD (pivot rgs) default).isSingleton = true ∧ pivot rgs = 1 ∧ rgs.length = 3 ∧
          (rgs.getD 2 default).dest = (rgs.getD 0 default).dest)) := by
  obtain ⟨hpos, hlt⟩ := pivot_mem h
  unfold upperRanges
  dsimp only
  split
  · next hsingle =>
    split
    · exact .inl ⟨hsingle, rfl⟩
    next hnot =>
    refine .inr (.inr ⟨rfl, ?_⟩)
    by_cases hmore : pivot rgs + 1 < rgs.length
    · have heq : rgs.length = 3 ∧
          (rgs.getD (rgs.length - 1) default).dest = (rgs.getD 0 default).dest :=
        not_not.mp fun hne => hnot ⟨hmore, hne⟩
      exact .inr ⟨hsingle, by omega, heq.1, by rw [← heq.2, heq.1]⟩
    · exact .inl (drop_eq_nil_of_le (by omega))
  · next hsingle =>
    split
    · next hend => exact .inr (.inr ⟨rfl, .inl (drop_eq_nil_of_le (by omega))⟩)
    · exact .inr (.inl ⟨by simpa using hsingle, rfl⟩)

/-- The code selects the destinations of the ranges. -/
def Selects (code : SwitchCode) (rs : List SwitchRange) : Prop :=
  ∀ a b, Covers rs a b → ∀ key : JInt, a ≤ key.toInt → key.toInt ≤ b → code.run key = destOf rs key

theorem selects_goto (r : SwitchRange) : Selects (.goto r.dest) [r] := by
  intro a b h key hmin hmax
  obtain ⟨hlo, -, hend⟩ := covers_cons.mp h
  have hend : r.hi.toInt + 1 = b + 1 := hend
  exact (destOf_singleton (by omega) (by omega)).symm

theorem holds_ne_iff (key value : JInt) : BoolTest.ne.holds key value = true ↔ key.toInt ≠ value.toInt := by
  rw [BoolTest.holds, bne_iff_ne]
  exact not_congr toInt_inj.symm

theorem holds_le_iff (key value : JInt) : BoolTest.le.holds key value = true ↔ key.toInt ≤ value.toInt := by
  rw [BoolTest.holds, sle_iff_toInt_le]

theorem holds_ge_iff (key value : JInt) : BoolTest.ge.holds key value = true ↔ value.toInt ≤ key.toInt := by
  rw [BoolTest.holds, sle_iff_toInt_le]

theorem toInt_of_isSingleton (h : r.isSingleton = true) : r.lo.toInt = r.hi.toInt := by
  have heq : r.lo = r.hi := by simpa [SwitchRange.isSingleton] using h
  rw [heq]

/-- The destination of a key, by its place around one of the ranges. -/
theorem destOf_around {below above : List SwitchRange} {mid : SwitchRange} {a q b : Int}
    {key : JInt} (hbelow : Covers below a q) (hfrom : Covers (mid :: above) (q + 1) b) :
    (key.toInt ≤ q → destOf (below ++ mid :: above) key = destOf below key) ∧
      (q < key.toInt → destOf (below ++ mid :: above) key = destOf (mid :: above) key) ∧
      (q < key.toInt → key.toInt ≤ mid.hi.toInt → destOf (mid :: above) key = some mid.dest) ∧
      (mid.hi.toInt < key.toInt → destOf (mid :: above) key = destOf above key) := by
  obtain ⟨hmidLo, hmidLe, habove⟩ := covers_cons.mp hfrom
  have hmid : Covers [mid] (q + 1) mid.hi.toInt := ⟨hmidLo, hmidLe, rfl⟩
  refine ⟨destOf_append_left hfrom, destOf_append_right hbelow, fun hk hk' => ?_, fun hk => ?_⟩
  · rw [← singleton_append, destOf_append_left habove hk', destOf_singleton (by omega) hk']
  · rw [← singleton_append, destOf_append_right hmid hk]

/-- The tests around the pivot select, if the code below and above it does. -/
theorem selects_emitTests (hlen : 2 ≤ rgs.length) {upper : Option SwitchCode}
    {lower : SwitchCode} (hlower : Selects lower (rgs.take (pivot rgs)))
    (hlowerOne : ∀ r, rgs.take (pivot rgs) = [r] → lower = .goto r.dest)
    (hupper : ∀ rs, upperRanges rgs = some rs → ∃ code, upper = some code ∧ Selects code rs)
    (hnone : upperRanges rgs = none → upper = none) :
    Selects (emitTests (rgs.getD (pivot rgs) default) upper lower) rgs := by
  intro a b h key hmin hmax
  obtain ⟨hpos, hlt⟩ := pivot_mem hlen
  have hsplit := split_pivot hlen
  have hcases := upperRanges_cases hlen
  have hdrop : rgs.drop (pivot rgs) = rgs.getD (pivot rgs) default :: rgs.drop (pivot rgs + 1) := by
    rw [getD_eq_getElem?_getD, List.getElem?_eq_getElem hlt, getD_some, getElem_cons_drop]
  rw [hdrop] at hcases
  generalize rgs.getD (pivot rgs) default = mid at *
  have hcover := h
  rw [hsplit] at hcover
  obtain ⟨q, hbelow, hfrom⟩ := Tiles.append_iff.mp hcover
  obtain ⟨hmidLo, hmidLe, habove⟩ := covers_cons.mp hfrom
  obtain ⟨hdestBelow, hdestFrom, hdestMid, hdestAbove⟩ := @destOf_around _ _ _ _ _ _ key hbelow hfrom
  rw [← hsplit] at hdestBelow hdestFrom
  have hlow : key.toInt ≤ q → lower.run key = destOf rgs key := fun hk =>
    (hlower a q hbelow key hmin hk).trans (hdestBelow hk).symm
  have hrunMid : q < key.toInt → key.toInt ≤ mid.hi.toInt → some mid.dest = destOf rgs key :=
    fun hk hk' => ((hdestFrom hk).trans (hdestMid hk hk')).symm
  rcases hcases with ⟨hsingle, hup⟩ | ⟨hsingle, hup⟩ | ⟨hup, hend⟩
  · obtain ⟨code, rfl, hcode⟩ := hupper _ hup
    have heq := toInt_of_isSingleton hsingle
    simp only [emitTests, hsingle, if_true, run, holds_ne_iff, holds_le_iff]
    split
    · split
      · exact hlow (by omega)
      · rw [hdestFrom (by omega), hdestAbove (by omega)]
        exact hcode _ _ habove key (by omega) hmax
    · exact hrunMid (by omega) (by omega)
  · obtain ⟨code, rfl, hcode⟩ := hupper _ hup
    simp only [emitTests, hsingle, Bool.false_eq_true, if_false, run, holds_ge_iff]
    split
    · rw [hdestFrom (by omega)]
      exact hcode _ _ hfrom key (by omega) hmax
    · exact hlow (by omega)
  · obtain rfl := hnone hup
    rcases hend with hnil | ⟨hsingle, hone, hthree, hdest⟩
    · rw [hnil] at habove
      have hend : mid.hi.toInt + 1 = b + 1 := habove
      cases hsingle : mid.isSingleton with
      | true =>
        have heq := toInt_of_isSingleton hsingle
        simp only [emitTests, hsingle, if_true, run, holds_ne_iff]
        split
        · exact hlow (by omega)
        · exact hrunMid (by omega) (by omega)
      | false =>
        simp only [emitTests, hsingle, Bool.false_eq_true, if_false, run, holds_ge_iff]
        split
        · exact hrunMid (by omega) (by omega)
        · exact hlow (by omega)
    · -- the low and the high range go to the same place
      have heq := toInt_of_isSingleton hsingle
      simp only [emitTests, hsingle, if_true, run, holds_ne_iff]
      obtain ⟨x, y, z, rfl⟩ := length_eq_three.mp hthree
      rw [hone] at hlowerOne hdestFrom hdestAbove habove
      obtain ⟨hzLo, hzLe, hzEnd⟩ := covers_cons.mp (show Covers [z] (mid.hi.toInt + 1) b from habove)
      have hzEnd : z.hi.toInt + 1 = b + 1 := hzEnd
      have hdest : z.dest = x.dest := hdest
      split
      · by_cases hk : key.toInt ≤ q
        · exact hlow hk
        · rw [hlowerOne x rfl, run, hdestFrom (by omega), hdestAbove (by omega)]
          rw [show destOf (drop (1 + 1) [x, y, z]) key = destOf [z] key from rfl,
            destOf_singleton (by omega) (by omega), hdest]
      · exact hrunMid (by omega) (by omega)

/-! ## The ranges of a call -/

/-- No jump table that the call makes has the largest `int` as a key. The call on a list of
ranges makes no more nested calls than the list is long. -/
def tablesBelowMax (f : JumpTableFlags) : Nat → List SwitchRange → Bool
  | 0, _ => true
  | _, [] => true
  | _, [_] => true
  | depth + 1, ranges =>
    match planJumpTable f ranges with
    | some plan => plan.ranges.all (·.hi ≠ BitVec.intMax 32)
    | none =>
      (match upperRanges ranges with
        | some rs => tablesBelowMax f depth rs
        | none => true) &&
      tablesBelowMax f depth (ranges.take (pivot ranges))

theorem upperRanges_length {rs : List SwitchRange} (h : 2 ≤ rgs.length)
    (hrs : upperRanges rgs = some rs) : 0 < rs.length ∧ rs.length < rgs.length := by
  obtain ⟨hpos, hlt⟩ := pivot_mem h
  unfold upperRanges at hrs
  dsimp only at hrs
  split at hrs
  · split at hrs
    · next hmore =>
      cases hrs
      rw [length_drop]
      omega
    · cases hrs
  · split at hrs
    · cases hrs
    · cases hrs
      rw [length_drop]
      omega

theorem exists_ends (h : 2 ≤ rgs.length) : ∃ x m y, rgs = x :: (m ++ [y]) := by
  match rgs, h with
  | x :: r :: rs, _ =>
    refine ⟨x, (r :: rs).dropLast, (r :: rs).getLast (cons_ne_nil r rs), ?_⟩
    rw [dropLast_append_getLast]

theorem jumpSwitchRanges_succ (h : 2 ≤ rgs.length) (fu : Nat) :
    jumpSwitchRanges f (fu + 1) rgs =
      match planJumpTable f rgs with
      | some plan => plan.emit fu
      | none => do
        let upper ← match upperRanges rgs with
          | some rs => (jumpSwitchRanges f fu rs).map some
          | none => some none
        let lower ← jumpSwitchRanges f fu (rgs.take (pivot rgs))
        return emitTests (rgs.getD (pivot rgs) default) upper lower := by
  match rgs, h with
  | x :: r :: rs, _ => rfl

theorem tablesBelowMax_succ (h : 2 ≤ rgs.length) (depth : Nat) : tablesBelowMax f (depth + 1) rgs =
      match planJumpTable f rgs with
      | some plan => plan.ranges.all (·.hi ≠ BitVec.intMax 32)
      | none =>
        (match upperRanges rgs with
          | some rs => tablesBelowMax f depth rs
          | none => true) &&
        tablesBelowMax f depth (rgs.take (pivot rgs)) := by
  match rgs, h with
  | x :: r :: rs, _ => rfl

theorem covers_upperRanges {rs : List SwitchRange} {a b : Int} (h : 2 ≤ rgs.length) (hcover : Covers rgs a b)
    (hup : upperRanges rgs = some rs) : ∃ m, Covers rs m b := by
  have hlt := (pivot_mem h).2
  rw [split_pivot h] at hcover
  obtain ⟨q, -, hfrom⟩ := Tiles.append_iff.mp hcover
  rcases upperRanges_cases h with ⟨-, heq⟩ | ⟨-, heq⟩ | ⟨heq, -⟩
  · obtain rfl := some.inj (hup.symm.trans heq)
    exact ⟨_, (covers_cons.mp hfrom).2.2⟩
  · obtain rfl := some.inj (hup.symm.trans heq)
    rw [drop_eq_getElem_cons hlt]
    rw [getD_eq_getElem?_getD, List.getElem?_eq_getElem hlt, getD_some] at hfrom
    exact ⟨_, hfrom⟩
  · rw [hup] at heq
    cases heq

/-- A jump table selects among all the ranges. -/
theorem selects_table {plan : TablePlan} {a b : Int} (h : 2 ≤ rgs.length) (hcover : Covers rgs a b)
    (hplan : planJumpTable f rgs = some plan) (hmax : ∀ r ∈ plan.ranges, r.hi ≠ intMax 32) :
    ∃ code, (∀ fu > 2 ^ 32 + 1, jumpSwitchRanges f fu rgs = some code) ∧ Selects code rgs := by
  obtain ⟨x, m, y, rfl⟩ := exists_ends h
  obtain ⟨code, hcode, -⟩ := emit_spec hcover hplan hmax
  refine ⟨code, ?_, ?_⟩
  · rintro (_ | fu) hfuel
    · omega
    · rw [jumpSwitchRanges_succ h, hplan]
      exact hcode fu (by omega)
  · intro a' b' hcover'
    obtain ⟨code', hcode', hrun⟩ := emit_spec hcover' hplan hmax
    obtain rfl : code' = code :=
      some.inj ((hcode' (2 ^ 32 + 1) (by omega)).symm.trans (hcode (2 ^ 32 + 1) (by omega)))
    exact hrun

/-- If no table has the largest `int` as a key, the generation ends with code that selects. -/
theorem jumpSwitchRanges_selects (depth : Nat) {a b : Int}
    (hdepth : rgs.length ≤ depth) (hpos : 0 < rgs.length) (hcover : Covers rgs a b)
    (hmax : tablesBelowMax f depth rgs = true) :
    ∃ code, (∀ fu > 2 ^ 32 + rgs.length, jumpSwitchRanges f fu rgs = some code) ∧ Selects code rgs := by
  induction depth generalizing rgs a b with
  | zero => omega
  | succ depth ih =>
    by_cases hlen : 2 ≤ rgs.length
    · rw [tablesBelowMax_succ hlen] at hmax
      cases hplan : planJumpTable f rgs with
      | some plan =>
        obtain ⟨code, hcode, hselects⟩ := selects_table hlen hcover hplan (by simpa [hplan] using hmax)
        exact ⟨code, fun fu hfuel => hcode fu (by omega), hselects⟩
      | none =>
        simp only [hplan, Bool.and_eq_true] at hmax
        obtain ⟨hpivot, hlt⟩ := pivot_mem hlen
        have hsplit := hcover
        rw [split_pivot hlen] at hsplit
        obtain ⟨q, hbelow, -⟩ := Tiles.append_iff.mp hsplit
        have hbelowLen : (rgs.take (pivot rgs)).length = pivot rgs := by
          rw [length_take]
          omega
        obtain ⟨lower, hlower, hselects⟩ := ih (by omega) (by omega) hbelow hmax.2
        have hone : ∀ r, rgs.take (pivot rgs) = [r] → lower = .goto r.dest := by
          intro r hr
          rw [hr] at hlower
          have hrun := hlower (2 ^ 32 + 1 + 1) (by simp)
          exact (some.inj hrun).symm
        cases hup : upperRanges rgs with
        | some rs =>
          obtain ⟨hrsPos, hrsLt⟩ := upperRanges_length hlen hup
          obtain ⟨m, hrs⟩ := covers_upperRanges hlen hcover hup
          obtain ⟨upper, hupper, hupperSelects⟩ := ih (by omega) hrsPos hrs (by simpa [hup] using hmax.1)
          refine ⟨emitTests (rgs.getD (pivot rgs) default) (some upper) lower, ?_,
            selects_emitTests hlen hselects hone ?_ fun hnone => ?_⟩
          · rintro (_ | fu) hfuel
            · omega
            · rw [jumpSwitchRanges_succ hlen, hplan]
              simp only [hup, hupper fu (by omega), hlower fu (by omega)]
              rfl
          · intro rs' hrs'
            obtain rfl := some.inj (hup.symm.trans hrs')
            exact ⟨upper, rfl, hupperSelects⟩
          · cases hup.symm.trans hnone
        | none =>
          refine ⟨emitTests (rgs.getD (pivot rgs) default) none lower, ?_,
            selects_emitTests hlen hselects hone (fun rs' hrs' => ?_) fun _ => rfl⟩
          · rintro (_ | fu) hfuel
            · omega
            · rw [jumpSwitchRanges_succ hlen, hplan]
              simp only [hup, hlower fu (by omega)]
              rfl
          · cases hup.symm.trans hrs'
    · obtain ⟨r, rfl⟩ := length_eq_one_iff.mp (show rgs.length = 1 by omega)
      refine ⟨.goto r.dest, ?_, selects_goto r⟩
      rintro (_ | fu) hfuel
      · omega
      · rfl

/-- If some table has it, the generation does not end. -/
theorem jumpSwitchRanges_none (depth : Nat)
    (hmax : tablesBelowMax f depth rgs = false) (fu : Nat) : jumpSwitchRanges f fu rgs = none := by
  induction depth generalizing rgs fu with
  | zero => simp [tablesBelowMax] at hmax
  | succ depth ih =>
    by_cases hlen : 2 ≤ rgs.length
    · cases fu with
      | zero =>
        match rgs, hlen with
        | x :: r :: rs, _ => rfl
      | succ fu =>
        rw [tablesBelowMax_succ hlen] at hmax
        rw [jumpSwitchRanges_succ hlen]
        cases hplan : planJumpTable f rgs with
        | some plan =>
          have hex : ∃ r ∈ plan.ranges, r.hi = intMax 32 := by simpa [hplan] using hmax
          obtain ⟨r, hr, hhi⟩ := hex
          simp only [TablePlan.emit, fillTable_intMax hr hhi]
          rfl
        | none =>
          simp only [hplan, Bool.and_eq_false_iff] at hmax
          rcases hmax with hup | hlow
          · cases hrs : upperRanges rgs with
            | none => simp [hrs] at hup
            | some rs =>
              simp only [hrs] at hup
              simp only [ih hup]
              rfl
          · simp only [ih hlow]
            cases upperRanges rgs with
            | none => rfl
            | some rs =>
              dsimp only
              cases jumpSwitchRanges f fu rs <;> rfl
    · match rgs, hlen with
      | [], _ => simp [tablesBelowMax] at hmax
      | [_], _ => simp [tablesBelowMax] at hmax
      | _ :: _ :: _, hlen => simp at hlen

end Hotspot.Opto
