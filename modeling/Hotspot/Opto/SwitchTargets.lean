-- SUMMARY: The ranges of a switch go to the targets of its keys, also pruned.
import Hotspot.Opto.SwitchLowering

/-!
# Targets of switches

The loops over the cases keep the ranges a tiling of the keys up to the current one, and every
key in it goes to its target.
-/

namespace Hotspot.Opto

open List

open BitVec hiding reverse_append

/-! ## Pruning -/

variable {rs : List SwitchRange}

theorem covers_pruneLow {minVal : JInt} {a b : Int} (h : Covers rs a b)
    (hmin : a ≤ minVal.toInt) (hle : minVal.toInt ≤ b) :
    Covers (pruneLow minVal rs) minVal.toInt b ∧
      ∀ key : JInt, minVal.toInt ≤ key.toInt → destOf (pruneLow minVal rs) key = destOf rs key := by
  induction rs generalizing a with
  | nil =>
    have h : a = b + 1 := h
    omega
  | cons r rs ih =>
    obtain ⟨hlo, hler, hrest⟩ := covers_cons.mp h
    have hr : Covers [r] a r.hi.toInt := ⟨hlo, hler, rfl⟩
    by_cases hdrop : r.hi.slt minVal = true
    · have hsame : pruneLow minVal (r :: rs) = pruneLow minVal rs := by
        rw [pruneLow, dropWhile_cons, if_pos hdrop, pruneLow]
      rw [slt_iff_toInt_lt] at hdrop
      rw [hsame]
      obtain ⟨hcover, hdest⟩ := ih hrest (by omega)
      refine ⟨hcover, fun key hkey => ?_⟩
      rw [hdest key hkey, ← singleton_append, destOf_append_right hr (by omega)]
    · rw [pruneLow, dropWhile_cons, if_neg hdrop]
      rw [slt_iff_toInt_lt] at hdrop
      dsimp only
      split
      · have hnew : Covers [{ r with lo := minVal }] minVal.toInt r.hi.toInt := ⟨rfl, by dsimp only; omega, rfl⟩
        refine ⟨Tiles.append hnew hrest, fun key hkey => ?_⟩
        rw [← singleton_append, ← singleton_append (x := r)]
        by_cases hk : key.toInt ≤ r.hi.toInt
        · rw [destOf_append_left hrest hk, destOf_append_left hrest hk,
            destOf_singleton (r := { r with lo := minVal }) hkey hk,
            destOf_singleton (by omega) hk]
        · rw [destOf_append_right hnew (by omega), destOf_append_right hr (by omega)]
      · next hnot =>
        rw [slt_iff_toInt_lt] at hnot
        obtain rfl : a = minVal.toInt := by omega
        exact ⟨h, fun key _ => rfl⟩

theorem covers_pruneHigh {maxVal : JInt} {a b : Int} (h : Covers rs a b)
    (hmax : maxVal.toInt ≤ b) (hle : a ≤ maxVal.toInt) :
    Covers (pruneHigh maxVal rs) a maxVal.toInt ∧
      ∀ key : JInt, key.toInt ≤ maxVal.toInt → destOf (pruneHigh maxVal rs) key = destOf rs key := by
  induction rs using reverseRecOn generalizing b with
  | nil =>
    have h : a = b + 1 := h
    omega
  | append_singleton rs r ih =>
    obtain ⟨q, hrs, hlast⟩ := Tiles.append_iff.mp h
    obtain ⟨hlo, hler, hend⟩ := covers_cons.mp hlast
    have hend : r.hi.toInt + 1 = b + 1 := hend
    by_cases hdrop : maxVal.slt r.lo = true
    · have hsame : pruneHigh maxVal (rs ++ [r]) = pruneHigh maxVal rs := by
        rw [pruneHigh, reverse_append, reverse_singleton, singleton_append,
          dropWhile_cons, if_pos hdrop, pruneHigh]
      rw [slt_iff_toInt_lt] at hdrop
      rw [hsame]
      obtain ⟨hcover, hdest⟩ := ih hrs (by omega)
      refine ⟨hcover, fun key hkey => ?_⟩
      rw [hdest key hkey, destOf_append_left hlast (by omega)]
    · rw [pruneHigh, reverse_append, reverse_singleton, singleton_append,
        dropWhile_cons, if_neg hdrop]
      rw [slt_iff_toInt_lt] at hdrop
      simp only [reverse_cons, reverse_reverse]
      split
      · have hnew : Covers [{ r with hi := maxVal }] (q + 1) maxVal.toInt := ⟨hlo, by dsimp only; omega, rfl⟩
        refine ⟨Tiles.append hrs hnew, fun key hkey => ?_⟩
        by_cases hq : key.toInt ≤ q
        · rw [destOf_append_left hnew hq, destOf_append_left hlast hq]
        · rw [destOf_append_right hrs (by omega), destOf_append_right hrs (by omega),
            destOf_singleton (by dsimp only; omega) hkey, destOf_singleton (by omega) (by omega)]
      · next hnot =>
        rw [slt_iff_toInt_lt] at hnot
        obtain rfl : b = maxVal.toInt := by omega
        exact ⟨h, fun key _ => rfl⟩

theorem covers_prune {t : KeyType} (h : Covers rs (-2 ^ 31) (2 ^ 31 - 1)) :
    Covers (t.prune rs) t.minVal.toInt t.maxVal.toInt ∧
      ∀ key : JInt, t.Contains key → destOf (t.prune rs) key = destOf rs key := by
  have hmin := le_toInt t.minVal
  have hmax := toInt_lt (x := t.maxVal)
  have hle := t.le
  obtain ⟨hlow, hlowDest⟩ := covers_pruneLow h hmin (by omega)
  obtain ⟨hhigh, hhighDest⟩ := covers_pruneHigh hlow (show t.maxVal.toInt ≤ 2 ^ 31 - 1 by omega) hle
  refine ⟨hhigh, fun key hkey => ?_⟩
  rw [KeyType.prune, hhighDest key hkey.2, hlowDest key hkey.1]

/-! ## Making the ranges -/

/-- The ranges made so far cover the keys up to `x`, and each goes to its target. -/
def Built (target : JInt → Int) (rs : RangeStack) (x : Int) : Prop :=
  Covers rs.reverse (-2 ^ 31) x ∧ ∀ key : JInt, key.toInt ≤ x → destOf rs.reverse key = some (target key)

theorem built_nil (target : JInt → Int) : Built target [] (-2 ^ 31 - 1) := by
  refine ⟨show (-2 ^ 31 : Int) = -2 ^ 31 - 1 + 1 by omega, fun key hkey => ?_⟩
  have := le_toInt key
  omega

namespace Built

variable {target : JInt → Int} {rs : RangeStack} {x : Int} {lo hi : JInt} {dest : Int} {tableIndex : Option Nat}

/-- A new range after the ones made so far. -/
theorem push (h : Built target rs x) (hlo : lo.toInt = x + 1) (hle : lo.toInt ≤ hi.toInt)
    (ht : ∀ key : JInt, lo.toInt ≤ key.toInt → key.toInt ≤ hi.toInt → target key = dest) :
    Built target (⟨lo, hi, dest, tableIndex⟩ :: rs) hi.toInt := by
  have hnew : Covers [⟨lo, hi, dest, tableIndex⟩] (x + 1) hi.toInt := ⟨hlo, by dsimp only; omega, rfl⟩
  refine ⟨?_, fun key hkey => ?_⟩
  · rw [reverse_cons]
    exact Tiles.append h.1 hnew
  rw [reverse_cons]
  by_cases hx : key.toInt ≤ x
  · rw [destOf_append_left hnew hx, h.2 key hx]
  · rw [destOf_append_right h.1 (by omega), destOf_singleton (by dsimp only; omega) hkey,
      ht key (by omega) hkey]

theorem adjoinOrPush (h : Built target rs x) (hlo : lo.toInt = x + 1) (hle : lo.toInt ≤ hi.toInt)
    (ht : ∀ key : JInt, lo.toInt ≤ key.toInt → key.toInt ≤ hi.toInt → target key = dest) :
    Built target (rs.adjoinOrPush lo hi dest tableIndex) hi.toInt := by
  cases rs with
  | nil => exact h.push hlo hle ht
  | cons r rest =>
    rw [RangeStack.adjoinOrPush]
    cases hadj : r.adjoinRange lo hi dest tableIndex with
    | none => exact h.push hlo hle ht
    | some r' =>
      unfold SwitchRange.adjoinRange at hadj
      split at hadj
      · next hsame =>
        cases hadj
        obtain ⟨hcover, hdest⟩ := h
        rw [reverse_cons] at hcover
        obtain ⟨q, hrest, hr⟩ := Tiles.append_iff.mp hcover
        obtain ⟨hrlo, hrle, hrend⟩ := covers_cons.mp hr
        have hrend : r.hi.toInt + 1 = x + 1 := hrend
        have hnew : Covers [{ r with hi := hi }] (q + 1) hi.toInt := ⟨hrlo, by dsimp only; omega, rfl⟩
        refine ⟨?_, fun key hkey => ?_⟩
        · rw [reverse_cons]
          exact Tiles.append hrest hnew
        rw [reverse_cons]
        by_cases hq : key.toInt ≤ q
        · have hold := hdest key (by omega)
          rw [reverse_cons, destOf_append_left hr hq] at hold
          rw [destOf_append_left hnew hq, hold]
        rw [destOf_append_right hrest (by omega), destOf_singleton (by dsimp only; omega) hkey]
        by_cases hx : key.toInt ≤ x
        · have hold := hdest key hx
          rw [reverse_cons, destOf_append_right hrest (by omega), destOf_singleton (by omega) (by omega)] at hold
          exact hold
        · rw [ht key (by omega) hkey, hsame.2.1]
      · cases hadj

/-- The keys above the highest one go to the default destination. -/
theorem finish {highest : JInt} {dd : Int} (h : Built target rs highest.toInt)
    (ht : ∀ key : JInt, highest.toInt < key.toInt → target key = dd) :
    Covers (rs.finish highest dd) (-2 ^ 31) (2 ^ 31 - 1) ∧
      ∀ key : JInt, destOf (rs.finish highest dd) key = some (target key) := by
  have hall : ∀ {rs' : RangeStack}, Built target rs' (2 ^ 31 - 1) → Covers rs'.reverse (-2 ^ 31) (2 ^ 31 - 1) ∧
      ∀ key : JInt, destOf rs'.reverse key = some (target key) := by
    intro rs' hrs'
    refine ⟨hrs'.1, fun key => hrs'.2 key ?_⟩
    have := toInt_lt (x := key)
    omega
  unfold RangeStack.finish
  split
  · next hne =>
    have hlt : highest.toInt < 2 ^ 31 - 1 := by
      have hdiff : highest.toInt ≠ (intMax 32).toInt := fun heq => hne (eq_of_toInt_eq heq)
      have := toInt_lt (x := highest)
      rw [toInt_maxJint] at hdiff
      omega
    have hsucc := toInt_succ hlt
    refine hall (h.adjoinOrPush hsucc ?_ fun key hkey _ => ht key (by omega))
    rw [hsucc, toInt_maxJint]
    omega
  · next heq =>
    have heq : highest = intMax 32 := not_not.mp heq
    rw [heq, toInt_maxJint] at h
    exact hall h

end Built

/-! ## tableswitch -/

namespace TableSwitch

variable (s : TableSwitch)

theorem target_of_lt {key : JInt} (h : key.toInt < s.lo.toInt) : s.target key = s.defaultDest := by
  rw [target, if_neg (by omega)]

theorem target_of_gt {key : JInt} (h : s.hi.toInt < key.toInt) : s.target key = s.defaultDest := by
  rw [target, if_neg (by omega)]

theorem toInt_case {j : Nat} (hj : j < s.dests.length) : (s.lo + BitVec.ofNat 32 j).toInt = s.lo.toInt + j := by
  have hlen := s.length_eq
  have hlt := s.length_lt
  have hlo := le_toInt s.lo
  have hhi := toInt_lt (x := s.hi)
  have hsmall : (BitVec.ofNat 32 j).toInt = j := by
    rw [toInt_ofNat']
    apply Int.bmod_eq_of_le <;> omega
  rw [toInt_add, hsmall]
  apply Int.bmod_eq_of_le <;> omega

/-- The loop over the cases, from case `j` on. -/
theorem built_addCases {pr : Bool} {dests : List Int} {j : Nat} {rs : RangeStack}
    (hdests : dests = s.dests.drop j) (h : Built s.target rs (s.lo.toInt + j - 1)) :
    Built s.target (addCases pr s.lo dests j rs) (s.lo.toInt + (j + dests.length : Nat) - 1) := by
  induction dests generalizing j rs with
  | nil => exact h
  | cons dest dests ih =>
    have hj : j < s.dests.length := by
      by_contra hge
      rw [drop_eq_nil_of_le (by omega)] at hdests
      cases hdests
    rw [drop_eq_getElem_cons hj] at hdests
    obtain ⟨rfl, hrest⟩ := cons.inj hdests
    have hcase := s.toInt_case hj
    have hlen := s.length_eq
    have hnew : Built s.target (rs.adjoinOrPush (s.lo + BitVec.ofNat 32 j) (s.lo + BitVec.ofNat 32 j) s.dests[j]
        (if pr then some j else none)) (s.lo + BitVec.ofNat 32 j).toInt := by
      refine h.adjoinOrPush (by omega) le_rfl fun key hmin hmax => ?_
      have hkey : key.toInt - s.lo.toInt = j := by omega
      rw [target, if_pos (by omega), hkey, Int.toNat_natCast, getD_eq_getElem?_getD,
        List.getElem?_eq_getElem hj, Option.getD_some]
    have hgoal := ih (j := j + 1) hrest (by rw [hcase] at hnew; push_cast; rwa [← add_assoc, add_sub_cancel_right])
    rw [show j + 1 + dests.length = j + (dests.length + 1) by omega] at hgoal
    exact hgoal

/-- The ranges of a tableswitch go to its targets. -/
theorem ranges_spec (pr : Bool) : Covers (s.ranges pr) (-2 ^ 31) (2 ^ 31 - 1) ∧
    ∀ key : JInt, destOf (s.ranges pr) key = some (s.target key) := by
  have hle := s.le
  have hlen := s.length_eq
  have hlo := le_toInt s.lo
  have hstart : Built s.target
      (if s.lo ≠ intMin 32 then [⟨intMin 32, s.lo - 1#32, s.defaultDest, none⟩] else [])
      (s.lo.toInt + (0 : Nat) - 1) := by
    split
    · next hne =>
      have hgt : -2 ^ 31 < s.lo.toInt := by
        have hdiff : s.lo.toInt ≠ (intMin 32).toInt := fun heq => hne (eq_of_toInt_eq heq)
        rw [toInt_minJint] at hdiff
        omega
      have hpred := toInt_pred hgt
      have hpush : Built s.target [⟨intMin 32, s.lo - 1#32, s.defaultDest, none⟩] (s.lo - 1#32).toInt := by
        refine (built_nil s.target).push ?_ ?_ fun key _ hkey => s.target_of_lt (by omega)
        · rw [toInt_minJint]
          omega
        · rw [toInt_minJint]
          omega
      rw [hpred] at hpush
      simpa using hpush
    · next heq =>
      have heq : s.lo = intMin 32 := not_not.mp heq
      rw [heq, toInt_minJint]
      exact built_nil s.target
  have hcases := @built_addCases s pr s.dests 0 _ rfl hstart
  have hhighest := s.toInt_case (j := s.dests.length - 1) (by omega)
  refine Built.finish ?_ (fun key hkey => s.target_of_gt (by omega))
  convert hcases using 1
  omega

end TableSwitch

/-! ## lookupswitch -/

/-- The range that is made last ends where the ranges end. -/
theorem Built.toInt_nextLo {target : JInt → Int} {rs : RangeStack} {x : Int} (h : Built target rs x)
    (hx : x < 2 ^ 31 - 1) : rs.nextLo.toInt = x + 1 := by
  cases rs with
  | nil =>
    have hcover : (-2 ^ 31 : Int) = x + 1 := h.1
    rw [← hcover]
    rfl
  | cons r rest =>
    have hcover := h.1
    rw [reverse_cons] at hcover
    have hlast : r.hi.toInt = x := hcover.hi_last
    rw [RangeStack.nextLo, toInt_succ (by omega), hlast]

namespace LookupSwitch

/-- The destination of a key in some of the cases. -/
def targetIn (defaultDest : Int) (table : List (JInt × Int)) (key : JInt) : Int :=
  match table.find? (·.1 = key) with
  | some (_, dest) => dest
  | none => defaultDest

theorem targetIn_cons_self (dd : Int) (key : JInt) (dest : Int) (table : List (JInt × Int)) :
    targetIn dd ((key, dest) :: table) key = dest := by
  rw [targetIn, find?_cons_of_pos (by simp)]

variable {key : JInt}

theorem targetIn_cons_of_ne {dd : Int} {mi : JInt} {dest : Int} {table : List (JInt × Int)}
    (h : mi ≠ key) : targetIn dd ((mi, dest) :: table) key = targetIn dd table key := by
  rw [targetIn, find?_cons_of_neg (by simpa using h), targetIn]

theorem targetIn_of_forall_ne {dd : Int} {table : List (JInt × Int)}
    (h : ∀ e ∈ table, e.1 ≠ key) : targetIn dd table key = dd := by
  rw [targetIn, find?_eq_none.mpr (by simpa using h)]

theorem targetIn_of_mem {dd : Int} {dest : Int} {table : List (JInt × Int)}
    (hnodup : (table.map Prod.fst).Nodup) (h : (key, dest) ∈ table) : targetIn dd table key = dest := by
  induction table with
  | nil => cases h
  | cons e table ih =>
    rw [map_cons, nodup_cons] at hnodup
    rcases mem_cons.mp h with rfl | h
    · exact targetIn_cons_self dd key dest table
    · have hne : e.1 ≠ key := by
        rintro rfl
        exact hnodup.1 (mem_map.mpr ⟨_, h, rfl⟩)
      rw [targetIn_cons_of_ne hne, ih hnodup.2 h]

/-- The order of the cases does not matter. -/
theorem targetIn_perm {dd : Int} {table cases : List (JInt × Int)}
    (hnodup : (cases.map Prod.fst).Nodup) (h : table.Perm cases) :
    targetIn dd cases key = targetIn dd table key := by
  have hnodup' : (table.map Prod.fst).Nodup := (h.map Prod.fst).nodup_iff.mpr hnodup
  by_cases hkey : ∃ dest, (key, dest) ∈ cases
  · obtain ⟨dest, hmem⟩ := hkey
    rw [targetIn_of_mem hnodup hmem, targetIn_of_mem hnodup' (h.mem_iff.mpr hmem)]
  · have hne : ∀ e ∈ cases, e.1 ≠ key := by
      rintro ⟨_, dest⟩ hmem rfl
      exact hkey ⟨dest, hmem⟩
    rw [targetIn_of_forall_ne hne, targetIn_of_forall_ne fun e he => hne e (h.mem_iff.mp he)]

/-- The loop over the sorted cases. The keys above `x` have their cases in the rest of the table. -/
theorem built_addCases {target : JInt → Int} {pr : Bool} {dd : Int} {table : List (JInt × Int)}
    {j : Nat} {rs : RangeStack} {x : Int} (hsorted : table.Pairwise (·.1.toInt < ·.1.toInt))
    (habove : ∀ e ∈ table, x < e.1.toInt)
    (ht : ∀ key : JInt, x < key.toInt → target key = targetIn dd table key) (h : Built target rs x) :
    ∃ y, y = (table.getLast?.map (·.1.toInt)).getD x ∧ Built target (addCases pr dd table j rs) y ∧
      ∀ key : JInt, y < key.toInt → target key = dd := by
  induction table generalizing j rs x with
  | nil => exact ⟨x, rfl, h, ht⟩
  | cons e table ih =>
    obtain ⟨mi, dest⟩ := e
    have hgt : x < mi.toInt := habove _ mem_cons_self
    have hlater : ∀ e ∈ table, mi.toInt < e.1.toInt := (pairwise_cons.mp hsorted).1
    have hmax := toInt_lt (x := mi)
    have hnext := h.toInt_nextLo (by omega)
    rw [addCases]
    generalize rs.nextLo = nextLo at hnext ⊢
    -- the keys between two cases
    have hgap : Built target (if mi ≠ nextLo then ⟨nextLo, mi - 1#32, dd, none⟩ :: rs else rs)
        (mi.toInt - 1) := by
      have hmin := le_toInt nextLo
      split
      · next hne =>
        have hlt : nextLo.toInt ≠ mi.toInt := fun heq => hne (eq_of_toInt_eq heq.symm)
        have hpred := toInt_pred (x := mi) (by omega)
        rw [← hpred]
        refine h.push hnext (by omega) fun key hkey hkey' => ?_
        rw [ht key (by omega)]
        apply targetIn_of_forall_ne
        intro e he heq
        have hge : mi.toInt ≤ e.1.toInt := by
          rcases mem_cons.mp he with rfl | he
          · exact le_rfl
          · exact (hlater e he).le
        rw [heq] at hge
        omega
      · next heq =>
        have heq : mi = nextLo := not_not.mp heq
        rw [heq, hnext, add_sub_cancel_right]
        exact h
    have hkey : ∀ key : JInt, mi.toInt ≤ key.toInt → key.toInt ≤ mi.toInt → target key = dest := by
      intro key hmin hmax
      obtain rfl : key = mi := eq_of_toInt_eq (by omega)
      rw [ht key hgt, targetIn_cons_self]
    obtain ⟨y, hy, hbuilt, hrest⟩ := ih (pairwise_cons.mp hsorted).2 hlater (fun key hkey => by
      rw [ht key (by omega), targetIn_cons_of_ne (by rintro rfl; omega)])
      (hgap.adjoinOrPush (by omega) le_rfl hkey)
    refine ⟨y, ?_, hbuilt, hrest⟩
    rw [hy]
    cases table with
    | nil => rfl
    | cons e' table => rw [getLast?_cons_cons, getLast?_cons]; rfl

variable (s : LookupSwitch)

theorem perm_table : s.table.Perm s.cases := perm_insertionSort keyLe s.cases

theorem pairwise_table : s.table.Pairwise (·.1.toInt < ·.1.toInt) := by
  have : Std.Total keyLe := ⟨fun a b => le_total a.1.toInt b.1.toInt⟩
  have : IsTrans (JInt × Int) keyLe := ⟨fun _ _ _ => le_trans⟩
  have hle : s.table.Pairwise keyLe := pairwise_insertionSort keyLe s.cases
  have hne : s.table.Pairwise (·.1 ≠ ·.1) :=
    pairwise_map.mp ((s.perm_table.map Prod.fst).nodup_iff.mpr s.nodup)
  refine hle.imp₂ (fun a b hle hne => ?_) hne
  have hdiff : a.1.toInt ≠ b.1.toInt := fun heq => hne (eq_of_toInt_eq heq)
  exact lt_of_le_of_ne hle hdiff

/-- The ranges of a lookupswitch with cases go to its targets. -/
theorem ranges_spec (pr : Bool) (hsize : 0 < s.cases.length) :
    Covers (s.ranges pr) (-2 ^ 31) (2 ^ 31 - 1) ∧
      ∀ key : JInt, destOf (s.ranges pr) key = some (s.target key) := by
  have hstart : ∀ e ∈ s.table, -2 ^ 31 - 1 < e.1.toInt := by
    intro e _
    have := le_toInt e.1
    omega
  have ht : ∀ key : JInt, -2 ^ 31 - 1 < key.toInt → s.target key = targetIn s.defaultDest s.table key :=
    fun key _ => targetIn_perm s.nodup s.perm_table
  obtain ⟨y, hy, hbuilt, habove⟩ :=
    @built_addCases s.target pr _ _ 0 _ _ s.pairwise_table hstart ht (built_nil s.target)
  have hne : s.table ≠ [] := by
    rw [← length_pos_iff, s.perm_table.length_eq]
    exact hsize
  rw [ranges]
  rw [getLast?_eq_some_getLast hne] at hy ⊢
  exact Built.finish (by rwa [hy] at hbuilt) fun key hkey => habove key (by rw [hy]; exact hkey)

end LookupSwitch

/-! ## The generated code -/

namespace Switch

variable (s : Switch)

theorem ranges_spec (pr : Bool) (hsize : 0 < s.size) : Covers (s.ranges pr) (-2 ^ 31) (2 ^ 31 - 1) ∧
      ∀ key : JInt, destOf (s.ranges pr) key = some (s.target key) := by
  cases s with
  | table s => exact s.ranges_spec pr
  | lookup s => exact s.ranges_spec pr hsize

theorem target_of_size {key : JInt} (h : s.size < 1) : s.target key = s.defaultDest := by
  cases s with
  | table s =>
    have hlen := s.length_eq
    have hle := s.le
    have h : s.dests.length < 1 := h
    omega
  | lookup s =>
    obtain hnil : s.cases = [] := length_eq_zero_iff.mp (Nat.lt_one_iff.mp h)
    show s.target key = s.defaultDest
    rw [LookupSwitch.target, hnil]
    rfl

/-- No jump table that is made for the switch has the largest `int` as a key. -/
def TablesBelowMax (f : JumpTableFlags) (t : KeyType) : Prop :=
  s.size < 1 ∨
    tablesBelowMax f (t.prune (s.ranges f.methodDataUpdate)).length (t.prune (s.ranges f.methodDataUpdate)) = true

/-- The code goes to the target of every key that the type of the key allows. -/
def LowersTo (f : JumpTableFlags) (t : KeyType) (code : SwitchCode) : Prop :=
  (∃ enough, ∀ fuel ≥ enough, s.lower f t fuel = some code) ∧
    ∀ key : JInt, t.Contains key → code.run key = some (s.target key)

/-- The lowering ends with code that goes to the targets, just if no table has the largest `int`
as a key. -/
theorem exists_lowersTo_iff (f : JumpTableFlags) (t : KeyType) :
    (∃ code, s.LowersTo f t code) ↔ s.TablesBelowMax f t := by
  by_cases hsize : s.size < 1
  · refine ⟨fun _ => .inl hsize, fun _ => ⟨.goto s.defaultDest, ⟨0, fun fuel _ => ?_⟩, fun key _ => ?_⟩⟩
    · rw [lower, if_pos hsize]
    · rw [s.target_of_size hsize]
      rfl
  · obtain ⟨hcover, hdest⟩ := s.ranges_spec f.methodDataUpdate (by omega)
    obtain ⟨hpruned, hprunedDest⟩ := covers_prune (t := t) hcover
    constructor
    · rintro ⟨code, ⟨enough, hcode⟩, -⟩
      refine .inr (Bool.not_eq_false _ ▸ fun hmax => ?_)
      have hlower := hcode enough le_rfl
      rw [lower, if_neg hsize, jumpSwitchRanges_none _ hmax] at hlower
      cases hlower
    · rintro (hnone | hmax)
      · exact absurd hnone hsize
      have hpos : 0 < (t.prune (s.ranges f.methodDataUpdate)).length := by
        rw [length_pos_iff]
        intro hnil
        rw [hnil] at hpruned
        have hempty : t.minVal.toInt = t.maxVal.toInt + 1 := hpruned
        have := t.le
        omega
      obtain ⟨code, hcode, hselects⟩ := jumpSwitchRanges_selects _ le_rfl hpos hpruned hmax
      refine ⟨code, ⟨2 ^ 32 + (t.prune (s.ranges f.methodDataUpdate)).length + 1, fun fuel hfuel => ?_⟩,
        fun key hkey => ?_⟩
      · rw [lower, if_neg hsize]
        exact hcode fuel hfuel
      · rw [hselects _ _ hpruned key hkey.1 hkey.2, hprunedDest key hkey, hdest]

end Switch

/-- 21 cases up to the largest `int`, each with a destination of its own. -/
def upToMax : TableSwitch where
  defaultDest := 100
  lo := BitVec.intMax 32 - 20#32
  hi := BitVec.intMax 32
  dests := (List.range 21).map (200 + 3 * ·)
  le := by decide
  length_eq := by decide
  length_lt := by decide

/-- The default values of the flags. -/
def defaultFlags : JumpTableFlags where
  useJumpTables := true
  hasJumpRule := true
  methodDataUpdate := false
  minJumpTableSize := 18
  maxJumpTableSize := 65000
  maxJumpTableSparseness := 5
  maxSize_lt := by decide

def anyInt : KeyType where
  minVal := BitVec.intMin 32
  maxVal := BitVec.intMax 32
  le := by decide

/-- Keys in no order, one of them the largest `int`. -/
def sparseKeys : LookupSwitch where
  defaultDest := 100
  cases := [(BitVec.intMax 32, 203), (-5#32, 200), (1000#32, 206)]
  nodup := by decide

-- So few cases get tests, not a table, and the largest `int` does no harm.
example : (Switch.lookup sparseKeys).TablesBelowMax defaultFlags anyInt := .inr (by decide +kernel)

example : ∃ code, (Switch.lookup sparseKeys).lower defaultFlags anyInt 7 = some code ∧
    [-6#32, -5#32, 1000#32, BitVec.intMax 32].map code.run =
      [some 100, some 200, some 206, some 203] :=
  ⟨_, rfl, by decide +kernel⟩

/-- The table of the 21 cases is never finished, so the lowering gives no code. -/
theorem not_lowersTo_upToMax : ¬ ∃ code, (Switch.table upToMax).LowersTo defaultFlags anyInt code := by
  rintro ⟨code, ⟨enough, hcode⟩, -⟩
  have hlower := hcode enough le_rfl
  rw [Switch.lower, if_neg (by decide), jumpSwitchRanges_none 22 (by decide +kernel)] at hlower
  cases hlower

end Hotspot.Opto
