-- SUMMARY: Redefinition of methods: which entries of vtable and itable are adjusted.
import Hotspot.Oops.HierarchyLinking
import Hotspot.Oops.KlassVtable

/-!
# Method entries after a redefinition

When a class is redefined, its vtable and its itable still refer to the old methods. The vtable is
searched to its end for each old method. The search of the itable stops at the first entry, as if a
method stood in one entry only; but it has an entry in each interface that declares it.
-/

namespace Hotspot.Oops

open List

/-! ## The itable of a class -/

namespace ClassTable

variable (h : ClassTable) (k : Nat)

/-- The lookup in a class and its superclasses that passes over static methods. -/
def lookupInstanceMethod (name signature : String) : Nat → Option Nat → Option MethodOop
  | 0, _ => none
  | _ + 1, none => none
  | n + 1, some c => do
    let target ← h.lookupMethod c name signature
    if target.method.isStatic then
      lookupInstanceMethod name signature n (h.cast target.holder).super
    else some target

/-- The method of `k` that implements a method of an interface. Other entries are left empty. -/
def itableTarget (m : Method) : Option MethodOop :=
  (h.lookupInstanceMethod m.name m.signature (k + 1) (some k)).filter fun target =>
    target.method.access = .publicAccess && !target.method.isAbstract

def initializeItableForInterface (i : Nat) : List (Option MethodOop) :=
  (h.cast i).methods.map (h.itableTarget k)

/-- The method entries of the itable, one block for each interface. -/
def itable : List (Option MethodOop) :=
  (h.cast k).transitiveInterfaces.flatMap (h.initializeItableForInterface k)

def interfaceMethods : List Method :=
  (h.cast k).transitiveInterfaces.flatMap fun i => (h.cast i).methods

theorem count_itable (m : MethodOop) :
    (h.itable k).count (some m) = (h.interfaceMethods k).countP (h.itableTarget k · = some m) := by
  have hmap : h.itable k = (h.interfaceMethods k).map (h.itableTarget k) := map_flatMap.symm
  rw [hmap, count, countP_map]
  exact countP_congr fun t _ => by simp

end ClassTable

/-! ## Replacing the methods -/

/-- `old_methods` and `new_methods`. A new version is a new method. -/
structure MethodVersions (M : Type) where
  pairs : List (M × M)
  old_nodup : (pairs.map Prod.fst).Nodup
  new_fresh : ∀ p ∈ pairs, ∀ q ∈ pairs, p.2 ≠ q.1

namespace MethodVersions

variable {M : Type} [DecidableEq M]

/-- `klassVtable::adjust_method_entries`. An empty entry is `none`. -/
def adjustVtable (pairs : List (M × M)) (table : List (Option M)) : List (Option M) :=
  pairs.foldl (fun table p => table.map fun e => if e = some p.1 then some p.2 else e) table

/-- The search of the itable, which breaks after the first entry of the old method. -/
def adjustFirst (p : M × M) : List (Option M) → List (Option M)
  | [] => []
  | e :: es => if e = some p.1 then some p.2 :: es else e :: adjustFirst p es

/-- `klassItable::adjust_method_entries` -/
def adjustItable (pairs : List (M × M)) (table : List (Option M)) : List (Option M) :=
  pairs.foldl (fun table p => adjustFirst p table) table

/-- Entries of old methods have become entries of their new versions, and the others are
unchanged. -/
def Redirected (v : MethodVersions M) (before after : List (Option M)) : Prop :=
  after = before.map (Option.map fun m => (v.pairs.lookup m).getD m) ∧
    ∀ p ∈ v.pairs, some p.1 ∉ after

variable {p : M × M} {pairs : List (M × M)} {table : List (Option M)} {m : M}

/-- The search finds what the exhaustive one finds, if there is one entry to find. -/
theorem adjustFirst_eq_map (h : table.count (some p.1) ≤ 1) :
    adjustFirst p table = table.map fun e => if e = some p.1 then some p.2 else e := by
  induction table with
  | nil => rfl
  | cons e es ih =>
    rw [count_cons] at h
    rw [adjustFirst, map_cons]
    split
    · next heq =>
      have hnone : some p.1 ∉ es := by
        rw [← count_eq_zero]
        simp only [heq, beq_self_eq_true, if_true] at h
        omega
      rw [map_congr_left fun e' he' => if_neg fun heq' : e' = some p.1 => hnone (heq' ▸ he'),
        map_id']
    · rw [ih (by omega)]

theorem count_adjustItable (hnew : ∀ p ∈ pairs, m ≠ p.2) :
    (adjustItable pairs table).count (some m) =
    table.count (some m) - (pairs.map Prod.fst).count m := by
  have hfirst : ∀ p ∈ pairs, ∀ table, (adjustFirst p table).count (some m) =
      table.count (some m) - if m = p.1 then 1 else 0 := by
    intro p hp table
    have hm := hnew p hp
    induction table with
    | nil => simp [adjustFirst]
    | cons e es ih =>
      unfold adjustFirst
      split <;> grind
  clear hnew
  unfold adjustItable
  induction pairs generalizing table with
  | nil => simp
  | cons p pairs ih =>
    rw [foldl_cons, ih fun q hq => hfirst q (mem_cons_of_mem _ hq), hfirst p mem_cons_self,
      map_cons, count_cons]
    grind

theorem adjustItable_eq_adjustVtable (hnew : ∀ p ∈ pairs, ∀ q ∈ pairs, p.2 ≠ q.1)
    (h : ∀ p ∈ pairs, table.count (some p.1) ≤ 1) :
      adjustItable pairs table = adjustVtable pairs table := by
  unfold adjustItable adjustVtable
  induction pairs generalizing table with
  | nil => rfl
  | cons p pairs ih =>
    rw [foldl_cons, foldl_cons, ← adjustFirst_eq_map (h p mem_cons_self)]
    refine ih (fun q hq r hr => hnew q (.tail _ hq) r (.tail _ hr)) fun q hq => ?_
    have hcount :=
      @count_adjustItable M _ [p] table q.1
      (by simpa using (hnew p mem_cons_self q (.tail _ hq)).symm)
    have hq := h q (.tail _ hq)
    simp only [adjustItable, foldl_cons, foldl_nil] at hcount
    omega

/-- What the replacements do to one entry. -/
theorem adjustVtable_eq (hnew : ∀ p ∈ pairs, ∀ q ∈ pairs, p.2 ≠ q.1) :
    adjustVtable pairs table = table.map (Option.map fun m => (pairs.lookup m).getD m) := by
  unfold adjustVtable
  induction pairs generalizing table with
  | nil => simp
  | cons p pairs ih =>
    obtain ⟨old, new⟩ := p
    rw [foldl_cons, ih fun q hq r hr => hnew q (.tail _ hq) r (.tail _ hr), map_map]
    have hfresh : pairs.lookup new = none := by
      rw [lookup_eq_none_iff]
      intro q hq
      simpa using hnew _ mem_cons_self q (.tail _ hq)
    refine map_congr_left fun e _ => ?_
    cases e with
    | none => rfl
    | some m =>
      rcases eq_or_ne m old with rfl | hne
      · simp [hfresh]
      · simp [lookup_cons, hne, beq_false_of_ne hne]

theorem redirected_adjustVtable (v : MethodVersions M) (table : List (Option M)) :
    v.Redirected table (adjustVtable v.pairs table) := by
  refine ⟨adjustVtable_eq v.new_fresh, fun p hp hmem => ?_⟩
  rw [adjustVtable_eq v.new_fresh] at hmem
  obtain ⟨e, -, he⟩ := mem_map.mp hmem
  obtain ⟨m, rfl, hm⟩ := Option.map_eq_some_iff.mp he
  cases hlookup : v.pairs.lookup m with
  | none =>
    rw [hlookup] at hm
    obtain rfl : m = p.1 := hm
    simpa using lookup_eq_none_iff.mp hlookup p hp
  | some m' =>
    rw [hlookup] at hm
    obtain rfl : m' = p.1 := hm
    obtain ⟨before, after, hpairs, -⟩ := lookup_eq_some_iff.mp hlookup
    exact v.new_fresh (m, p.1) (by simp [hpairs]) p hp rfl

theorem redirected_adjustItable_iff (v : MethodVersions M) (table : List (Option M)) :
    v.Redirected table (adjustItable v.pairs table) ↔
      ∀ p ∈ v.pairs, table.count (some p.1) ≤ 1 := by
  refine ⟨fun h p hp => ?_, fun h => ?_⟩
  · have hcount := @count_adjustItable M _ _ table p.1 fun q hq => (v.new_fresh q hq p hp).symm
    rw [count_eq_zero.mpr (h.2 p hp), count_eq_one_of_mem v.old_nodup (mem_map_of_mem hp)] at hcount
    omega
  · rw [adjustItable_eq_adjustVtable v.new_fresh h]
    exact v.redirected_adjustVtable table

/-- The vtable refers to no old method any more. The itable does so just when each old method
had at most one entry. -/
theorem adjustMethodEntries_iff (v : MethodVersions M) (vtable itable : List (Option M)) :
    v.Redirected vtable (adjustVtable v.pairs vtable) ∧
      (v.Redirected itable (adjustItable v.pairs itable) ↔
        ∀ p ∈ v.pairs, itable.count (some p.1) ≤ 1) :=
  ⟨v.redirected_adjustVtable vtable, v.redirected_adjustItable_iff itable⟩

/-- The tables of a class: its itable is redirected just if no old method implements two methods of
its interfaces. -/
theorem redirected_tables (h : ClassTable) (k : Nat) (v : MethodVersions MethodOop) :
    v.Redirected (h.vtable k).table (adjustVtable v.pairs (h.vtable k).table) ∧
      (v.Redirected (h.itable k) (adjustItable v.pairs (h.itable k)) ↔
        ∀ p ∈ v.pairs, (h.interfaceMethods k).countP (h.itableTarget k · = some p.1) ≤ 1) := by
  refine ⟨v.redirected_adjustVtable _, ?_⟩
  simp only [redirected_adjustItable_iff, h.count_itable k]

def methodOf (isAbstract isOld : Bool) : Method :=
  ⟨"m", "()V", .publicAccess, false, false, isAbstract, isOld, 0⟩

/-- A class whose method implements the method of two interfaces. -/
def twoInterfaces : Hierarchy :=
  ((Hierarchy.objectOnly.link ⟨some 0, true, true, false, false, "", [], [methodOf true false]⟩
    (by decide)).link
    ⟨some 0, true, true, false, false, "", [], [methodOf true false]⟩ (by decide)).link
    ⟨some 0, false, false, false, false, "", [1, 2], [methodOf false true]⟩ (by decide)

/-- The method keeps its old version in the second interface. -/
theorem adjustItable_keeps_old :
    ∃ v : MethodVersions MethodOop, v.pairs = [(⟨3, methodOf false true⟩, ⟨3, methodOf false false⟩)] ∧
    adjustItable v.pairs (twoInterfaces.table.itable 3) =
      [some ⟨3, methodOf false false⟩, some ⟨3, methodOf false true⟩] ∧
    ¬ v.Redirected (twoInterfaces.table.itable 3)
      (adjustItable v.pairs (twoInterfaces.table.itable 3)) := by
  refine ⟨⟨[(⟨3, methodOf false true⟩, ⟨3, methodOf false false⟩)], by decide, by decide⟩,
    rfl, by decide, ?_⟩
  unfold Redirected
  decide

end MethodVersions

end Hotspot.Oops
