-- SUMMARY: The occupants of a vtable slot against the method that overrides.
import Hotspot.Oops.VtableSizing

/-!
# Virtual dispatch

A call of a virtual method goes through the slot of the method, in the table of the class of the
receiver. The slot should hold the nearest method that overrides the called one.
-/

namespace Hotspot.Oops.ClassTable

variable {h : ClassTable}

/-! ## Overriding -/

/-- The method of the class `c` that overrides `m`: an instance method, not private, with its name
and signature, when `m` is accessible from `c`. -/
def overrider (h : ClassTable) (m : MethodOop) (c : Nat) : Option MethodOop :=
  match (h.cast c).findMethod m.method.name m.method.signature with
  | none => none
  | some t => if !t.isStatic && !t.isPrivate && h.simpleMatch c m then some ⟨c, t⟩ else none

/-- The nearest method, from the class `d` upwards, that overrides `m`, and otherwise `m`. -/
def selected (h : ClassTable) (m : MethodOop) (d : Nat) : MethodOop :=
  (((h.superChain (d + 1) d).takeWhile (· != m.holder)).findSome? (h.overrider m)).getD m

theorem selected_holder (m : MethodOop) : h.selected m m.holder = m := by
  rw [selected, superChain]
  cases (h.cast m.holder).super <;> simp

variable {m : MethodOop} {k : Nat}

theorem selected_super (hs : h.Supertypes) {s : Nat} (hsuper : (h.cast k).super = some s)
    (hne : k ≠ m.holder) : h.selected m k = (h.overrider m k).getD (h.selected m s) := by
  rw [selected, superChain_super hs hsuper, List.takeWhile_cons, if_pos (bne_iff_ne.mpr hne),
    List.findSome?_cons]
  cases h.overrider m k with
  | none => rfl
  | some t => rfl

/-- What overrides `m` in `c`, if anything does. -/
theorem overrider_eq_some {e : MethodOop} {c : Nat} (he : h.overrider m c = some e) :
    e.holder = c ∧ e.method.SameSelector m.method := by
  rw [overrider] at he
  cases hfind : (h.cast c).findMethod m.method.name m.method.signature with
  | none =>
    rw [hfind] at he
    cases he
  | some t =>
    rw [hfind] at he
    dsimp only at he
    split at he
    · cases he
      exact ⟨rfl, (mem_methods_of_findMethod hfind).2⟩
    · cases he

theorem selected_cases (hs : h.Supertypes) {d : Nat} (hsub : h.Subclass d m.holder) :
    (h.selected m d).holder ≤ d ∧ (h.selected m d).method.SameSelector m.method := by
  rw [selected]
  cases hfind : ((h.superChain (d + 1) d).takeWhile (· != m.holder)).findSome? (h.overrider m) with
  | none => exact ⟨hsub.le hs, rfl, rfl⟩
  | some e =>
    obtain ⟨c, hc, he⟩ := List.exists_of_findSome?_eq_some hfind
    have hc' : h.Subclass d c :=
      (mem_superChain hs (Nat.lt_succ_self d)).mp (List.takeWhile_subset _ hc)
    obtain ⟨rfl, hsel⟩ := overrider_eq_some he
    exact ⟨hc'.le hs, hsel⟩

/-! ## The slot of a method -/

/-- The slot of a method holds it, in the table of its class. -/
theorem table_vtableIndex (hs : h.Supertypes) {i : Nat} {t : Method}
    (hindex : (h.vtable k).vtableIndex t = some i) (hi : i < (h.vtable k).length) :
    (h.vtable k).table[i]? = some (some ⟨k, t⟩) := by
  have hf := filled_methods hs k (h.superVtables k)
  obtain ⟨⟨t', o⟩, hfind, ho⟩ := Option.bind_eq_some_iff.mp hindex
  obtain rfl : t' = t := by simpa using List.find?_some hfind
  obtain rfl : o = some i := ho
  have hmem := List.mem_of_find?_eq_some hfind
  rcases hf.indices t' i hmem with hshares | ⟨hle, hadded⟩
  · have hinherited := table_inherited hs (h := h) (k := k) hshares.lt
    obtain ⟨m, hm, hover, -⟩ := hshares
    obtain ⟨-, ⟨hname, hsignature⟩, -⟩ := overrides_iff.mp hover
    have hdeclared := findMethod_of_mem hs (hf.methods _ hmem)
    rw [hname, hsignature] at hdeclared
    have hm' : (h.superTable k)[i]? = some (some m) := hm
    rw [hinherited, hm', Option.map_some, Option.map_some, occupantIn, hdeclared]
    dsimp only
    rw [occupantAfter, if_pos hover]
  · have hlt := (List.getElem?_eq_some_iff.mp hadded).1
    have hwritten := vtable_written hs k
    rw [hf.added] at hadded hlt
    have hle' : (h.superTable k).length ≤ i := hle
    have hget : (h.vtable k).written[i]? = some (some ⟨k, t'⟩) := by
      rw [hwritten, List.append_assoc,
        List.getElem?_append_right (by rw [List.length_map]; exact hle'), List.length_map,
        ← List.map_map, List.getElem?_append_left (by rw [List.length_map]; exact hlt),
          List.getElem?_map]
      exact congrArg (Option.map some) hadded
    rw [getElem?_table hi (List.getElem?_eq_some_iff.mp hget).1, hget]

/-- The slot `i` in the class `k`, from the superclass. -/
theorem table_super (hs : h.Supertypes) {s i : Nat} (hsuper : (h.cast k).super = some s)
    (hm : (h.vtable s).table[i]? = some (some m)) :
    (h.vtable k).table[i]? = some (some (h.occupantIn k m)) := by
  rw [table_inherited hs, superTable_super hs hsuper, hm, Option.map_some, Option.map_some]
  rw [superTable_super hs hsuper]
  exact (List.getElem?_eq_some_iff.mp hm).1

theorem occupantIn_eq {s : Nat} (hsuper : (h.cast k).super = some s) :
    h.occupantIn k m = (h.overrider m k).getD m := by
  rw [occupantIn, overrider]
  cases hfind : (h.cast k).findMethod m.method.name m.method.signature with
  | none => rfl
  | some t =>
    have hsel : decide (t.SameSelector m.method) = true :=
      decide_eq_true (mem_methods_of_findMethod hfind).2
    dsimp only
    rw [occupantAfter, overrides, isVirtual, hsuper, hsel, Option.isSome_some, Bool.and_true,
      Bool.and_true]
    cases (!t.isStatic && !t.isPrivate && h.simpleMatch k m) <;> rfl

/-! ## The method that runs -/

/-- The occupant, in the class `d`, of the slot that starts with `m`. -/
def dispatched (h : ClassTable) (m : MethodOop) (d : Nat) : MethodOop :=
  ((h.superChain (d + 1) d).takeWhile (· != m.holder)).foldr h.occupantIn m

theorem dispatched_holder (m : MethodOop) : h.dispatched m m.holder = m := by
  rw [dispatched, superChain]
  cases (h.cast m.holder).super <;> simp

theorem dispatched_super (hs : h.Supertypes) {s : Nat} (hsuper : (h.cast k).super = some s)
    (hne : k ≠ m.holder) : h.dispatched m k = h.occupantIn k (h.dispatched m s) := by
  rw [dispatched, superChain_super hs hsuper, List.takeWhile_cons, if_pos (bne_iff_ne.mpr hne),
    List.foldr_cons]
  rfl

/-- A call through the slot of a method reaches a method with its name and signature, of a class
between that of the receiver and that of the method. -/
theorem table_dispatched (hs : h.Supertypes) {i d : Nat}
    (hindex : (h.vtable m.holder).vtableIndex m.method = some i)
    (hi : i < (h.vtable m.holder).length)
    (hsub : h.Subclass d m.holder) : (h.vtable d).table[i]? = some (some (h.dispatched m d)) ∧
      (h.dispatched m d).method.SameSelector m.method ∧ h.Subclass d (h.dispatched m d).holder ∧
      h.Subclass (h.dispatched m d).holder m.holder := by
  induction hsub using Relation.ReflTransGen.head_induction_on with
  | refl =>
    rw [dispatched_holder]
    exact ⟨table_vtableIndex hs hindex hi, ⟨rfl, rfl⟩, .refl, .refl⟩
  | @head k s hsuper hsub ih =>
    obtain ⟨hslot, hsel, hbelow, habove⟩ := ih
    have hlt := (hs.super_lt hsuper).1
    have hle := Subclass.le hs hsub
    rw [dispatched_super hs hsuper (by omega), table_super hs hsuper hslot]
    refine ⟨rfl, (occupantIn_sameSelector k _).trans hsel, ?_⟩
    rw [occupantIn_eq hsuper]
    cases hover : h.overrider (h.dispatched m s) k with
    | none => exact ⟨.head hsuper hbelow, habove⟩
    | some e =>
      rw [Option.getD_some, (overrider_eq_some hover).1]
      exact ⟨.refl, .head hsuper hsub⟩

/-! ## The method that should run -/

/-- In every class below that of `m` which redeclares it, the method in the slot `i` of the
superclass is accessible just if `m` is. -/
def AccessibleAlike (h : ClassTable) (m : MethodOop) (i : Nat) : Prop :=
  ∀ k s t e, h.Subclass s m.holder → (h.cast k).super = some s →
    (h.cast k).findMethod m.method.name m.method.signature = some t → t.isStatic = false →
      t.isPrivate = false →
    (h.vtable s).table[i]? = some (some e) → (h.simpleMatch k e = true ↔ h.simpleMatch k m = true)

theorem overrider_congr {e : MethodOop} (hsel : e.method.SameSelector m.method)
    (haccess : ∀ t, (h.cast k).findMethod m.method.name m.method.signature = some t →
      t.isStatic = false →
      t.isPrivate = false → (h.simpleMatch k e = true ↔ h.simpleMatch k m = true)) :
    h.overrider e k = h.overrider m k := by
  rw [overrider, overrider, hsel.1, hsel.2]
  cases hfind : (h.cast k).findMethod m.method.name m.method.signature with
  | none => rfl
  | some t =>
    dsimp only
    cases hstatic : t.isStatic with
    | true => rfl
    | false =>
      cases hprivate : t.isPrivate with
      | true => rfl
      | false => rw [Bool.eq_iff_iff.mpr (haccess t hfind hstatic hprivate)]

/-- The slot of a method holds, in each subclass, the nearest method that overrides it, just if it
is within the table and its occupants are accessible where the method itself is. -/
theorem table_eq_selected_iff (h : Hierarchy) (m : MethodOop) (i : Nat)
    (hindex : (h.table.vtable m.holder).vtableIndex m.method = some i) :
    (∀ d, h.table.Subclass d m.holder → (h.table.vtable d).table[i]? =
      some (some (h.table.selected m d))) ↔
      i < (h.table.vtable m.holder).length ∧ h.table.AccessibleAlike m i := by
  have hs := h.wf.toSupertypes
  have hne : ∀ {k s : Nat}, h.table.Subclass s m.holder → (h.table.cast k).super = some s →
      s < k ∧ k ≠ m.holder := by
    intro k s hsub hsuper
    have hlt := (hs.super_lt hsuper).1
    have hle := hsub.le hs
    exact ⟨hlt, by omega⟩
  constructor
  · intro hall
    refine ⟨?_, ?_⟩
    · rw [← length_table]
      exact (List.getElem?_eq_some_iff.mp (hall m.holder .refl)).1
    intro k s t e hsub hsuper hfind hstatic hprivate he
    obtain ⟨hlt, hk⟩ := hne hsub hsuper
    obtain rfl : e = h.table.selected m s := by simpa using he.symm.trans (hall s hsub)
    obtain ⟨hle, hsel⟩ := selected_cases hs hsub
    have hslot := hall k (.head hsuper hsub)
    rw [table_super hs hsuper he, occupantIn_eq hsuper, selected_super hs hsuper hk] at hslot
    have hsame := Option.some.inj (Option.some.inj hslot)
    -- The method of `k` is not the one in the slot above, so both choices fall on it or neither.
    have hnew : (⟨k, t⟩ : MethodOop) ≠ h.table.selected m s := by
      intro heq
      rw [← heq] at hle
      dsimp only at hle
      omega
    rw [overrider, overrider, hsel.1, hsel.2, hfind] at hsame
    simp only [hstatic, hprivate, Bool.not_false, Bool.and_self, Bool.true_and] at hsame
    cases hmatch : h.table.simpleMatch k (h.table.selected m s) <;>
      cases hmatch' : h.table.simpleMatch k m
    · rfl
    · rw [hmatch, hmatch'] at hsame
      exact absurd hsame.symm hnew
    · rw [hmatch, hmatch'] at hsame
      exact absurd hsame hnew
    · rfl
  · rintro ⟨hi, halike⟩ d hsub
    induction hsub using Relation.ReflTransGen.head_induction_on with
    | refl =>
      rw [selected_holder]
      exact table_vtableIndex hs hindex hi
    | @head k s hsuper hsub ih =>
      have hk := (hne hsub hsuper).2
      obtain ⟨-, hsel⟩ := selected_cases hs hsub
      rw [table_super hs hsuper ih, occupantIn_eq hsuper, selected_super hs hsuper hk]
      rw [overrider_congr hsel fun t hfind hstatic hprivate =>
        halike k s t _ hsub hsuper hfind hstatic hprivate ih]

/-- A public method, and its override in another package. -/
def publicOverride : Hierarchy :=
  (Hierarchy.objectOnly.link
    ⟨some 0, false, false, false, false, "a", [], [methodM .publicAccess]⟩ (by decide)).link
    ⟨some 1, false, false, false, false, "b", [], [methodM .publicAccess]⟩ (by decide)

theorem accessibleAlike_publicOverride :
    publicOverride.table.AccessibleAlike ⟨1, methodM .publicAccess⟩ 0 := by
  intro k s t e hsub _ _ _ _ he
  have hlt : s < 3 := hsub.lt publicOverride.wf.toSupertypes (by decide)
  have hpublic : ∀ s < 3, ∀ e ∈ ((publicOverride.table.vtable s).table[0]?).join,
      e.method.isPublicOrProtected = true := by decide
  have hpublic := hpublic s hlt e (by rw [he]; rfl)
  rw [simpleMatch, hpublic]
  exact Iff.rfl

theorem table_eq_selected_publicOverride :
    (publicOverride.table.vtable 1).vtableIndex (methodM .publicAccess) = some 0 ∧
      ∀ d, publicOverride.table.Subclass d 1 → (publicOverride.table.vtable d).table[0]? =
        some (some (publicOverride.table.selected ⟨1, methodM .publicAccess⟩ d)) :=
  ⟨by decide, (table_eq_selected_iff publicOverride ⟨1, methodM .publicAccess⟩ 0 (by decide)).mpr
    ⟨by decide, accessibleAlike_publicOverride⟩⟩

theorem table_dispatched_mixedAccess : (mixedAccess.table.vtable 3).table[0]? =
    some (some (mixedAccess.table.dispatched ⟨1, methodM .publicAccess⟩ 3)) :=
  (table_dispatched mixedAccess.wf.toSupertypes (m := ⟨1, methodM .publicAccess⟩) (by decide)
    (by decide)
    (.head rfl (.head rfl .refl))).1

/-- The slot of the first method keeps the second one, which the third does not override. -/
theorem not_table_eq_selected_mixedAccess :
    (mixedAccess.table.vtable 1).vtableIndex (methodM .publicAccess) = some 0 ∧
      mixedAccess.table.isSubclassOf 3 1 = true ∧
      (mixedAccess.table.vtable 3).table[0]? = some (some ⟨2, methodM .packagePrivate⟩) ∧
      mixedAccess.table.selected ⟨1, methodM .publicAccess⟩ 3 = ⟨3, methodM .publicAccess⟩ := by
  decide

end Hotspot.Oops.ClassTable
