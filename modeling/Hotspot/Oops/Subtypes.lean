-- SUMMARY: Subclasses and subtypes in a well-formed hierarchy, and tests that decide them.
import Hotspot.Oops.HierarchyLinking

/-!
# Subtypes

A class is a subtype of its superclasses, and of the interfaces that it or a superclass
implements.
-/

namespace Hotspot.Oops.ClassTable

variable {h : ClassTable} {k c : Nat}

theorem mem_superChain (hs : h.Supertypes) {n : Nat} (hn : k < n) : c ∈ h.superChain n k ↔ h.Subclass k c := by
  induction n generalizing k with
  | zero => omega
  | succ n ih =>
    rw [superChain]
    cases hsuper : (h.cast k).super with
    | none =>
      rw [List.mem_singleton]
      constructor
      · rintro rfl
        exact .refl
      intro hsub
      cases hsub.cases_head with
      | inl heq => exact heq.symm
      | inr hstep =>
        obtain ⟨s, hs', -⟩ := hstep
        rw [hsuper] at hs'
        cases hs'
    | some s =>
      have hlt := (hs.super_lt hsuper).1
      rw [List.mem_cons, ih (by omega)]
      constructor
      · rintro (rfl | hsub)
        · exact .refl
        · exact .head hsuper hsub
      intro hsub
      cases hsub.cases_head with
      | inl heq => exact .inl heq.symm
      | inr hstep =>
        obtain ⟨s', hs', hsub⟩ := hstep
        obtain rfl := Option.some.inj (hsuper.symm.trans hs')
        exact .inr hsub

theorem isSubclassOf_iff (hs : h.Supertypes) : h.isSubclassOf k c = true ↔ h.Subclass k c := by
  rw [isSubclassOf, List.contains_iff_mem, mem_superChain hs (Nat.lt_succ_self k)]

/-- `k` is a subtype of `c`, or `c` itself. -/
def IsSubtype (h : ClassTable) (k c : Nat) : Prop := h.isSubtypeOf k c = true

instance (h : ClassTable) (k c : Nat) : Decidable (h.IsSubtype k c) := inferInstanceAs (Decidable (_ = true))

theorem isSubtype_class (hs : h.Supertypes) (hc : (h.cast c).isInterface = false) :
    h.IsSubtype k c ↔ h.Subclass k c := by
  rw [IsSubtype, isSubtypeOf, hc, if_neg Bool.false_ne_true, isSubclassOf_iff hs]

theorem isSubtype_interface (hc : (h.cast c).isInterface = true) :
    h.IsSubtype k c ↔ k = c ∨ c ∈ (h.cast k).transitiveInterfaces := by
  rw [IsSubtype, isSubtypeOf, hc, if_pos rfl, implementsInterface, Bool.or_eq_true, beq_iff_eq, List.contains_iff_mem]

section

variable (hs : h.Supertypes)

include hs

theorem Subclass.le (hsub : h.Subclass k c) : c ≤ k := by
  induction hsub with
  | refl => exact le_rfl
  | tail _ hsuper ih =>
    have := (hs.super_lt hsuper).1
    omega

theorem Subclass.lt (hsub : h.Subclass k c) (hc : c < h.length) : k < h.length := by
  rcases hsub.cases_head with rfl | ⟨s, hsuper, -⟩
  · exact hc
  · exact (hs.super_lt hsuper).2.1

theorem Subclass.antisymm (hsub : h.Subclass k c) (hsub' : h.Subclass c k) : k = c :=
  le_antisymm (hsub'.le hs) (hsub.le hs)

/-- The superclass of a class is not an interface. -/
theorem Subclass.interface_right (hc : (h.cast c).isInterface = true)
    (hsub : h.Subclass k c) : k = c := by
  rcases hsub.cases_tail with rfl | ⟨d, -, hsuper⟩
  · rfl
  · rw [(hs.super_lt hsuper).2.2] at hc
    cases hc

theorem subclass_object (hk : k < h.length) : h.Subclass k 0 := by
  induction k using Nat.strong_induction_on with
  | _ k ih =>
    rcases Nat.eq_zero_or_pos k with rfl | hpos
    · exact .refl
    · obtain ⟨s, hlt, hsuper, -⟩ := hs.super k hpos hk
      exact .head hsuper (ih s hlt (by omega))

theorem mem_of_subclass {i : Nat} (hsub : h.Subclass k c)
    (hi : i ∈ (h.cast c).transitiveInterfaces) : i ∈ (h.cast k).transitiveInterfaces := by
  induction hsub using Relation.ReflTransGen.head_induction_on with
  | refl => exact hi
  | head hsuper _ ih => exact (hs.transitiveInterfaces _ i).mpr (.inl ⟨_, hsuper, ih⟩)

/-- A subclass of a subtype is a subtype. -/
theorem IsSubtype.of_subclass {d : Nat} (hsub : h.Subclass k d) (hsubtype : h.IsSubtype d c) :
    h.IsSubtype k c := by
  cases hc : (h.cast c).isInterface with
  | false =>
    rw [isSubtype_class hs hc] at hsubtype ⊢
    exact hsub.trans hsubtype
  | true =>
    rw [isSubtype_interface hc] at hsubtype ⊢
    rcases hsubtype with rfl | hmem
    · exact .inl (hsub.interface_right hs hc)
    · exact .inr (mem_of_subclass hs hsub hmem)

theorem isSubtype_self (k : Nat) : h.IsSubtype k k := by
  cases hk : (h.cast k).isInterface with
  | false => exact (isSubtype_class hs hk).mpr .refl
  | true => exact (isSubtype_interface hk).mpr (.inl rfl)

theorem IsSubtype.lt (hsub : h.IsSubtype k c) (hc : c < h.length) : k < h.length := by
  by_contra hge
  have hdefault := cast_of_length_le (h := h) (k := k) (by omega)
  cases hkind : (h.cast c).isInterface with
  | false =>
    rcases ((isSubtype_class hs hkind).mp hsub).cases_head with rfl | ⟨s, hsuper, -⟩
    · exact hge hc
    · rw [hdefault] at hsuper
      cases hsuper
  | true =>
    rcases (isSubtype_interface hkind).mp hsub with rfl | hmem
    · exact hge hc
    · rw [hdefault] at hmem
      cases hmem

end

/-- The direct subclasses cover the subclasses. -/
theorem Subclass.cases_subklasses (hw : h.WellFormed) {d : Nat} (hsub : h.Subclass d k) :
    d = k ∨ ∃ c ∈ (h.cast k).subklasses, h.Subclass d c := by
  rcases hsub.cases_tail with rfl | ⟨c, hsub, hsuper⟩
  · exact .inl rfl
  · have hlt := (hw.toSupertypes.super_lt hsuper).2.1
    exact .inr ⟨c, (hw.subklasses k c).mpr ⟨hlt, hsuper⟩, hsub⟩

theorem subclass_of_mem_subklasses (hw : h.WellFormed) (hc : c ∈ (h.cast k).subklasses) :
    h.Subclass c k := .single ((hw.subklasses k c).mp hc).2

end Hotspot.Oops.ClassTable
