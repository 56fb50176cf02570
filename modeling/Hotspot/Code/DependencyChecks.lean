-- SUMMARY: What the full checks of dependencies notice, with two exceptions.
import Hotspot.Code.DependencyWalk

/-!
# Full checks

A check that returns no witness means that the assertion documented for its kind holds. Two kinds
are exceptions. An interface counts as a leaf although other interfaces extend it. The check that a
concrete class has no concrete subtype never looks below the class, since the class is a
participant that hides the witnesses.
-/

namespace Hotspot.Dependencies

open Oops

variable {h : ClassTable} {vd : Bool}

/-- A concrete definition of a method. -/
def Defines (h : ClassTable) (k : Nat) (name signature : String) : Prop :=
  ∃ m, (h.cast k).findMethod name signature = some m ∧ isConcreteMethod m = true

/-- The assertions that are documented for the kinds of dependencies. -/
def Asserts (h : ClassTable) : Dependency → Prop
  | .evolMethod m => m.method.isOld = false ∧ m.method.numberOfBreakpoints = 0
  | .leafType ctxk => ∀ k < h.length, h.IsSubtype k ctxk → k = ctxk
  | .abstractWithUniqueConcreteSubtype ctxk conck =>
    ∀ k < h.length, h.IsSubtype k ctxk → isConcreteKlass h k = true → h.IsSubtype k conck
  | .abstractWithNoConcreteSubtype ctxk => ∀ k < h.length, h.IsSubtype k ctxk → isConcreteKlass h k = false
  | .concreteWithNoConcreteSubtype ctxk =>
    ∀ k < h.length, h.IsSubtype k ctxk → k ≠ ctxk → isConcreteKlass h k = false
  | .uniqueConcreteMethod ctxk m =>
    ∀ k < h.length, h.IsSubtype k ctxk → k ≠ m.holder → ¬ Defines h k m.method.name m.method.signature
  | .abstractWithExclusiveConcreteSubtypes ctxk k1 k2 =>
    ∀ k < h.length, h.IsSubtype k ctxk → isConcreteKlass h k = true → h.IsSubtype k k1 ∨ h.IsSubtype k k2
  | .exclusiveConcreteMethods ctxk m1 m2 =>
    ∀ k < h.length, h.IsSubtype k ctxk → k ≠ m1.holder → k ≠ m2.holder →
      ¬ Defines h k m1.method.name m1.method.signature
  | .noFinalizableSubclasses ctxk =>
    ∀ k < h.length, h.Subclass k ctxk → (h.cast k).isInterface = false → (h.cast k).hasFinalizer = false

/-- The dependencies whose check notices every violation. -/
def Noticed (h : ClassTable) : Dependency → Prop
  | .leafType ctxk =>
    (h.cast ctxk).isInterface = true → (h.cast ctxk).nofImplementors = 0 →
      ∀ k < h.length, (h.cast k).isInterface = true → h.IsSubtype k ctxk → k = ctxk
  | .concreteWithNoConcreteSubtype ctxk => Asserts h (.concreteWithNoConcreteSubtype ctxk)
  | _ => True

/-! ## Searches of the checks -/

variable {selector : Option (String × String)} {parts : List Nat} {ctxk : Nat} {r : Option Nat}

theorem fixed_make : Fixed selector parts (.make selector parts) := ⟨rfl, rfl, rfl⟩

section

variable (hw : h.WellFormed)

include hw

/-- What a check returns comes from a search. -/
theorem returns_findWitness {hide : Bool} (w : ClassHierarchyWalker) :
    Returns (fun fuel => (findWitness h vd hide w ctxk none fuel).map Prod.fst) r ↔
      ∃ w', (hierarchyWalk h hide vd).Searches w ctxk r w' := by
  have hof : ∀ {r' w'}, (hierarchyWalk h hide vd).Searches w ctxk r' w' →
      Returns (fun fuel => (findWitness h vd hide w ctxk none fuel).map Prod.fst) r' := by
    intro r' w' hsearch
    obtain ⟨n, hn⟩ := hsearch.returns
    exact ⟨n, fun fuel hfuel => by simp only [findWitness, hn fuel hfuel, Option.map_some]⟩
  constructor
  · intro hreturns
    obtain ⟨r', w', hsearch⟩ := exists_searches hw hide vd w ctxk
    obtain rfl := hreturns.unique (hof hsearch)
    exact ⟨w', hsearch⟩
  · rintro ⟨w', hsearch⟩
    exact hof hsearch

/-- A search for subtypes without a witness. -/
theorem of_findWitnessSubtype (hreturns : Returns (findWitnessSubtype h vd (.make none parts) ctxk none) none) :
    ∀ k < h.length, h.IsSubtype k ctxk → isConcreteKlass h k = true → ∃ p ∈ parts, h.IsSubtype k p := by
  intro k hk hsub hconcrete
  obtain ⟨w', hsearch⟩ := (returns_findWitness hw _).mp hreturns
  obtain ⟨hgrow, hcovers⟩ := searches_none hw hsearch
  obtain ⟨p, hp, -, hcase⟩ := hcovers k hk hsub hconcrete
  rw [(hgrow.fixed rfl).1] at hp
  refine ⟨p, hp, ?_⟩
  rcases hcase with ⟨-, rfl⟩ | ⟨hkp, -⟩
  · exact hsub
  · exact .of_subclass hw.toSupertypes hkp (ClassTable.isSubtype_self hw.toSupertypes p)

/-- A search for definitions without a witness. -/
theorem of_findWitnessDefiner {name signature : String}
    (hreturns : Returns (findWitnessDefiner h vd (.make (some (name, signature)) parts) ctxk none) none) :
    ∀ k < h.length, h.IsSubtype k ctxk → Defines h k name signature → k ∈ parts := by
  intro k hk hsub hdef
  obtain ⟨w', hsearch⟩ := (returns_findWitness hw _).mp hreturns
  obtain ⟨hgrow, hcovers⟩ := searches_none hw hsearch
  obtain ⟨p, hp, -, hcase⟩ := hcovers k hk hsub hdef
  rw [(hgrow.fixed rfl).1] at hp
  rcases hcase with ⟨hfalse, -⟩ | ⟨-, heq⟩
  · cases hfalse
  · rwa [heq rfl]

/-! ## Finalizers -/

/-- A chain without a finalizable class at or below any of its members. -/
theorem of_findFinalizable {fuel : Nat} {chain : List Nat}
    (hnone : findFinalizable h fuel chain = some none) :
    ∀ k ∈ chain, ∀ d, h.Subclass d k → (h.cast d).isInterface = false → (h.cast d).hasFinalizer = false := by
  induction fuel generalizing chain with
  | zero =>
    cases chain with
    | nil => exact List.forall_mem_nil _
    | cons k chain => cases hnone
  | succ fuel ih =>
    cases chain with
    | nil => exact List.forall_mem_nil _
    | cons k chain =>
      rw [findFinalizable] at hnone
      split at hnone
      · next hi =>
        refine List.forall_mem_cons.mpr ⟨fun d hsub hd => ?_, ih hnone⟩
        rw [hsub.interface_right hw.toSupertypes hi, hi] at hd
        cases hd
      · next hclass =>
        split at hnone
        · cases hnone
        next hfinal =>
        split at hnone
        · cases hnone
        · cases hnone
        next hbelow =>
        refine List.forall_mem_cons.mpr ⟨fun d hsub hd => ?_, ih hnone⟩
        rcases hsub.cases_subklasses hw with rfl | ⟨c, hc, hdc⟩
        · simpa using hfinal
        · exact ih hbelow c hc d hdc hd

theorem exists_returns_findFinalizable (chain : List Nat) :
    ∃ r, Returns (fun fuel => findFinalizable h fuel chain) r := by
  -- the induction is on the work below the chain
  induction hn : (chain.map (weight hw)).sum using Nat.strong_induction_on generalizing chain with
  | _ n ih =>
    subst hn
    cases chain with
    | nil =>
      refine ⟨none, 0, fun fuel _ => ?_⟩
      cases fuel <;> rfl
    | cons k chain =>
      have hk := weight_eq hw k
      have hsum : ((k :: chain).map (weight hw)).sum = weight hw k + (chain.map (weight hw)).sum := by
        rw [List.map_cons, List.sum_cons]
      obtain ⟨r, n, hn⟩ := ih _ (by omega) chain rfl
      obtain ⟨below, n', hn'⟩ := ih _ (by omega) (h.cast k).subklasses rfl
      have hn' : ∀ fuel ≥ n', findFinalizable h fuel (h.cast k).subklasses = some below := hn'
      -- with one unit of fuel for the class itself
      have hstep : ∀ {r : Option Nat}, (∀ fuel, max n n' ≤ fuel → findFinalizable h (fuel + 1) (k :: chain) = some r) →
          ∃ r, Returns (fun fuel => findFinalizable h fuel (k :: chain)) r := by
        intro r hr
        refine ⟨r, max n n' + 1, fun fuel hfuel => ?_⟩
        obtain ⟨fuel, rfl⟩ := Nat.exists_eq_add_of_le' (show 1 ≤ fuel by omega)
        exact hr fuel (by omega)
      by_cases hi : (h.cast k).isInterface = true
      · exact hstep fun fuel hfuel => by
          rw [findFinalizable, if_pos hi]
          exact hn fuel ((le_max_left n n').trans hfuel)
      by_cases hfinal : (h.cast k).hasFinalizer = true
      · exact hstep fun fuel _ => by rw [findFinalizable, if_neg hi, if_pos hfinal]
      cases below with
      | some d =>
        exact hstep fun fuel hfuel => by
          rw [findFinalizable, if_neg hi, if_neg hfinal, hn' fuel ((le_max_right n n').trans hfuel)]
      | none =>
        exact hstep fun fuel hfuel => by
          rw [findFinalizable, if_neg hi, if_neg hfinal, hn' fuel ((le_max_right n n').trans hfuel)]
          exact hn fuel ((le_max_left n n').trans hfuel)

end

/-! ## The checks -/

theorem returns_const {α : Type} {a b : α} : Returns (fun _ => some a) b ↔ a = b := by
  constructor
  · rintro ⟨n, hn⟩
    exact Option.some.inj (hn n le_rfl)
  · rintro rfl
    exact ⟨0, fun _ _ => rfl⟩

/-- Every full check ends. -/
theorem exists_returns_fullCheck (hw : h.WellFormed) (dep : Dependency) :
    ∃ r, Returns (fullCheck h vd dep) r := by
  have hsearch : ∀ (hide : Bool) (w : ClassHierarchyWalker) (ctxk : Nat),
      ∃ r, Returns (fun fuel => (findWitness h vd hide w ctxk none fuel).map Prod.fst) r := by
    intro hide w ctxk
    obtain ⟨r, w', hsearch⟩ := exists_searches hw hide vd w ctxk
    exact ⟨r, (returns_findWitness hw w).mpr ⟨w', hsearch⟩⟩
  cases dep with
  | evolMethod m => exact ⟨_, returns_const.mpr rfl⟩
  | leafType ctxk => exact ⟨_, returns_const.mpr rfl⟩
  | abstractWithUniqueConcreteSubtype ctxk conck => exact hsearch _ _ _
  | abstractWithNoConcreteSubtype ctxk => exact hsearch _ _ _
  | concreteWithNoConcreteSubtype ctxk => exact hsearch _ _ _
  | uniqueConcreteMethod ctxk uniqm => exact hsearch _ _ _
  | abstractWithExclusiveConcreteSubtypes ctxk k1 k2 => exact hsearch _ _ _
  | exclusiveConcreteMethods ctxk m1 m2 => exact hsearch _ _ _
  | noFinalizableSubclasses ctxk => exact exists_returns_findFinalizable hw [ctxk]

theorem checkLeafType_eq_none : checkLeafType h ctxk = none ↔
    (h.cast ctxk).subklasses = [] ∧ (h.cast ctxk).nofImplementors = 0 := by
  unfold checkLeafType
  cases (h.cast ctxk).subklasses with
  | cons c cs => simp
  | nil =>
    by_cases hzero : (h.cast ctxk).nofImplementors = 0
    · simp [hzero]
    dsimp only
    rw [if_pos hzero]
    cases (h.cast ctxk).implementors[0]? with
    | none => simp [hzero]
    | some impl => simp [hzero]

theorem subklasses_interface (hw : h.WellFormed) (hi : (h.cast ctxk).isInterface = true) :
    (h.cast ctxk).subklasses = [] := by
  rw [List.eq_nil_iff_forall_not_mem]
  intro c hc
  have hclass := (hw.toSupertypes.super_lt ((hw.subklasses ctxk c).mp hc).2).2.2
  rw [hi] at hclass
  cases hclass

/-- A leaf has no proper subtype, apart from interfaces that extend an interface. -/
theorem asserts_leafType_iff (hw : h.WellFormed) :
    (checkLeafType h ctxk = none → Asserts h (.leafType ctxk)) ↔ Noticed h (.leafType ctxk) := by
  constructor
  · intro hasserts hi hzero k hk _ hsub
    exact hasserts (checkLeafType_eq_none.mpr ⟨subklasses_interface hw hi, hzero⟩) k hk hsub
  intro hnoticed hcheck k hk hsub
  obtain ⟨hnil, hzero⟩ := checkLeafType_eq_none.mp hcheck
  have hs := hw.toSupertypes
  cases hctx : (h.cast ctxk).isInterface with
  | false =>
    rcases ((ClassTable.isSubtype_class hs hctx).mp hsub).cases_subklasses hw with heq | ⟨c, hc, -⟩
    · exact heq
    · rw [hnil] at hc
      cases hc
  | true =>
    cases hkind : (h.cast k).isInterface with
    | true => exact hnoticed hctx hzero k hk hkind hsub
    | false =>
      rcases (ClassTable.isSubtype_interface hctx).mp hsub with heq | hmem
      · exact heq
      · obtain ⟨c, hc, -⟩ := hw.implementors_complete ctxk (by omega) k hk hkind hmem
        have hlen := hw.implementors_length ctxk (by omega)
        rw [List.eq_nil_of_length_eq_zero (hlen.trans hzero)] at hc
        cases hc

/-- The participant is the context type itself, so the search ends at once. -/
theorem returns_checkConcreteWithNoConcreteSubtype (hw : h.WellFormed) :
    Returns (checkConcreteWithNoConcreteSubtype h vd ctxk none) none := by
  refine (returns_findWitness hw _).mpr ⟨.make none [ctxk], .skip ?_⟩
  show visit h true (.make none [ctxk]) ctxk = _
  rcases visit_cases h true (.make none [ctxk]) ctxk with ⟨-, heq⟩ | ⟨hnot, -⟩ | ⟨hnot, -⟩ | ⟨hnot, -⟩
  · exact heq
  all_goals exact absurd (List.mem_singleton_self ctxk) hnot

/-- A full check that finds no witness means that the assertion holds, just for the dependencies
whose violations it notices. -/
theorem asserts_of_fullCheck_iff (h : Hierarchy) (verifyDependencies : Bool) (dep : Dependency) :
    (Returns (fullCheck h.table verifyDependencies dep) none → Asserts h.table dep) ↔ Noticed h.table dep := by
  have hw := h.wf
  cases dep with
  | evolMethod m =>
    refine iff_of_true (fun hcheck => ?_) trivial
    have hnone : checkEvolMethod m = none := returns_const.mp hcheck
    simpa [checkEvolMethod, Asserts] using hnone
  | leafType ctxk =>
    rw [← asserts_leafType_iff hw]
    exact imp_congr_left returns_const
  | abstractWithUniqueConcreteSubtype ctxk conck =>
    refine iff_of_true (fun hcheck k hk hsub hconcrete => ?_) trivial
    obtain ⟨p, hp, hkp⟩ := of_findWitnessSubtype hw hcheck k hk hsub hconcrete
    rwa [List.mem_singleton.mp hp] at hkp
  | abstractWithNoConcreteSubtype ctxk =>
    refine iff_of_true (fun hcheck k hk hsub => ?_) trivial
    rw [← Bool.not_eq_true]
    intro hconcrete
    obtain ⟨p, hp, -⟩ := of_findWitnessSubtype hw hcheck k hk hsub hconcrete
    cases hp
  | concreteWithNoConcreteSubtype ctxk =>
    exact imp_iff_right (returns_checkConcreteWithNoConcreteSubtype hw)
  | uniqueConcreteMethod ctxk uniqm =>
    refine iff_of_true (fun hcheck k hk hsub hne hdef => ?_) trivial
    exact hne (List.mem_singleton.mp (of_findWitnessDefiner hw hcheck k hk hsub hdef))
  | abstractWithExclusiveConcreteSubtypes ctxk k1 k2 =>
    refine iff_of_true (fun hcheck k hk hsub hconcrete => ?_) trivial
    obtain ⟨p, hp, hkp⟩ := of_findWitnessSubtype hw hcheck k hk hsub hconcrete
    rcases List.mem_pair.mp hp with rfl | rfl
    · exact .inl hkp
    · exact .inr hkp
  | exclusiveConcreteMethods ctxk m1 m2 =>
    refine iff_of_true (fun hcheck k hk hsub hne1 hne2 hdef => ?_) trivial
    rcases List.mem_pair.mp (of_findWitnessDefiner hw hcheck k hk hsub hdef) with heq | heq
    · exact hne1 heq
    · exact hne2 heq
  | noFinalizableSubclasses ctxk =>
    refine iff_of_true (fun hcheck k _ hsub hclass => ?_) trivial
    obtain ⟨n, hn⟩ := hcheck
    exact of_findFinalizable hw (hn n le_rfl) ctxk (List.mem_singleton_self ctxk) k hsub hclass

/-- A concrete class below another one. -/
def twoClasses : Hierarchy :=
  (Hierarchy.objectOnly.link (.plain 0) (by decide)).link (.plain 1) (by decide)

/-- The check finds no witness, and the class has a concrete subtype. -/
theorem twoClasses_not_noticed :
    Returns (fullCheck twoClasses.table false (.concreteWithNoConcreteSubtype 1)) none ∧
      ¬ Asserts twoClasses.table (.concreteWithNoConcreteSubtype 1) := by
  have hreturns : Returns (checkConcreteWithNoConcreteSubtype twoClasses.table false 1 none) none :=
    returns_checkConcreteWithNoConcreteSubtype twoClasses.wf
  refine ⟨hreturns, fun hasserts => ?_⟩
  have hfalse := hasserts 2 (by decide) (by decide) (by decide)
  revert hfalse
  decide

end Hotspot.Dependencies
