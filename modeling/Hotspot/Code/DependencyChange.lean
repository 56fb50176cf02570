-- SUMMARY: The check of a dependency for one new class against the full check.
import Hotspot.Code.DependencyChecks

/-!
# One new class

If a dependency holds and one class is linked, the full check of the new hierarchy can only find
the new class, or the context type with one implementor too many. The check for the new class
finds these too. The exception is the context type `java.lang.Object`. Interfaces are in its list
of subclasses, and the full check gives up at an interface with several implementors when its
worklist is full.
-/

namespace Hotspot.Oops.ClassTable.Extends

variable {h h' : ClassTable} {p : ParsedKlass} (he : Extends h h' p)
include he

/-! ## The old classes in the new hierarchy -/

theorem subclass_iff (hs : h.Supertypes) {d c : Nat} (hd : d < h.length) :
    h'.Subclass d c ↔ h.Subclass d c := by
  refine ⟨fun hsub => ?_, he.subclass_mono hs⟩
  induction d using Nat.strong_induction_on with
  | _ d ih =>
    rcases hsub.cases_head with rfl | ⟨s, hsuper, hsub⟩
    · exact .refl
    · rw [he.super_old (by omega)] at hsuper
      have hlt := (hs.super_lt hsuper).1
      exact .head hsuper (ih s hlt (by omega) hsub)

theorem isSubtype_iff (hs : h.Supertypes) {d c : Nat} (hd : d < h.length) (hc : c < h.length) :
    h'.IsSubtype d c ↔ h.IsSubtype d c := by
  have hkind := he.isInterface_old (show c ≠ h.length by omega)
  cases hc' : (h.cast c).isInterface with
  | false => rw [isSubtype_class he.supertypes (hkind.trans hc'), isSubtype_class hs hc',
      he.subclass_iff hs hd]
  | true =>
    rw [isSubtype_interface (hkind.trans hc'), isSubtype_interface hc',
      he.transitiveInterfaces_old d (by omega)]

theorem length_lt : h.length < h'.length := by
  rw [he.length]
  omega

/-- More implementors of an interface mean that the new class implements it. -/
theorem nofImplementors_eq {j : Nat} (hj : ¬ j ∈ (h'.cast h.length).transitiveInterfaces) :
    (h'.cast j).nofImplementors = (h.cast j).nofImplementors := by
  obtain ⟨c, hnof, -, -, hpos⟩ := he.implementors j
  have hzero : ¬ 0 < c := fun hc => hj (hpos.mp hc).2.1
  omega

end Hotspot.Oops.ClassTable.Extends

namespace Hotspot.Dependencies

open Oops ClassTable

variable {h h' : ClassTable} {p : ParsedKlass} {vd hide : Bool} {sel : Option (String × String)}
  {parts : List Nat} {ctxk : Nat}

variable {k : Nat}

theorem matches_old (he : h.Extends h' p) (hk : k ≠ h.length) :
    Matches h' sel k ↔ Matches h sel k := by
  unfold Matches isConcreteKlass InstanceKlass.findMethod
  rw [he.parsed_old k hk]

/-- The marks are on the supertypes of the new class. -/
theorem involvesContext_iff (hs : h.Supertypes) {c : Nat} :
    involvesContext h k c = true ↔ h.IsSubtype k c := by
  rw [involvesContext, contextStream, List.contains_iff_mem, List.mem_append,
    mem_superChain hs (Nat.lt_succ_self k)]
  cases hc : (h.cast c).isInterface with
  | false =>
    rw [isSubtype_class hs hc]
    refine or_iff_left fun hmem => ?_
    rw [(hs.mem_lt hmem).2] at hc
    cases hc
  | true =>
    rw [isSubtype_interface hc]
    refine or_congr_left ⟨fun hsub => hsub.interface_right hs hc, ?_⟩
    rintro rfl
    exact .refl

/-! ## Searches -/

/-- The classes of a dependency are loaded. Classes that hide witnesses are below the context
type. -/
structure InPlace (h : ClassTable) (hide : Bool) (ctxk : Nat) (parts : List Nat) : Prop where
  context : ctxk < h.length
  participants : ∀ q ∈ parts, q < h.length
  below : hide = true → ∀ q ∈ parts, (h.cast q).isInterface = false ∧ h.IsSubtype q ctxk

variable {w' : ClassHierarchyWalker}

/-- A participant that hides witnesses ends the search, so the context type of a witness is none. -/
theorem context_not_mem (hhide : hide = true)
    (hsearch : (hierarchyWalk h hide vd).Searches (.make sel parts) ctxk (some k) w') :
    ctxk ∉ parts := by
  cases hsearch with
  | stop hvisit => exact (fixed_make.of_stop hvisit).2
  | found hvisit _ => exact (fixed_make.of_enter hvisit hhide).1
  | below hvisit _ _ => exact (fixed_make.of_enter hvisit hhide).1

/-- A search that enters the context type gives up if it has several implementors. -/
theorem nof_le_one_of_searches_none (hw : h.WellFormed)
    (hsearch : (hierarchyWalk h hide vd).Searches (.make sel parts) ctxk none w') :
    (hide = true ∧ ctxk ∈ parts) ∨ (h.cast ctxk).nofImplementors ≤ 1 := by
  cases hsearch with
  | skip hvisit =>
    obtain ⟨hmem, hhide, -⟩ := Covered.of_skip hvisit
    have hparts := ((Grows.of_visit hvisit).fixed rfl).1
    rw [hparts] at hmem
    exact .inl ⟨hhide, hmem⟩
  | @below w₁ w₂ _ own _ hvisit hstart hruns =>
    rcases chains_of_start hw hstart with ⟨hzero, -⟩ | ⟨impl, hone, -⟩
    · exact .inr (by omega)
    · exact .inr (by omega)

/-- The last test of the check for the new class. -/
theorem findWitnessIn_iff (hone : (h.cast ctxk).nofImplementors ≤ 1)
    (hany : (hide && parts.any (involvesContext h k)) = false) {k' : Nat} :
    (findWitnessIn h k hide (.make sel parts) ctxk).1 = some k' ↔ k' = k ∧ Matches h sel k := by
  have hiff := isWitness_eq_true (h := h) (w := .make sel parts) (k := k)
  have hfields := memoized_fields (h := h) (w := .make sel parts) (k := k)
  unfold memoized at hfields
  have hparts :
      (hide && (ClassHierarchyWalker.make sel parts).participants.any (involvesContext h k)) =
    false := hany
  unfold findWitnessIn
  rw [if_neg (by omega), hparts, if_neg Bool.false_ne_true]
  rcases hres : isWitness h (ClassHierarchyWalker.make sel parts) k with ⟨b, w₁⟩
  rw [hres] at hiff hfields
  have hiff : b = true ↔ Matches h sel k := hiff
  have hrec : w₁.recordWitnesses = 0 := hfields.2.2
  rw [← hiff]
  cases b with
  | false => simp
  | true => simp [hrec, eq_comm]

section Extended

variable (hw : h.WellFormed) (hw' : h'.WellFormed) (he : h.Extends h' p)
  (hplace : InPlace h hide ctxk parts) (hselector : hide = true → sel = none)
  (hold : (hierarchyWalk h hide vd).Searches (.make sel parts) ctxk none w')
  {w'' : ClassHierarchyWalker}
  (hnew : (hierarchyWalk h' hide vd).Searches (.make sel parts) ctxk (some k) w'')
include hw hw' he hplace hselector hold hnew

/-- What the search in the new hierarchy can find. -/
theorem searches_extended :
    (k = h.length ∧ Matches h' sel k ∧ Region h' hide ctxk parts k) ∨
      (k = ctxk ∧ 1 < (h'.cast ctxk).nofImplementors ∧ h'.IsSubtype h.length ctxk) ∨
      (ctxk = 0 ∧ hide = false) := by
  have hs := hw.toSupertypes
  have hs' := hw'.toSupertypes
  obtain ⟨hreason, hwhere⟩ := searches_some hw' fixed_make hselector hnew
  have hhidden : hide = true → ctxk ∉ parts := fun hhide => context_not_mem hhide hnew
  rcases hreason with ⟨hm, hnot⟩ | hmany
  · by_cases hk : k = h.length
    · refine .inl ⟨hk, hm, ?_⟩
      rcases hwhere with hctx | hr
      · have := hplace.context
        omega
      · exact hr
    · -- an old class would have been found before
      exfalso
      have hsub : h'.IsSubtype k ctxk := by
        rcases hwhere with rfl | hr
        · exact isSubtype_self hs' k
        · exact hr.subtype
      have hlt : k < h.length := by
        have hlt' := hsub.lt hs' (hplace.context.trans he.length_lt)
        rw [he.length] at hlt'
        omega
      obtain ⟨hgrow, hcovers⟩ := searches_none hw hold
      obtain ⟨q, hq, hqsub, hcase⟩ :=
        hcovers k hlt ((he.isSubtype_iff hs hlt hplace.context).mp hsub) ((matches_old he hk).mp hm)
      rw [(hgrow.fixed rfl).1] at hq
      have hqlt := hplace.participants q hq
      rcases hcase with ⟨hhide, rfl⟩ | ⟨hkq, hsame⟩
      · exact hhidden hhide hq
      cases hhide : hide with
      | false =>
        rw [hsame hhide] at hnot
        exact hnot hq
      | true =>
        have hqsub' := (he.isSubtype_iff hs hqlt hplace.context).mpr hqsub
        have hkq' := (he.subclass_iff hs hlt).mpr hkq
        have hqk : q = k := by
          rcases hwhere with rfl | hr
          · exact ((isSubtype_class hs' (hm.not_interface hs')).mp hqsub').antisymm hs' hkq'
          · exact hr.path hhide q hq hkq' hqsub'
        rw [hqk] at hq
        exact hnot hq
  · rcases hwhere with rfl | hr
    · refine .inr (.inl ⟨rfl, hmany, ?_⟩)
      by_cases hmem : k ∈ (h'.cast h.length).transitiveInterfaces
      · exact (isSubtype_interface (hs'.mem_lt hmem).2).mpr (.inr hmem)
      · rw [he.nofImplementors_eq hmem] at hmany
        rcases nof_le_one_of_searches_none hw hold with ⟨hhide, hctx⟩ | hle
        · exact absurd hctx (hhidden hhide)
        · omega
    · exact .inr (.inr (hr.interface (interface_of_nof hw' (k := k) (by omega))))

/-- The check for the new class finds what the full check finds. -/
theorem findWitnessIn_extended :
    (involvesContext h' h.length ctxk = true ∧
      ∃ k', (findWitnessIn h' h.length hide (.make sel parts) ctxk).1 = some k') ∨
      (ctxk = 0 ∧ hide = false) := by
  have hs' := hw'.toSupertypes
  rcases searches_extended hw hw' he hplace hselector hold hnew
    with ⟨rfl, hm, hr⟩ | ⟨-, hmany, hsub⟩ | hgives
  · refine .inl ⟨(involvesContext_iff hs').mpr hr.subtype, ?_⟩
    by_cases hmany : 1 < (h'.cast ctxk).nofImplementors
    · exact ⟨ctxk, by rw [findWitnessIn, if_pos hmany]⟩
    refine ⟨h.length, (findWitnessIn_iff (not_lt.mp hmany) ?_).mpr ⟨rfl, hm⟩⟩
    by_contra hany
    · -- no participant is between the new class and the context type
      obtain ⟨hhide, hany⟩ := Bool.and_eq_true_iff.mp (Bool.not_eq_false _ ▸ hany)
      obtain ⟨q, hq, hmark⟩ := List.any_eq_true.mp hany
      obtain ⟨hclass, hqsub⟩ := hplace.below hhide q hq
      have hqlt := hplace.participants q hq
      rw [involvesContext_iff hs',
        isSubtype_class hs' ((he.isInterface_old (by omega)).trans hclass)] at hmark
      have heq :=
        hr.path hhide q hq hmark ((he.isSubtype_iff hw.toSupertypes hqlt hplace.context).mpr hqsub)
      omega
  · refine .inl ⟨(involvesContext_iff hs').mpr hsub, ctxk, ?_⟩
    rw [findWitnessIn, if_pos hmany]
  · exact .inr hgives

end Extended

/-! ## The worklist below `java.lang.Object` -/

/-- Along a list of subclasses of `java.lang.Object`, an interface with several implementors comes
when the worklist is full. Each class before it that has subclasses has put a chain there. -/
def Overflows (h : ClassTable) (limit : Nat) : Nat → List Nat → Prop
  | _, [] => False
  | pending, k :: rest => limit ≤ pending ∧ 1 < (h.cast k).nofImplementors ∨
      Overflows h limit (pending + if (h.cast k).subklasses = [] then 0 else 1) rest

instance Overflows.decidable (h : ClassTable) (limit : Nat) :
    ∀ n cur, Decidable (Overflows h limit n cur)
  | _, [] => inferInstanceAs (Decidable False)
  | _, _ :: rest => @instDecidableOr _ _ _ (Overflows.decidable h limit _ rest)

/-- A class whose subclasses are classes. -/
def IsClass (h : ClassTable) (k : Nat) : Prop :=
  k ≠ 0 ∧ k < h.length ∧ (h.cast k).isInterface = false

theorem isClass_of_mem_subklasses (hw : h.WellFormed) (hk : k ≠ 0) {c : Nat}
    (hc : c ∈ (h.cast k).subklasses) :
    IsClass h c := by
  have hlt := lt_of_mem_subklasses hw hc
  refine ⟨by omega, hlt.2, ?_⟩
  cases hinterface : (h.cast c).isInterface with
  | false => rfl
  | true =>
    have hsuper := ((hw.subklasses k c).mp hc).2
    rw [hw.toSupertypes.interface_super c hinterface] at hsuper
    exact absurd (Option.some.inj hsuper).symm hk

section Object

variable {w : ClassHierarchyWalker} {cur : List Nat} {cs : List (List Nat)} {r : Option Nat}
  (hw : h.WellFormed) (hno : ∀ k < h.length, Matches h sel k → k ∈ parts)
include hw

/-- The chains of a search of its own below a subclass of `java.lang.Object`. -/
theorem isClass_of_start (hk : k ≠ 0) {own : List (List Nat)}
    (hst : startChains h false w k = (.inr own, w')) :
    (h.cast k).nofImplementors ≤ 1 ∧ ∀ chain ∈ own, ∀ c ∈ chain, IsClass h c := by
  have hown : ∀ chain ∈ addSubclassChain h k [], ∀ c ∈ chain, IsClass h c := by
    intro chain hchain
    rcases mem_addSubclassChain hchain with rfl | hnil
    · exact fun c hc => isClass_of_mem_subklasses hw hk hc
    · cases hnil
  rcases chains_of_start hw hst with ⟨hzero, rfl⟩ | ⟨im, hone, himpl, ⟨-, rfl⟩ | ⟨-, rfl⟩⟩
  · exact ⟨by omega, hown⟩
  · exact ⟨hone.le, hown⟩
  · refine ⟨hone.le, fun chain hchain => ?_⟩
    rcases mem_addSubclassChain hchain with rfl | hchain
    · have hlt :=
        lt_of_mem_implementors hw (k := k) (c := im)
        (by rw [himpl]; exact List.mem_singleton_self im)
      exact fun c hc => isClass_of_mem_subklasses hw (by omega) hc
    · exact hown chain hchain

include hno

/-- Below classes the walk finds nothing. -/
theorem runs_classes (hruns : (hierarchyWalk h false vd).Runs w cur cs r w')
    (hf : Fixed sel parts w)
    (hcur : ∀ k ∈ cur, IsClass h k) (hcs : ∀ chain ∈ cs, ∀ k ∈ chain, IsClass h k) : r = none := by
  have hkeeps : (hierarchyWalk h false vd).Keeps (IsClass h) (Fixed sel parts) :=
    { visit := fun hf _ => hf.grows (Grows.visit h false _ _)
      start := fun hf _ => hf.grows (Grows.startChains hw false _ _)
      children := fun _ hk _ c hc => isClass_of_mem_subklasses hw hk.1 hc
      chains := fun _ hk _ hst => (isClass_of_start hw hk.1 hst).2 }
  cases r with
  | none => rfl
  | some k =>
    exfalso
    obtain ⟨w₁, hf₁, ⟨hk, hstop⟩ | ⟨k', hk', hst⟩⟩ :=
      (TreeWalk.Runs.keeps hkeeps hruns hf hcur hcs).2 k rfl
    · exact (hf₁.of_stop hstop).2 (hno k hk.2.1 (hf₁.of_stop hstop).1)
    · have hzero := hw.nofImplementors k' hk'.2.2
      rcases hf₁.of_start hw hst with ⟨-, hmany⟩ | ⟨hone, -⟩ <;> omega

omit hw in
/-- No class stops the walk. -/
theorem visit_enter (hf : Fixed sel parts w) (hk : k < h.length) {v : Visit}
    (hv : visit h false w k = (v, w')) :
    v = .enter ∧ Fixed sel parts w' := by
  refine ⟨?_, hf.grows (Grows.of_visit hv)⟩
  cases v with
  | enter => rfl
  | skip => cases (Covered.of_skip hv).2.1
  | stop => exact absurd (hno k hk (hf.of_stop hv).1) (hf.of_stop hv).2

/-- Along the subclasses of `java.lang.Object` the walk gives up just at an interface with several
implementors, if the worklist is full. -/
theorem runs_object (hruns : (hierarchyWalk h false vd).Runs w cur cs r w') (hf : Fixed sel parts w)
    (hcur : ∀ k ∈ cur, k ≠ 0 ∧ k < h.length) (hcs : ∀ chain ∈ cs, ∀ k ∈ chain, IsClass h k)
    {n : Nat}
    (hlen : cs.length = min n (chainLimit vd)) :
      r.isSome = true ↔ Overflows h (chainLimit vd) n cur := by
  have hlimit : (hierarchyWalk h false vd).limit = chainLimit vd := rfl
  induction hruns generalizing n with
  | done => simp [Overflows]
  | pop hruns _ =>
    have hnone :=
      runs_classes hw hno hruns hf (hcs _ List.mem_cons_self) fun c hc =>
      hcs c (List.mem_cons_of_mem _ hc)
    simp [hnone, Overflows]
  | stop hvisit => cases (visit_enter hno hf (hcur _ List.mem_cons_self).2 hvisit).1
  | skip hvisit _ _ => cases (visit_enter hno hf (hcur _ List.mem_cons_self).2 hvisit).1
  | @push _ _ _ k rest cs _ hvisit hlt _ ih =>
    obtain ⟨⟨hk, hlen'⟩, hrest⟩ := List.forall_mem_cons.mp hcur
    obtain ⟨-, hf₁⟩ := visit_enter hno hf hlen' hvisit
    rw [← addSubclassChain_eq_push] at ih
    have hnext := ih hf₁ hrest ?_ (n := n + if (h.cast k).subklasses = [] then 0 else 1) ?_
    · exact hnext.trans (or_iff_right fun hfull => by omega).symm
    · intro chain hchain
      rcases mem_addSubclassChain hchain with rfl | hchain
      · exact fun c hc => isClass_of_mem_subklasses hw hk hc
      · exact hcs chain hchain
    · unfold addSubclassChain
      cases (h.cast k).subklasses with
      | nil => simpa using hlen
      | cons c cs' =>
        rw [List.length_cons, if_neg (List.cons_ne_nil _ _)]
        omega
  | @found _ _ _ k _ _ _ hvisit hge hst =>
    obtain ⟨-, hf₁⟩ := visit_enter hno hf (hcur _ List.mem_cons_self).2 hvisit
    rcases hf₁.of_start hw hst with ⟨-, hmany⟩ | ⟨hone, himpl, hm, hnot⟩
    · exact iff_of_true rfl (.inl ⟨by omega, hmany⟩)
    · have hlt :=
        lt_of_mem_implementors hw (k := k) (by rw [himpl]; exact List.mem_singleton_self _)
      exact absurd (hno _ hlt.2 hm) hnot
  | @foundNested _ _ _ _ k _ _ _ _ hvisit hge hst hbelow _ =>
    obtain ⟨hk, hlen'⟩ := hcur k List.mem_cons_self
    obtain ⟨-, hf₁⟩ := visit_enter hno hf hlen' hvisit
    have hf₂ := hf₁.grows ((hierarchyWalk_deals hw).of_start hst)
    cases runs_classes hw hno hbelow hf₂ (List.forall_mem_nil _) (isClass_of_start hw hk hst).2
  | @nested _ _ _ _ _ k rest cs own _ hvisit hge hst hbelow _ _ ih =>
    obtain ⟨⟨hk, hlen'⟩, hrest⟩ := List.forall_mem_cons.mp hcur
    obtain ⟨-, hf₁⟩ := visit_enter hno hf hlen' hvisit
    obtain ⟨hone, hown⟩ := isClass_of_start hw hk hst
    have hf₂ := hf₁.grows ((hierarchyWalk_deals hw).of_start hst)
    have hf₃ := hf₂.grows (TreeWalk.Runs.covers (hierarchyWalk_deals hw) hbelow rfl).1
    have hnext := ih hf₃ hrest hcs (n := n + if (h.cast k).subklasses = [] then 0 else 1) (by omega)
    exact hnext.trans (or_iff_right fun hfull => by omega).symm

theorem searches_object (hsearch : (hierarchyWalk h false vd).Searches (.make sel parts) 0 r w') :
    r.isSome = true ↔ Overflows h (chainLimit vd) 0 (h.cast 0).subklasses := by
  have hobject := hw.toSupertypes.object
  have hzero := hw.nofImplementors 0 hobject.2.2.1
  cases hsearch with
  | stop hvisit => cases (visit_enter hno fixed_make hobject.1 hvisit).1
  | skip hvisit => cases (visit_enter hno fixed_make hobject.1 hvisit).1
  | found hvisit hst =>
    rcases (visit_enter hno fixed_make hobject.1 hvisit).2.of_start hw hst
      with ⟨-, hmany⟩ | ⟨hone, -⟩ <;> omega
  | below hvisit hst hruns =>
    have hf :=
      (visit_enter hno fixed_make hobject.1 hvisit).2.grows ((hierarchyWalk_deals hw).of_start hst)
    rcases chains_of_start hw hst with ⟨-, rfl⟩ | ⟨im, hone, -⟩
    · have hcur : ∀ k ∈ (h.cast 0).subklasses, k ≠ 0 ∧ k < h.length := fun k hk =>
        ⟨(lt_of_mem_subklasses hw hk).1.ne', (lt_of_mem_subklasses hw hk).2⟩
      unfold addSubclassChain at hruns
      cases hsub : (h.cast 0).subklasses with
      | nil =>
        rw [hsub] at hruns
        cases hruns
        simp [Overflows]
      | cons c cs =>
        rw [hsub] at hruns hcur
        cases hruns with
        | pop hruns => exact runs_object hw hno hruns hf hcur (List.forall_mem_nil _) (by simp)
    · omega

end Object

/-! ## The checks -/

/-- The arguments of a dependency as the compiler records them: loaded classes, and concrete
subtypes of the context type where the kind names some. -/
def Dependency.Recorded (h : ClassTable) : Dependency → Prop
  | .evolMethod _ => True
  | .leafType ctxk => ctxk < h.length
  | .abstractWithUniqueConcreteSubtype ctxk conck =>
    ctxk < h.length ∧ conck < h.length ∧ isConcreteKlass h conck = true ∧ h.IsSubtype conck ctxk
  | .abstractWithNoConcreteSubtype ctxk => ctxk < h.length
  | .concreteWithNoConcreteSubtype ctxk => ctxk < h.length ∧ isConcreteKlass h ctxk = true
  | .uniqueConcreteMethod ctxk uniqm => ctxk < h.length ∧ uniqm.holder < h.length
  | .abstractWithExclusiveConcreteSubtypes ctxk k1 k2 =>
    ctxk < h.length ∧ (k1 < h.length ∧ isConcreteKlass h k1 = true ∧ h.IsSubtype k1 ctxk) ∧
      k2 < h.length ∧ isConcreteKlass h k2 = true ∧ h.IsSubtype k2 ctxk
  | .exclusiveConcreteMethods ctxk m1 m2 => ctxk < h.length ∧ m1.holder < h.length ∧
      m2.holder < h.length
  | .noFinalizableSubclasses ctxk => ctxk < h.length

/-- No context type of the dependency is marked. -/
def Unmarked (h : ClassTable) (newType : Nat) (dep : Dependency) : Prop :=
  ∀ ctxk, dep.contextType = some ctxk → involvesContext h newType ctxk = false

/-- The check for the new class stands for the full check. -/
def SpotChecked (h : ClassTable) (verifyDependencies : Bool) (newType : Nat) (dep : Dependency) :
    Prop :=
  (∀ k, Returns (fullCheck h verifyDependencies dep) (some k) →
    ∃ k', Returns (spotCheckDependencyAt h verifyDependencies newType dep) (some k')) ∧
  (Unmarked h newType dep → Returns (fullCheck h verifyDependencies dep) none)

/-- The search that a kind makes: whether participants hide witnesses, the method if it looks for
definers of one, the participants and the context type. -/
def Dependency.search : Dependency → Option (Bool × Option (String × String) × List Nat × Nat)
  | .abstractWithUniqueConcreteSubtype ctxk conck => some (true, none, [conck], ctxk)
  | .abstractWithNoConcreteSubtype ctxk => some (true, none, [], ctxk)
  | .concreteWithNoConcreteSubtype ctxk => some (true, none, [ctxk], ctxk)
  | .uniqueConcreteMethod ctxk m =>
      some (false, some (m.method.name, m.method.signature), [m.holder], ctxk)
  | .abstractWithExclusiveConcreteSubtypes ctxk k1 k2 => some (true, none, [k1, k2], ctxk)
  | .exclusiveConcreteMethods ctxk m1 m2 =>
    some (false, some (m1.method.name, m1.method.signature), [m1.holder, m2.holder], ctxk)
  | _ => none

/-- A method below `java.lang.Object` that the new class does not define, where the full check of
the new hierarchy gives up at an interface. -/
def Missed (h : ClassTable) (verifyDependencies : Bool) (newType : Nat) (dep : Dependency) : Prop :=
  ∃ sel parts, dep.search = some (false, sel, parts, 0) ∧ ¬ Matches h sel newType ∧
    Overflows h (chainLimit verifyDependencies) 0 (h.cast 0).subklasses

/-- If the context type is marked whenever the full check finds something, the check for the new
class only has to find something too. -/
theorem spotChecked_of_marked (hw : h.WellFormed) {dep : Dependency}
    (hctx : dep.contextType = some ctxk)
    (hmarked : ∀ d, Returns (fullCheck h vd dep) (some d) → involvesContext h k ctxk = true ∧
      ∃ k', Returns (spotCheckDependencyAt h vd k dep) (some k')) : SpotChecked h vd k dep := by
  refine ⟨fun d hd => (hmarked d hd).2, fun hunmarked => ?_⟩
  obtain ⟨r, hr⟩ := exists_returns_fullCheck hw dep
  cases r with
  | none => exact hr
  | some d =>
    have hmark := (hmarked d hr).1
    rw [hunmarked ctxk hctx] at hmark
    cases hmark

theorem isInterface_of_concrete (hs : h.Supertypes) (hk : isConcreteKlass h k = true) :
    (h.cast k).isInterface = false :=
  Matches.not_interface hs (show Matches h none k from hk)

section Search

variable {dep : Dependency} (hsearch : dep.search = some (hide, sel, parts, ctxk))
include hsearch

theorem inPlace_of_recorded (hs : h.Supertypes) (hrec : dep.Recorded h) :
    InPlace h hide ctxk parts := by
  have hclass : ∀ q, isConcreteKlass h q = true → (h.cast q).isInterface = false :=
    fun q => isInterface_of_concrete hs
  have hself := isSubtype_self hs ctxk
  cases dep <;> cases hsearch
  all_goals
    simp only [Dependency.Recorded] at hrec
    constructor <;> simp_all

theorem check_eq_of_search (g : ClassTable) (vd : Bool) (changes : Option Nat) (fuel : Nat) :
    dep.contextType = some ctxk ∧ checkDependency g vd changes fuel dep =
      (findWitness g vd hide (.make sel parts) ctxk changes fuel).map Prod.fst := by
  cases dep <;> cases hsearch <;> exact ⟨rfl, rfl⟩

theorem returns_search (hw : h.WellFormed) {r : Option Nat} : Returns (fullCheck h vd dep) r ↔
    ∃ w', (hierarchyWalk h hide vd).Searches (.make sel parts) ctxk r w' := by
  rw [← returns_findWitness hw]
  exact iff_of_eq
    (congrArg (Returns · r) (funext fun fuel => (check_eq_of_search hsearch h vd none fuel).2))

theorem returns_spot (hmark : involvesContext h k ctxk = true) {r : Option Nat} :
    Returns (spotCheckDependencyAt h vd k dep) r ↔
      (findWitnessIn h k hide (.make sel parts) ctxk).1 = r := by
  have hspot : spotCheckDependencyAt h vd k dep =
      fun _ => some (findWitnessIn h k hide (.make sel parts) ctxk).1 := by
    funext fuel
    obtain ⟨hcontext, hcheck⟩ := check_eq_of_search hsearch h vd (some k) fuel
    simp [spotCheckDependencyAt, hcontext, hmark, hcheck, findWitness]
  rw [hspot]
  exact returns_const

variable (hw : h.WellFormed) (hw' : h'.WellFormed) (he : h.Extends h' p)
  (hplace : InPlace h hide ctxk parts)
  (hold : Returns (fullCheck h vd dep) none)
include hw hw' he hplace hold

/-- Below `java.lang.Object`, the full check finds the new class or gives up, and the check for the
new class finds just the former. -/
theorem object_of_search (hctx : ctxk = 0) (hhide : hide = false) :
    ((∃ k', Returns (spotCheckDependencyAt h' vd h.length dep) (some k')) ↔
      Matches h' sel h.length) ∧
      (¬ Matches h' sel h.length → ((∃ k, Returns (fullCheck h' vd dep) (some k)) ↔
        Overflows h' (chainLimit vd) 0 (h'.cast 0).subklasses)) := by
  subst hctx hhide
  have hs := hw.toSupertypes
  have hs' := hw'.toSupertypes
  have hobject : ∀ k < h'.length, h'.IsSubtype k 0 := fun k hk =>
    (isSubtype_class hs' hs'.object.2.2.1).mpr (subclass_object hs' hk)
  have hzero := hw'.nofImplementors 0 hs'.object.2.2.1
  constructor
  · have hfind (k' : Nat) : (findWitnessIn h' h.length false (.make sel parts) 0).1 = some k' ↔
        k' = h.length ∧ Matches h' sel h.length := findWitnessIn_iff (by omega) rfl
    simp only [returns_spot hsearch ((involvesContext_iff hs').mpr (hobject _ he.length_lt)), hfind,
      exists_eq_left]
  · intro hnew
    obtain ⟨w', hold⟩ := (returns_search hsearch hw).mp hold
    obtain ⟨hgrow, hcovers⟩ := searches_none hw hold
    have hno : ∀ k < h'.length, Matches h' sel k → k ∈ parts := by
      intro k hk hm
      have hne : k ≠ h.length := fun heq => hnew (heq ▸ hm)
      have hlt : k < h.length := by
        rw [he.length] at hk
        omega
      obtain ⟨q, hq, -, ⟨hfalse, -⟩ | ⟨-, hsame⟩⟩ := hcovers k hlt
        ((he.isSubtype_iff hs hlt hplace.context).mp (hobject k hk)) ((matches_old he hne).mp hm)
      · cases hfalse
      · have hfixed : w'.participants = parts := (hgrow.fixed rfl).1
        rw [hsame rfl, ← hfixed]
        exact hq
    obtain ⟨r, w'', hfull⟩ := exists_searches hw' false vd (.make sel parts) 0
    rw [← searches_object hw' hno hfull]
    have hreturns := (returns_search hsearch hw').mpr ⟨w'', hfull⟩
    constructor
    · rintro ⟨k, hk⟩
      rw [hreturns.unique hk]
      rfl
    · intro hsome
      obtain ⟨k, rfl⟩ := Option.isSome_iff_exists.mp hsome
      exact ⟨k, hreturns⟩

/-- The kinds that search the hierarchy. -/
theorem spotChecked_iff_of_search : SpotChecked h' vd h.length dep ↔
    ¬ Missed h' vd h.length dep := by
  have hselector : hide = true → sel = none := by
    cases dep <;> cases hsearch <;> simp
  constructor
  · rintro ⟨hspot, -⟩ ⟨sel', parts', heq, hnew, hover⟩
    obtain ⟨rfl, rfl, rfl, rfl⟩ : hide = false ∧ sel = sel' ∧ parts = parts' ∧ ctxk = 0 := by
      simpa using hsearch.symm.trans heq
    obtain ⟨hiff, hfull⟩ := object_of_search hsearch hw hw' he hplace hold rfl rfl
    obtain ⟨k, hk⟩ := (hfull hnew).mpr hover
    exact hnew (hiff.mp (hspot k hk))
  intro hmissed
  refine spotChecked_of_marked hw' (check_eq_of_search hsearch h vd none 0).1 fun k hk => ?_
  obtain ⟨w', hold'⟩ := (returns_search hsearch hw).mp hold
  obtain ⟨w'', hnew⟩ := (returns_search hsearch hw').mp hk
  rcases findWitnessIn_extended hw hw' he hplace hselector hold' hnew
    with ⟨hmark, k', hfind⟩ | ⟨rfl, rfl⟩
  · exact ⟨hmark, k', (returns_spot hsearch hmark).mpr hfind⟩
  · have hs' := hw'.toSupertypes
    obtain ⟨hiff, hfull⟩ := object_of_search hsearch hw hw' he hplace hold rfl rfl
    refine ⟨(involvesContext_iff hs').mpr ((isSubtype_class hs' hs'.object.2.2.1).mpr
      (subclass_object hs' he.length_lt)), hiff.mpr ?_⟩
    by_contra hnot
    exact hmissed ⟨sel, parts, hsearch, hnot, (hfull hnot).mp ⟨k, hk⟩⟩

end Search

/-- A leaf type gets its first subclass or implementor from the new class. -/
theorem involvesContext_of_checkLeafType (hw' : h'.WellFormed) (he : h.Extends h' p)
    (hold : checkLeafType h ctxk = none) (hnew : checkLeafType h' ctxk = some k) :
    involvesContext h' h.length ctxk = true := by
  have hs' := hw'.toSupertypes
  obtain ⟨hnil, hzero⟩ := checkLeafType_eq_none.mp hold
  by_contra hmark
  have hsub : ¬ h'.IsSubtype h.length ctxk := fun hsub => hmark ((involvesContext_iff hs').mpr hsub)
  have hnone : checkLeafType h' ctxk = none := by
    refine checkLeafType_eq_none.mpr ⟨?_, ?_⟩
    · rw [List.eq_nil_iff_forall_not_mem]
      intro c hc
      rcases (he.subklasses ctxk c).mp hc with hc | ⟨-, hsuper⟩
      · rw [hnil] at hc
        cases hc
      · have hnew' : (h'.cast h.length).super = some ctxk := he.super_new.trans hsuper
        exact hsub (.of_subclass hs' (.single hnew') (isSubtype_self hs' ctxk))
    · rw [he.nofImplementors_eq fun hmem =>
        hsub ((isSubtype_interface (hs'.mem_lt hmem).2).mpr (.inr hmem)), hzero]
  rw [hnone] at hnew
  cases hnew

theorem spotChecked_leafType (hw' : h'.WellFormed) (he : h.Extends h' p)
    (hold : Returns (fullCheck h vd (.leafType ctxk)) none) :
    SpotChecked h' vd h.length (.leafType ctxk) := by
  have hold : checkLeafType h ctxk = none := returns_const.mp hold
  refine spotChecked_of_marked hw' rfl fun k hk => ?_
  have hk : checkLeafType h' ctxk = some k := returns_const.mp hk
  have hmark := involvesContext_of_checkLeafType hw' he hold hk
  refine ⟨hmark, k, 0, fun fuel _ => ?_⟩
  simp [spotCheckDependencyAt, Dependency.contextType, hmark, checkDependency, hk]

theorem findFinalizable_some (hw : h.WellFormed) {fuel : Nat} {chain : List Nat} {d : Nat}
    (hsome : findFinalizable h fuel chain = some (some d)) :
    (∃ k ∈ chain, h.Subclass d k) ∧ (h.cast d).isInterface = false ∧
    (h.cast d).hasFinalizer = true := by
  induction fuel generalizing chain with
  | zero =>
    cases chain with
    | nil => cases hsome
    | cons k chain => cases hsome
  | succ fuel ih =>
    cases chain with
    | nil => cases hsome
    | cons k chain =>
      have hrest : findFinalizable h fuel chain = some (some d) →
          (∃ k' ∈ k :: chain, h.Subclass d k') ∧ (h.cast d).isInterface = false ∧
            (h.cast d).hasFinalizer = true := by
        intro hchain
        obtain ⟨⟨k', hk', hsub⟩, hd⟩ := ih hchain
        exact ⟨⟨k', List.mem_cons_of_mem k hk', hsub⟩, hd⟩
      rw [findFinalizable] at hsome
      split at hsome
      · exact hrest hsome
      next hclass =>
      split at hsome
      · next hfinal =>
        obtain rfl := Option.some.inj (Option.some.inj hsome)
        exact ⟨⟨k, List.mem_cons_self, .refl⟩, by simpa using hclass, hfinal⟩
      split at hsome
      · cases hsome
      · next hbelow =>
        obtain rfl := Option.some.inj (Option.some.inj hsome)
        obtain ⟨⟨c, hc, hsub⟩, hd⟩ := ih hbelow
        exact ⟨⟨k, List.mem_cons_self, hsub.trans (subclass_of_mem_subklasses hw hc)⟩, hd⟩
      · exact hrest hsome

/-- The new class is the finalizable one. -/
theorem finalizable_new (hw : h.WellFormed) (hw' : h'.WellFormed) (he : h.Extends h' p)
    (hctx : ctxk < h.length)
    (hold : Returns (fullCheck h vd (.noFinalizableSubclasses ctxk)) none) {d : Nat}
    (hnew : Returns (fullCheck h' vd (.noFinalizableSubclasses ctxk)) (some d)) :
    h'.IsSubtype h.length ctxk ∧ (h'.cast h.length).isInterface = false ∧
      (h'.cast h.length).hasFinalizer = true := by
  have hs := hw.toSupertypes
  have hs' := hw'.toSupertypes
  obtain ⟨n, hn⟩ := hnew
  obtain ⟨⟨k, hk, hsub⟩, hclass, hfinal⟩ := findFinalizable_some hw' (hn n le_rfl)
  obtain rfl := List.mem_singleton.mp hk
  have hdsub := ClassTable.IsSubtype.of_subclass hs' hsub (isSubtype_self hs' k)
  by_cases hd : d = h.length
  · subst hd
    exact ⟨hdsub, hclass, hfinal⟩
  exfalso
  have hlt := hdsub.lt hs' (hctx.trans he.length_lt)
  rw [he.length] at hlt
  obtain ⟨m, hm⟩ := hold
  have hfalse := of_findFinalizable hw (hm m le_rfl) k (List.mem_singleton_self k) d
    ((he.subclass_iff hs (by omega)).mp hsub) (by rwa [← he.isInterface_old hd])
  rw [he.parsed_old d hd, hfalse] at hfinal
  cases hfinal

theorem spotChecked_noFinalizableSubclasses (hw : h.WellFormed) (hw' : h'.WellFormed)
    (he : h.Extends h' p)
    (hctx : ctxk < h.length)
    (hold : Returns (fullCheck h vd (.noFinalizableSubclasses ctxk)) none) :
    SpotChecked h' vd h.length (.noFinalizableSubclasses ctxk) := by
  refine spotChecked_of_marked hw' rfl fun d hd => ?_
  obtain ⟨hsub, hclass, hfinal⟩ := finalizable_new hw hw' he hctx hold hd
  have hmark := (involvesContext_iff hw'.toSupertypes).mpr hsub
  refine ⟨hmark, h.length, 1, fun fuel hfuel => ?_⟩
  obtain ⟨fuel, rfl⟩ := Nat.exists_eq_add_of_le' hfuel
  simp [spotCheckDependencyAt, Dependency.contextType, hmark, checkDependency,
    checkHasNoFinalizableSubclasses,
    findFinalizable, hclass, hfinal]

/-- The check for one new class stands for the full check, just if it is not about a method below
    `java.lang.Object` that the new class does not define while an interface with several
implementors finds the worklist full. -/
theorem spotChecked_iff (h : Hierarchy) (p : ParsedKlass) (hp : h.table.Linkable p)
    (verifyDependencies : Bool)
    (dep : Dependency) (hrec : dep.Recorded h.table)
    (hold : Returns (fullCheck h.table verifyDependencies dep) none) :
    SpotChecked (h.link p hp).table verifyDependencies h.table.length dep ↔
      ¬ Missed (h.link p hp).table verifyDependencies h.table.length dep := by
  have hs := h.wf.toSupertypes
  have hw' := (h.link p hp).wf
  have he : h.table.Extends (h.link p hp).table p := extends_addToHierarchy hs hp
  cases hsearch : dep.search with
  | some search =>
    exact spotChecked_iff_of_search hsearch h.wf hw' he
      (inPlace_of_recorded hsearch hs hrec) hold
  | none =>
    refine iff_of_true ?_ fun ⟨_, _, hsome, _⟩ => by rw [hsearch] at hsome; cases hsome
    cases dep with
    | evolMethod m =>
      have hnone : checkEvolMethod m = none := returns_const.mp hold
      have hfull :
        Returns (fullCheck (h.link p hp).table verifyDependencies (.evolMethod m)) none :=
        returns_const.mpr hnone
      refine ⟨fun k hk => ?_, fun _ => hfull⟩
      cases hfull.unique hk
    | leafType ctxk => exact spotChecked_leafType hw' he hold
    | noFinalizableSubclasses ctxk =>
        exact spotChecked_noFinalizableSubclasses h.wf hw' he hrec hold
    | _ => cases hsearch

/-! ## A full worklist -/

/-- `java.lang.Object`, an interface with one implementor, and two classes with a subclass each. -/
def wideHierarchy : Hierarchy :=
  ((((((Hierarchy.bootstrap [⟨"m", "()V", .publicAccess, false, false, false, false, 0⟩]
    (by decide)).link
    ⟨some 0, true, true, false, false, "", [], []⟩ (by decide)).link
    ⟨some 0, false, false, false, false, "", [1], []⟩ (by decide)).link
    (.plain 0) (by decide)).link (.plain 3) (by decide)).link (.plain 0) (by decide)).link
      (.plain 5) (by decide)

/-- An abstract class that implements the interface too. -/
def secondImplementor : ParsedKlass := ⟨some 0, false, true, false, false, "", [1], []⟩

theorem linkable_secondImplementor : wideHierarchy.table.Linkable secondImplementor := by decide

def widerHierarchy : Hierarchy := wideHierarchy.link secondImplementor linkable_secondImplementor

/-- The method of `java.lang.Object` has no override. -/
def objectMethod : Dependency :=
  .uniqueConcreteMethod 0 ⟨0, ⟨"m", "()V", .publicAccess, false, false, false, false, 0⟩⟩

theorem returns_of_fullCheck_objectMethod {h : ClassTable} (hw : h.WellFormed) {fuel : Nat}
    {r : Option Nat}
    (hcheck : fullCheck h vd objectMethod fuel = some r) :
    Returns (fullCheck h vd objectMethod) r := by
  obtain ⟨⟨r', w'⟩, hsearch, rfl⟩ := Option.map_eq_some_iff.mp hcheck
  exact (returns_findWitness hw _).mpr ⟨w', TreeWalk.searches_of_search hsearch⟩

theorem fullCheck_wideHierarchy : ∀ vd, Returns (fullCheck wideHierarchy.table vd objectMethod) none
  | true => @returns_of_fullCheck_objectMethod true _ wideHierarchy.wf 20 _ (by decide +kernel)
  | false => @returns_of_fullCheck_objectMethod false _ wideHierarchy.wf 20 _ (by decide +kernel)

theorem recorded_objectMethod : objectMethod.Recorded wideHierarchy.table := ⟨by decide, by decide⟩

/-- With `VerifyDependencies` the worklist has two chains when the interface comes, and is full;
else it has room. -/
theorem spotChecked_wideHierarchy :
    (SpotChecked widerHierarchy.table true 7 objectMethod ↔
      ¬ Missed widerHierarchy.table true 7 objectMethod) ∧
    SpotChecked widerHierarchy.table false 7 objectMethod :=
  ⟨spotChecked_iff wideHierarchy secondImplementor linkable_secondImplementor true objectMethod
    recorded_objectMethod
      (fullCheck_wideHierarchy true),
    (spotChecked_iff wideHierarchy secondImplementor linkable_secondImplementor false objectMethod
      recorded_objectMethod
      (fullCheck_wideHierarchy false)).mpr fun ⟨_, _, _, _, hover⟩ =>
        absurd hover (by decide +kernel)⟩

/-- The dependency holds, the full check gives up at the interface after the class is linked, and
the check for the class finds nothing. -/
theorem not_spotChecked_wideHierarchy :
    objectMethod.Recorded wideHierarchy.table ∧
      Returns (fullCheck wideHierarchy.table true objectMethod) none ∧
      ¬ SpotChecked widerHierarchy.table true
        wideHierarchy.table.length objectMethod := by
  refine ⟨recorded_objectMethod, fullCheck_wideHierarchy true, fun hspot => ?_⟩
  have hfull : Returns (fullCheck widerHierarchy.table true objectMethod)
      (some 1) :=
        @returns_of_fullCheck_objectMethod true _ widerHierarchy.wf 20 _ (by decide +kernel)
  obtain ⟨k, n, hn⟩ := hspot.1 1 hfull
  have hnone :
      spotCheckDependencyAt widerHierarchy.table true wideHierarchy.table.length objectMethod 0 =
    some none := by
    decide +kernel
  have hnone :
    spotCheckDependencyAt widerHierarchy.table true wideHierarchy.table.length objectMethod n =
    some none :=
    hnone
  rw [hn n le_rfl] at hnone
  cases hnone

end Hotspot.Dependencies
