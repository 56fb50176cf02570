-- SUMMARY: What the class hierarchy walker covers, why it stops, and that it ends.
import Hotspot.Oops.Subtypes
import Hotspot.Code.Dependencies

/-!
# The walk below a context type

Without a witness, every subtype of the context type that would be one is a participant, or below
one if participants hide witnesses. With a witness, it is a class of this kind, or the walk gave up
at an interface with several implementors.
-/

namespace Hotspot.Dependencies

open List Oops ClassTable TreeWalk

variable {h : ClassTable} {hide : Bool} {w w' : ClassHierarchyWalker}

/-! ## One class -/

/-- The class would be a witness. -/
def Matches (h : ClassTable) (selector : Option (String × String)) (k : Nat) : Prop :=
  match selector with
  | none => isConcreteKlass h k = true
  | some (name, signature) => ∃ m, (h.cast k).findMethod name signature = some m ∧
      isConcreteMethod m = true

/-- The walker after `isWitness`: only a method may be memoized. -/
def memoized (h : ClassTable) (w : ClassHierarchyWalker) (k : Nat) : ClassHierarchyWalker :=
  (isWitness h w k).2

variable {k : Nat}

theorem isWitness_eq_true : (isWitness h w k).1 = true ↔ Matches h w.selector k := by
  unfold isWitness Matches
  cases w.selector with
  | none => exact Iff.rfl
  | some sel =>
    obtain ⟨name, signature⟩ := sel
    dsimp only
    cases (h.cast k).findMethod name signature with
    | none => simp
    | some m =>
      cases hm : isConcreteMethod m with
      | false => simp [hm]
      | true => simp [hm]

theorem memoized_fields : (memoized h w k).selector = w.selector ∧
    (memoized h w k).participants = w.participants ∧
    (memoized h w k).recordWitnesses = w.recordWitnesses := by
  unfold memoized isWitness
  split
  · exact ⟨rfl, rfl, rfl⟩
  split
  · exact ⟨rfl, rfl, rfl⟩
  · split
    · exact ⟨rfl, rfl, rfl⟩
    · exact ⟨rfl, rfl, rfl⟩

/-- Everything that a visit can do. -/
theorem visit_cases (h : ClassTable) (hide : Bool) (w : ClassHierarchyWalker) (k : Nat) :
    (k ∈ w.participants ∧ visit h hide w k = (if hide then .skip else .enter, w)) ∨
    (k ∉ w.participants ∧ ¬ Matches h w.selector k ∧ visit h hide w k = (.enter, memoized h w k)) ∨
    (k ∉ w.participants ∧ Matches h w.selector k ∧ w.recordWitnesses = 0 ∧
      visit h hide w k = (.stop, memoized h w k)) ∨
    (k ∉ w.participants ∧ Matches h w.selector k ∧ 0 < w.recordWitnesses ∧ visit h hide w k =
        (.enter, { memoized h w k with recordWitnesses := w.recordWitnesses - 1 }.addParticipant
          k)) := by
  unfold visit
  by_cases hpart : k ∈ w.participants
  · exact .inl ⟨hpart, by rw [if_pos (contains_iff_mem.mpr hpart)]⟩
  rw [if_neg fun hc => hpart (contains_iff_mem.mp hc)]
  have hiff := isWitness_eq_true (h := h) (w := w) (k := k)
  have hfields := memoized_fields (h := h) (w := w) (k := k)
  unfold memoized at *
  rcases hwit : isWitness h w k with ⟨b, w'⟩
  rw [hwit] at hiff hfields
  cases b with
  | false => exact .inr (.inl ⟨hpart, fun hm => Bool.false_ne_true (hiff.mpr hm), rfl⟩)
  | true =>
    have hm := hiff.mp rfl
    dsimp only at hfields ⊢
    by_cases hrec : w.recordWitnesses = 0
    · exact .inr (.inr (.inl ⟨hpart, hm, hrec, by rw [if_pos (hfields.2.2.trans hrec)]⟩))
    · refine .inr (.inr (.inr ⟨hpart, hm, by omega, ?_⟩))
      rw [if_neg (by rw [hfields.2.2]; exact hrec), hfields.2.2]

/-- Everything that the start of a search can do. -/
theorem startChains_cases (hw : h.WellFormed) (hide : Bool) (w : ClassHierarchyWalker) (k : Nat) :
    (1 < (h.cast k).nofImplementors ∧ startChains h hide w k = (.inl k, w)) ∨
    ((h.cast k).nofImplementors = 0 ∧ startChains h hide w k =
    (.inr (addSubclassChain h k []), w)) ∨
    ∃ im, (h.cast k).nofImplementors = 1 ∧ (h.cast k).implementors = [im] ∧
      ((∃ w', visit h hide w im = (.stop, w') ∧ startChains h hide w k = (.inl im, w')) ∨
       (∃ w', visit h hide w im = (.skip, w') ∧
         startChains h hide w k = (.inr (addSubclassChain h k []), w')) ∨
       ∃ w', visit h hide w im = (.enter, w') ∧
         startChains h hide w k =
           (.inr (addSubclassChain h im (addSubclassChain h k [])), w')) := by
  unfold startChains
  by_cases hmany : 1 < (h.cast k).nofImplementors
  · exact .inl ⟨hmany, by rw [if_pos hmany]⟩
  rw [if_neg hmany]
  by_cases hzero : (h.cast k).nofImplementors = 0
  · exact .inr (.inl ⟨hzero, by rw [hzero]; rfl⟩)
  have hone : (h.cast k).nofImplementors = 1 := by omega
  have hlen := hw.implementors_length k (by rw [hone, InstanceKlass.implementorsLimit]; omega)
  obtain ⟨im, himpl⟩ := length_eq_one_iff.mp (hlen.trans hone)
  refine .inr (.inr ⟨im, hone, himpl, ?_⟩)
  rw [hone, range_one, addImplementorChains, himpl]
  rcases hv : visit h hide w im with ⟨v, w'⟩
  simp only [List.getElem?_cons_zero, hv]
  cases v with
  | stop => exact .inl ⟨w', rfl, rfl⟩
  | skip => exact .inr (.inl ⟨w', rfl, rfl⟩)
  | enter => exact .inr (.inr ⟨w', rfl, rfl⟩)

/-- The start of a search that goes on. -/
theorem chains_of_start (hw : h.WellFormed) {own : List (List Nat)}
    (hst : startChains h hide w k = (.inr own, w')) :
    (h.cast k).nofImplementors = 0 ∧ own = addSubclassChain h k [] ∨
    ∃ im, (h.cast k).nofImplementors = 1 ∧ (h.cast k).implementors = [im] ∧
      (visit h hide w im = (.skip, w') ∧ own = addSubclassChain h k [] ∨
       visit h hide w im = (.enter, w') ∧
         own = addSubclassChain h im (addSubclassChain h k [])) := by
  rcases startChains_cases hw hide w k with
    ⟨-, heq⟩ | ⟨hzero, heq⟩ | ⟨im, hone, himpl, ⟨_, -, heq⟩ | ⟨_, hv, heq⟩ | ⟨_, hv, heq⟩⟩
  all_goals
    rw [hst] at heq
    cases heq
  · exact .inl ⟨hzero, rfl⟩
  · exact .inr ⟨im, hone, himpl, .inl ⟨hv, rfl⟩⟩
  · exact .inr ⟨im, hone, himpl, .inr ⟨hv, rfl⟩⟩

/-! ## Coverage -/

/-- The walker only gets more participants, and none if it records no witnesses. -/
structure Grows (w w' : ClassHierarchyWalker) : Prop where
  selector : w'.selector = w.selector
  participants : ∀ p ∈ w.participants, p ∈ w'.participants
  fixed : w.recordWitnesses = 0 → w'.participants = w.participants ∧ w'.recordWitnesses = 0

namespace Grows

theorem refl (w : ClassHierarchyWalker) : Grows w w :=
  ⟨rfl, fun _ hp => hp, fun hrec => ⟨rfl, hrec⟩⟩

theorem trans {a b c : ClassHierarchyWalker} (hab : Grows a b) (hbc : Grows b c) : Grows a c := by
  refine ⟨hbc.selector.trans hab.selector, fun p hp => hbc.participants p (hab.participants p hp),
    fun hrec => ?_⟩
  obtain ⟨hparts, hrec⟩ := hab.fixed hrec
  obtain ⟨hparts', hrec⟩ := hbc.fixed hrec
  exact ⟨hparts'.trans hparts, hrec⟩

theorem memoized (h : ClassTable) (w : ClassHierarchyWalker) (k : Nat) :
    Grows w (memoized h w k) := by
  obtain ⟨hsel, hparts, hrec⟩ := memoized_fields (h := h) (w := w) (k := k)
  exact ⟨hsel, fun p hp => by rwa [hparts], fun hzero => ⟨hparts, hrec.trans hzero⟩⟩

theorem visit (h : ClassTable) (hide : Bool) (w : ClassHierarchyWalker) (k : Nat) :
    Grows w (visit h hide w k).2 := by
  rcases visit_cases h hide w k with ⟨-, heq⟩ | ⟨-, -, heq⟩ | ⟨-, -, -, heq⟩ | ⟨-, -, hpos, heq⟩
  · rw [heq]
    exact refl w
  · rw [heq]
    exact memoized h w k
  · rw [heq]
    exact memoized h w k
  · rw [heq]
    have hgrow := memoized h w k
    refine ⟨hgrow.selector, fun p hp => mem_append_left _ (hgrow.participants p hp),
      fun hzero => ?_⟩
    omega

theorem of_visit {v : Visit} {k : Nat} (heq : Dependencies.visit h hide w k = (v, w')) :
    Grows w w' := by
  have hgrow := visit h hide w k
  rwa [heq] at hgrow

theorem startChains (hw : h.WellFormed) (hide : Bool) (w : ClassHierarchyWalker) (k : Nat) :
    Grows w (startChains h hide w k).2 := by
  rcases startChains_cases hw hide w k with ⟨-, heq⟩ | ⟨-, heq⟩ | ⟨im, -, -, hcase⟩
  · rw [heq]
    exact refl w
  · rw [heq]
    exact refl w
  · rcases hcase with ⟨w', hv, heq⟩ | ⟨w', hv, heq⟩ | ⟨w', hv, heq⟩
    all_goals
      rw [heq]
      exact of_visit hv

end Grows

/-- The classes from `k` down that would be witnesses are participants, or below one. -/
def Covered (h : ClassTable) (hide : Bool) (w : ClassHierarchyWalker) (k : Nat) : Prop :=
  ∀ d, h.Subclass d k → Matches h w.selector d →
    ∃ p ∈ w.participants, h.Subclass p k ∧ h.Subclass d p ∧ (hide = false → d = p)

theorem Covered.mono (hgrow : Grows w w') (hcov : Covered h hide w k) : Covered h hide w' k := by
  intro d hd hm
  rw [hgrow.selector] at hm
  obtain ⟨p, hp, hrest⟩ := hcov d hd hm
  exact ⟨p, hgrow.participants p hp, hrest⟩

theorem Covered.of_skip (hv : visit h hide w k = (.skip, w')) :
    k ∈ w'.participants ∧ hide = true ∧ Covered h hide w' k := by
  rcases visit_cases h hide w k with ⟨hk, heq⟩ | ⟨-, -, heq⟩ | ⟨-, -, -, heq⟩ | ⟨-, -, -, heq⟩
  · rw [hv] at heq
    cases hide with
    | false => cases heq
    | true =>
      obtain ⟨-, rfl⟩ := Prod.mk.inj heq
      exact ⟨hk, rfl, fun d hd _ => ⟨k, hk, .refl, hd, fun hfalse => nomatch hfalse⟩⟩
  all_goals
    rw [hv] at heq
    cases heq

theorem Covered.of_enter (hw : h.WellFormed) {w₁ : ClassHierarchyWalker}
    (hv : visit h hide w k = (.enter, w₁)) (hgrow : Grows w₁ w')
    (hchildren : ∀ c ∈ (h.cast k).subklasses, Covered h hide w' c) : Covered h hide w' k := by
  intro d hd hm
  rcases hd.cases_subklasses hw with rfl | ⟨c, hc, hdc⟩
  · -- the class itself is a participant, or becomes one
    have hself : d ∈ w'.participants := by
      have hselector : w'.selector = w.selector := hgrow.selector.trans (Grows.of_visit hv).selector
      rcases visit_cases h hide w d with ⟨hk, heq⟩ | ⟨-, hnot, -⟩ | ⟨-, -, -, heq⟩ | ⟨-, -, -, heq⟩
      · rw [hv] at heq
        obtain ⟨-, rfl⟩ := Prod.mk.inj heq
        exact hgrow.participants d hk
      · rw [hselector] at hm
        exact absurd hm hnot
      · rw [hv] at heq
        cases heq
      · rw [hv] at heq
        obtain ⟨-, rfl⟩ := Prod.mk.inj heq
        exact hgrow.participants d (mem_append_right _ (mem_singleton_self d))
    exact ⟨d, hself, .refl, .refl, fun _ => rfl⟩
  · obtain ⟨p, hp, hpc, hdp, heq⟩ := hchildren c hc d hdc hm
    exact ⟨p, hp, hpc.trans (subclass_of_mem_subklasses hw hc), hdp, heq⟩

variable {vd : Bool}

theorem addSubclassChain_eq_push (hide vd : Bool) (k : Nat) (chs : List (List Nat)) :
    addSubclassChain h k chs = (hierarchyWalk h hide vd).push k chs := by
  show addSubclassChain h k chs = push ⟨fun k => (h.cast k).subklasses, _, _, _⟩ k chs
  unfold addSubclassChain push
  dsimp only
  cases (h.cast k).subklasses with
  | nil => rfl
  | cons c cs => rfl

theorem subklasses_mem_addSubclassChain {c : Nat} {chs : List (List Nat)}
    (hc : c ∈ (h.cast k).subklasses) :
    (h.cast k).subklasses ∈ addSubclassChain h k chs := by
  rw [addSubclassChain_eq_push false false]
  exact mem_push_of_mem (W := hierarchyWalk h false false) hc

theorem mem_addSubclassChain_right {chain : List Nat} {chs : List (List Nat)} (hc : chain ∈ chs) :
    chain ∈ addSubclassChain h k chs := by
  rw [addSubclassChain_eq_push false false]
  exact mem_push_right hc

theorem hierarchyWalk_deals (hw : h.WellFormed) :
    (hierarchyWalk h hide vd).Deals Grows (Covered h hide) where
  refl := Grows.refl
  trans := Grows.trans
  visit := Grows.visit h hide
  start := Grows.startChains hw hide
  mono := Covered.mono
  skip := fun hv => (Covered.of_skip hv).2.2
  enter := Covered.of_enter hw
  chains := by
    intro w w' k own hst c hc
    have hmem : (h.cast k).subklasses ∈ addSubclassChain h k [] :=
      subklasses_mem_addSubclassChain hc
    refine ⟨(h.cast k).subklasses, ?_, hc⟩
    rcases chains_of_start hw hst with ⟨-, rfl⟩ | ⟨im, -, -, ⟨-, rfl⟩ | ⟨-, rfl⟩⟩
    · exact hmem
    · exact hmem
    · exact mem_addSubclassChain_right hmem

theorem Matches.not_interface (hs : h.Supertypes) {selector : Option (String × String)}
    (hm : Matches h selector k) : (h.cast k).isInterface = false := by
  cases hk : (h.cast k).isInterface with
  | false => rfl
  | true =>
    cases selector with
    | none => simp [Matches, isConcreteKlass, hs.interface_abstract k hk] at hm
    | some sel =>
      obtain ⟨m, hfind, hconcrete⟩ := hm
      have habstract := (hs.interface_methods k hk m (mem_of_find?_eq_some hfind)).1
      simp [isConcreteMethod, habstract] at hconcrete

/-- Without a witness, the subtypes of the context type that would be one are participants, or
below one. -/
theorem searches_none (hw : h.WellFormed) {ctxk : Nat}
    (hsearch : (hierarchyWalk h hide vd).Searches w ctxk none w') :
    Grows w w' ∧ ∀ d < h.length, h.IsSubtype d ctxk → Matches h w.selector d →
      ∃ p ∈ w'.participants, h.IsSubtype p ctxk ∧
        (hide = true ∧ p = ctxk ∨ h.Subclass d p ∧ (hide = false → d = p)) := by
  have hs := hw.toSupertypes
  cases hsearch with
  | skip hv =>
    obtain ⟨hk, hhide, -⟩ := Covered.of_skip hv
    exact ⟨Grows.of_visit hv, fun d _ _ _ => ⟨ctxk, hk, isSubtype_self hs ctxk, .inl ⟨hhide, rfl⟩⟩⟩
  | @below w₁ w₂ _ own _ hv hst hruns =>
    have hdeals : (hierarchyWalk h hide vd).Deals Grows (Covered h hide) := hierarchyWalk_deals hw
    obtain ⟨hgrow₂, -, hown⟩ := TreeWalk.Runs.covers hdeals hruns rfl
    have hgrow₁ := hdeals.of_start hst
    have hgrow := Grows.trans (Grows.of_visit hv) (hgrow₁.trans hgrow₂)
    refine ⟨hgrow, fun d hd hsub hm => ?_⟩
    rw [← hgrow.selector] at hm
    have hcontext : Covered h hide w' ctxk := by
      refine Covered.of_enter hw hv (hgrow₁.trans hgrow₂) fun c hc => ?_
      obtain ⟨chain, hchain, hmem⟩ := hdeals.chains hst c hc
      exact hown chain hchain c hmem
    cases hctx : (h.cast ctxk).isInterface with
    | false =>
      obtain ⟨p, hp, hpc, hdp, heq⟩ := hcontext d ((isSubtype_class hs hctx).mp hsub) hm
      exact ⟨p, hp, (isSubtype_class hs hctx).mpr hpc, .inr ⟨hdp, heq⟩⟩
    | true =>
      -- the classes that implement the interface are below its only implementor
      have hmem : ctxk ∈ (h.cast d).transitiveInterfaces := by
        rcases (isSubtype_interface hctx).mp hsub with rfl | hmem
        · rw [hm.not_interface hs] at hctx
          cases hctx
        · exact hmem
      have hcomplete := fun hle => hw.implementors_complete ctxk hle d hd (hm.not_interface hs) hmem
      rcases chains_of_start hw hst with ⟨hzero, -⟩ | ⟨im, hone, himpl, hcase⟩
      · obtain ⟨c, hc, -⟩ := hcomplete (by omega)
        have hlen := hw.implementors_length ctxk (by omega)
        rw [eq_nil_of_length_eq_zero (hlen.trans hzero)] at hc
        cases hc
      · have hbelow : h.Subclass d im := by
          obtain ⟨c, hc, hdc⟩ := hcomplete (by rw [hone, InstanceKlass.implementorsLimit]; omega)
          rw [himpl, mem_singleton] at hc
          rwa [hc] at hdc
        have hsound := hw.implementors_sound ctxk im (by rw [himpl]; exact mem_singleton_self im)
        have hsubtype : h.IsSubtype im ctxk := (isSubtype_interface hctx).mpr (.inr hsound.2.2)
        have hcov : Covered h hide w' im := by
          rcases hcase with ⟨himplVisit, -⟩ | ⟨himplVisit, rfl⟩
          · exact (Covered.of_skip himplVisit).2.2.mono hgrow₂
          · refine Covered.of_enter hw himplVisit hgrow₂ fun c hc => ?_
            exact hown _ (subklasses_mem_addSubclassChain hc) c hc
        obtain ⟨p, hp, hpc, hdp, heq⟩ := hcov d hbelow hm
        exact ⟨p, hp, .of_subclass hs hpc hsubtype, .inr ⟨hdp, heq⟩⟩

/-! ## Termination -/

theorem lt_of_mem_subklasses (hw : h.WellFormed) {c : Nat} (hc : c ∈ (h.cast k).subklasses) :
    k < c ∧ c < h.length := by
  obtain ⟨hlt, hsuper⟩ := (hw.subklasses k c).mp hc
  exact ⟨(hw.toSupertypes.super_lt hsuper).1, hlt⟩

theorem lt_of_mem_implementors (hw : h.WellFormed) {c : Nat} (hc : c ∈ (h.cast k).implementors) :
    k < c ∧ c < h.length := by
  obtain ⟨hlt, -, hmem⟩ := hw.implementors_sound k c hc
  exact ⟨(hw.toSupertypes.mem_lt hmem).1, hlt⟩

/-- The work below a class. A search of its own below an interface visits its implementor again. -/
def weight (hw : h.WellFormed) (k : Nat) : Nat :=
  3 + (((h.cast k).subklasses.attach.map fun c => weight hw c.1).sum +
    ((h.cast k).implementors.attach.map fun c => weight hw c.1).sum)
termination_by h.length - k
decreasing_by
  · have := lt_of_mem_subklasses hw c.2
    omega
  · have := lt_of_mem_implementors hw c.2
    omega

theorem weight_eq (hw : h.WellFormed) (k : Nat) : weight hw k =
    3 + (((h.cast k).subklasses.map (weight hw)).sum +
      ((h.cast k).implementors.map (weight hw)).sum) := by
  rw [weight]
  simp

theorem chainWeight_addSubclassChain (hw : h.WellFormed) (k : Nat) (chs : List (List Nat)) :
    ((addSubclassChain h k chs).map (chainWeight (weight hw))).sum ≤
      1 + ((h.cast k).subklasses.map (weight hw)).sum +
        (chs.map (chainWeight (weight hw))).sum := by
  unfold addSubclassChain
  split
  · omega
  · next hcs => rw [hcs, map_cons, sum_cons, chainWeight]

/-- Every search ends. -/
theorem exists_searches (hw : h.WellFormed) (hide vd : Bool) (w : ClassHierarchyWalker)
    (ctxk : Nat) :
    ∃ r w', (hierarchyWalk h hide vd).Searches w ctxk r w' := by
  refine @TreeWalk.exists_searches _ _ _ (weight hw) ?_ ?_ w ctxk
  · intro k
    show 1 + ((h.cast k).subklasses.map (weight hw)).sum < weight hw k
    rw [weight_eq hw k]
    omega
  · intro w k own w' hst
    have hk := chainWeight_addSubclassChain hw k []
    rw [map_nil, sum_nil] at hk
    rw [weight_eq hw k]
    rcases chains_of_start hw hst with ⟨-, rfl⟩ | ⟨im, -, himpl, hcase⟩
    · omega
    have himplWeight := weight_eq hw im
    have hchain := chainWeight_addSubclassChain hw im (addSubclassChain h k [])
    rw [himpl, map_singleton, sum_singleton]
    rcases hcase with ⟨-, rfl⟩ | ⟨-, rfl⟩
    · omega
    · omega

/-! ## Why a search stops -/

/-- The classes that a search with participants `parts` gets to. If participants hide witnesses,
none is between the class and the context type. -/
structure Region (h : ClassTable) (hide : Bool) (ctxk : Nat) (parts : List Nat) (k : Nat) :
    Prop where
  subtype : h.IsSubtype k ctxk
  /-- Interfaces are in the list of `java.lang.Object` only. -/
  interface : (h.cast k).isInterface = true → ctxk = 0 ∧ hide = false
  path : hide = true → ∀ p ∈ parts, h.Subclass k p → h.IsSubtype p ctxk → p = k

/-- A walker that records no witnesses. -/
structure Fixed (selector : Option (String × String)) (parts : List Nat)
    (w : ClassHierarchyWalker) : Prop where
  selector : w.selector = selector
  participants : w.participants = parts
  recordWitnesses : w.recordWitnesses = 0

section Stops

variable {selector : Option (String × String)} {ps : List Nat} {ctxk k : Nat}

theorem Fixed.grows (hf : Fixed selector ps w) (hgrow : Grows w w') : Fixed selector ps w' := by
  obtain ⟨hparts, hrec⟩ := hgrow.fixed hf.recordWitnesses
  exact ⟨hgrow.selector.trans hf.selector, hparts.trans hf.participants, hrec⟩

theorem Fixed.of_stop (hf : Fixed selector ps w) (hv : visit h hide w k = (.stop, w')) :
    Matches h selector k ∧ k ∉ ps := by
  rw [← hf.selector, ← hf.participants]
  rcases visit_cases h hide w k with ⟨-, heq⟩ | ⟨-, -, heq⟩ | ⟨hk, hm, -, -⟩ | ⟨-, -, -, heq⟩
  · rw [hv] at heq
    cases hide <;> cases heq
  · rw [hv] at heq
    cases heq
  · exact ⟨hm, hk⟩
  · rw [hv] at heq
    cases heq

theorem Fixed.of_enter (hf : Fixed selector ps w) (hv : visit h hide w k = (.enter, w')) :
    hide = true → k ∉ ps ∧ ¬ Matches h selector k := by
  intro hhide
  rw [← hf.selector, ← hf.participants]
  rcases visit_cases h hide w k with ⟨-, heq⟩ | ⟨hk, hm, -⟩ | ⟨-, -, -, heq⟩ | ⟨-, -, hpos, -⟩
  · rw [hv, hhide] at heq
    cases heq
  · exact ⟨hk, hm⟩
  · rw [hv] at heq
    cases heq
  · rw [hf.recordWitnesses] at hpos
    exact absurd hpos (lt_irrefl 0)

theorem isSubtype_object_left (hs : h.Supertypes) {c : Nat} (hsub : h.IsSubtype 0 c) : c = 0 := by
  cases hc : (h.cast c).isInterface with
  | false => exact Nat.le_zero.mp (((isSubtype_class hs hc).mp hsub).le hs)
  | true =>
    rcases (isSubtype_interface hc).mp hsub with rfl | hmem
    · rfl
    · exact absurd hmem (hs.not_mem_object c)

/-- The subclasses of a class that the search enters. -/
theorem Region.subklasses (hw : h.WellFormed) (hctx : hide = true → ctxk ≠ 0)
    (hr : Region h hide ctxk ps k)
    (henter : hide = true → k ∉ ps) {c : Nat} (hc : c ∈ (h.cast k).subklasses) :
      Region h hide ctxk ps c := by
  have hs := hw.toSupertypes
  have hsuper := ((hw.subklasses k c).mp hc).2
  refine ⟨.of_subclass hs (subclass_of_mem_subklasses hw hc) hr.subtype, fun hinterface => ?_, ?_⟩
  · have hobject := hs.interface_super c hinterface
    rw [hsuper] at hobject
    cases hobject
    have hzero := isSubtype_object_left hs hr.subtype
    refine ⟨hzero, ?_⟩
    cases hide with
    | false => rfl
    | true => exact absurd hzero (hctx rfl)
  · intro hhide p hp hsub hsubtype
    rcases hsub.cases_head with rfl | ⟨s, hs', hsub⟩
    · rfl
    · obtain rfl := Option.some.inj (hsuper.symm.trans hs')
      have hpk := hr.path hhide p hp hsub hsubtype
      subst hpk
      exact absurd hp (henter hhide)

/-- Below `java.lang.Object`, if participants hide nothing. -/
theorem Region.object (hs : h.Supertypes) (hk : k < h.length) : Region h false 0 ps k :=
  ⟨(isSubtype_class hs hs.object.2.2.1).mpr (subclass_object hs hk), fun _ => ⟨rfl, rfl⟩,
    fun hfalse => nomatch hfalse⟩

theorem mem_addSubclassChain {chain : List Nat} {chs : List (List Nat)}
    (hchain : chain ∈ addSubclassChain h k chs) : chain = (h.cast k).subklasses ∨ chain ∈ chs := by
  rw [addSubclassChain_eq_push false false] at hchain
  exact mem_push hchain

theorem interface_of_nof (hw : h.WellFormed) (hne : (h.cast k).nofImplementors ≠ 0) :
    (h.cast k).isInterface = true := by
  cases hk : (h.cast k).isInterface with
  | true => rfl
  | false => exact absurd (hw.nofImplementors k hk) hne

/-- The chains of a search of its own below a class. -/
theorem Region.of_start (hw : h.WellFormed) (hctx : hide = true → ctxk ≠ 0)
    (hr : Region h hide ctxk ps k)
    (henter : hide = true → k ∉ ps) {own : List (List Nat)}
    (hst : startChains h hide w k = (.inr own, w')) :
    ∀ chain ∈ own, ∀ c ∈ chain, Region h hide ctxk ps c := by
  intro chain hchain c hc
  have hown : ∀ chain ∈ addSubclassChain h k [], ∀ c ∈ chain, Region h hide ctxk ps c := by
    intro chain hchain
    rcases mem_addSubclassChain hchain with rfl | hnil
    · exact fun _ hc => hr.subklasses hw hctx henter hc
    · cases hnil
  rcases chains_of_start hw hst with ⟨-, rfl⟩ | ⟨im, hone, himpl, ⟨-, rfl⟩ | ⟨-, rfl⟩⟩
  · exact hown chain hchain c hc
  · exact hown chain hchain c hc
  rcases mem_addSubclassChain hchain with rfl | hchain
  · -- a search of its own below an interface, in the list of `java.lang.Object`
    obtain ⟨rfl, rfl⟩ := hr.interface (interface_of_nof hw (by omega))
    exact .object hw.toSupertypes (lt_of_mem_subklasses hw hc).2
  · exact hown chain hchain c hc

theorem hierarchyWalk_keeps (hw : h.WellFormed) (hctx : hide = true → ctxk ≠ 0) :
    (hierarchyWalk h hide vd).Keeps (Region h hide ctxk ps) (Fixed selector ps) where
  visit := fun hf _ => hf.grows (Grows.visit h hide _ _)
  start := fun hf _ => hf.grows (Grows.startChains hw hide _ _)
  children := fun hf hr hv _ hc => hr.subklasses hw hctx (fun hhide => (hf.of_enter hv hhide).1) hc
  chains := fun hf hr hv hst => hr.of_start hw hctx (fun hhide => (hf.of_enter hv hhide).1) hst

/-- The reason for a witness: it is a class of the kind searched for, or an interface with several
implementors. -/
def Reason (h : ClassTable) (selector : Option (String × String)) (parts : List Nat) (k : Nat) :
    Prop :=
  Matches h selector k ∧ k ∉ parts ∨ 1 < (h.cast k).nofImplementors

/-- The only implementor of an interface is its topmost one. -/
theorem Region.implementor (hw : h.WellFormed) {im : Nat} (hone : (h.cast ctxk).nofImplementors = 1)
    (himpl : (h.cast ctxk).implementors = [im]) : Region h hide ctxk ps im := by
  have hs := hw.toSupertypes
  have hctx := interface_of_nof hw (k := ctxk) (by omega)
  obtain ⟨-, hclass, hmem⟩ :=
    hw.implementors_sound ctxk im (by rw [himpl]; exact mem_singleton_self im)
  refine ⟨(isSubtype_interface hctx).mpr (.inr hmem), fun hinterface => ?_, ?_⟩
  · rw [hclass] at hinterface
    cases hinterface
  intro _ p _ hsub hsubtype
  have hpclass : (h.cast p).isInterface = false := by
    cases hp : (h.cast p).isInterface with
    | false => rfl
    | true =>
      rw [hsub.interface_right hs hp, hp] at hclass
      cases hclass
  have hpmem : ctxk ∈ (h.cast p).transitiveInterfaces := by
    rcases (isSubtype_interface hctx).mp hsubtype with rfl | hpmem
    · rw [hpclass] at hctx
      cases hctx
    · exact hpmem
  have hlt : p < h.length := by
    by_contra hge
    rw [cast_of_length_le (by omega)] at hpmem
    cases hpmem
  obtain ⟨c, hc, hpc⟩ :=
    hw.implementors_complete ctxk (by rw [hone, InstanceKlass.implementorsLimit]; omega) p hlt
    hpclass hpmem
  rw [himpl, mem_singleton] at hc
  subst hc
  exact hpc.antisymm hs hsub

theorem Region.context (hs : h.Supertypes) (hctx : (h.cast ctxk).isInterface = false) :
    Region h hide ctxk ps ctxk := by
  refine ⟨isSubtype_self hs ctxk, fun hinterface => ?_, fun _ p _ hsub hsubtype => ?_⟩
  · rw [hctx] at hinterface
    cases hinterface
  · exact ((isSubtype_class hs hctx).mp hsubtype).antisymm hs hsub

theorem Fixed.of_start (hw : h.WellFormed) (hf : Fixed selector ps w) {x : Nat}
    (hst : startChains h hide w k = (.inl x, w')) : x = k ∧ 1 < (h.cast k).nofImplementors ∨
      (h.cast k).nofImplementors = 1 ∧ (h.cast k).implementors = [x] ∧ Matches h selector x ∧
        x ∉ ps := by
  rcases startChains_cases hw hide w k with
    ⟨hmany, heq⟩ | ⟨-, heq⟩ | ⟨im, hone, himpl, ⟨_, hv, heq⟩ | ⟨_, -, heq⟩ | ⟨_, -, heq⟩⟩
  all_goals
    rw [hst] at heq
    cases heq
  · exact .inl ⟨rfl, hmany⟩
  · exact .inr ⟨hone, himpl, hf.of_stop hv⟩

/-- The chains that a search starts with. -/
theorem Region.start (hw : h.WellFormed) (hctx : hide = true → ctxk ≠ 0) (hf : Fixed selector ps w)
    {w₁ w₂ : ClassHierarchyWalker} {own : List (List Nat)} (hv : visit h hide w ctxk = (.enter, w₁))
    (hst : startChains h hide w₁ ctxk = (.inr own, w₂)) :
      ∀ chain ∈ own, ∀ c ∈ chain, Region h hide ctxk ps c := by
  have hs := hw.toSupertypes
  cases hinterface : (h.cast ctxk).isInterface with
  | false =>
    have hkeeps : (hierarchyWalk h hide false).Keeps (Region h hide ctxk ps) (Fixed selector ps) :=
      hierarchyWalk_keeps hw hctx
    exact hkeeps.chains hf (.context hs hinterface) hv hst
  | true =>
    have hown : ∀ chain ∈ addSubclassChain h ctxk [], ∀ c ∈ chain, Region h hide ctxk ps c := by
      intro chain hchain c hc
      rcases mem_addSubclassChain hchain with rfl | hnil
      · -- an interface has no subclasses
        have hclass := (hs.super_lt ((hw.subklasses ctxk c).mp hc).2).2.2
        rw [hinterface] at hclass
        cases hclass
      · cases hnil
    have hf₁ := hf.grows (Grows.of_visit hv)
    rcases chains_of_start hw hst with ⟨-, rfl⟩ | ⟨im, hone, himpl, ⟨-, rfl⟩ | ⟨hvisit', rfl⟩⟩
    · exact hown
    · exact hown
    · intro chain hchain c hc
      rcases mem_addSubclassChain hchain with rfl | hchain
      · exact (Region.implementor hw hone himpl).subklasses hw hctx
          (fun hhide => (hf₁.of_enter hvisit' hhide).1) hc
      · exact hown chain hchain c hc

/-- With a witness, the search has a reason for it. -/
theorem searches_some (hw : h.WellFormed) (hf : Fixed selector ps w)
    (hselector : hide = true → selector = none)
    {k : Nat} (hsearch : (hierarchyWalk h hide vd).Searches w ctxk (some k) w') :
    Reason h selector ps k ∧ (k = ctxk ∨ Region h hide ctxk ps k) := by
  have hs := hw.toSupertypes
  -- `java.lang.Object` is concrete, so a search for subtypes does not get below it
  have hctx : ∀ {w₁}, visit h hide w ctxk = (.enter, w₁) → hide = true → ctxk ≠ 0 := by
    rintro w₁ hv hhide rfl
    apply (hf.of_enter hv hhide).2
    rw [hselector hhide]
    simp [Matches, isConcreteKlass, hs.object.2.2.2]
  cases hsearch with
  | stop hv => exact ⟨.inl (hf.of_stop hv), .inl rfl⟩
  | found hv hst =>
    rcases (hf.grows (Grows.of_visit hv)).of_start hw hst with ⟨rfl, hmany⟩ | ⟨hone, himpl, hm⟩
    · exact ⟨.inr hmany, .inl rfl⟩
    · exact ⟨.inl hm, .inr (.implementor hw hone himpl)⟩
  | @below w₁ w₂ _ own _ hv hst hruns =>
    have hf₂ := (hf.grows (Grows.of_visit hv)).grows ((hierarchyWalk_deals hw).of_start hst)
    have hkeeps : (hierarchyWalk h hide vd).Keeps (Region h hide ctxk ps) (Fixed selector ps) :=
      hierarchyWalk_keeps hw (hctx hv)
    have hroots := Region.start hw (hctx hv) hf hv hst
    obtain ⟨w₃, hf₃, hwhy⟩ :=
      (TreeWalk.Runs.keeps hkeeps hruns hf₂ (forall_mem_nil _) hroots).2 k rfl
    rcases hwhy with ⟨hr, hstop⟩ | ⟨k', hr, hstart'⟩
    · exact ⟨.inl (hf₃.of_stop hstop), .inr hr⟩
    rcases hf₃.of_start hw hstart' with ⟨rfl, hmany⟩ | ⟨hone, himpl, hm⟩
    · exact ⟨.inr hmany, .inr hr⟩
    · obtain ⟨rfl, rfl⟩ := hr.interface (interface_of_nof hw (by omega))
      have hlt := (hw.implementors_sound k' k (by rw [himpl]; exact mem_singleton_self k)).1
      exact ⟨.inl hm, .inr (.object hs hlt)⟩

end Stops

end Hotspot.Dependencies
