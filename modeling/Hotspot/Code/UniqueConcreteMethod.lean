-- SUMMARY: The unique concrete method below a class, against the method that a virtual call runs.
import Hotspot.Oops.VtableDispatch
import Hotspot.Code.DependencyWalk

/-!
# Unique concrete methods

`find_unique_concrete_method` records the first class below the context class that defines a
concrete method, and fails at a second one. The walk goes by name and signature only, and static
methods count.
-/

namespace Hotspot.Dependencies

open Oops ClassTable

variable {h : ClassTable} {w w' : ClassHierarchyWalker}

/-! ## The recorded method -/

/-- The walker has recorded no method yet, or one of a class below the context class. -/
inductive Recording (h : ClassTable) (ctxk : Nat) (name signature : String)
    (w : ClassHierarchyWalker) : Prop
  | fresh (selector : w.selector = some (name, signature)) (participants : w.participants = [])
      (recordWitnesses : w.recordWitnesses = 1) (found : w.foundMethods = List.replicate 4 none)
  | recorded (k : Nat) (t : Method) (selector : w.selector = some (name, signature))
      (participants : w.participants = [k])
      (recordWitnesses : w.recordWitnesses = 0) (found : w.foundMethods[0]? = some (some ⟨k, t⟩))
      (subclass : h.Subclass k ctxk) (find : (h.cast k).findMethod name signature = some t)
      (concrete : isConcreteMethod t = true)

variable {ctxk k : Nat} {name sig : String}

theorem Recording.selector_eq (hr : Recording h ctxk name sig w) :
    w.selector = some (name, sig) := by
  cases hr with
  | fresh hsel _ _ _ => exact hsel
  | recorded _ _ hsel _ _ _ _ _ _ => exact hsel

theorem Recording.visit (hr : Recording h ctxk name sig w) (hk : h.Subclass k ctxk) :
    Recording h ctxk name sig (visit h false w k).2 := by
  unfold Dependencies.visit
  by_cases hpart : w.participants.contains k = true
  · rw [if_pos hpart]
    exact hr
  rw [if_neg hpart, isWitness, hr.selector_eq]
  dsimp only
  cases hfind : (h.cast k).findMethod name sig with
  | none => exact hr
  | some t =>
    dsimp only
    cases hconcrete : isConcreteMethod t with
    | false => exact hr
    | true =>
      rw [if_pos rfl]
      cases hr with
      | fresh _ hparts hrec hfound =>
        dsimp only
        rw [if_neg (by rw [hrec]; decide)]
        refine .recorded k t rfl ?_ ?_ ?_ hk hfind hconcrete
        · simp [ClassHierarchyWalker.addParticipant, hparts]
        · simp [ClassHierarchyWalker.addParticipant, hrec]
        · simp [ClassHierarchyWalker.addParticipant, hparts, hfound]
      | recorded k₀ t₀ _ hparts hrec hfound hsub hfind₀ hconcrete₀ =>
        dsimp only
        rw [if_pos hrec]
        refine .recorded k₀ t₀ rfl hparts hrec ?_ hsub hfind₀ hconcrete₀
        dsimp only
        rw [hparts, List.length_singleton, List.getElem?_set_ne (by decide)]
        exact hfound

variable {vd : Bool}

theorem hierarchyWalk_keeps_recording (hw : h.WellFormed)
    (hctx : (h.cast ctxk).isInterface = false) :
    (hierarchyWalk h false vd).Keeps (Region h false ctxk []) (Recording h ctxk name sig) := by
  have hs := hw.toSupertypes
  have hsubclass : ∀ {k}, Region h false ctxk [] k → h.Subclass k ctxk := fun hr =>
    (isSubtype_class hs hctx).mp hr.subtype
  have hhide : false = true → ctxk ≠ 0 := fun hfalse => absurd hfalse Bool.false_ne_true
  refine ⟨fun hr hk => hr.visit (hsubclass hk), ?_, ?_, ?_⟩
  · intro w k hr hk
    show Recording h ctxk name sig (startChains h false w k).2
    rcases startChains_cases hw false w k with ⟨-, heq⟩ | ⟨-, heq⟩ | ⟨impl, hone, himpl, hcase⟩
    · rw [heq]
      exact hr
    · rw [heq]
      exact hr
    -- the implementor of an interface in the list of `java.lang.Object`
    obtain ⟨rfl, -⟩ := hk.interface (interface_of_nof hw (by omega))
    have hlt := (hw.implementors_sound k impl (by rw [himpl]; exact List.mem_singleton_self impl)).1
    have hvisited := hr.visit (subclass_object hs hlt)
    rcases hcase with ⟨w', hvisit, heq⟩ | ⟨w', hvisit, heq⟩ | ⟨w', hvisit, heq⟩
    all_goals
      rw [heq]
      rw [hvisit] at hvisited
      exact hvisited
  · intro w w' k _ hk _ c hc
    exact hk.subklasses hw hhide (fun hfalse => absurd hfalse Bool.false_ne_true) hc
  · intro w w₁ w' k own _ hk _ hstart
    exact hk.of_start hw hhide (fun hfalse => absurd hfalse Bool.false_ne_true) hstart

theorem Recording.searches (hw : h.WellFormed) (hctx : (h.cast ctxk).isInterface = false)
    {r : Option Nat} (hr : Recording h ctxk name sig w)
    (hsearch : (hierarchyWalk h false vd).Searches w ctxk r w') : Recording h ctxk name sig w' := by
  have hkeeps :
    (hierarchyWalk h false vd).Keeps (Region h false ctxk []) (Recording h ctxk name sig) :=
    hierarchyWalk_keeps_recording hw hctx
  have hregion : Region h false ctxk [] ctxk := .context hw.toSupertypes hctx
  cases hsearch with
  | stop hvisit => exact hkeeps.of_visit hr hregion hvisit
  | skip hvisit => exact hkeeps.of_visit hr hregion hvisit
  | found hvisit hstart => exact hkeeps.of_start (hkeeps.of_visit hr hregion hvisit) hregion hstart
  | below hvisit hstart hruns =>
    have hr₂ := hkeeps.of_start (hkeeps.of_visit hr hregion hvisit) hregion hstart
    exact (TreeWalk.Runs.keeps hkeeps hruns hr₂ (List.forall_mem_nil _)
      (hkeeps.chains hr hregion hvisit hstart)).1

variable {m : MethodOop}

/-- What `find_unique_concrete_method` knows when it returns a method: the classes below the context
class that define a concrete method are the recorded one only. -/
theorem of_findUniqueConcreteMethod (hw : h.WellFormed) (hctx : (h.cast ctxk).isInterface = false)
    (hloaded : ctxk < h.length) {fuel : Nat} {fm : MethodOop}
    (hfind : findUniqueConcreteMethod h vd ctxk m fuel = some (some fm)) :
    (∀ k t, h.Subclass k ctxk → (h.cast k).findMethod m.method.name m.method.signature = some t →
      t.isAbstract = false → fm = ⟨k, t⟩) ∧ (m.method.isAbstract = false → fm = m) ∧
    (fm = m ∧ m.method.isAbstract = false ∨
      h.Subclass fm.holder ctxk ∧ fm.method.isAbstract = false ∧
        (h.cast fm.holder).findMethod m.method.name m.method.signature = some fm.method) := by
  have hs := hw.toSupertypes
  rw [findUniqueConcreteMethod] at hfind
  dsimp only [findWitness] at hfind
  generalize hstart :
    ({ ClassHierarchyWalker.make (some (m.method.name, m.method.signature)) [] with
    recordWitnesses := 1 } : ClassHierarchyWalker) = w at hfind
  have hfresh : Recording h ctxk m.method.name m.method.signature w := by
    subst hstart
    exact .fresh rfl rfl rfl rfl
  obtain ⟨⟨wit, w'⟩, hsearch, hfind⟩ := Option.bind_eq_some_iff.mp hfind
  dsimp only at hfind
  cases wit with
  | some k => cases hfind
  | none =>
    have hsearches := TreeWalk.searches_of_search hsearch
    have hrecording := hfresh.searches hw hctx hsearches
    -- a class that defines a concrete method is a participant
    have hcover : ∀ k t, h.Subclass k ctxk →
      (h.cast k).findMethod m.method.name m.method.signature = some t →
        t.isAbstract = false → k ∈ w'.participants := by
      intro k t hk ht hconcrete
      have hsubtype := (isSubtype_class hs hctx).mpr hk
      have hmatches : Matches h w.selector k := by
        rw [hfresh.selector_eq]
        exact ⟨t, ht, by rw [isConcreteMethod, hconcrete]; rfl⟩
      obtain ⟨p, hp, -, hcase⟩ :=
        (searches_none hw hsearches).2 k (hsubtype.lt hs hloaded) hsubtype hmatches
      rcases hcase with ⟨hfalse, -⟩ | ⟨-, heq⟩
      · cases hfalse
      · rw [heq rfl]
        exact hp
    simp only [Option.isSome_none, Bool.false_eq_true, if_false] at hfind
    cases hrecording with
    | fresh _ hparts _ hfound =>
      rw [hfound] at hfind
      cases hconcrete : isConcreteMethod m.method with
      | false =>
        rw [hconcrete] at hfind
        cases hfind
      | true =>
        rw [hconcrete] at hfind
        cases hfind
        refine ⟨fun k t hk ht hconcrete => ?_,
          fun _ => rfl, .inl ⟨rfl, by simpa [isConcreteMethod] using hconcrete⟩⟩
        have hmem := hcover k t hk ht hconcrete
        rw [hparts] at hmem
        cases hmem
    | recorded k₀ t₀ _ hparts _ hfound hsub hfind₀ hconcrete₀ =>
      have hfm : fm = ⟨k₀, t₀⟩ ∧ (m.method.isAbstract = false → fm = m) := by
        rw [List.getD_eq_getElem?_getD, hfound, Option.getD_some] at hfind
        dsimp only at hfind
        split at hfind
        · split at hfind
          · cases hfind
          · next heq =>
            cases hfind
            exact ⟨rfl, fun _ => not_not.mp heq⟩
        · next hconcrete =>
          cases hfind
          refine ⟨rfl, fun habstract => absurd ?_ hconcrete⟩
          rw [isConcreteMethod, habstract]
          rfl
      obtain ⟨rfl, hsame⟩ := hfm
      refine ⟨fun k t hk ht hconcrete => ?_, hsame,
        .inr ⟨hsub, by simpa [isConcreteMethod] using hconcrete₀, hfind₀⟩⟩
      have hmem := hcover k t hk ht hconcrete
      rw [hparts, List.mem_singleton] at hmem
      subst hmem
      rw [hfind₀] at ht
      cases ht
      rfl

/-! ## The method that runs -/

/-- `m` is a virtual method of the class `ctxk`: it is declared there, or inherited from a
superclass or an interface. -/
structure VirtualIn (h : ClassTable) (ctxk : Nat) (m : MethodOop) : Prop where
  nonstatic : m.method.isStatic = false
  nonprivate : m.method.isPrivate = false
  find : (h.cast m.holder).findMethod m.method.name m.method.signature = some m.method
  supertype : h.Subclass ctxk m.holder ∨ m.holder ∈ (h.cast ctxk).transitiveInterfaces
  inherited : h.dispatched m ctxk = m

theorem VirtualIn.holder_le (hs : h.Supertypes) (hm : VirtualIn h ctxk m) : m.holder ≤ ctxk := by
  rcases hm.supertype with hsub | hmem
  · exact ClassTable.Subclass.le hs hsub
  · exact (hs.mem_lt hmem).1.le

/-- A virtual call runs `m`, or a method of a class below `ctxk`. -/
theorem VirtualIn.dispatched_cases (hs : h.Supertypes) (hm : VirtualIn h ctxk m) {c : Nat}
    (hc : h.Subclass c ctxk) : h.dispatched m c = m ∨
      ∃ k t, h.Subclass k ctxk ∧ (h.cast k).findMethod m.method.name m.method.signature = some t ∧
        h.dispatched m c = ⟨k, t⟩ := by
  have hselector : ∀ {e : MethodOop}, (e = m ∨ ∃ k t, h.Subclass k ctxk ∧
      (h.cast k).findMethod m.method.name m.method.signature = some t ∧ e = ⟨k, t⟩) →
      e.method.name = m.method.name ∧ e.method.signature = m.method.signature := by
    rintro e (rfl | ⟨k, t, -, ht, rfl⟩)
    · exact ⟨rfl, rfl⟩
    · exact (mem_methods_of_findMethod ht).2
  induction hc using Relation.ReflTransGen.head_induction_on with
  | refl => exact .inl hm.inherited
  | @head c s hsuper hsub ih =>
    have hlt := (hs.super_lt hsuper).1
    have hle := ClassTable.Subclass.le hs hsub
    have hholder := hm.holder_le hs
    obtain ⟨hname, hsignature⟩ := hselector ih
    rw [dispatched_super hs hsuper (by omega), occupantIn, hname, hsignature]
    cases hfind : (h.cast c).findMethod m.method.name m.method.signature with
    | none => exact ih
    | some t =>
      dsimp only
      rw [occupantAfter]
      split
      · exact .inr ⟨c, t, .head hsuper hsub, hfind, rfl⟩
      · exact ih

/-- No class below `ctxk` has a static method with the name and the signature, and the method that
runs is never abstract. -/
structure DefinedVirtually (h : ClassTable) (ctxk : Nat) (m : MethodOop) : Prop where
  nonstatic : ∀ k t, h.Subclass k ctxk →
    (h.cast k).findMethod m.method.name m.method.signature = some t →
    t.isAbstract = false → t.isStatic = false
  concrete : ∀ c, h.Subclass c ctxk → isConcreteKlass h c = true →
    (h.dispatched m c).method.isAbstract = false

/-- The method found is the one that runs, just if a static method does not stand for it and no call
ends at an abstract method. -/
theorem findUniqueConcreteMethod_iff (h : Hierarchy) (verifyDependencies : Bool) (ctxk : Nat)
    (m : MethodOop)
    (hloaded : ctxk < h.table.length) (hctx : (h.table.cast ctxk).isInterface = false)
    (hm : VirtualIn h.table ctxk m) :
    (∀ fm, Returns (findUniqueConcreteMethod h.table verifyDependencies ctxk m) (some fm) →
      fm.method.isStatic = false ∧ fm.method.isAbstract = false ∧
        ∀ c, h.table.Subclass c ctxk → isConcreteKlass h.table c = true →
          h.table.dispatched m c = fm) ↔
      ((∃ fm, Returns (findUniqueConcreteMethod h.table verifyDependencies ctxk m) (some fm)) →
        DefinedVirtually h.table ctxk m) := by
  have hs := h.wf.toSupertypes
  constructor
  · rintro hall ⟨fm, hreturns⟩
    obtain ⟨hstatic, habstract, hruns⟩ := hall fm hreturns
    obtain ⟨fuel, hfuel⟩ := hreturns
    obtain ⟨hunique, -⟩ := of_findUniqueConcreteMethod h.wf hctx hloaded (hfuel fuel le_rfl)
    refine ⟨fun k t hk ht hconcrete => ?_, fun c hc hconcrete => ?_⟩
    · rw [hunique k t hk ht hconcrete] at hstatic
      exact hstatic
    · rw [hruns c hc hconcrete]
      exact habstract
  · intro hdefined fm hreturns
    have hvirtual := hdefined ⟨fm, hreturns⟩
    obtain ⟨fuel, hfuel⟩ := hreturns
    obtain ⟨hunique, hsame, hcases⟩ :=
      of_findUniqueConcreteMethod h.wf hctx hloaded (hfuel fuel le_rfl)
    have hfm : fm.method.isStatic = false ∧ fm.method.isAbstract = false := by
      rcases hcases with ⟨rfl, habstract⟩ | ⟨hsub, habstract, hfind⟩
      · exact ⟨hm.nonstatic, habstract⟩
      · exact ⟨hvirtual.nonstatic _ _ hsub hfind habstract, habstract⟩
    refine ⟨hfm.1, hfm.2, fun c hc hconcrete => ?_⟩
    have habstract := hvirtual.concrete c hc hconcrete
    rcases hm.dispatched_cases hs hc with heq | ⟨k, t, hk, ht, heq⟩
    · rw [heq] at habstract
      rw [heq, hsame habstract]
    · rw [heq] at habstract
      rw [heq, hunique k t hk ht habstract]

/-- More fuel does not change the result. -/
theorem returns_findUniqueConcreteMethod {fuel : Nat} {r : Option MethodOop}
    (hfind : findUniqueConcreteMethod h vd ctxk m fuel = some r) :
    Returns (findUniqueConcreteMethod h vd ctxk m) r := by
  rw [findUniqueConcreteMethod] at hfind
  obtain ⟨⟨wit, w'⟩, hsearch, hfind⟩ := Option.bind_eq_some_iff.mp hfind
  obtain ⟨n, hn⟩ := (TreeWalk.searches_of_search hsearch).returns
  refine ⟨n, fun fuel hfuel => ?_⟩
  rw [findUniqueConcreteMethod]
  exact Option.bind_eq_some_iff.mpr ⟨(wit, w'), hn fuel hfuel, hfind⟩

def abstractM : Method := ⟨"m", "()V", .publicAccess, false, false, true, false, 0⟩

def staticM : Method := ⟨"m", "()V", .publicAccess, true, false, false, false, 0⟩

/-- An abstract method, and a static one with its name and signature in the abstract subclass. -/
def staticBelowAbstract : Hierarchy :=
  (Hierarchy.objectOnly.link ⟨some 0, false, true, false, false, "p", [], [abstractM]⟩
    (by decide)).link
    ⟨some 1, false, true, false, false, "p", [], [staticM]⟩ (by decide)

theorem virtualIn_abstractM : VirtualIn staticBelowAbstract.table 1 ⟨1, abstractM⟩ :=
  ⟨rfl, rfl, by decide, .inl .refl, by decide⟩

/-- An abstract method that the subclass implements. -/
def implementedBelow : Hierarchy :=
  (Hierarchy.objectOnly.link ⟨some 0, false, true, false, false, "p", [], [abstractM]⟩
    (by decide)).link
    ⟨some 1, false, false, false, false, "p", [], [methodM .publicAccess]⟩ (by decide)

theorem definedVirtually_abstractM : DefinedVirtually implementedBelow.table 1 ⟨1, abstractM⟩ := by
  have hs := implementedBelow.wf.toSupertypes
  refine ⟨fun k t hk ht _ => ?_, fun c hc hconcrete => ?_⟩
  · have hlt : k < 3 := hk.lt hs (by decide)
    have hall : ∀ k < 3, ∀ t ∈ (implementedBelow.table.cast k).findMethod "m" "()V",
        t.isStatic = false := by decide
    exact hall k hlt t ht
  · have hlt : c < 3 := hc.lt hs (by decide)
    have hall : ∀ c < 3, implementedBelow.table.isSubclassOf c 1 = true →
      isConcreteKlass implementedBelow.table c = true →
        (implementedBelow.table.dispatched ⟨1, abstractM⟩ c).method.isAbstract = false := by decide
    exact hall c hlt ((isSubclassOf_iff hs).mpr hc) hconcrete

theorem findUniqueConcreteMethod_implementedBelow :
    Returns (findUniqueConcreteMethod implementedBelow.table false 1 ⟨1, abstractM⟩)
      (some ⟨2, methodM .publicAccess⟩) ∧
      ∀ c, implementedBelow.table.Subclass c 1 → isConcreteKlass implementedBelow.table c = true →
        implementedBelow.table.dispatched ⟨1, abstractM⟩ c = ⟨2, methodM .publicAccess⟩ := by
  have hfind : findUniqueConcreteMethod implementedBelow.table false 1 ⟨1, abstractM⟩ 5 =
      some (some ⟨2, methodM .publicAccess⟩) := by decide
  have hreturns := returns_findUniqueConcreteMethod hfind
  have hall :=
    findUniqueConcreteMethod_iff implementedBelow false 1 ⟨1, abstractM⟩ (by decide) (by decide)
    ⟨rfl, rfl, by decide, .inl .refl, by decide⟩
  exact ⟨hreturns, (hall.mpr (fun _ => definedVirtually_abstractM) _ hreturns).2.2⟩

/-- The static method is taken for the implementation of the abstract one. -/
theorem returns_staticM :
    VirtualIn staticBelowAbstract.table 1 ⟨1, abstractM⟩ ∧ staticM.isStatic = true ∧
      Returns (findUniqueConcreteMethod staticBelowAbstract.table false 1 ⟨1, abstractM⟩)
        (some ⟨2, staticM⟩) := by
  refine ⟨virtualIn_abstractM, rfl, ?_⟩
  have hfind : findUniqueConcreteMethod staticBelowAbstract.table false 1 ⟨1, abstractM⟩ 5 =
      some (some ⟨2, staticM⟩) := by
    decide
  exact returns_findUniqueConcreteMethod hfind

end Hotspot.Dependencies
