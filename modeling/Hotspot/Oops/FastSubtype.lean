-- SUMMARY: The fast subtype check decides the subtype relation, whatever checks came before.
import Hotspot.Oops.KlassSupers
import Hotspot.Oops.VtableSlots

/-!
# Fast subtype checks

The primary classes above a class are its superclasses that fit in the display, and the
secondary supers are all other supertypes. Both are proved along the superclasses and the
dimensions of arrays at once.
-/

namespace Hotspot.Oops.Universe

open List ClassTable

variable {u : Universe}

/-! ## The subtype relation -/

/-- The subtypes of the language: superclasses and superinterfaces, `Object`, and covariance of arrays. -/
inductive Subtype (u : Universe) : Klass → Klass → Prop
  | refl (s : Klass) : Subtype u s s
  | inst {k c : Nat} : u.table.IsSubtype k c → Subtype u (.inst k) (.inst c)
  | object (s : Klass) : Subtype u s .object
  | cloneable {s : Klass} : (∀ k, s ≠ .inst k) → Subtype u s (.inst u.cloneable)
  | serializable {s : Klass} : (∀ k, s ≠ .inst k) → Subtype u s (.inst u.serializable)
  | covariant {e f : Klass} : Subtype u e f → Subtype u (.objArray e) (.objArray f)

/-- The classes that a type is made of are loaded. -/
def Loaded (u : Universe) : Klass → Prop
  | .inst k => k < u.table.length
  | .typeArray _ => True
  | .objArray e => Loaded u e

/-! ## Superclasses and depth -/

theorem supertypes (u : Universe) : u.table.Supertypes := u.wf.toSupertypes

variable {s : Klass}

theorem super_eq_none (hs : u.Loaded s) : u.super s = none ↔ s = .object := by
  cases s with
  | inst k =>
    rw [super, Option.map_eq_none_iff]
    constructor
    · intro hsuper
      by_contra hne
      have hpos : 0 < k := Nat.pos_of_ne_zero fun hzero => hne (by rw [hzero]; rfl)
      obtain ⟨s, -, hs, -⟩ := u.supertypes.super k hpos hs
      rw [hsuper] at hs
      cases hs
    · intro heq
      cases heq
      exact u.supertypes.object.2.1
  | typeArray t =>
    constructor
    · rintro ⟨⟩
    · rintro ⟨⟩
  | objArray e =>
    constructor
    · intro h
      rw [super] at h
      split at h <;> cases h
    · rintro ⟨⟩

variable {t : Klass}

/-- A relation of the classes to their superclasses, by where a superclass comes from. -/
theorem rel_super {P : Klass → Klass → Prop} (hinst : ∀ k c, (u.table.cast k).super = some c → P (.inst k) (.inst c))
    (htypeArray : ∀ b, P (.typeArray b) .object) (hobject : P (.objArray .object) .object)
    (hobjArray : ∀ e f, P e f → P (.objArray e) (.objArray f)) (hs : u.Loaded s)
    (hsuper : u.super s = some t) : P s t := by
  induction s generalizing t with
  | inst k =>
    obtain ⟨c, hc, rfl⟩ := Option.map_eq_some_iff.mp hsuper
    exact hinst k c hc
  | typeArray b =>
    cases hsuper
    exact htypeArray b
  | objArray e ih =>
    rw [super] at hsuper
    cases he : u.super e with
    | none =>
      rw [he] at hsuper
      cases hsuper
      rw [(super_eq_none (s := e) hs).mp he]
      exact hobject
    | some f =>
      rw [he] at hsuper
      cases hsuper
      exact hobjArray e f (ih hs he)

theorem loaded_object : u.Loaded .object := u.supertypes.object.1

theorem Loaded.super (hs : u.Loaded s) (hsuper : u.super s = some t) : u.Loaded t := by
  refine rel_super (P := fun _ t => u.Loaded t) ?_ (fun _ => loaded_object) loaded_object (fun _ _ hf => hf) hs hsuper
  intro k c hc
  have hlt := u.supertypes.super_lt hc
  exact hlt.1.trans hlt.2.1

theorem rank_super (hs : u.Loaded s) (hsuper : u.super s = some t) : rank t < rank s := by
  refine rel_super (P := fun s t => rank t < rank s) ?_ ?_ (by decide) ?_ hs hsuper
  · intro k c hc
    have hlt := (u.supertypes.super_lt hc).1
    simp only [rank]
    omega
  · intro b
    simp only [rank, Klass.object]
    omega
  · intro e f hlt
    simp [rank]
    omega

/-- The class and its superclasses. -/
def chain (u : Universe) : Klass → List Klass
  | .inst k => (u.table.superChain (k + 1) k).map .inst
  | .typeArray b => [.typeArray b, .object]
  | .objArray e => (chain u e).map .objArray ++ [.object]

theorem chain_object : u.chain .object = [.object] := by
  rw [Klass.object, chain, superChain_none u.supertypes.object.2.1]
  rfl

theorem chain_super (hs : u.Loaded s) (hsuper : u.super s = some t) : u.chain s = s :: u.chain t := by
  refine rel_super (P := fun s t => u.chain s = s :: u.chain t) ?_ ?_ ?_ ?_ hs hsuper
  · intro k c hc
    rw [chain, superChain_super u.supertypes hc]
    rfl
  · intro b
    rw [chain, chain_object]
  · rw [chain, chain_object]
    rfl
  · intro e f hchain
    rw [chain, hchain]
    rfl

def depth (u : Universe) (s : Klass) : Nat := (u.chain s).length - 1

theorem depth_object : u.depth .object = 0 := by
  rw [depth, chain_object]
  rfl

theorem chain_eq_cons (hs : u.Loaded s) : ∃ rest, u.chain s = s :: rest := by
  cases hsuper : u.super s with
  | none =>
    rw [(super_eq_none hs).mp hsuper]
    exact ⟨[], chain_object⟩
  | some t => exact ⟨u.chain t, chain_super hs hsuper⟩

theorem chain_ne_nil (hs : u.Loaded s) : 0 < (u.chain s).length := by
  obtain ⟨rest, hrest⟩ := chain_eq_cons hs
  rw [hrest]
  exact Nat.succ_pos _

theorem depth_super (hs : u.Loaded s) (hsuper : u.super s = some t) : u.depth s = u.depth t + 1 := by
  have hpos := chain_ne_nil (hs.super hsuper)
  rw [depth, depth, chain_super hs hsuper, length_cons]
  omega

theorem depth_objArray {e : Klass} (he : u.Loaded e) : u.depth (.objArray e) = u.depth e + 1 := by
  have hpos := chain_ne_nil he
  rw [depth, depth, chain, length_append, length_map, length_singleton]
  omega

/-- Induction along the superclasses. -/
theorem super_induction {P : Klass → Prop} (hobject : P .object)
    (hsuper : ∀ s t, u.Loaded s → u.super s = some t → P t → P s) (hs : u.Loaded s) : P s := by
  induction hn : rank s using Nat.strong_induction_on generalizing s with
  | _ n ih =>
    subst hn
    cases h : u.super s with
    | none =>
      rw [(super_eq_none hs).mp h]
      exact hobject
    | some t => exact hsuper s t hs h (ih _ (rank_super hs h) (hs.super h) rfl)

theorem depth_le_of_mem_chain (hs : u.Loaded s) :
    ∀ t ∈ u.chain s, u.Loaded t ∧ (t = s ∨ u.depth t < u.depth s) := by
  refine super_induction (P := fun s => ∀ t ∈ u.chain s, u.Loaded t ∧ (t = s ∨ u.depth t < u.depth s)) ?_ ?_ hs
  · intro t ht
    rw [chain_object, mem_singleton] at ht
    subst ht
    exact ⟨loaded_object, .inl rfl⟩
  · intro s t hs hsuper ih t' ht'
    rw [chain_super hs hsuper, mem_cons] at ht'
    rcases ht' with rfl | ht'
    · exact ⟨hs, .inl rfl⟩
    · obtain ⟨hloaded, hcase⟩ := ih t' ht'
      have hdepth := depth_super hs hsuper
      refine ⟨hloaded, .inr ?_⟩
      rcases hcase with rfl | hlt <;> omega

theorem mem_chain_self (hs : u.Loaded s) : s ∈ u.chain s := by
  obtain ⟨rest, hrest⟩ := chain_eq_cons hs
  rw [hrest]
  exact mem_cons_self

theorem object_mem_chain (hs : u.Loaded s) : .object ∈ u.chain s := by
  refine super_induction (P := fun s => .object ∈ u.chain s) ?_ ?_ hs
  · rw [chain_object]
    exact mem_singleton_self _
  · intro s t hs hsuper ih
    rw [chain_super hs hsuper]
    exact mem_cons_of_mem _ ih

/-! ## Primary classes -/

/-- The class is no interface, and no array of interfaces. -/
def ClassBelow (u : Universe) : Klass → Prop
  | .inst k => (u.table.cast k).isInterface = false
  | .typeArray _ => True
  | .objArray e => ClassBelow u e

/-- The class has a cell of its own in the display. -/
def Primary (u : Universe) (s : Klass) : Prop := u.ClassBelow s ∧ u.depth s < primarySuperLimit

theorem classBelow_object : u.ClassBelow .object := u.supertypes.object.2.2.1

theorem classBelow_super (hs : u.Loaded s) (hsuper : u.super s = some t) : u.ClassBelow t :=
  rel_super (P := fun _ t => u.ClassBelow t) (fun _ _ hc => (u.supertypes.super_lt hc).2.2)
    (fun _ => classBelow_object) classBelow_object (fun _ _ hf => hf) hs hsuper

theorem primary_object : u.Primary .object := ⟨classBelow_object, by rw [depth_object]; decide⟩

theorem not_primary_interface {k : Nat} (hk : (u.table.cast k).isInterface = true) : ¬ u.Primary (.inst k) := by
  rintro ⟨hclass, -⟩
  rw [ClassBelow, hk] at hclass
  cases hclass

theorem Primary.of_objArray {e : Klass} (he : u.Loaded e) (hp : u.Primary (.objArray e)) : u.Primary e := by
  obtain ⟨hclass, hdepth⟩ := hp
  rw [depth_objArray he] at hdepth
  exact ⟨hclass, by omega⟩

theorem classBelow_of_mem_chain {t' : Klass} (hs : u.Loaded s) (hsuper : u.super s = some t)
    (ht' : t' ∈ u.chain t) : u.ClassBelow t' := by
  have ht := hs.super hsuper
  have hclass := classBelow_super hs hsuper
  refine super_induction (P := fun t => u.ClassBelow t → ∀ t' ∈ u.chain t, u.ClassBelow t') ?_ ?_ ht hclass t' ht'
  · intro hclass t' ht'
    rw [chain_object, mem_singleton] at ht'
    rw [ht']
    exact hclass
  · intro s t hs hsuper ih hclass t' ht'
    rw [chain_super hs hsuper, mem_cons] at ht'
    rcases ht' with rfl | ht'
    · exact hclass
    · exact ih (classBelow_super hs hsuper) t' ht'

/-- The secondary classes come first among the superclasses. -/
theorem mem_takeWhile_chain {p : Klass → Bool} (hs : u.Loaded s) (hclass : ∀ t ∈ u.chain s, u.ClassBelow t)
    (hp : ∀ t ∈ u.chain s, p t = true ↔ ¬ u.Primary t) (t : Klass) :
    t ∈ (u.chain s).takeWhile p ↔ t ∈ u.chain s ∧ ¬ u.Primary t := by
  refine super_induction (P := fun s => (∀ t ∈ u.chain s, u.ClassBelow t) → (∀ t ∈ u.chain s, p t = true ↔ ¬ u.Primary t) →
    (t ∈ (u.chain s).takeWhile p ↔ t ∈ u.chain s ∧ ¬ u.Primary t)) ?_ ?_ hs hclass hp
  · intro _ hp
    have hobject : p .object = false := by
      rw [Bool.eq_false_iff]
      exact fun h => (hp .object (object_mem_chain loaded_object)).mp h primary_object
    rw [chain_object, takeWhile_cons, hobject, mem_singleton]
    constructor
    · rintro ⟨⟩
    · rintro ⟨rfl, hnot⟩
      exact absurd primary_object hnot
  · intro s s' hs hsuper ih hclass hp
    have hself := hp s (mem_chain_self hs)
    by_cases hprimary : u.Primary s
    · -- the superclasses are less deep, so they are primary too
      have hnone : ∀ t ∈ u.chain s, u.Primary t := by
        intro t ht
        refine ⟨hclass t ht, ?_⟩
        have hdepth := hprimary.2
        rcases (depth_le_of_mem_chain hs t ht).2 with rfl | hlt <;> omega
      have hfalse : p s = false := Bool.eq_false_iff.mpr fun h => hself.mp h hprimary
      constructor
      · intro ht
        rw [chain_super hs hsuper, takeWhile_cons, hfalse] at ht
        cases ht
      · rintro ⟨ht, hnot⟩
        exact absurd (hnone t ht) hnot
    · rw [chain_super hs hsuper] at hclass hp ⊢
      rw [forall_mem_cons] at hclass hp
      rw [takeWhile_cons, if_pos (hself.mpr hprimary), mem_cons, mem_cons, ih hclass.2 hp.2]
      constructor
      · rintro (rfl | ⟨ht, hnot⟩)
        · exact ⟨.inl rfl, hprimary⟩
        · exact ⟨.inr ht, hnot⟩
      · rintro ⟨rfl | ht, hnot⟩
        · exact .inl rfl
        · exact .inr ⟨ht, hnot⟩

/-! ## Supertypes and superclasses -/

theorem mem_chain_inst {k : Nat} : t ∈ u.chain (.inst k) ↔ ∃ c, t = .inst c ∧ u.table.Subclass k c := by
  rw [chain, mem_map]
  simp only [mem_superChain u.supertypes (Nat.lt_succ_self k)]
  exact ⟨fun ⟨c, hc, heq⟩ => ⟨c, heq.symm, hc⟩, fun ⟨c, heq, hc⟩ => ⟨c, hc, heq.symm⟩⟩

theorem Subtype.of_mem_chain (ht : t ∈ u.chain s) : u.Subtype s t := by
  induction s generalizing t with
  | inst k =>
    obtain ⟨c, rfl, hsub⟩ := mem_chain_inst.mp ht
    exact .inst (ClassTable.IsSubtype.of_subclass u.supertypes hsub (isSubtype_self u.supertypes c))
  | typeArray b =>
    rw [chain, mem_cons, mem_singleton] at ht
    rcases ht with rfl | rfl
    · exact .refl _
    · exact .object _
  | objArray e ih =>
    rw [chain, mem_append, mem_map, mem_singleton] at ht
    rcases ht with ⟨f, hf, rfl⟩ | rfl
    · exact .covariant (ih hf)
    · exact .object _

/-- A primary supertype is a superclass. -/
theorem Subtype.mem_chain (hsub : u.Subtype s t) (hs : u.Loaded s) (ht : u.Loaded t) (hp : u.Primary t) :
    t ∈ u.chain s := by
  induction hsub with
  | refl s => exact mem_chain_self hs
  | @inst k c hsub =>
    exact mem_chain_inst.mpr ⟨c, rfl, (isSubtype_class u.supertypes hp.1).mp hsub⟩
  | object s => exact object_mem_chain hs
  | cloneable _ => exact absurd hp (not_primary_interface u.cloneable_interface.2)
  | serializable _ => exact absurd hp (not_primary_interface u.serializable_interface.2)
  | @covariant e f _ ih =>
    rw [chain, mem_append, mem_map]
    exact .inl ⟨f, ih hs ht (.of_objArray ht hp), rfl⟩

/-! ## The display -/

/-- What the supers of a class should be. -/
structure Display (u : Universe) (s : Klass) (r : KlassSupers) : Prop where
  primary : u.Primary s → r.superCheckOffset = .primary (u.depth s)
  secondary : ¬ u.Primary s → r.superCheckOffset = .secondary
  length : r.primarySupers.length = primarySuperLimit
  cells : ∀ i t, r.primarySupers[i]? = some (some t) ↔ t ∈ u.chain s ∧ u.Primary t ∧ u.depth t = i

namespace Display

variable {s t : Klass} {r : KlassSupers}

theorem canBePrimarySuper (hr : u.Display s r) : r.canBePrimarySuper = true ↔ u.Primary s := by
  rw [KlassSupers.canBePrimarySuper]
  by_cases hp : u.Primary s
  · rw [hr.primary hp]
    exact ⟨fun _ => hp, fun _ => rfl⟩
  · rw [hr.secondary hp]
    exact ⟨fun h => absurd h Bool.false_ne_true, fun h => absurd h hp⟩

theorem superDepth_of_primary (hr : u.Display s r) (hp : u.Primary s) : r.superDepth = u.depth s := by
  rw [KlassSupers.superDepth, hr.primary hp]

theorem superDepth_of_not_primary (hr : u.Display s r) (hp : ¬ u.Primary s) : r.superDepth = primarySuperLimit := by
  rw [KlassSupers.superDepth, hr.secondary hp]

end Display

theorem bottomKlass_objArray {e : Klass} : (Klass.objArray e).bottomKlass = e.bottomKlass := by
  cases e <;> rfl

theorem loaded_bottomKlass (hs : u.Loaded s) : u.Loaded s.bottomKlass := by
  induction s with
  | inst k => exact hs
  | typeArray b => exact hs
  | objArray e ih =>
    rw [bottomKlass_objArray]
    exact ih hs

theorem rank_bottomKlass_le (s : Klass) : rank s.bottomKlass ≤ rank s := by
  induction s with
  | inst k => exact le_rfl
  | typeArray b => exact le_rfl
  | objArray e ih =>
    rw [bottomKlass_objArray, rank]
    omega

theorem classBelow_bottomKlass : u.ClassBelow s.bottomKlass ↔ u.ClassBelow s := by
  induction s with
  | inst k => exact Iff.rfl
  | typeArray b => exact Iff.rfl
  | objArray e ih =>
    rw [bottomKlass_objArray]
    exact ih

theorem depth_bottomKlass_le (hs : u.Loaded s) : u.depth s.bottomKlass ≤ u.depth s := by
  induction s with
  | inst k => exact le_rfl
  | typeArray b => exact le_rfl
  | objArray e ih =>
    have hle := ih hs
    rw [bottomKlass_objArray, depth_objArray (e := e) hs]
    omega

variable {bottom : KlassSupers}

/-- The test of the code for a class with a superclass. -/
theorem canBePrimarySuperSlow_iff {r : KlassSupers} (hs : u.Loaded s) (hsuper : u.super s = some t)
    (hr : u.Display t r) (hbottom : ∀ e, s = .objArray e → u.Display s.bottomKlass bottom) :
    u.canBePrimarySuperSlow s (some r) bottom = true ↔ u.Primary s := by
  have hdepth := depth_super hs hsuper
  have hslow : (!decide (primarySuperLimit - 1 ≤ r.superDepth)) = true ↔ u.depth s < primarySuperLimit := by
    rw [Bool.not_eq_true', decide_eq_false_iff_not]
    by_cases hp : u.Primary t
    · rw [hr.superDepth_of_primary hp, primarySuperLimit]
      omega
    · have hle : ¬ u.depth t < primarySuperLimit := fun hlt => hp ⟨classBelow_super hs hsuper, hlt⟩
      rw [hr.superDepth_of_not_primary hp]
      omega
  cases s with
  | inst k =>
    rw [canBePrimarySuperSlow, Primary, ClassBelow]
    cases (u.table.cast k).isInterface with
    | true => simp
    | false => simpa using hslow
  | typeArray b =>
    rw [canBePrimarySuperSlow, Primary, ClassBelow]
    simpa using hslow
  | objArray e =>
    have hb := (hbottom e rfl).canBePrimarySuper
    have hle := depth_bottomKlass_le hs
    rw [canBePrimarySuperSlow]
    by_cases hp : bottom.canBePrimarySuper = true
    · rw [hp]
      simp only [Bool.not_true, Bool.false_eq_true, if_false]
      rw [hslow]
      exact ⟨fun hlt => ⟨classBelow_bottomKlass.mp (hb.mp hp).1, hlt⟩, fun h => h.2⟩
    · rw [Bool.not_eq_true] at hp
      rw [hp]
      refine ⟨fun h => absurd h Bool.false_ne_true, fun h => ?_⟩
      rw [hb.mpr ⟨classBelow_bottomKlass.mpr h.1, by have := h.2; omega⟩] at hp
      cases hp

theorem display_object : u.Display .object (.preinitialized .object) := by
  refine ⟨fun _ => by rw [depth_object]; rfl, fun hnot => absurd primary_object hnot, rfl, fun i t => ?_⟩
  rw [chain_object, mem_singleton]
  constructor
  · intro h
    cases i with
    | zero =>
      cases h
      exact ⟨rfl, primary_object, depth_object⟩
    | succ i =>
      have hmem := mem_of_getElem? (l := List.replicate (primarySuperLimit - 1) (none : Option Klass)) (i := i) h
      cases eq_of_mem_replicate hmem
  · rintro ⟨rfl, -, hi⟩
    rw [depth_object] at hi
    subst hi
    rfl

/-- The display of a class, from that of its superclass. -/
theorem display_initializePrimarySupers {r : KlassSupers} (hs : u.Loaded s)
    (hsuper : u.super s = some t) (hr : u.Display t r)
    (hbottom : ∀ e, s = .objArray e → u.Display s.bottomKlass bottom) :
    u.Display s (u.initializePrimarySupers s (some r) bottom) := by
  have hdepth := depth_super hs hsuper
  have hslow := canBePrimarySuperSlow_iff hs hsuper hr hbottom
  have hchain : ∀ t', t' ∈ u.chain s ↔ t' = s ∨ t' ∈ u.chain t := by
    intro t'
    rw [chain_super hs hsuper, mem_cons]
  have hbelow : ∀ t' ∈ u.chain t, u.depth t' < u.depth s := by
    intro t' ht'
    rcases (depth_le_of_mem_chain (hs.super hsuper) t' ht').2 with rfl | hlt <;> omega
  rw [initializePrimarySupers]
  by_cases hp : u.Primary s
  · have hpt : u.Primary t := ⟨classBelow_super hs hsuper, by have := hp.2; omega⟩
    have hmin : min (r.superDepth + 1) primarySuperLimit = u.depth s := by
      rw [hr.superDepth_of_primary hpt, ← hdepth]
      exact Nat.min_eq_left hp.2.le
    rw [hslow.mpr hp, Bool.not_true, if_neg Bool.false_ne_true, hmin, if_pos hp.2]
    have htake : (r.primarySupers.take (u.depth s)).length = u.depth s := by
      rw [length_take, hr.length]
      exact Nat.min_eq_left hp.2.le
    refine ⟨fun _ => rfl, fun hnot => absurd hp hnot, ?_, fun i t' => ?_⟩
    · have hlt := hp.2
      rw [length_append, htake, length_cons, length_replicate]
      omega
    rw [hchain]
    rcases lt_trichotomy i (u.depth s) with hi | rfl | hi
    · -- a cell copied from the superclass
      rw [List.getElem?_append_left (by rw [htake]; exact hi), List.getElem?_take_of_lt hi, hr.cells]
      refine ⟨fun ⟨h₁, h₂, h₃⟩ => ⟨.inr h₁, h₂, h₃⟩, ?_⟩
      rintro ⟨rfl | h₁, h₂, h₃⟩
      · omega
      · exact ⟨h₁, h₂, h₃⟩
    · rw [List.getElem?_append_right (by rw [htake]), htake, Nat.sub_self, List.getElem?_cons_zero]
      constructor
      · rintro ⟨⟩
        exact ⟨.inl rfl, hp, rfl⟩
      · rintro ⟨rfl | h₁, -, h₃⟩
        · rfl
        · have := hbelow t' h₁
          omega
    · rw [List.getElem?_append_right (by rw [htake]; omega), htake]
      constructor
      · intro h
        obtain ⟨j, hj⟩ : ∃ j, i - u.depth s = j + 1 := ⟨i - u.depth s - 1, by omega⟩
        rw [hj, List.getElem?_cons_succ] at h
        cases eq_of_mem_replicate (mem_of_getElem? h)
      · rintro ⟨rfl | h₁, -, h₃⟩
        · omega
        · have := hbelow t' h₁
          omega
  · have hfalse : u.canBePrimarySuperSlow s (some r) bottom = false := Bool.eq_false_iff.mpr (mt hslow.mp hp)
    rw [hfalse, Bool.not_false, if_pos rfl, if_neg (lt_irrefl _), take_of_length_le (by rw [hr.length])]
    refine ⟨fun h => absurd h hp, fun _ => rfl, hr.length, fun i t' => ?_⟩
    rw [hr.cells, hchain]
    refine ⟨fun ⟨h₁, h₂, h₃⟩ => ⟨.inr h₁, h₂, h₃⟩, ?_⟩
    rintro ⟨rfl | h₁, h₂, h₃⟩
    · exact absurd h₂ hp
    · exact ⟨h₁, h₂, h₃⟩

/-! ## The secondary supers -/

/-- The secondary supers of a class are its supertypes that are not primary, without itself. -/
def Secondaries (u : Universe) (s : Klass) (r : KlassSupers) : Prop :=
  ∀ t, t ∈ r.secondarySupers ↔ t ≠ s ∧ ¬ u.Primary t ∧ u.Subtype s t

theorem Subtype.loaded (hsub : u.Subtype s t) (hs : u.Loaded s) : u.Loaded t := by
  induction hsub with
  | refl s => exact hs
  | @inst k c hsub =>
    have hk : k < u.table.length := hs
    show c < u.table.length
    cases hc : (u.table.cast c).isInterface with
    | false =>
      have hle := ((isSubtype_class u.supertypes hc).mp hsub).le u.supertypes
      omega
    | true =>
      rcases (isSubtype_interface hc).mp hsub with rfl | hmem
      · exact hk
      · have hlt := (u.supertypes.mem_lt hmem).1
        omega
  | object s => exact loaded_object
  | cloneable _ => exact u.cloneable_interface.1
  | serializable _ => exact u.serializable_interface.1
  | covariant _ ih => exact ih hs

/-- The list that the code starts with, and the superclasses that do not fit in the display. -/
theorem mem_computeSecondarySupers {element : KlassSupers} (hs : u.Loaded s)
    (helement : ∀ e, s = .objArray e → u.Secondaries e element) (t : Klass) :
    (t ∈ u.computeSecondarySupers s element ∨ (t ≠ s ∧ t ∈ u.chain s) ∧ ¬ u.Primary t) ↔
      t ≠ s ∧ ¬ u.Primary t ∧ u.Subtype s t := by
  have hcloneable := not_primary_interface u.cloneable_interface.2
  have hserializable := not_primary_interface u.serializable_interface.2
  cases s with
  | inst k =>
    rw [computeSecondarySupers, mem_map]
    constructor
    · rintro (⟨i, hi, rfl⟩ | ⟨⟨hne, hchain⟩, hnot⟩)
      · obtain ⟨hlt, hinterface⟩ := u.supertypes.mem_lt hi
        refine ⟨?_, not_primary_interface hinterface, .inst ((isSubtype_interface hinterface).mpr (.inr hi))⟩
        rintro ⟨⟩
        exact lt_irrefl _ hlt
      · exact ⟨hne, hnot, .of_mem_chain hchain⟩
    · rintro ⟨hne, hnot, hsub⟩
      cases hsub with
      | refl => exact absurd rfl hne
      | object => exact absurd primary_object hnot
      | cloneable h => exact absurd rfl (h k)
      | serializable h => exact absurd rfl (h k)
      | @inst _ c hsub =>
        cases hc : (u.table.cast c).isInterface with
        | false =>
          have hsubclass := (isSubtype_class u.supertypes hc).mp hsub
          exact .inr ⟨⟨hne, mem_chain_inst.mpr ⟨c, rfl, hsubclass⟩⟩, hnot⟩
        | true =>
          rcases (isSubtype_interface hc).mp hsub with rfl | hmem
          · exact absurd rfl hne
          · exact .inl ⟨c, hmem, rfl⟩
  | typeArray b =>
    rw [computeSecondarySupers, chain]
    simp only [mem_cons, not_mem_nil, or_false]
    constructor
    · rintro ((rfl | rfl) | ⟨⟨hne, rfl | rfl⟩, hnot⟩)
      · exact ⟨by rintro ⟨⟩, hcloneable, .cloneable fun k h => by cases h⟩
      · exact ⟨by rintro ⟨⟩, hserializable, .serializable fun k h => by cases h⟩
      · exact absurd rfl hne
      · exact absurd primary_object hnot
    · rintro ⟨hne, hnot, hsub⟩
      cases hsub with
      | refl => exact absurd rfl hne
      | object => exact absurd primary_object hnot
      | cloneable _ => exact .inl (.inl rfl)
      | serializable _ => exact .inl (.inr rfl)
  | objArray e =>
    have he : u.Loaded e := hs
    rw [computeSecondarySupers]
    simp only [mem_cons, mem_map, helement e rfl _, ne_eq]
    constructor
    · rintro ((rfl | rfl | ⟨f, ⟨hne, hnot, hsub⟩, rfl⟩) | ⟨⟨hne, hchain⟩, hnot⟩)
      · exact ⟨by rintro ⟨⟩, hcloneable, .cloneable fun k h => by cases h⟩
      · exact ⟨by rintro ⟨⟩, hserializable, .serializable fun k h => by cases h⟩
      · refine ⟨?_, fun hp => hnot (.of_objArray (hsub.loaded he) hp), .covariant hsub⟩
        rintro ⟨⟩
        exact hne rfl
      · exact ⟨hne, hnot, .of_mem_chain hchain⟩
    · rintro ⟨hne, hnot, hsub⟩
      cases hsub with
      | refl => exact absurd rfl hne
      | object => exact absurd primary_object hnot
      | cloneable _ => exact .inl (.inl rfl)
      | serializable _ => exact .inl (.inr (.inl rfl))
      | @covariant _ f hsub =>
        by_cases hp : u.Primary f
        · -- a superclass of the elements in the last cell of the display
          refine .inr ⟨⟨hne, ?_⟩, hnot⟩
          rw [chain, mem_append, mem_map]
          exact .inl ⟨f, hsub.mem_chain he (hsub.loaded he) hp, rfl⟩
        · refine .inl (.inr (.inr ⟨f, ⟨?_, hp, hsub⟩, rfl⟩))
          rintro rfl
          exact hne rfl

structure Supers (u : Universe) (s : Klass) (r : KlassSupers) : Prop where
  display : u.Display s r
  secondaries : u.Secondaries s r

theorem takeWhile_congr {α : Type*} {p q : α → Bool} {l : List α} (h : ∀ a ∈ l, p a = q a) :
    l.takeWhile p = l.takeWhile q := by
  induction l with
  | nil => rfl
  | cons a l ih =>
    rw [forall_mem_cons] at h
    rw [takeWhile_cons, takeWhile_cons, h.1, ih h.2]

/-- The superclasses that do not fit in the display. -/
theorem mem_extras {above : List (Klass × KlassSupers)} (hs : u.Loaded s) (hsuper : u.super s = some t)
    (hmap : above.map Prod.fst = u.chain t) (habove : ∀ p ∈ above, u.Supers p.1 p.2) (t' : Klass) :
    t' ∈ (above.takeWhile fun p => !p.2.canBePrimarySuper).map Prod.fst ↔ t' ∈ u.chain t ∧ ¬ u.Primary t' := by
  classical
  have hsame : (above.takeWhile fun p => !p.2.canBePrimarySuper) =
      above.takeWhile ((fun t => decide (¬ u.Primary t)) ∘ Prod.fst) := by
    refine takeWhile_congr fun p hp => ?_
    rw [Bool.eq_iff_iff, Bool.not_eq_true', Bool.eq_false_iff, Function.comp_apply, decide_eq_true_iff]
    exact not_congr (habove p hp).display.canBePrimarySuper
  rw [hsame, ← takeWhile_map, hmap]
  exact mem_takeWhile_chain (hs.super hsuper) (fun _ ht => classBelow_of_mem_chain hs hsuper ht)
    (fun _ _ => decide_eq_true_iff) t'

theorem eq_cons_of_map_eq_chain {records : List (Klass × KlassSupers)} (hs : u.Loaded s)
    (hmap : records.map Prod.fst = u.chain s) : ∃ r rest, records = (s, r) :: rest := by
  obtain ⟨rest, hrest⟩ := chain_eq_cons hs
  rw [hrest] at hmap
  obtain ⟨⟨s', r⟩, records, rfl, rfl, -⟩ := map_eq_cons_iff.mp hmap
  exact ⟨r, records, rfl⟩

theorem supers_initializeSupers {above : List (Klass × KlassSupers)} {element : KlassSupers}
    (hs : u.Loaded s) (hmap : above.map Prod.fst = ((u.super s).map u.chain).getD [])
    (habove : ∀ p ∈ above, u.Supers p.1 p.2) (helement : ∀ e, s = .objArray e → u.Supers e element)
    (hbottom : ∀ e, s = .objArray e → u.Supers s.bottomKlass bottom) :
    u.Supers s (u.initializeSupers s above element bottom) := by
  have hcompute := mem_computeSecondarySupers hs fun e he => (helement e he).secondaries
  cases hsuper : u.super s with
  | none =>
    obtain rfl := (super_eq_none hs).mp hsuper
    rw [hsuper] at hmap
    obtain rfl := map_eq_nil_iff.mp hmap
    refine ⟨?_, fun t => ?_⟩
    · have hdisplay := display_object (u := u)
      exact ⟨hdisplay.primary, hdisplay.secondary, hdisplay.length, hdisplay.cells⟩
    rw [← hcompute t, chain_object, mem_singleton]
    refine ⟨fun ht => .inl ht, ?_⟩
    rintro (ht | ⟨⟨hne, heq⟩, -⟩)
    · exact ht
    · exact absurd heq hne
  | some t =>
    rw [hsuper] at hmap
    have ht := hs.super hsuper
    obtain ⟨r, rest, rfl⟩ := eq_cons_of_map_eq_chain ht hmap
    have hr := habove (t, r) mem_cons_self
    have hdisplay := display_initializePrimarySupers hs hsuper hr.display fun e he => (hbottom e he).display
    refine ⟨⟨hdisplay.primary, hdisplay.secondary, hdisplay.length, hdisplay.cells⟩, fun t' => ?_⟩
    have hextras := mem_extras hs hsuper hmap habove t'
    have hchain : t' ≠ s ∧ t' ∈ u.chain s ↔ t' ∈ u.chain t := by
      rw [chain_super hs hsuper, mem_cons]
      refine ⟨fun ⟨hne, h⟩ => h.resolve_left hne, fun h => ⟨?_, .inr h⟩⟩
      rintro rfl
      have hdepth := depth_super hs hsuper
      rcases (depth_le_of_mem_chain ht t' h).2 with rfl | hlt <;> omega
    have hcompute' := hcompute t'
    rw [hchain, ← hextras] at hcompute'
    rw [← hcompute', initializeSupers]
    simp only [contains_eq_mem, mem_append, mem_reverse, mem_filter, mem_map, Prod.exists, exists_and_right,
      exists_eq_right, Bool.not_eq_eq_eq_not, Bool.not_true, decide_eq_false_iff_not]
    tauto

/-- The supers of `k`, as they are known when another class is made. -/
def supersIn (u : Universe) (n : Nat) (k : Klass) : KlassSupers :=
  (u.superRecords n k).head?.elim (.preinitialized k) Prod.snd

def elementIn (u : Universe) (n : Nat) : Klass → KlassSupers
  | .objArray e => u.supersIn n e
  | k => .preinitialized k

def recordsAbove (u : Universe) (n : Nat) (k : Klass) : List (Klass × KlassSupers) :=
  match u.super k with
  | none => []
  | some s => u.superRecords n s

theorem superRecords_succ (n : Nat) (k : Klass) : u.superRecords (n + 1) k =
    (k, u.initializeSupers k (u.recordsAbove n k) (u.elementIn n k) (u.supersIn n k.bottomKlass)) :: u.recordsAbove n k := by
  cases k <;> rfl

theorem supers_superRecords {n : Nat} (hs : u.Loaded s) (hn : rank s < n) :
    (u.superRecords n s).map Prod.fst = u.chain s ∧ ∀ p ∈ u.superRecords n s, u.Supers p.1 p.2 := by
  induction n generalizing s with
  | zero => omega
  | succ n ih =>
    have hsupersIn : ∀ {s'}, u.Loaded s' → rank s' < n → u.Supers s' (u.supersIn n s') := by
      intro s' hs' hlt
      obtain ⟨hmap, hall⟩ := ih hs' hlt
      obtain ⟨r, rest, hrecords⟩ := eq_cons_of_map_eq_chain hs' hmap
      rw [supersIn, hrecords]
      rw [hrecords] at hall
      exact hall (s', r) mem_cons_self
    have habove : (u.recordsAbove n s).map Prod.fst = ((u.super s).map u.chain).getD [] ∧
        ∀ p ∈ u.recordsAbove n s, u.Supers p.1 p.2 := by
      rw [recordsAbove]
      cases hsuper : u.super s with
      | none => exact ⟨rfl, forall_mem_nil _⟩
      | some t =>
        have hlt := rank_super hs hsuper
        exact ih (hs.super hsuper) (by omega)
    have hself : u.Supers s
        (u.initializeSupers s (u.recordsAbove n s) (u.elementIn n s) (u.supersIn n s.bottomKlass)) := by
      refine supers_initializeSupers hs habove.1 habove.2 ?_ ?_
      · rintro e rfl
        rw [rank] at hn
        exact hsupersIn hs (by omega)
      rintro e rfl
      have hle := rank_bottomKlass_le e
      rw [rank] at hn
      rw [bottomKlass_objArray]
      exact hsupersIn (loaded_bottomKlass (s := e) hs) (by omega)
    rw [superRecords_succ]
    refine ⟨?_, forall_mem_cons.mpr ⟨hself, habove.2⟩⟩
    rw [map_cons, habove.1]
    cases hsuper : u.super s with
    | none =>
      rw [(super_eq_none hs).mp hsuper, chain_object]
      rfl
    | some t =>
      rw [chain_super hs hsuper]
      rfl

theorem supers_spec (hs : u.Loaded s) : u.Supers s (u.supers s) := by
  obtain ⟨hmap, hall⟩ := supers_superRecords hs (Nat.lt_succ_self (rank s))
  obtain ⟨r, rest, hrecords⟩ := eq_cons_of_map_eq_chain hs hmap
  rw [supers, hrecords]
  rw [hrecords] at hall
  exact hall (s, r) mem_cons_self

/-! ## The check -/

/-- The caches hold secondary supers only. -/
def CachesValid (u : Universe) (caches : Caches) : Prop :=
  ∀ s k, caches s = some k → u.Loaded s → k ∈ (u.supers s).secondarySupers

variable {caches : Caches}

theorem isSubtypeOf_valid (hvalid : u.CachesValid caches) (s k : Klass) :
    u.CachesValid (u.isSubtypeOf caches s k).2 := by
  rw [isSubtypeOf]
  split
  · exact hvalid
  split
  · exact hvalid
  rw [searchSecondarySupers]
  split
  · exact hvalid
  split
  · next hmem =>
    intro s' k' hcache hs'
    dsimp only at hcache
    rw [Function.update_apply] at hcache
    split at hcache
    · next heq =>
      cases hcache
      rw [heq]
      exact contains_iff_mem.mp hmem
    · exact hvalid s' k' hcache hs'
  · exact hvalid

theorem checks_valid (hvalid : u.CachesValid caches) (queries : List (Klass × Klass)) :
    u.CachesValid (u.checks caches queries) := by
  induction queries generalizing caches with
  | nil => exact hvalid
  | cons q queries ih => exact ih (isSubtypeOf_valid hvalid q.1 q.2)

theorem isSubtypeOf_iff (hvalid : u.CachesValid caches) {k : Klass} (hs : u.Loaded s)
    (hk : u.Loaded k) : (u.isSubtypeOf caches s k).1 = true ↔ u.Subtype s k := by
  have hsupers := supers_spec hs
  have hcell := (supers_spec hk).display
  rw [isSubtypeOf]
  by_cases hp : u.Primary k
  · rw [hcell.primary hp]
    rw [decide_eq_true_iff, getD_eq_getElem?_getD]
    have hmem : (u.supers s).primarySupers[u.depth k]?.getD none = some k ↔
        (u.supers s).primarySupers[u.depth k]? = some (some k) := by
      cases (u.supers s).primarySupers[u.depth k]? with
      | none => simp
      | some o => simp
    rw [hmem, hsupers.display.cells]
    exact ⟨fun h => .of_mem_chain h.1, fun h => ⟨h.mem_chain hs hk hp, hp, rfl⟩⟩
  · rw [hcell.secondary hp]
    dsimp only
    have hsecondary := hsupers.secondaries k
    split
    · next hcache => exact ⟨fun _ => (hsecondary.mp (hvalid s k hcache hs)).2.2, fun _ => rfl⟩
    rw [searchSecondarySupers]
    split
    · next heq =>
      rw [heq]
      exact ⟨fun _ => .refl k, fun _ => rfl⟩
    next hne =>
    split
    · next hmem => exact ⟨fun _ => (hsecondary.mp (contains_iff_mem.mp hmem)).2.2, fun _ => rfl⟩
    · next hmem =>
      refine ⟨fun h => absurd h Bool.false_ne_true, fun h => absurd ?_ hmem⟩
      exact contains_iff_mem.mpr (hsecondary.mpr ⟨Ne.symm hne, hp, h⟩)

/-- After any checks, the check of two classes decides the subtype relation. -/
theorem isSubtypeOf_checks_iff (u : Universe) (queries : List (Klass × Klass)) (s k : Klass) (hs : u.Loaded s)
    (hk : u.Loaded k) :
    (u.isSubtypeOf (u.checks (fun _ => none) queries) s k).1 = true ↔ u.Subtype s k :=
  isSubtypeOf_iff (checks_valid (fun s k h => by cases h) queries) hs hk

/-- `Object`, the interfaces of arrays, and a class that implements the second one. -/
def smallUniverse : Universe where
  toHierarchy :=
    ((Hierarchy.objectOnly.link ⟨some 0, true, true, false, false, "java/lang", [], []⟩ (by decide)).link
      ⟨some 0, true, true, false, false, "java/io", [], []⟩ (by decide)).link
      ⟨some 0, false, false, false, false, "", [2], []⟩ (by decide)
  cloneable := 1
  serializable := 2
  cloneable_interface := by decide
  serializable_interface := by decide

theorem isSubtypeOf_checks_smallUniverse :
    smallUniverse.Loaded (.objArray (.inst 3)) ∧ smallUniverse.Loaded (.objArray (.inst 2)) ∧
      ((smallUniverse.isSubtypeOf (smallUniverse.checks (fun _ => none) [(.inst 3, .inst 2), (.objArray (.inst 3), .inst 1)])
          (.objArray (.inst 3)) (.objArray (.inst 2))).1 = true ↔
        smallUniverse.Subtype (.objArray (.inst 3)) (.objArray (.inst 2))) := by
  have hs : smallUniverse.Loaded (.objArray (.inst 3)) := show 3 < smallUniverse.table.length by decide
  have hk : smallUniverse.Loaded (.objArray (.inst 2)) := show 2 < smallUniverse.table.length by decide
  exact ⟨hs, hk, isSubtypeOf_checks_iff smallUniverse _ _ _ hs hk⟩

end Hotspot.Oops.Universe
