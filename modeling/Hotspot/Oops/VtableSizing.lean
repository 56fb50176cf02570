-- SUMMARY: The size computed for a virtual method table against the entries written to it.
import Hotspot.Oops.VtableSlots

/-!
# The size of a virtual method table

The size looks up the superclasses by name, while the filling compares with the occupants of the
inherited slots. A method that the size gives a new slot always gets one. The converse fails when
the method the size counts on has left its slot to one with another access.
-/

namespace Hotspot.Oops.ClassTable

open List

variable {h : ClassTable}

/-! ## Where the methods of a table come from -/

/-- An instance method that the class `k` or a superclass declares. -/
structure Declares (h : ClassTable) (k : Nat) (m : MethodOop) : Prop where
  subclass : h.Subclass k m.holder
  find : (h.cast m.holder).findMethod m.method.name m.method.signature = some m.method
  nonstatic : m.method.isStatic = false

/-- A miranda of the class `k` or a superclass. -/
structure HasMiranda (h : ClassTable) (k : Nat) (m : MethodOop) : Prop where
  interface : m.holder ∈ (h.cast k).transitiveInterfaces
  find : (h.cast m.holder).findMethod m.method.name m.method.signature = some m.method
  flag : h.hasMirandaMethods k = true

def Inherits (h : ClassTable) (k : Nat) (m : MethodOop) : Prop := h.Declares k m ∨ h.HasMiranda k m

variable {k : Nat} {m : MethodOop}

theorem Inherits.of_super (hs : h.Supertypes) {s : Nat} (hsuper : (h.cast k).super = some s)
    (hm : h.Inherits s m) : h.Inherits k m := by
  rcases hm with ⟨hsub, hfind, hstatic⟩ | ⟨hmem, hfind, hflag⟩
  · exact .inl ⟨.head hsuper hsub, hfind, hstatic⟩
  · refine .inr ⟨(hs.transitiveInterfaces k _).mpr (.inl ⟨s, hsuper, hmem⟩), hfind, ?_⟩
    rw [hasMirandaMethods, superChain_super hs hsuper, any_cons, Bool.or_eq_true]
    exact .inr hflag

theorem findMethod_of_mem (hs : h.Supertypes) {t : Method} (ht : t ∈ (h.cast k).methods) :
    (h.cast k).findMethod t.name t.signature = some t := by
  have hdistinct := hs.methods k
  rw [InstanceKlass.findMethod]
  generalize (h.cast k).methods = ms at ht hdistinct
  induction ms with
  | nil => cases ht
  | cons t' ms ih =>
    rw [pairwise_cons] at hdistinct
    rw [List.find?_cons]
    rcases mem_cons.mp ht with rfl | ht
    · rw [decide_eq_true ⟨rfl, rfl⟩]
    · have hne : ¬ (t'.name = t.name ∧ t'.signature = t.signature) := hdistinct.1 t ht
      rw [decide_eq_false hne]
      exact ih ht hdistinct.2

theorem mem_methods_of_findMethod {name signature : String} {t : Method}
    (hfind : (h.cast k).findMethod name signature = some t) :
    t ∈ (h.cast k).methods ∧ t.name = name ∧ t.signature = signature :=
  ⟨mem_of_find?_eq_some hfind, by simpa using List.find?_some hfind⟩

theorem inherits_of_mem_methods (hs : h.Supertypes) {t : Method} (ht : t ∈ (h.cast k).methods)
    (hstatic : t.isStatic = false) : h.Inherits k ⟨k, t⟩ :=
  .inl ⟨.refl, findMethod_of_mem hs ht, hstatic⟩

theorem mem_addNewMirandasToList {i : Nat} {mir : List MethodOop}
    (hm : m ∈ h.addNewMirandasToList k mir i) : m ∈ mir ∨ m.holder = i ∧ m.method ∈ (h.cast i).methods := by
  rw [addNewMirandasToList] at hm
  generalize (h.cast i).methods = ms at hm ⊢
  induction ms generalizing mir with
  | nil => exact .inl hm
  | cons t ms ih =>
    rcases ih hm with hmem | ⟨hholder, hmem⟩
    · dsimp only at hmem
      split at hmem
      · rw [mem_append, mem_singleton] at hmem
        rcases hmem with hmem | rfl
        · exact .inl hmem
        · exact .inr ⟨rfl, mem_cons_self⟩
      · exact .inl hmem
    · exact .inr ⟨hholder, mem_cons_of_mem _ hmem⟩

theorem mem_getMirandas (hs : h.Supertypes) (hm : m ∈ h.getMirandas k) :
    m.holder ∈ (h.cast k).transitiveInterfaces ∧ m.method ∈ (h.cast m.holder).methods := by
  -- The lists of interfaces that the two loops run over are parts of the transitive interfaces.
  have hinner : ∀ (is : List Nat) (mir : List MethodOop), m ∈ is.foldl (h.addNewMirandasToList k) mir →
      m ∈ mir ∨ m.holder ∈ is ∧ m.method ∈ (h.cast m.holder).methods := by
    intro is
    induction is with
    | nil => exact fun mir hmem => .inl hmem
    | cons i is ih =>
      intro mir hmem
      rcases ih _ hmem with hmem | ⟨hholder, hmem⟩
      · rcases mem_addNewMirandasToList hmem with hmem | ⟨rfl, hmem⟩
        · exact .inl hmem
        · exact .inr ⟨mem_cons_self, hmem⟩
      · exact .inr ⟨mem_cons_of_mem _ hholder, hmem⟩
  have houter : ∀ (ls : List Nat) (mir : List MethodOop), (∀ l ∈ ls, l ∈ (h.cast k).localInterfaces) →
      m ∈ ls.foldl (fun mir l =>
        (h.cast l).transitiveInterfaces.foldl (h.addNewMirandasToList k) (h.addNewMirandasToList k mir l)) mir →
      m ∈ mir ∨ m.holder ∈ (h.cast k).transitiveInterfaces ∧ m.method ∈ (h.cast m.holder).methods := by
    intro ls
    induction ls with
    | nil => exact fun mir _ hmem => .inl hmem
    | cons l ls ih =>
      intro mir hls hmem
      rw [forall_mem_cons] at hls
      rcases ih _ hls.2 hmem with hmem | hdone
      · rcases hinner _ _ hmem with hmem | ⟨hholder, hmem⟩
        · rcases mem_addNewMirandasToList hmem with hmem | ⟨rfl, hmem⟩
          · exact .inl hmem
          · exact .inr ⟨(hs.transitiveInterfaces k _).mpr (.inr ⟨_, hls.1, .inl rfl⟩), hmem⟩
        · exact .inr ⟨(hs.transitiveInterfaces k _).mpr (.inr ⟨_, hls.1, .inr hholder⟩), hmem⟩
      · exact .inr hdone
  rcases houter _ [] (fun _ => id) hm with hmem | hdone
  · cases hmem
  · exact hdone

theorem superTable_cases (hs : h.Supertypes) {e : Option MethodOop} (he : e ∈ h.superTable k) :
    ∃ s, (h.cast k).super = some s ∧ e ∈ (h.vtable s).table := by
  cases hsuper : (h.cast k).super with
  | none =>
    rw [superTable, superVtables_none hsuper] at he
    cases he
  | some s =>
    rw [superTable_super hs hsuper] at he
    exact ⟨s, rfl, he⟩

theorem inherits_occupantIn (hs : h.Supertypes) (hm : h.Inherits k m) :
    h.Inherits k (h.occupantIn k m) := by
  rw [occupantIn]
  cases hfind : (h.cast k).findMethod m.method.name m.method.signature with
  | none => exact hm
  | some t =>
    dsimp only
    rw [occupantAfter]
    cases hover : h.overrides k t m with
    | false => exact hm
    | true =>
      rw [overrides, isVirtual] at hover
      simp only [Bool.and_eq_true, Bool.not_eq_true'] at hover
      exact inherits_of_mem_methods hs (mem_methods_of_findMethod hfind).1 hover.1.1.1.1

theorem inherits_of_mem_table (hs : h.Supertypes) (hm : some m ∈ (h.vtable k).table) :
    h.Inherits k m := by
  induction k using Nat.strong_induction_on generalizing m with
  | _ k ih =>
    have hmem := mem_of_mem_take hm
    rw [mem_append, vtable_written hs, mem_append, mem_append] at hmem
    rcases hmem with ((hmem | hmem) | hmem) | hmem
    · obtain ⟨e, he, hmap⟩ := mem_map.mp hmem
      obtain ⟨m', rfl, rfl⟩ := Option.map_eq_some_iff.mp hmap
      obtain ⟨s, hsuper, he⟩ := superTable_cases hs he
      exact inherits_occupantIn hs ((ih s (hs.super_lt hsuper).1 he).of_super hs hsuper)
    · obtain ⟨t, ht, hmap⟩ := mem_map.mp hmem
      cases hmap
      rw [mem_filter, allocatesNew, updateSuperVtable_allocateNew] at ht
      exact inherits_of_mem_methods hs ht.1 ht.2.1
    · obtain ⟨m', hm', hmap⟩ := mem_map.mp hmem
      cases hmap
      obtain ⟨hholder, hmem⟩ := mem_getMirandas hs hm'
      refine .inr ⟨hholder, findMethod_of_mem hs hmem, ?_⟩
      rw [hasMirandaMethods, any_eq_true]
      exact ⟨k, (mem_superChain hs (Nat.lt_succ_self k)).mpr .refl, decide_eq_true (length_pos_of_mem hm')⟩
    · cases eq_of_mem_replicate hmem

/-! ## The access of a slot -/

theorem occupantIn_sameSelector (k : Nat) (m : MethodOop) : (h.occupantIn k m).method.SameSelector m.method := by
  rw [occupantIn]
  cases hfind : (h.cast k).findMethod m.method.name m.method.signature with
  | none => exact ⟨rfl, rfl⟩
  | some t => exact occupantAfter_sameSelector k m t

theorem AccessType.max_eq_publicProtected {a b : AccessType} :
    a.max b = .accPublicProtected ↔ a = .accPublicProtected ∨ b = .accPublicProtected := by
  cases a <;> cases b <;> decide

/-- A slot is as accessible as its occupant, or as the slot in the superclass. -/
theorem vtableAccessibilityAt_publicProtected {table : VTable} {supers : List VTable} {i : Nat}
    (ha : vtableAccessibilityAt (table :: supers) i = .accPublicProtected) :
    ∃ m, table[i]? = some (some m) ∧
      (m.method.isPublicOrProtected = true ∨ vtableAccessibilityAt supers i = .accPublicProtected) := by
  rw [vtableAccessibilityAt] at ha
  rcases hentry : table[i]? with _ | _ | m
  · rw [hentry] at ha
    cases ha
  · rw [hentry] at ha
    cases ha
  refine ⟨m, rfl, ?_⟩
  rw [hentry] at ha
  dsimp only at ha
  cases hpublic : m.method.isPublicOrProtected with
  | true => exact .inl rfl
  | false =>
    rw [hpublic, if_neg Bool.false_ne_true, AccessType.max_eq_publicProtected] at ha
    refine .inr (ha.resolve_left ?_)
    split <;> decide

/-- In a slot with public or protected access there is, or was in a superclass, a public or
protected method. -/
theorem exists_publicOrProtected (hs : h.Supertypes) {i : Nat}
    (hm : (h.vtable k).table[i]? = some (some m))
    (ha : vtableAccessibilityAt (h.vtables (k + 1) k) i = .accPublicProtected) :
    ∃ m', h.Inherits k m' ∧ m'.method.isPublicOrProtected = true ∧ m'.method.SameSelector m.method := by
  induction k using Nat.strong_induction_on generalizing m with
  | _ k ih =>
    rw [vtables_eq hs] at ha
    obtain ⟨m₁, hm₁, hcases⟩ := vtableAccessibilityAt_publicProtected ha
    obtain rfl : m = m₁ := by simpa using hm.symm.trans hm₁
    rcases hcases with hpublic | hsupers
    · exact ⟨m, inherits_of_mem_table hs (mem_of_getElem? hm), hpublic, rfl, rfl⟩
    cases hsuper : (h.cast k).super with
    | none =>
      rw [superVtables_none hsuper] at hsupers
      cases hsupers
    | some s =>
      rw [superVtables_super hs hsuper, ← vtables_eq hs] at hsupers
      -- The slot is inherited, so its occupant has the same name and signature there.
      obtain ⟨m₀, hm₀, -⟩ := vtableAccessibilityAt_publicProtected (vtables_eq hs s ▸ hsupers)
      obtain ⟨m', hm', hpublic, hsel⟩ := ih s (hs.super_lt hsuper).1 hm₀ hsupers
      have hinherited := table_inherited hs (k := k) (i := i) (by
        rw [superTable_super hs hsuper]
        exact (List.getElem?_eq_some_iff.mp hm₀).1)
      rw [superTable_super hs hsuper, hm, hm₀, Option.map_some, Option.map_some] at hinherited
      obtain rfl := Option.some.inj (Option.some.inj hinherited)
      exact ⟨m', hm'.of_super hs hsuper, hpublic, hsel.trans (occupantIn_sameSelector k m₀).symm⟩

/-! ## The method that the size counts on -/

variable {tg : Method}

theorem matchAbove_iff (hs : h.Supertypes) {n c : Nat} (hn : c < n) :
    h.matchAbove k tg n (some c) = true ↔ ∃ m : MethodOop, h.Subclass c m.holder ∧
        (h.cast m.holder).findMethod tg.name tg.signature = some m.method ∧ h.reusesEntry k tg m = true := by
  induction n generalizing c with
  | zero => omega
  | succ n ih =>
    rw [matchAbove]
    cases hlookup : h.lookupMethod c tg.name tg.signature with
    | none =>
      refine ⟨fun hfalse => absurd hfalse Bool.false_ne_true, ?_⟩
      rintro ⟨m, hsub, hfind, -⟩
      rw [(lookupMethod_eq_none hs).mp hlookup m.holder hsub] at hfind
      cases hfind
    | some m₀ =>
      obtain ⟨hsub₀, hfind₀⟩ := findMethod_of_lookupMethod hs hlookup
      rw [Bool.or_eq_true]
      constructor
      · rintro (hreuses | habove)
        · exact ⟨m₀, hsub₀, hfind₀, hreuses⟩
        cases hsuper : (h.cast m₀.holder).super with
        | none =>
          rw [hsuper] at habove
          cases n <;> cases habove
        | some s =>
          have hlt := (hs.super_lt hsuper).1
          have hle := hsub₀.le hs
          rw [hsuper, ih (by omega)] at habove
          obtain ⟨m, hsub, hfind, hreuses⟩ := habove
          exact ⟨m, hsub₀.trans (.head hsuper hsub), hfind, hreuses⟩
      · rintro ⟨m, hsub, hfind, hreuses⟩
        have hbelow := subclass_of_lookupMethod hs hlookup hsub (by rw [hfind]; exact Option.some_ne_none _)
        rcases hbelow.cases_head with heq | ⟨s, hsuper, hsub'⟩
        · refine .inl ?_
          rw [← heq, hfind₀] at hfind
          obtain rfl : m₀ = m := by
            cases m
            cases m₀
            cases heq
            cases hfind
            rfl
          exact hreuses
        · have hlt := (hs.super_lt hsuper).1
          have hle := hsub₀.le hs
          rw [hsuper, ih (by omega)]
          exact .inr ⟨m, hsub', hfind, hreuses⟩

/-- A superclass has an entry for a method that `target` can re-use, as far as the size knows: a
method that a superclass declares, or a miranda. -/
def ReusesAbove (h : ClassTable) (k : Nat) (target : Method) : Prop :=
  ∃ s, (h.cast k).super = some s ∧ target.isPrivate = false ∧
    ((∃ m : MethodOop, h.Subclass s m.holder ∧
        (h.cast m.holder).findMethod target.name target.signature = some m.method ∧ h.reusesEntry k target m = true) ∨
      target.isPublicOrProtected = true ∧ h.hasMirandaMethods s = true ∧
        (h.lookupMethodInAllInterfaces s target.name target.signature).isSome = true)

theorem needsNewVtableEntry_iff (hs : h.Supertypes) : h.needsNewVtableEntry k tg = true ↔
      tg.isStatic = false ∧ h.isOpen k tg = true ∧ ¬ h.ReusesAbove k tg := by
  rw [needsNewVtableEntry, isOpen]
  cases hfinal : ((h.cast k).isFinal || tg.isFinal) with
  | true => simp
  | false =>
    cases hstatic : tg.isStatic with
    | true => simp
    | false =>
      cases hsuper : (h.cast k).super with
      | none => simp [ReusesAbove, hsuper]
      | some s =>
        dsimp only
        have hreuses : h.ReusesAbove k tg ↔ tg.isPrivate = false ∧
            (h.matchAbove k tg (s + 1) (some s) = true ∨
              tg.isPublicOrProtected = true ∧ h.hasMirandaMethods s = true ∧
                (h.lookupMethodInAllInterfaces s tg.name tg.signature).isSome = true) := by
          rw [matchAbove_iff hs (Nat.lt_succ_self s), ReusesAbove, hsuper]
          refine ⟨?_, fun hrest => ⟨s, rfl, hrest⟩⟩
          rintro ⟨s', hs', hrest⟩
          cases hs'
          exact hrest
        rw [hreuses]
        cases tg.isPrivate with
        | true => simp
        | false =>
          cases h.matchAbove k tg (s + 1) (some s) with
          | true => simp
          | false =>
            cases tg.isPublicOrProtected <;> cases h.hasMirandaMethods s <;>
              cases (h.lookupMethodInAllInterfaces s tg.name tg.signature).isSome <;> decide

/-- What a method shares a slot with is known to the size. -/
theorem SharesSlot.reusesAbove (hs : h.Supertypes) {i : Nat}
    (hshares : h.SharesSlot k (h.superVtables k) (h.superTable k) tg i) : h.ReusesAbove k tg := by
  have hvirtual := hshares.isVirtual
  obtain ⟨m, hm, hover, hsame⟩ := hshares
  obtain ⟨-, hsel, hmatch⟩ := overrides_iff.mp hover
  obtain ⟨s, hsuper, hmem⟩ := superTable_cases hs (mem_of_getElem? hm)
  rw [ClassTable.isVirtual, Bool.and_eq_true, Bool.not_eq_true'] at hvirtual
  refine ⟨s, hsuper, hvirtual.2, ?_⟩
  rw [superTable_super hs hsuper] at hm hsame
  rw [sameAccess, Bool.or_eq_true, Bool.and_eq_true, Bool.and_eq_true, Bool.and_eq_true, beq_iff_eq, beq_iff_eq] at hsame
  rcases hsame with ⟨ha, htarget⟩ | ⟨⟨ha, htarget⟩, hpackage⟩
  · have hfound : ∃ m', h.Inherits s m' ∧ m'.method.isPublicOrProtected = true ∧ m'.method.SameSelector m.method := by
      obtain ⟨m₁, hm₁, hpublic | hsupers⟩ := vtableAccessibilityAt_publicProtected ha
      · obtain rfl : m = m₁ := by simpa using hm.symm.trans hm₁
        exact ⟨m, inherits_of_mem_table hs hmem, hpublic, rfl, rfl⟩
      · rw [superVtables_super hs hsuper, ← vtables_eq hs] at hsupers
        exact exists_publicOrProtected hs hm hsupers
    obtain ⟨m', hinherits, hpublic, hsel'⟩ := hfound
    obtain ⟨hname, hsignature⟩ := hsel'.trans hsel.symm
    rcases hinherits with ⟨hsub, hfind, hstatic⟩ | ⟨hholder, hfind, hflag⟩
    · rw [hname, hsignature] at hfind
      refine .inl ⟨m', hsub, hfind, ?_⟩
      rw [reusesEntry, hstatic, htarget, hpublic]
      rfl
    · rw [hname, hsignature] at hfind
      refine .inr ⟨htarget, hflag, ?_⟩
      rw [lookupMethodInAllInterfaces, List.findSome?_isSome_iff]
      exact ⟨m'.holder, hholder, by rw [lookupMethod_self hfind]; rfl⟩
  · -- The occupant is package-private itself, so it is no miranda.
    have hnot : m.method.isPublicOrProtected = false := by
      by_contra hpublic
      rw [vtableAccessibilityAt, hm] at ha
      simp only [hpublic, if_true] at ha
      cases ha
    rw [simpleMatch, hnot, Bool.false_or, Bool.and_eq_true] at hmatch
    rcases inherits_of_mem_table hs hmem with ⟨hsub, hfind, hstatic⟩ | ⟨hholder, hfind, -⟩
    · rw [← hsel.1, ← hsel.2] at hfind
      refine .inl ⟨m, hsub, hfind, ?_⟩
      rw [reusesEntry, hstatic, htarget, hmatch.1, hpackage]
      simp
    · have hinterface := hs.interface_methods m.holder (hs.mem_lt hholder).2 m.method (mem_methods_of_findMethod hfind).1
      rw [Method.isPublicOrProtected, hinterface.2.2] at hnot
      cases hnot

/-! ## Size and filling -/

theorem countP_le_countP_iff {α : Type*} {p q : α → Bool} {l : List α} (hqp : ∀ x ∈ l, q x = true → p x = true) :
    l.countP p ≤ l.countP q ↔ ∀ x ∈ l, p x = true → q x = true := by
  refine ⟨fun hle => ?_, fun hpq => countP_mono_left hpq⟩
  induction l with
  | nil => simp
  | cons x l ih =>
    rw [forall_mem_cons] at hqp ⊢
    have hmono : l.countP q ≤ l.countP p := countP_mono_left hqp.2
    rw [countP_cons, countP_cons] at hle
    cases hq : q x with
    | true =>
      rw [hq, hqp.1 hq] at hle
      exact ⟨fun _ => rfl, ih hqp.2 (by omega)⟩
    | false =>
      cases hp : p x with
      | true =>
        rw [hq, hp] at hle
        simp only [if_true, Bool.false_eq_true, if_false] at hle
        omega
      | false =>
        rw [hq, hp] at hle
        exact ⟨fun hfalse => absurd hfalse Bool.false_ne_true, ih hqp.2 hle⟩

theorem allocatesNew_iff :
    h.allocatesNew k (h.superVtables k) tg = true ↔ tg.isStatic = false ∧ h.isOpen k tg = true ∧
      ∀ i, ¬ h.SharesSlot k (h.superVtables k) (h.superTable k) tg i := updateSuperVtable_allocateNew ..

/-- The entries written to a table fit in it just if each method that the size expects to re-use an
entry shares a slot with a method that is accessible to it. -/
theorem written_le_length_iff (h : Hierarchy) (k : Nat) :
    (h.table.vtable k).written.length ≤ (h.table.vtable k).length ↔
      ∀ t ∈ (h.table.cast k).methods, t.isStatic = false → h.table.isOpen k t = true → h.table.ReusesAbove k t →
        ∃ i, h.table.SharesSlot k (h.table.superVtables k) (h.table.superTable k) t i := by
  have hs := h.wf.toSupertypes
  have hlength : (h.table.vtable k).length = h.table.computeVtableSize (h.table.superTable k).length k := rfl
  have hneeds : ∀ t ∈ (h.table.cast k).methods, h.table.needsNewVtableEntry k t = true →
      h.table.allocatesNew k (h.table.superVtables k) t = true := by
    intro t _ ht
    rw [needsNewVtableEntry_iff hs] at ht
    rw [allocatesNew_iff]
    exact ⟨ht.1, ht.2.1, fun i hi => ht.2.2 (hi.reusesAbove hs)⟩
  rw [vtable_written hs, hlength, computeVtableSize]
  simp only [length_append, length_map, ← countP_eq_length_filter, Nat.add_le_add_iff_right,
    Nat.add_le_add_iff_left]
  rw [countP_le_countP_iff hneeds]
  refine forall₂_congr fun t _ => ?_
  rw [allocatesNew_iff, needsNewVtableEntry_iff hs, ← not_exists]
  tauto

def methodM (access : Access) : Method := ⟨"m", "()V", access, false, false, false, false, 0⟩

/-- A package-private method between two public ones, each in a package of its own. -/
def mixedAccess : Hierarchy :=
  ((Hierarchy.objectOnly.link
    ⟨some 0, false, false, false, false, "p", [], [methodM .publicAccess]⟩ (by decide)).link
    ⟨some 1, false, false, false, false, "q", [], [methodM .packagePrivate]⟩ (by decide)).link
    ⟨some 2, false, false, false, false, "r", [], [methodM .publicAccess]⟩ (by decide)

/-- The size counts on the entry of the first method, which is now that of the second. -/
theorem not_written_le_length_mixedAccess :
    ¬ (mixedAccess.table.vtable 3).written.length ≤ (mixedAccess.table.vtable 3).length := by
  decide

end Hotspot.Oops.ClassTable
