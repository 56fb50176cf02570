-- SUMMARY: What filling a vtable does to its slots and to the indices of the methods.
import Hotspot.Oops.KlassVtable
import Hotspot.Oops.Subtypes

/-!
# The slots of a virtual method table

The loops over the methods of a class and over the inherited slots are described slot by slot: the
new occupant of a slot depends on the old one only, and a method gets a new slot unless it shares
one.
-/

namespace Hotspot.Oops

open List

open Option hiding map_id map_id' map_map

namespace ClassTable

variable {h : ClassTable}

/-! ## Lookup along the superclasses -/

variable {k : Nat}

theorem superChain_of_lt (hs : h.Supertypes) {n : Nat} (hn : k < n) : h.superChain n k = h.superChain (k + 1) k := by
  induction k using Nat.strong_induction_on generalizing n with
  | _ k ih =>
    obtain ⟨n, rfl⟩ : ∃ n', n = n' + 1 := ⟨n - 1, by omega⟩
    rw [superChain, superChain]
    cases hsuper : (h.cast k).super with
    | none => rfl
    | some s =>
      have hlt := (hs.super_lt hsuper).1
      dsimp only
      rw [ih s hlt (by omega), ih s hlt hlt]

theorem superChain_super (hs : h.Supertypes) {s : Nat} (hsuper : (h.cast k).super = some s) :
    h.superChain (k + 1) k = k :: h.superChain (s + 1) s := by
  rw [superChain, hsuper]
  exact congrArg _ (superChain_of_lt hs (hs.super_lt hsuper).1)

theorem superChain_none (hsuper : (h.cast k).super = none) : h.superChain (k + 1) k = [k] := by
  rw [superChain, hsuper]

variable {name sig : String}

theorem lookupMethod_self {t : Method}
    (hfind : (h.cast k).findMethod name sig = some t) : h.lookupMethod k name sig = some ⟨k, t⟩ := by
  rw [lookupMethod, superChain]
  cases (h.cast k).super <;> rw [findSome?_cons, hfind, map_some]

theorem lookupMethod_super (hs : h.Supertypes) {s : Nat}
    (hsuper : (h.cast k).super = some s) (hfind : (h.cast k).findMethod name sig = none) :
    h.lookupMethod k name sig = h.lookupMethod s name sig := by
  rw [lookupMethod, superChain_super hs hsuper, findSome?_cons, hfind]
  rfl

theorem lookupMethod_eq_none (hs : h.Supertypes) : h.lookupMethod k name sig = none ↔
      ∀ c, h.Subclass k c → (h.cast c).findMethod name sig = none := by
  rw [lookupMethod, findSome?_eq_none_iff]
  simp [mem_superChain hs (Nat.lt_succ_self k), map_eq_none_iff]

variable {m : MethodOop}

theorem findMethod_of_lookupMethod (hs : h.Supertypes)
    (hlookup : h.lookupMethod k name sig = some m) :
    h.Subclass k m.holder ∧ (h.cast m.holder).findMethod name sig = some m.method := by
  obtain ⟨c, hc, hm⟩ := exists_of_findSome?_eq_some hlookup
  obtain ⟨t, ht, rfl⟩ := map_eq_some_iff.mp hm
  exact ⟨(mem_superChain hs (Nat.lt_succ_self k)).mp hc, ht⟩

/-- The lookup finds the nearest declaration. -/
theorem subclass_of_lookupMethod (hs : h.Supertypes) {c : Nat}
    (hlookup : h.lookupMethod k name sig = some m) (hsub : h.Subclass k c)
    (hc : (h.cast c).findMethod name sig ≠ none) : h.Subclass m.holder c := by
  induction hsub using Relation.ReflTransGen.head_induction_on with
  | refl =>
    obtain ⟨t, ht⟩ := ne_none_iff_exists'.mp hc
    rw [lookupMethod_self ht] at hlookup
    cases hlookup
    exact .refl
  | @head a s hsuper hsub ih =>
    cases hfind : (h.cast a).findMethod name sig with
    | none =>
      rw [lookupMethod_super hs hsuper hfind] at hlookup
      exact ih hlookup
    | some t =>
      rw [lookupMethod_self hfind] at hlookup
      cases hlookup
      exact .head hsuper hsub

/-! ## One method against the inherited slots -/

/-- The method can take the place of the occupant of a slot. -/
def isVirtual (h : ClassTable) (k : Nat) (target : Method) : Bool :=
  !target.isStatic && (h.cast k).super.isSome && !target.isPrivate

def overrides (h : ClassTable) (k : Nat) (target : Method) (m : MethodOop) : Bool :=
  h.isVirtual k target && target.SameSelector m.method && h.simpleMatch k m

theorem overrides_iff {tg : Method} : h.overrides k tg m = true ↔
    h.isVirtual k tg = true ∧ tg.SameSelector m.method ∧ h.simpleMatch k m = true := by
  simp [overrides, and_assoc]

/-- The occupant of a slot when `target`, declared in `k`, has been entered. -/
def occupantAfter (h : ClassTable) (k : Nat) (m : MethodOop) (target : Method) : MethodOop :=
  if h.overrides k target m then ⟨k, target⟩ else m

/-- `target` shares the slot `i`. -/
def SharesSlot (h : ClassTable) (k : Nat) (supers : List VTable) (table : VTable) (target : Method) (i : Nat) : Prop :=
  ∃ m, table[i]? = some (some m) ∧ h.overrides k target m = true ∧
    h.sameAccess k target m (vtableAccessibilityAt (table :: supers) i) = true

variable {tb : VTable} {ss : List VTable} {i : Nat}

theorem vtableAccessibilityAt_congr {table' : VTable} (htable : tb[i]? = table'[i]?) :
    vtableAccessibilityAt (tb :: ss) i = vtableAccessibilityAt (table' :: ss) i := by
  rw [vtableAccessibilityAt, vtableAccessibilityAt, htable]

variable {tg : Method}

theorem sharesSlot_congr {table' : VTable} (htable : tb[i]? = table'[i]?) :
    h.SharesSlot k ss tb tg i ↔ h.SharesSlot k ss table' tg i := by
  rw [SharesSlot, SharesSlot, vtableAccessibilityAt_congr htable, htable]

section UpdateSlot

variable {u : UpdatedVtable} {n : Nat} (hv : h.isVirtual k tg = true)
include hv

/-- What the loop does at one slot. -/
theorem updateSlot_cases : h.updateSlot k ss tg u n = u ∧ (∀ m, u.table[n]? = some (some m) → h.overrides k tg m = false) ∨
    ∃ m, u.table[n]? = some (some m) ∧ h.overrides k tg m = true ∧
      h.updateSlot k ss tg u n = if h.sameAccess k tg m (vtableAccessibilityAt (u.table :: ss) n)
        then ⟨u.table.set n (some ⟨k, tg⟩), false, some n⟩
        else ⟨u.table.set n (some ⟨k, tg⟩), u.allocateNew, u.vtableIndex⟩ := by
  rw [updateSlot]
  rcases hentry : u.table[n]? with _ | _ | m
  · exact .inl ⟨rfl, nofun⟩
  · exact .inl ⟨rfl, nofun⟩
  cases hover : h.overrides k tg m with
  | true => exact .inr ⟨m, rfl, hover, if_pos (by simpa using (overrides_iff.mp hover).2)⟩
  | false =>
    refine .inl ⟨if_neg fun hboth => ?_, fun m' hm' => ?_⟩
    · rw [overrides_iff.mpr ⟨hv, by simpa using hboth⟩] at hover
      cases hover
    · cases hm'
      exact hover

theorem updateSlot_table (i : Nat) : (h.updateSlot k ss tg u n).table[i]? =
    if i = n then u.table[n]?.map (Option.map (h.occupantAfter k · tg)) else u.table[i]? := by
  rcases updateSlot_cases hv with ⟨heq, hover⟩ | ⟨m, hm, hover, heq⟩
  · rw [heq]
    split
    · next hi =>
      rcases hentry : u.table[n]? with _ | _ | m
      · rw [hi, hentry, map_none]
      · rw [hi, hentry, map_some, map_none]
      · rw [hi, hentry, map_some, map_some, occupantAfter, hover m hentry, if_neg Bool.false_ne_true]
    · rfl
  · have htable : (h.updateSlot k ss tg u n).table = u.table.set n (some ⟨k, tg⟩) := by
      rw [heq]
      split <;> rfl
    rw [htable]
    split
    · next hi =>
      rw [hi, getElem?_set_self (List.getElem?_eq_some_iff.mp hm).1, hm, map_some, map_some, occupantAfter, if_pos hover]
    · next hi => exact getElem?_set_ne (Ne.symm hi)

theorem updateSlot_shares (ss : List VTable) (u : UpdatedVtable) (n : Nat) : ((h.updateSlot k ss tg u n).allocateNew = true ↔
      u.allocateNew = true ∧ ¬ h.SharesSlot k ss u.table tg n) ∧
    ∀ i, (h.updateSlot k ss tg u n).vtableIndex = some i → u.vtableIndex = some i ∨
      i = n ∧ h.SharesSlot k ss u.table tg n := by
  rcases updateSlot_cases hv with ⟨heq, hover⟩ | ⟨m, hm, hover, heq⟩
  · rw [heq]
    refine ⟨⟨fun hnew => ⟨hnew, ?_⟩, And.left⟩, fun i => .inl⟩
    rintro ⟨m, hm, hover', -⟩
    rw [hover m hm] at hover'
    cases hover'
  · rw [heq]
    split
    · next hsame =>
      have hshares : h.SharesSlot k ss u.table tg n := ⟨m, hm, hover, hsame⟩
      exact ⟨⟨nofun, fun hnot => absurd hshares hnot.2⟩, fun i hi => .inr ⟨(Option.some.inj hi).symm, hshares⟩⟩
    · next hsame =>
      refine ⟨⟨fun hnew => ⟨hnew, ?_⟩, And.left⟩, fun i => .inl⟩
      rintro ⟨m', hm', -, hsame'⟩
      cases hm.symm.trans hm'
      exact hsame hsame'

end UpdateSlot

/-- The result of the loop over the first `n` slots. -/
structure SlotsUpdated (h : ClassTable) (k : Nat) (supers : List VTable) (table : VTable) (target : Method)
    (allocateNew : Bool) (n : Nat) (u : UpdatedVtable) : Prop where
  slot : ∀ i, u.table[i]? = if i < n then table[i]?.map (Option.map (h.occupantAfter k · target)) else table[i]?
  allocateNew : u.allocateNew = true ↔ allocateNew = true ∧ ∀ i < n, ¬ h.SharesSlot k supers table target i
  vtableIndex : ∀ i, u.vtableIndex = some i → h.SharesSlot k supers table target i

theorem slotsUpdated_foldl (allocateNew : Bool) (hv : h.isVirtual k tg = true) (n : Nat) :
    h.SlotsUpdated k ss tb tg allocateNew n
      ((List.range n).foldl (h.updateSlot k ss tg) ⟨tb, allocateNew, none⟩) := by
  induction n with
  | zero => exact ⟨fun i => rfl, by simp, nofun⟩
  | succ n ih =>
    rw [range_succ, foldl_append, foldl_cons, foldl_nil]
    generalize (range n).foldl (h.updateSlot k ss tg) ⟨tb, allocateNew, none⟩ = u at ih
    have hn : u.table[n]? = tb[n]? := by rw [ih.slot, if_neg (Nat.lt_irrefl n)]
    obtain ⟨hnew, hindex⟩ := updateSlot_shares hv ss u n
    rw [sharesSlot_congr hn] at hnew hindex
    refine ⟨fun i => ?_, ?_, fun i hi => ?_⟩
    · rw [updateSlot_table hv, hn]
      rcases Nat.lt_trichotomy i n with hi | rfl | hi
      · rw [if_neg hi.ne, ih.slot, if_pos hi, if_pos (by omega)]
      · rw [if_pos rfl, if_pos (Nat.lt_succ_self i)]
      · rw [if_neg hi.ne', ih.slot, if_neg (by omega), if_neg (by omega)]
    · rw [hnew, ih.allocateNew, Nat.forall_lt_succ_right, and_assoc]
    · rcases hindex i hi with hi | ⟨rfl, hshares⟩
      · exact ih.vtableIndex i hi
      · exact hshares

theorem occupantAfter_of_not_virtual (hv : h.isVirtual k tg = false)
    (m : MethodOop) : h.occupantAfter k m tg = m := by
  rw [occupantAfter, overrides, hv, Bool.false_and, Bool.false_and, if_neg Bool.false_ne_true]

theorem SharesSlot.isVirtual (hsh : h.SharesSlot k ss tb tg i) : h.isVirtual k tg = true := by
  obtain ⟨m, -, hover, -⟩ := hsh
  exact (overrides_iff.mp hover).1

theorem SharesSlot.lt (hsh : h.SharesSlot k ss tb tg i) : i < tb.length := by
  obtain ⟨m, hm, -⟩ := hsh
  exact (List.getElem?_eq_some_iff.mp hm).1

section UpdateSuperVtable

variable (h) (k : Nat) (ss : List VTable) (tb : VTable) (tg target : Method)

/-- A class and a method that are not final. -/
def isOpen : Bool := !((h.cast k).isFinal || target.isFinal)

theorem updateSuperVtable_virtual {h : ClassTable} {k : Nat} {tg : Method} (hv : h.isVirtual k tg = true) :
    h.updateSuperVtable k ss tb tg =
      (List.range tb.length).foldl (h.updateSlot k ss tg) ⟨tb, h.isOpen k tg, none⟩ := by
  rw [isVirtual, Bool.and_eq_true, Bool.and_eq_true, Bool.not_eq_true', Bool.not_eq_true'] at hv
  obtain ⟨⟨hstatic, hsuper⟩, hprivate⟩ := hv
  rw [updateSuperVtable, hstatic, if_neg Bool.false_ne_true, hprivate, Bool.or_false, if_neg, isOpen]
  rw [← not_isSome, hsuper]
  exact Bool.false_ne_true

theorem updateSuperVtable_not_virtual {h : ClassTable} {k : Nat} {tg : Method}
    (hv : h.isVirtual k tg = false) :
    h.updateSuperVtable k ss tb tg = ⟨tb, !tg.isStatic && h.isOpen k tg, none⟩ := by
  rw [updateSuperVtable]
  cases hstatic : tg.isStatic with
  | true => rfl
  | false =>
    rw [isVirtual, hstatic, Bool.not_false, Bool.true_and, Bool.and_eq_false_iff, Bool.not_eq_false'] at hv
    have hcond : ((h.cast k).super.isNone || tg.isPrivate) = true := by
      rw [Bool.or_eq_true, ← isSome_eq_false_iff]
      exact hv
    rw [if_neg Bool.false_ne_true, hcond, if_pos rfl, isOpen, Bool.not_false, Bool.true_and]

theorem updateSuperVtable_table :
    (h.updateSuperVtable k ss tb tg).table = tb.map (Option.map (h.occupantAfter k · tg)) := by
  cases hv : h.isVirtual k tg with
  | false =>
    rw [updateSuperVtable_not_virtual ss tb hv]
    have hid : (Option.map fun m => h.occupantAfter k m tg) = id := by
      funext e
      simp only [occupantAfter_of_not_virtual hv, Option.map_id']
      rfl
    rw [hid, map_id]
  | true =>
    rw [updateSuperVtable_virtual ss tb hv]
    apply ext_getElem?
    intro i
    rw [(slotsUpdated_foldl (h.isOpen k tg) hv tb.length).slot, getElem?_map]
    by_cases hi : i < tb.length
    · rw [if_pos hi]
    · rw [if_neg hi, getElem?_eq_none (Nat.not_lt.mp hi), map_none]

theorem updateSuperVtable_allocateNew : (h.updateSuperVtable k ss tb tg).allocateNew = true ↔
      tg.isStatic = false ∧ h.isOpen k tg = true ∧ ∀ i, ¬ h.SharesSlot k ss tb tg i := by
  cases hv : h.isVirtual k tg with
  | false =>
    rw [updateSuperVtable_not_virtual ss tb hv, Bool.and_eq_true, Bool.not_eq_true']
    refine and_congr_right fun _ => ⟨fun hopen => ⟨hopen, fun i hi => ?_⟩, fun hopen => hopen.1⟩
    rw [hi.isVirtual] at hv
    cases hv
  | true =>
    rw [updateSuperVtable_virtual ss tb hv,
      (slotsUpdated_foldl (h.isOpen k tg) hv tb.length).allocateNew]
    rw [isVirtual, Bool.and_eq_true, Bool.and_eq_true, Bool.not_eq_true'] at hv
    exact ⟨fun ⟨hopen, hall⟩ => ⟨hv.1.1, hopen, fun i hi => hall i hi.lt hi⟩,
      fun ⟨_, hopen, hall⟩ => ⟨hopen, fun i _ => hall i⟩⟩

theorem updateSuperVtable_vtableIndex {i : Nat}
    (hi : (h.updateSuperVtable k ss tb tg).vtableIndex = some i) : h.SharesSlot k ss tb tg i := by
  cases hv : h.isVirtual k tg with
  | false =>
    rw [updateSuperVtable_not_virtual ss tb hv] at hi
    cases hi
  | true =>
    rw [updateSuperVtable_virtual ss tb hv] at hi
    exact (slotsUpdated_foldl (h.isOpen k tg) hv tb.length).vtableIndex i hi

end UpdateSuperVtable

/-! ## The methods of the class -/

theorem occupantAfter_sameSelector (k : Nat) (m : MethodOop) (tg : Method) :
    (h.occupantAfter k m tg).method.SameSelector m.method := by
  rw [occupantAfter]
  split
  · next hover => exact (overrides_iff.mp hover).2.1
  · exact ⟨rfl, rfl⟩

theorem occupantAfter_of_distinct (hd : ¬ tg.SameSelector m.method) : h.occupantAfter k m tg = m :=
  if_neg fun hover => hd (overrides_iff.mp hover).2.1

theorem foldl_occupantAfter_sameSelector (k : Nat) (ms : List Method) (m : MethodOop) :
    (ms.foldl (h.occupantAfter k) m).method.SameSelector m.method := by
  induction ms generalizing m with
  | nil => exact ⟨rfl, rfl⟩
  | cons t ms ih => exact (ih _).trans (occupantAfter_sameSelector k m t)

theorem foldl_occupantAfter_of_distinct {ms : List Method}
    (hd : ∀ t ∈ ms, ¬ t.SameSelector m.method) : ms.foldl (h.occupantAfter k) m = m := by
  induction ms with
  | nil => rfl
  | cons t ms ih =>
    rw [forall_mem_cons] at hd
    rw [foldl_cons, occupantAfter_of_distinct hd.1, ih hd.2]

/-- The occupant of a slot in the class `k`, from the occupant in the superclass. -/
def occupantIn (h : ClassTable) (k : Nat) (m : MethodOop) : MethodOop :=
  match (h.cast k).findMethod m.method.name m.method.signature with
  | none => m
  | some t => h.occupantAfter k m t

theorem foldl_occupantAfter (hs : h.Supertypes) (k : Nat) (m : MethodOop) :
    (h.cast k).methods.foldl (h.occupantAfter k) m = h.occupantIn k m := by
  have hd := hs.methods k
  rw [occupantIn, InstanceKlass.findMethod]
  generalize (h.cast k).methods = ms at hd
  induction ms with
  | nil => rfl
  | cons t ms ih =>
    rw [pairwise_cons] at hd
    rw [foldl_cons, find?_cons]
    by_cases heq : t.name = m.method.name ∧ t.signature = m.method.signature
    · rw [decide_eq_true heq]
      refine foldl_occupantAfter_of_distinct fun t' ht' hsame => hd.1 t' ht' ?_
      exact Method.SameSelector.trans heq (hsame.trans (occupantAfter_sameSelector k m t)).symm
    · rw [decide_eq_false heq, occupantAfter_of_distinct heq]
      exact ih hd.2

/-- The methods before do not change the slots that `tg` can share. -/
theorem sharesSlot_foldl {done : List Method} (hd : ∀ t ∈ done, ¬ t.SameSelector tg) (i : Nat) :
    h.SharesSlot k ss (tb.map (Option.map (done.foldl (h.occupantAfter k)))) tg i ↔
      h.SharesSlot k ss tb tg i := by
  have hsame : ∀ m, tb[i]? = some (some m) → tg.SameSelector m.method →
      (tb.map (Option.map (done.foldl (h.occupantAfter k))))[i]? = tb[i]? := by
    intro m hm hsel
    have hfold : done.foldl (h.occupantAfter k) m = m :=
      foldl_occupantAfter_of_distinct fun t ht hsame => hd t ht (hsame.trans hsel.symm)
    rw [getElem?_map, hm, map_some, map_some, hfold]
  constructor
  · intro hsh
    have ⟨m', hm', hover, _⟩ := hsh
    rw [getElem?_map] at hm'
    obtain ⟨e, he, hmap⟩ := map_eq_some_iff.mp hm'
    obtain ⟨m, rfl, rfl⟩ := map_eq_some_iff.mp hmap
    have hsel := (overrides_iff.mp hover).2.1.trans (foldl_occupantAfter_sameSelector k done m)
    exact (sharesSlot_congr (hsame m he hsel)).mp hsh
  · intro hsh
    have ⟨m, hm, hover, _⟩ := hsh
    exact (sharesSlot_congr (hsame m hm (overrides_iff.mp hover).2.1)).mpr hsh

/-- The method gets a new slot. -/
def allocatesNew (h : ClassTable) (k : Nat) (supers : List VTable) (target : Method) : Bool :=
  (h.updateSuperVtable k supers (supers.headD []) target).allocateNew

/-- The state of the loop over the methods when it has dealt with `done`. -/
structure Filled (h : ClassTable) (k : Nat) (supers : List VTable) (done : List Method) (f : Filling) : Prop where
  inherited : f.inherited = (supers.headD []).map (Option.map (done.foldl (h.occupantAfter k)))
  added : f.added = (done.filter (h.allocatesNew k supers)).map (MethodOop.mk k)
  indices : ∀ t i, (t, some i) ∈ f.indices → h.SharesSlot k supers (supers.headD []) t i ∨
    (supers.headD []).length ≤ i ∧ f.added[i - (supers.headD []).length]? = some ⟨k, t⟩
  methods : ∀ p ∈ f.indices, p.1 ∈ done

theorem Filled.fillMethod {done : List Method} {f : Filling}
    (hf : h.Filled k ss done f) (hd : ∀ t ∈ done, ¬ t.SameSelector tg) :
    h.Filled k ss (done ++ [tg]) (h.fillMethod k ss f tg) := by
  have hsh (i : Nat) : h.SharesSlot k ss f.inherited tg i ↔
      h.SharesSlot k ss (ss.headD []) tg i := by
    rw [hf.inherited]
    exact sharesSlot_foldl hd i
  have hallocate : (h.updateSuperVtable k ss f.inherited tg).allocateNew = h.allocatesNew k ss tg := by
    rw [Bool.eq_iff_iff, allocatesNew, updateSuperVtable_allocateNew, updateSuperVtable_allocateNew]
    simp [hsh]
  have htable : (h.updateSuperVtable k ss f.inherited tg).table =
      (ss.headD []).map (Option.map ((done ++ [tg]).foldl (h.occupantAfter k))) := by
    rw [updateSuperVtable_table, hf.inherited, map_map]
    refine map_congr_left fun e _ => ?_
    rw [Function.comp_apply, Option.map_map]
    simp only [foldl_append, foldl_cons, foldl_nil]
    rfl
  have hmethods (o : Option Nat) : ∀ p ∈ f.indices ++ [(tg, o)], p.1 ∈ done ++ [tg] := by
    intro p hp
    rw [mem_append, mem_singleton] at hp ⊢
    rcases hp with hp | rfl
    · exact .inl (hf.methods p hp)
    · exact .inr rfl
  rw [ClassTable.fillMethod, hallocate]
  cases hnew : h.allocatesNew k ss tg with
  | false =>
    rw [if_neg Bool.false_ne_true]
    refine ⟨htable, ?_, ?_, hmethods _⟩
    · rw [filter_append, filter_singleton, hnew]
      simpa using hf.added
    intro t i hmem
    rw [mem_append, mem_singleton] at hmem
    rcases hmem with hmem | heq
    · exact hf.indices t i hmem
    · obtain ⟨rfl, hi⟩ := Prod.mk.inj heq
      exact .inl ((hsh i).mp (updateSuperVtable_vtableIndex h k ss f.inherited t hi.symm))
  | true =>
    rw [if_pos rfl]
    refine ⟨htable, ?_, ?_, hmethods _⟩
    · rw [filter_append, filter_singleton, hnew, hf.added]
      simp
    intro t i hmem
    rw [mem_append, mem_singleton] at hmem
    rcases hmem with hmem | heq
    · refine (hf.indices t i hmem).imp_right fun ⟨hle, hget⟩ => ⟨hle, ?_⟩
      rw [getElem?_append_left (List.getElem?_eq_some_iff.mp hget).1]
      exact hget
    obtain ⟨rfl, hi⟩ := Prod.mk.inj heq
    cases hi
    rw [htable, length_map]
    refine .inr ⟨Nat.le_add_right _ _, ?_⟩
    rw [Nat.add_sub_cancel_left]
    exact getElem?_concat_length

theorem filled_methods (hs : h.Supertypes) (k : Nat) (ss : List VTable) :
    h.Filled k ss (h.cast k).methods
      ((h.cast k).methods.foldl (h.fillMethod k ss) ⟨ss.headD [], [], []⟩) := by
  have hrun : ∀ (ms done : List Method) (f : Filling), (done ++ ms).Pairwise (¬ Method.SameSelector · ·) → h.Filled k ss done f →
      h.Filled k ss (done ++ ms) (ms.foldl (h.fillMethod k ss) f) := by
    intro ms
    induction ms with
    | nil =>
      intro done f _ hf
      rw [append_nil]
      exact hf
    | cons t ms ih =>
      intro done f hd hf
      have hdone : ∀ t' ∈ done, ¬ t'.SameSelector t := fun t' ht' =>
        (pairwise_append.mp hd).2.2 t' ht' t mem_cons_self
      have happend : done ++ t :: ms = (done ++ [t]) ++ ms := by rw [append_assoc, singleton_append]
      rw [happend] at hd ⊢
      exact ih _ _ hd (hf.fillMethod hdone)
  refine hrun (h.cast k).methods [] _ (hs.methods k) ⟨?_, rfl, ?_, forall_mem_nil _⟩
  rotate_left
  · intro t i hmem
    cases hmem
  have hid : Option.map (([] : List Method).foldl (h.occupantAfter k)) = id := by
    funext e
    cases e <;> rfl
  rw [hid, map_id]

/-! ## The whole table -/

theorem vtables_of_lt (hs : h.Supertypes) {n : Nat} (hn : k < n) : h.vtables n k = h.vtables (k + 1) k := by
  induction k using Nat.strong_induction_on generalizing n with
  | _ k ih =>
    obtain ⟨n, rfl⟩ : ∃ n', n = n' + 1 := ⟨n - 1, by omega⟩
    rw [vtables, vtables]
    cases hsuper : (h.cast k).super with
    | none => rfl
    | some s =>
      have hlt := (hs.super_lt hsuper).1
      dsimp only
      rw [ih s hlt (by omega), ih s hlt hlt]

theorem vtables_eq (hs : h.Supertypes) (k : Nat) : h.vtables (k + 1) k = (h.vtable k).table :: h.superVtables k := by
  rw [vtables, vtable, superVtables]
  cases hsuper : (h.cast k).super with
  | none => rfl
  | some s =>
    dsimp only
    rw [vtables_of_lt hs (hs.super_lt hsuper).1]

theorem superVtables_super (hs : h.Supertypes) {s : Nat} (hsuper : (h.cast k).super = some s) :
    h.superVtables k = (h.vtable s).table :: h.superVtables s := by
  rw [superVtables, hsuper, ← vtables_eq hs]

theorem superVtables_none (hsuper : (h.cast k).super = none) : h.superVtables k = [] := by
  rw [superVtables, hsuper]

/-- The slots that `k` inherits. -/
def superTable (h : ClassTable) (k : Nat) : VTable := (h.superVtables k).headD []

theorem vtable_written (hs : h.Supertypes) (k : Nat) :
    (h.vtable k).written = (h.superTable k).map (Option.map (h.occupantIn k)) ++
      ((h.cast k).methods.filter (h.allocatesNew k (h.superVtables k))).map (some ∘ MethodOop.mk k) ++
      (h.getMirandas k).map some := by
  have hf := filled_methods hs k (h.superVtables k)
  rw [vtable, initializeVtable]
  dsimp only
  rw [hf.inherited, hf.added, map_map, superTable]
  congr 3
  funext e
  congr 1
  funext m
  exact foldl_occupantAfter hs k m

theorem length_table (v : KlassVtable) : v.table.length = v.length := by
  rw [KlassVtable.table, length_take, length_append, length_replicate]
  omega

theorem getElem?_table {v : KlassVtable} (hi : i < v.length) (hw : i < v.written.length) :
    v.table[i]? = v.written[i]? := by
  rw [KlassVtable.table, getElem?_take_of_lt hi, getElem?_append_left hw]

theorem superTable_length_le (k : Nat) : (h.superTable k).length ≤ (h.vtable k).length := by
  show _ ≤ h.computeVtableSize (h.superTable k).length k
  rw [computeVtableSize]
  omega

/-- An inherited slot holds the overriding method of the class, or what it held before. -/
theorem table_inherited (hs : h.Supertypes) (hi : i < (h.superTable k).length) :
    (h.vtable k).table[i]? = (h.superTable k)[i]?.map (Option.map (h.occupantIn k)) := by
  have hle := superTable_length_le (h := h) k
  have hwritten := vtable_written hs k
  rw [getElem?_table (by omega), hwritten, append_assoc, getElem?_append_left, getElem?_map]
  · rw [length_map]
    exact hi
  · rw [hwritten, length_append, length_append, length_map]
    omega

theorem superTable_super (hs : h.Supertypes) {s : Nat} (hsuper : (h.cast k).super = some s) :
    h.superTable k = (h.vtable s).table := by
  rw [superTable, superVtables_super hs hsuper]
  rfl

end ClassTable

end Hotspot.Oops
