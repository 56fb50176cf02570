-- SUMMARY: What linking a class does to the hierarchy, which stays well-formed.
import Hotspot.Oops.ClassHierarchy

/-!
# Linking

The new class is the last one in load order. Its superclass gets one more subclass. Each
interface that it implements and its superclass does not gets it as an implementor, at least
once.
-/

namespace Hotspot.Oops

open List

namespace ClassTable

variable {h h' : ClassTable}

/-! ## Lookups -/

variable {k : Nat}

theorem cast_of_length_le (hk : h.length ≤ k) : h.cast k = default := by
  rw [cast, getD_eq_getElem?_getD, getElem?_eq_none hk, Option.getD_none]

theorem cast_modify (k : Nat) (f : InstanceKlass → InstanceKlass) (j : Nat) :
    cast (h.modify k f) j = if k = j ∧ j < h.length then f (h.cast j) else h.cast j := by
  by_cases hj : j < h.length
  · rw [cast, getD_eq_getElem?_getD, getElem?_modify, getElem?_eq_getElem hj, cast,
      getD_eq_getElem?_getD, getElem?_eq_getElem hj]
    by_cases hk : k = j
    · simp [hk, hj]
    · simp [hk]
  · rw [if_neg fun hc => hj hc.2, cast_of_length_le (by rw [length_modify]; omega), cast_of_length_le (by omega)]

variable {ik : InstanceKlass}

theorem cast_append_of_ne {j : Nat} (hj : j ≠ h.length) : cast (h ++ [ik]) j = h.cast j := by
  by_cases hlt : j < h.length
  · rw [cast, getD_eq_getElem?_getD, getElem?_append_left hlt, cast, getD_eq_getElem?_getD]
  · rw [cast_of_length_le (by rw [length_append, length_singleton]; omega), cast_of_length_le (by omega)]

theorem cast_append_length : cast (h ++ [ik]) h.length = ik := by
  rw [cast, getD_eq_getElem?_getD, getElem?_append_right le_rfl, Nat.sub_self]
  rfl

theorem cast_append_cases (k : Nat) : cast (h ++ [ik]) k = ik ∨ cast (h ++ [ik]) k = h.cast k := by
  by_cases hne : k = h.length
  · exact .inl (hne ▸ cast_append_length)
  · exact .inr (cast_append_of_ne hne)

/-! ## Transitive interfaces -/

theorem mem_appendInterfaces {result ifs : List Nat} {e : Nat} :
    e ∈ appendInterfaces result ifs ↔ e ∈ result ∨ e ∈ ifs := by
  induction ifs generalizing result with
  | nil => simp [appendInterfaces]
  | cons i ifs ih =>
    rw [appendInterfaces, foldl_cons, ← appendInterfaces, ih]
    by_cases hi : result.contains i = true
    · rw [if_pos hi, mem_cons]
      have hi : i ∈ result := contains_iff_mem.mp hi
      constructor
      · rintro (he | he)
        · exact .inl he
        · exact .inr (.inr he)
      · rintro (he | rfl | he)
        · exact .inl he
        · exact .inl hi
        · exact .inr he
    · rw [if_neg hi, mem_append, mem_singleton, mem_cons, or_assoc]

theorem mem_foldl_appendInterfaces {f : Nat → List Nat} {result ls : List Nat} {e : Nat} :
    e ∈ ls.foldl (fun result l => appendInterfaces result (f l)) result ↔ e ∈ result ∨ ∃ l ∈ ls, e ∈ f l := by
  induction ls generalizing result with
  | nil => simp
  | cons l ls ih => simp [ih, mem_appendInterfaces, or_assoc]

theorem mem_computeTransitiveInterfaces {super : Option Nat} {localIfs : List Nat} {e : Nat} :
    e ∈ h.computeTransitiveInterfaces super localIfs ↔
      (∃ s, super = some s ∧ e ∈ (h.cast s).transitiveInterfaces) ∨
        ∃ l ∈ localIfs, e = l ∨ e ∈ (h.cast l).transitiveInterfaces := by
  have hsuper : (∃ s, super = some s ∧ e ∈ (h.cast s).transitiveInterfaces) ↔
      e ∈ h.superInterfaces super := by
    cases super with
    | none => simp [superInterfaces]
    | some s => simp [superInterfaces]
  rw [hsuper, computeTransitiveInterfaces]
  generalize h.superInterfaces super = superIfs
  split
  · next hzero =>
    have hlocal : localIfs = [] := length_eq_zero_iff.mp (by omega)
    have hnone : superIfs = [] := length_eq_zero_iff.mp (by omega)
    simp [hlocal, hnone]
  · split
    · next hsame =>
      have hlocal : localIfs = [] := length_eq_zero_iff.mp (by omega)
      simp [hlocal]
    split
    · next hsame =>
      have hnone : superIfs = [] := length_eq_zero_iff.mp (by omega)
      have hempty : ∀ l ∈ localIfs, (h.cast l).transitiveInterfaces = [] := by
        intro l hl
        have hsum : (localIfs.map fun l => (h.cast l).transitiveInterfaces.length).sum = 0 := by omega
        rw [sum_eq_zero_iff] at hsum
        exact length_eq_zero_iff.mp (hsum _ (mem_map.mpr ⟨l, hl, rfl⟩))
      constructor
      · intro he
        exact .inr ⟨e, he, .inl rfl⟩
      rintro (he | ⟨l, hl, rfl | he⟩)
      · rw [hnone] at he
        cases he
      · exact hl
      · rw [hempty l hl] at he
        cases he
    · rw [mem_appendInterfaces, mem_foldl_appendInterfaces, mem_appendInterfaces]
      constructor
      · rintro (((he | he) | ⟨l, hl, he⟩) | he)
        · cases he
        · exact .inl he
        · exact .inr ⟨l, hl, .inr he⟩
        · exact .inr ⟨e, he, .inl rfl⟩
      · rintro (he | ⟨l, hl, rfl | he⟩)
        · exact .inl (.inl (.inr he))
        · exact .inr hl
        · exact .inl (.inr ⟨l, hl, he⟩)

namespace Supertypes

section

variable (hs : h.Supertypes)

include hs

theorem super_lt {k s : Nat} (hsuper : (h.cast k).super = some s) :
    s < k ∧ k < h.length ∧ (h.cast s).isInterface = false := by
  have hk : k < h.length := by
    by_contra hge
    rw [cast_of_length_le (by omega)] at hsuper
    cases hsuper
  rcases Nat.eq_zero_or_pos k with rfl | hpos
  · rw [hs.object.2.1] at hsuper
    cases hsuper
  · obtain ⟨s', hlt, hsuper', hclass⟩ := hs.super k hpos hk
    obtain rfl := Option.some.inj (hsuper.symm.trans hsuper')
    exact ⟨hlt, hk, hclass⟩

theorem mem_lt {k i : Nat} (hi : i ∈ (h.cast k).transitiveInterfaces) :
    i < k ∧ (h.cast i).isInterface = true := by
  induction k using Nat.strong_induction_on generalizing i with
  | _ k ih =>
    rcases (hs.transitiveInterfaces k i).mp hi with ⟨s, hsuper, hi⟩ | ⟨l, hl, rfl | hi⟩
    · have hlt := (hs.super_lt hsuper).1
      have := ih s hlt hi
      exact ⟨by omega, this.2⟩
    · exact hs.localInterfaces k i hl
    · have hlt := (hs.localInterfaces k l hl).1
      have := ih l hlt hi
      exact ⟨by omega, this.2⟩

theorem trans_mem {k i j : Nat} (hi : i ∈ (h.cast k).transitiveInterfaces)
    (hj : j ∈ (h.cast i).transitiveInterfaces) : j ∈ (h.cast k).transitiveInterfaces := by
  induction k using Nat.strong_induction_on generalizing i j with
  | _ k ih =>
    rw [hs.transitiveInterfaces k i] at hi
    rw [hs.transitiveInterfaces k j]
    rcases hi with ⟨s, hsuper, hi⟩ | ⟨l, hl, rfl | hi⟩
    · exact .inl ⟨s, hsuper, ih s (hs.super_lt hsuper).1 hi hj⟩
    · exact .inr ⟨i, hl, .inr hj⟩
    · exact .inr ⟨l, hl, .inr (ih l (hs.localInterfaces k l hl).1 hi hj)⟩

theorem not_mem_object (j : Nat) : j ∉ (h.cast 0).transitiveInterfaces := by
  rw [hs.transitiveInterfaces 0 j, hs.object.2.1]
  rintro (⟨s, hsuper, -⟩ | ⟨l, hl, -⟩)
  · cases hsuper
  · exact absurd (hs.localInterfaces 0 l hl).1 (Nat.not_lt_zero l)

/-- The interfaces above an interface come from the ones that it names. -/
theorem mem_transitiveInterfaces_interface {i j : Nat} (hi : (h.cast i).isInterface = true) :
    j ∈ (h.cast i).transitiveInterfaces ↔
      ∃ l ∈ (h.cast i).localInterfaces, j = l ∨ j ∈ (h.cast l).transitiveInterfaces := by
  rw [hs.transitiveInterfaces i j, hs.interface_super i hi]
  refine or_iff_right ?_
  rintro ⟨s, hsuper, hj⟩
  cases hsuper
  exact hs.not_mem_object j hj

/-- A class that implements an interface implements the interfaces that it extends. -/
theorem superImplements_of_mem {k i j : Nat} (hi : h.superImplements k i = true)
    (hj : j ∈ (h.cast i).transitiveInterfaces) : h.superImplements k j = true := by
  unfold superImplements at hi ⊢
  split at hi
  · cases hi
  next sk _ =>
  simp only [implementsInterface, Bool.or_eq_true, beq_iff_eq, contains_iff_mem] at hi ⊢
  rcases hi with rfl | hi
  · exact .inr hj
  · exact .inr (hs.trans_mem hi hj)

end

end Supertypes

/-! ## Implementors -/

/-- `ik'` is `ik` with the implementor `k` recorded `c` times. -/
structure Recorded (k c : Nat) (ik ik' : InstanceKlass) : Prop where
  parsed : ik'.toParsedKlass = ik.toParsedKlass
  transitiveInterfaces : ik'.transitiveInterfaces = ik.transitiveInterfaces
  subklasses : ik'.subklasses = ik.subklasses
  nofImplementors : ik'.nofImplementors = ik.nofImplementors + c
  implementors : ik'.nofImplementors ≤ InstanceKlass.implementorsLimit →
    ik'.implementors = ik.implementors ++ List.replicate c k
  sound : ∀ d ∈ ik'.implementors, d ∈ ik.implementors ∨ d = k ∧ 0 < c

namespace Recorded

variable {k c c' : Nat} {ik ik' ik'' : InstanceKlass}

theorem refl (k : Nat) (ik : InstanceKlass) : Recorded k 0 ik ik :=
  ⟨rfl, rfl, rfl, rfl, fun _ => by rw [replicate_zero, append_nil], fun _ hd => .inl hd⟩

theorem trans (h : Recorded k c ik ik') (h' : Recorded k c' ik' ik'') : Recorded k (c + c') ik ik'' := by
  refine ⟨h'.parsed.trans h.parsed, h'.transitiveInterfaces.trans h.transitiveInterfaces,
    h'.subklasses.trans h.subklasses, ?_, fun hle => ?_, fun d hd => ?_⟩
  · rw [h'.nofImplementors, h.nofImplementors, add_assoc]
  · have hnof := h'.nofImplementors
    rw [h'.implementors hle, h.implementors (by omega), append_assoc, replicate_add]
  rcases h'.sound d hd with hd | ⟨rfl, hpos⟩
  · rcases h.sound d hd with hd | ⟨rfl, hpos⟩
    · exact .inl hd
    · exact .inr ⟨rfl, by omega⟩
  · exact .inr ⟨rfl, by omega⟩

theorem recordImplementor (k : Nat) (ik : InstanceKlass) : Recorded k 1 ik (ik.recordImplementor k) := by
  refine ⟨rfl, rfl, rfl, rfl, fun hle => ?_, fun d hd => ?_⟩
  · have hlt : ik.nofImplementors < InstanceKlass.implementorsLimit := hle
    simp [InstanceKlass.recordImplementor, if_pos hlt, replicate_one]
  simp only [InstanceKlass.recordImplementor] at hd
  split at hd
  · rcases mem_append.mp hd with hd | hd
    · exact .inl hd
    · exact .inr ⟨mem_singleton.mp hd, Nat.one_pos⟩
  · split at hd
    · cases hd
    · exact .inl hd

end Recorded

/-- The implementor `k` is recorded in the interfaces in `V`, and nothing else changes. -/
def Linked (k : Nat) (V : Nat → Prop) (h h' : ClassTable) : Prop :=
  h'.length = h.length ∧ ∀ j, ∃ c, Recorded k c (h.cast j) (h'.cast j) ∧ (0 < c ↔ V j)

namespace Linked

variable {k : Nat} {V V' : Nat → Prop} {h'' : ClassTable}

theorem refl (k : Nat) (h : ClassTable) : Linked k (fun _ => False) h h :=
  ⟨rfl, fun j => ⟨0, .refl k _, by simp⟩⟩

theorem trans (hl : Linked k V h h') (hl' : Linked k V' h' h'') : Linked k (fun j => V j ∨ V' j) h h'' := by
  refine ⟨hl'.1.trans hl.1, fun j => ?_⟩
  obtain ⟨c, hc, hV⟩ := hl.2 j
  obtain ⟨c', hc', hV'⟩ := hl'.2 j
  refine ⟨c + c', hc.trans hc', ?_⟩
  show 0 < c + c' ↔ V j ∨ V' j
  rw [← hV, ← hV']
  omega

theorem congr (hl : Linked k V h h') (hV : ∀ j, V j ↔ V' j) : Linked k V' h h' := by
  refine ⟨hl.1, fun j => ?_⟩
  obtain ⟨c, hc, hpos⟩ := hl.2 j
  exact ⟨c, hc, hpos.trans (hV j)⟩

theorem parsed (hl : Linked k V h h') (j : Nat) : (h'.cast j).toParsedKlass = (h.cast j).toParsedKlass := by
  obtain ⟨c, hc, -⟩ := hl.2 j
  exact hc.parsed

theorem transitiveInterfaces (hl : Linked k V h h') (j : Nat) :
    (h'.cast j).transitiveInterfaces = (h.cast j).transitiveInterfaces := by
  obtain ⟨c, hc, -⟩ := hl.2 j
  exact hc.transitiveInterfaces

theorem subklasses (hl : Linked k V h h') (j : Nat) : (h'.cast j).subklasses = (h.cast j).subklasses := by
  obtain ⟨c, hc, -⟩ := hl.2 j
  exact hc.subklasses

theorem superImplements (hl : Linked k V h h') (i j : Nat) : h'.superImplements i j = h.superImplements i j := by
  rw [ClassTable.superImplements, ClassTable.superImplements, hl.parsed i]
  cases (h.cast i).super with
  | none => rfl
  | some sk =>
    simp only [implementsInterface, contains_eq_mem]
    rw [hl.transitiveInterfaces sk]

end Linked

/-- The supertypes are those of the class files and the transitive interfaces. -/
theorem Supertypes.congr (hs : h.Supertypes) (hlen : h'.length = h.length)
    (hparsed : ∀ j, (h'.cast j).toParsedKlass = (h.cast j).toParsedKlass)
    (htrans : ∀ j, (h'.cast j).transitiveInterfaces = (h.cast j).transitiveInterfaces) : h'.Supertypes := by
  refine ⟨?_, ?_, ?_, ?_, ?_, ?_, ?_, ?_⟩
  · rw [hlen, hparsed]
    exact hs.object
  · simp only [hlen, hparsed]
    exact hs.super
  · simp only [hparsed]
    exact hs.localInterfaces
  · simp only [hparsed, htrans]
    exact hs.transitiveInterfaces
  · simp only [hparsed]
    exact hs.interface_super
  · simp only [hparsed]
    exact hs.interface_abstract
  · simp only [hparsed]
    exact hs.interface_methods
  · simp only [hparsed]
    exact hs.methods

theorem Supertypes.linked {V : Nat → Prop} (hs : h.Supertypes) (hl : Linked k V h h') : h'.Supertypes :=
  hs.congr hl.1 hl.parsed hl.transitiveInterfaces

/-- Recording `k` in the interface `i` gets to `j`. -/
def Reaches (h : ClassTable) (k i j : Nat) : Prop :=
  (j = i ∨ j ∈ (h.cast i).transitiveInterfaces) ∧ h.superImplements k j = false

theorem Linked.reaches {i j : Nat} {V : Nat → Prop} (hl : Linked k V h h') :
    h'.Reaches k i j ↔ h.Reaches k i j := by
  rw [Reaches, Reaches, hl.transitiveInterfaces, hl.superImplements]

/-- A class is recorded in several interfaces, one after the other. -/
theorem linked_foldl {f : ClassTable → Nat → ClassTable} {ls : List Nat} (hs : h.Supertypes)
    (hk : (h.cast k).isInterface = false) (hls : ∀ l ∈ ls, (h.cast l).isInterface = true)
    (hf : ∀ g : ClassTable, g.Supertypes → (g.cast k).isInterface = false → g.length = h.length →
      ∀ l ∈ ls, (g.cast l).isInterface = true → Linked k (g.Reaches k l) g (f g l)) :
    Linked k (fun j => ∃ l ∈ ls, h.Reaches k l j) h (ls.foldl f h) := by
  induction ls generalizing h with
  | nil => exact (Linked.refl k h).congr fun j => by simp
  | cons l ls ih =>
    obtain ⟨hl, hls⟩ := forall_mem_cons.mp hls
    have hfirst := hf h hs hk rfl l mem_cons_self hl
    have hrest := ih (hs.linked hfirst) (by rw [hfirst.parsed]; exact hk) (by simpa only [hfirst.parsed] using hls)
      (fun g hg hgk hlen l' hl' => hf g hg hgk (hlen.trans hfirst.1) l' (mem_cons_of_mem l hl'))
    refine (hfirst.trans hrest).congr fun j => ?_
    simp [hfirst.reaches]

/-- Recording the new class in one interface and the ones that it extends. -/
theorem linked_addImplementor {n i : Nat} (hs : h.Supertypes) (hin : i < n) (hi : i < h.length)
    (hif : (h.cast i).isInterface = true) (hk : (h.cast k).isInterface = false) :
    Linked k (h.Reaches k i) h (addImplementor n h i k) := by
  induction n generalizing h i with
  | zero => omega
  | succ n ih =>
    rw [addImplementor, if_neg (by simp [hk])]
    split
    · next hsuper =>
      refine (Linked.refl k h).congr fun j => iff_of_false id ?_
      rintro ⟨rfl | hj, hnot⟩
      · simp [hsuper] at hnot
      · simp [hs.superImplements_of_mem hsuper hj] at hnot
    · next hsuper =>
      have hrecord : Linked k (· = i) h (h.modify i (InstanceKlass.recordImplementor k)) := by
        refine ⟨length_modify _ _ _, fun j => ?_⟩
        rw [cast_modify]
        by_cases hj : i = j
        · subst hj
          rw [if_pos ⟨rfl, hi⟩]
          exact ⟨1, .recordImplementor k _, by simp⟩
        · rw [if_neg fun hc => hj hc.1]
          exact ⟨0, .refl k _, by simp [Ne.symm hj]⟩
      have hlocal := hs.localInterfaces i
      have hrest := linked_foldl (f := fun g l => addImplementor n g l k) (hs.linked hrecord)
        (by rw [hrecord.parsed]; exact hk) (fun l hl => by rw [hrecord.parsed]; exact (hlocal l hl).2)
        (fun g hg hgk hlen l hl hif => by
          have hlt := (hlocal l hl).1
          have hlength := hlen.trans hrecord.1
          exact ih hg (by omega) (by omega) hif hgk)
      refine (hrecord.trans hrest).congr fun j => ?_
      simp only [hrecord.reaches]
      rw [Reaches, hs.mem_transitiveInterfaces_interface hif]
      constructor
      · rintro (rfl | ⟨l, hl, hj, hnot⟩)
        · exact ⟨.inl rfl, by simpa using hsuper⟩
        · exact ⟨.inr ⟨l, hl, hj⟩, hnot⟩
      · rintro ⟨rfl | ⟨l, hl, hj⟩, hnot⟩
        · exact .inl rfl
        · exact .inr ⟨l, hl, hj, hnot⟩

theorem linked_processInterfaces (hs : h.Supertypes) (hk : (h.cast k).isInterface = false)
    (hlt : k < h.length) :
    Linked k (fun j => ∃ l ∈ (h.cast k).localInterfaces, h.Reaches k l j) h (h.processInterfaces k) := by
  have hlocal := hs.localInterfaces k
  have hall := @linked_foldl h k (fun g l => addImplementor (l + 1) g l k) (h.cast k).localInterfaces.reverse hs hk
    (fun l hl => (hlocal l (mem_reverse.mp hl)).2)
    (fun g hg hgk hlen l hl hif => by
      have hlt' := (hlocal l (mem_reverse.mp hl)).1
      exact linked_addImplementor hg (Nat.lt_succ_self l) (by omega) hif hgk)
  refine hall.congr fun j => ?_
  simp

theorem processInterfaces_interface (hk : (h.cast k).isInterface = true) : h.processInterfaces k = h := by
  have hfold : ∀ ls : List Nat, ls.foldl (fun g l => addImplementor (l + 1) g l k) h = h := by
    intro ls
    induction ls with
    | nil => rfl
    | cons l ls ih => rw [foldl_cons, addImplementor, if_pos hk, ih]
  exact hfold _

/-! ## The new class -/

/-- The supertypes of a table with one more class. -/
theorem Supertypes.append (hs : h.Supertypes) {p : ParsedKlass} (hp : h.Linkable p)
    (hparsed : ik.toParsedKlass = p)
    (htrans : ik.transitiveInterfaces = h.computeTransitiveInterfaces p.super p.localInterfaces) :
    ClassTable.Supertypes (h ++ [ik]) := by
  have hlen : length (h ++ [ik]) = h.length + 1 := by rw [length_append, length_singleton]
  have hold : ∀ {j}, j < h.length → cast (h ++ [ik]) j = h.cast j := fun hj => cast_append_of_ne (by omega)
  subst hparsed
  obtain ⟨s, hslt, hsuper, hclass⟩ := hp.super
  refine ⟨?_, ?_, ?_, ?_, ?_, ?_, ?_, ?_⟩
  · rw [hold hs.object.1, hlen]
    exact ⟨by omega, hs.object.2⟩
  · intro k hpos hk
    by_cases hne : k = h.length
    · subst hne
      rw [cast_append_length]
      exact ⟨s, hslt, hsuper, by rwa [hold hslt]⟩
    · obtain ⟨s', hlt, hsuper', hclass'⟩ := hs.super k hpos (by omega)
      rw [cast_append_of_ne hne]
      exact ⟨s', hlt, hsuper', by rwa [hold (by omega)]⟩
  · intro k i hi
    by_cases hne : k = h.length
    · subst hne
      rw [cast_append_length] at hi
      obtain ⟨hlt, hif⟩ := hp.localInterfaces i hi
      exact ⟨hlt, by rwa [hold hlt]⟩
    · rw [cast_append_of_ne hne] at hi
      obtain ⟨hlt, hif⟩ := hs.localInterfaces k i hi
      refine ⟨hlt, ?_⟩
      by_cases hi' : i = h.length
      · rw [hi', cast_of_length_le le_rfl] at hif
        cases hif
      · rwa [cast_append_of_ne hi']
  · intro k i
    by_cases hne : k = h.length
    · subst hne
      rw [cast_append_length, htrans, mem_computeTransitiveInterfaces]
      refine or_congr ?_ ?_
      · refine exists_congr fun s' => and_congr_right fun hs' => ?_
        obtain rfl := Option.some.inj (hsuper.symm.trans hs')
        rw [hold hslt]
      · refine exists_congr fun l => and_congr_right fun hl => ?_
        rw [hold (hp.localInterfaces l hl).1]
    · rw [cast_append_of_ne hne, hs.transitiveInterfaces k i]
      refine or_congr ?_ ?_
      · refine exists_congr fun s' => and_congr_right fun hs' => ?_
        have := hs.super_lt hs'
        rw [hold (by omega)]
      refine exists_congr fun l => and_congr_right fun hl => ?_
      by_cases hl' : l = h.length
      · have hif := (hs.localInterfaces k l hl).2
        rw [hl', cast_of_length_le le_rfl] at hif
        cases hif
      · rw [cast_append_of_ne hl']
  · intro k
    rcases cast_append_cases k with heq | heq <;> rw [heq]
    exacts [hp.interface_super, hs.interface_super k]
  · intro k
    rcases cast_append_cases k with heq | heq <;> rw [heq]
    exacts [hp.interface_abstract, hs.interface_abstract k]
  · intro k
    rcases cast_append_cases k with heq | heq <;> rw [heq]
    exacts [hp.interface_methods, hs.interface_methods k]
  · intro k
    rcases cast_append_cases k with heq | heq <;> rw [heq]
    exacts [hp.methods, hs.methods k]

/-- `h'` is `h` with the class `p` in the list of its superclass. -/
structure Inserted (h h' : ClassTable) (p : ParsedKlass) : Prop where
  supertypes : h'.Supertypes
  length : h'.length = h.length + 1
  parsed_new : (h'.cast h.length).toParsedKlass = p
  parsed_old : ∀ j, j ≠ h.length → (h'.cast j).toParsedKlass = (h.cast j).toParsedKlass
  transitiveInterfaces_old : ∀ j, j ≠ h.length → (h'.cast j).transitiveInterfaces = (h.cast j).transitiveInterfaces
  subklasses : ∀ j c, c ∈ (h'.cast j).subklasses ↔ c ∈ (h.cast j).subklasses ∨ c = h.length ∧ p.super = some j

/-- The entry of a class that is not linked yet. -/
def fresh (h : ClassTable) (p : ParsedKlass) : InstanceKlass :=
  ⟨p, h.computeTransitiveInterfaces p.super p.localInterfaces, [], 0, []⟩

section Insert

variable {p : ParsedKlass}

theorem cast_fresh_nof (j : Nat) : (cast (h ++ [h.fresh p]) j).nofImplementors = (h.cast j).nofImplementors ∧
    (cast (h ++ [h.fresh p]) j).implementors = (h.cast j).implementors ∧
    (cast (h ++ [h.fresh p]) j).subklasses = (h.cast j).subklasses := by
  by_cases hj : j = h.length
  · subst hj
    rw [cast_append_length, cast_of_length_le le_rfl]
    exact ⟨rfl, rfl, rfl⟩
  · rw [cast_append_of_ne hj]
    exact ⟨rfl, rfl, rfl⟩

theorem cast_appendToSiblingList (hp : h.Linkable p) (j : Nat) :
    (appendToSiblingList (h ++ [h.fresh p]) h.length).cast j =
      if p.super = some j then (cast (h ++ [h.fresh p]) j).pushSubklass h.length else cast (h ++ [h.fresh p]) j := by
  obtain ⟨s, hslt, hsuper, -⟩ := hp.super
  have hsuper' : (cast (h ++ [h.fresh p]) h.length).super = some s := by
    rw [cast_append_length]
    exact hsuper
  rw [appendToSiblingList, hsuper']
  rw [cast_modify, length_append, length_singleton, hsuper]
  by_cases hj : s = j
  · rw [if_pos ⟨hj, by omega⟩, if_pos (congrArg some hj)]
  · rw [if_neg fun hc => hj hc.1, if_neg fun hc => hj (Option.some.inj hc)]

theorem length_appendToSiblingList (k : Nat) : (h.appendToSiblingList k).length = h.length := by
  unfold appendToSiblingList
  split
  · rfl
  · exact length_modify _ _ _

theorem inserted_appendToSiblingList (hs : h.Supertypes) (hp : h.Linkable p) :
    Inserted h (appendToSiblingList (h ++ [h.fresh p]) h.length) p := by
  have hcast := cast_appendToSiblingList hp
  have hparsed : ∀ j, ((appendToSiblingList (h ++ [h.fresh p]) h.length).cast j).toParsedKlass =
      (cast (h ++ [h.fresh p]) j).toParsedKlass := by
    intro j
    rw [hcast j]
    split <;> rfl
  have htrans : ∀ j, ((appendToSiblingList (h ++ [h.fresh p]) h.length).cast j).transitiveInterfaces =
      (cast (h ++ [h.fresh p]) j).transitiveInterfaces := by
    intro j
    rw [hcast j]
    split <;> rfl
  refine ⟨?_, ?_, ?_, ?_, ?_, ?_⟩
  · exact (hs.append hp rfl rfl).congr (length_appendToSiblingList _) hparsed htrans
  · rw [length_appendToSiblingList, length_append, length_singleton]
  · rw [hparsed, cast_append_length]
    rfl
  · intro j hj
    rw [hparsed, cast_append_of_ne hj]
  · intro j hj
    rw [htrans, cast_append_of_ne hj]
  · intro j c
    rw [hcast j]
    split
    · next hsuper =>
      rw [InstanceKlass.pushSubklass, mem_cons, (cast_fresh_nof j).2.2]
      tauto
    · next hsuper =>
      rw [(cast_fresh_nof j).2.2]
      tauto

theorem nof_appendToSiblingList (hp : h.Linkable p) (j : Nat) :
    ((appendToSiblingList (h ++ [h.fresh p]) h.length).cast j).nofImplementors = (h.cast j).nofImplementors ∧
      ((appendToSiblingList (h ++ [h.fresh p]) h.length).cast j).implementors = (h.cast j).implementors := by
  rw [cast_appendToSiblingList hp, ← (cast_fresh_nof (p := p) j).1, ← (cast_fresh_nof (p := p) j).2.1]
  split <;> exact ⟨rfl, rfl⟩

end Insert

/-- `h'` is `h` with the class `p` linked into it. -/
structure Extends (h h' : ClassTable) (p : ParsedKlass) : Prop extends Inserted h h' p where
  implementors : ∀ j, ∃ c, (h'.cast j).nofImplementors = (h.cast j).nofImplementors + c ∧
    ((h'.cast j).nofImplementors ≤ InstanceKlass.implementorsLimit →
      (h'.cast j).implementors = (h.cast j).implementors ++ List.replicate c h.length) ∧
    (∀ d ∈ (h'.cast j).implementors, d ∈ (h.cast j).implementors ∨ d = h.length ∧ 0 < c) ∧
    (0 < c ↔ p.isInterface = false ∧ j ∈ (h'.cast h.length).transitiveInterfaces ∧
      h'.superImplements h.length j = false)

/-- The interfaces that a class is recorded in are those that its superclass does not implement. -/
theorem Supertypes.exists_reaches_iff (hs : h.Supertypes) {j : Nat} :
    (∃ l ∈ (h.cast k).localInterfaces, h.Reaches k l j) ↔
      j ∈ (h.cast k).transitiveInterfaces ∧ h.superImplements k j = false := by
  rw [hs.transitiveInterfaces k j]
  constructor
  · rintro ⟨l, hl, hj, hnot⟩
    exact ⟨.inr ⟨l, hl, hj⟩, hnot⟩
  · rintro ⟨⟨s, hsuper, hj⟩ | ⟨l, hl, hj⟩, hnot⟩
    · simp [superImplements, hsuper, implementsInterface, hj] at hnot
    · exact ⟨l, hl, hj, hnot⟩

theorem extends_addToHierarchy (hs : h.Supertypes) {p : ParsedKlass} (hp : h.Linkable p) :
    Extends h (h.addToHierarchy p) p := by
  show Extends h (processInterfaces (appendToSiblingList (h ++ [h.fresh p]) h.length) h.length) p
  have hinserted := inserted_appendToSiblingList hs hp
  have hnof := nof_appendToSiblingList hp
  generalize appendToSiblingList (h ++ [h.fresh p]) h.length = g at hinserted hnof
  have hif : (g.cast h.length).isInterface = p.isInterface := by rw [hinserted.parsed_new]
  cases hp' : p.isInterface with
  | true =>
    rw [processInterfaces_interface (hif.trans hp')]
    refine ⟨hinserted, fun j => ⟨0, (hnof j).1, fun _ => ?_, fun d hd => .inl ?_, by simp [hp']⟩⟩
    · rw [(hnof j).2, replicate_zero, append_nil]
    · rwa [(hnof j).2] at hd
  | false =>
    have hlinked := linked_processInterfaces hinserted.supertypes (hif.trans hp')
      (show h.length < g.length by rw [hinserted.length]; omega)
    refine ⟨⟨hinserted.supertypes.linked hlinked, hlinked.1.trans hinserted.length, ?_, ?_, ?_, ?_⟩, ?_⟩
    · rw [hlinked.parsed, hinserted.parsed_new]
    · intro j hj
      rw [hlinked.parsed, hinserted.parsed_old j hj]
    · intro j hj
      rw [hlinked.transitiveInterfaces, hinserted.transitiveInterfaces_old j hj]
    · intro j c
      rw [hlinked.subklasses, hinserted.subklasses]
    · intro j
      obtain ⟨c, hc, hpos⟩ := hlinked.2 j
      refine ⟨c, ?_, ?_, ?_, ?_⟩
      · rw [hc.nofImplementors, (hnof j).1]
      · intro hle
        rw [hc.implementors hle, (hnof j).2]
      · intro d hd
        rw [← (hnof j).2]
        exact hc.sound d hd
      · refine hpos.trans ?_
        rw [hlinked.transitiveInterfaces, hlinked.superImplements, ← hinserted.supertypes.exists_reaches_iff]
        exact (and_iff_right hp').symm

/-! ## The invariant -/

namespace Extends

variable {p : ParsedKlass} (he : Extends h h' p)
include he

theorem super_old {j : Nat} (hj : j ≠ h.length) : (h'.cast j).super = (h.cast j).super := by rw [he.parsed_old j hj]

theorem super_new : (h'.cast h.length).super = p.super := by rw [he.parsed_new]

theorem isInterface_old {j : Nat} (hj : j ≠ h.length) : (h'.cast j).isInterface = (h.cast j).isInterface := by
  rw [he.parsed_old j hj]

/-- The superclasses of an old class are the old ones. -/
theorem subclass_mono (hs : h.Supertypes) {d c : Nat} (hsub : h.Subclass d c) : h'.Subclass d c := by
  induction hsub using Relation.ReflTransGen.head_induction_on with
  | refl => exact .refl
  | head hsuper _ ih =>
    refine .head ?_ ih
    rw [he.super_old (by have := (hs.super_lt hsuper).2.1; omega)]
    exact hsuper

theorem wellFormed (hw : h.WellFormed) (hp : h.Linkable p) : h'.WellFormed := by
  have hs := hw.toSupertypes
  have hs' := he.supertypes
  have hlen := he.length
  obtain ⟨s, hslt, hsuper, hclass⟩ := hp.super
  have hnew : (h'.cast h.length).super = some s := he.super_new.trans hsuper
  refine ⟨hs', ?_, ?_, ?_, ?_, ?_⟩
  · intro k c
    rw [he.subklasses, hw.subklasses]
    by_cases hc : c = h.length
    · subst hc
      rw [he.super_new, hlen]
      constructor
      · rintro (⟨hlt, -⟩ | ⟨-, hk⟩)
        · exact absurd hlt (lt_irrefl _)
        · exact ⟨by omega, hk⟩
      · rintro ⟨-, hk⟩
        exact .inr ⟨rfl, hk⟩
    · rw [he.super_old hc]
      constructor
      · rintro (⟨hlt, hk⟩ | ⟨hcontra, -⟩)
        · exact ⟨by omega, hk⟩
        · exact absurd hcontra hc
      · rintro ⟨hlt, hk⟩
        exact .inl ⟨by omega, hk⟩
  · intro k hk
    obtain ⟨c, hnof, -, -, hpos⟩ := he.implementors k
    have hzero : c = 0 := by
      by_contra hne
      have hmem := (hpos.mp (by omega)).2.1
      rw [(hs'.mem_lt hmem).2] at hk
      cases hk
    have hold : (h.cast k).nofImplementors = 0 := by
      by_cases hne : k = h.length
      · rw [hne, cast_of_length_le le_rfl]
        rfl
      · exact hw.nofImplementors k (by rwa [← he.isInterface_old hne])
    omega
  · intro k hle
    obtain ⟨c, hnof, himpl, -, -⟩ := he.implementors k
    have hold := hw.implementors_length k (by omega)
    rw [himpl hle, length_append, length_replicate, hnof, hold]
  · intro k d hd
    obtain ⟨c, -, -, hsound, hpos⟩ := he.implementors k
    rcases hsound d hd with hd | ⟨rfl, hc⟩
    · obtain ⟨hlt, hclass', hmem⟩ := hw.implementors_sound k d hd
      have hne : d ≠ h.length := by omega
      rw [he.isInterface_old hne, he.transitiveInterfaces_old d hne]
      exact ⟨by omega, hclass', hmem⟩
    · obtain ⟨hp', hmem, -⟩ := hpos.mp hc
      rw [he.parsed_new]
      exact ⟨by omega, hp', hmem⟩
  · intro k hle d hd hd' hmem
    obtain ⟨c, hnof, himpl, -, hpos⟩ := he.implementors k
    rw [himpl hle]
    have hold := hw.implementors_complete k (by omega)
    by_cases hne : d = h.length
    · subst hne
      by_cases hc : 0 < c
      · refine ⟨h.length, mem_append_right _ (mem_replicate.mpr ⟨by omega, rfl⟩), .refl⟩
      -- the superclass implements the interface
      have himplements : h'.superImplements h.length k = true := by
        by_contra hnot
        refine hc (hpos.mpr ⟨?_, hmem, by simpa using hnot⟩)
        rwa [he.parsed_new] at hd'
      have hs_ne : s ≠ h.length := by omega
      have hsk : s ≠ k := by
        rintro rfl
        have hif := (hs'.mem_lt hmem).2
        rw [he.isInterface_old hs_ne, hclass] at hif
        cases hif
      simp only [superImplements, hnew, implementsInterface, Bool.or_eq_true, beq_iff_eq, contains_iff_mem,
        hsk, false_or] at himplements
      rw [he.transitiveInterfaces_old s hs_ne] at himplements
      obtain ⟨c', hc', hsub⟩ := hold s hslt hclass himplements
      exact ⟨c', mem_append_left _ hc', .head hnew (he.subclass_mono hs hsub)⟩
    · rw [he.isInterface_old hne] at hd'
      rw [he.transitiveInterfaces_old d hne] at hmem
      obtain ⟨c', hc', hsub⟩ := hold d (by omega) hd' hmem
      exact ⟨c', mem_append_left _ hc', he.subclass_mono hs hsub⟩

end Extends

end ClassTable

/-- A concrete class with a superclass, and nothing else. -/
def ParsedKlass.plain (super : Nat) : ParsedKlass where
  super := some super
  isInterface := false
  isAbstract := false
  isFinal := false
  hasFinalizer := false
  package := ""
  localInterfaces := []
  methods := []

instance (h : ClassTable) (p : ParsedKlass) : Decidable (h.Linkable p) :=
  decidable_of_iff
    ((∃ s < h.length, p.super = some s ∧ (h.cast s).isInterface = false) ∧
      (∀ i ∈ p.localInterfaces, i < h.length ∧ (h.cast i).isInterface = true) ∧
      (p.isInterface = true → p.super = some 0) ∧ (p.isInterface = true → p.isAbstract = true) ∧
      (p.isInterface = true → ∀ m ∈ p.methods, m.isAbstract = true ∧ m.isStatic = false ∧ m.access = .publicAccess) ∧
      p.methods.Pairwise fun m m' => ¬ m.SameSelector m')
    ⟨fun ⟨h₁, h₂, h₃, h₄, h₅, h₆⟩ => ⟨h₁, h₂, h₃, h₄, h₅, h₆⟩,
      fun ⟨h₁, h₂, h₃, h₄, h₅, h₆⟩ => ⟨h₁, h₂, h₃, h₄, h₅, h₆⟩⟩

namespace Hierarchy

/-- The hierarchy with `java.lang.Object` only. -/
def bootstrap (methods : List Method)
    (hmethods : methods.Pairwise fun m m' => ¬ m.SameSelector m') : Hierarchy where
  table := [⟨⟨none, false, false, false, false, "java/lang", [], methods⟩, [], [], 0, []⟩]
  wf := by
    generalize hik : (InstanceKlass.mk ⟨none, false, false, false, false, "java/lang", [], methods⟩ [] [] 0 []) = ik
    have hzero : ClassTable.cast [ik] 0 = ik := rfl
    have hclass : ∀ k, (ClassTable.cast [ik] k).isInterface = false ∧ (ClassTable.cast [ik] k).super = none ∧
        (ClassTable.cast [ik] k).localInterfaces = [] ∧ (ClassTable.cast [ik] k).transitiveInterfaces = [] ∧
        (ClassTable.cast [ik] k).subklasses = [] ∧ (ClassTable.cast [ik] k).nofImplementors = 0 ∧
        (ClassTable.cast [ik] k).implementors = [] := by
      rintro (_ | k)
      · rw [hzero, ← hik]
        exact ⟨rfl, rfl, rfl, rfl, rfl, rfl, rfl⟩
      · rw [ClassTable.cast_of_length_le (by simp)]
        exact ⟨rfl, rfl, rfl, rfl, rfl, rfl, rfl⟩
    refine ⟨⟨⟨by simp, (hclass 0).2.1, (hclass 0).1, by rw [hzero, ← hik]⟩, ?_, ?_, ?_, ?_, ?_, ?_, ?_⟩, ?_, ?_, ?_, ?_, ?_⟩
    · intro k hpos hk
      rw [List.length_singleton] at hk
      omega
    rotate_left 5
    · rintro (_ | k)
      · rw [hzero, ← hik]
        exact hmethods
      · rw [ClassTable.cast_of_length_le (by simp)]
        exact .nil
    all_goals simp [hclass]

def objectOnly : Hierarchy := bootstrap [] .nil

/-- A hierarchy with one more class. -/
def link (h : Hierarchy) (p : ParsedKlass) (hp : h.table.Linkable p) : Hierarchy where
  table := h.table.addToHierarchy p
  wf := (ClassTable.extends_addToHierarchy h.wf.toSupertypes hp).wellFormed h.wf hp

end Hierarchy

end Hotspot.Oops
