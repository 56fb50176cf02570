-- SUMMARY: The invariant of the node table: probe paths, and a free slot.
import Hotspot.Base.Except
import Hotspot.Opto.NodeHash

/-!
# The invariant of the node table

The size of the table is a power of two and all strides are odd, so the probes of a node
visit every slot. An entry is found again because no slot before it on its path is ever
made empty: deletion leaves a sentinel, and the sentinel is never mistaken for a node,
since a node that compares equal to it has no hash.
-/

namespace Hotspot.Opto

namespace Gvn

open OpenAddressing

namespace NodeHash

/-! ## Keys -/

/-- The sizes that a table may have. -/
def IsSize (max : UInt) : Prop := ∃ b, 4 ≤ b ∧ b ≤ 31 ∧ max.toNat = 2 ^ b

variable {max : UInt}

theorem IsSize.pos (h : IsSize max) : 0 < max.toNat := by
  obtain ⟨b, -, -, heq⟩ := h
  rw [heq]
  exact Nat.two_pow_pos b

theorem IsSize.le (h : IsSize max) : 16 ≤ max.toNat := by
  obtain ⟨b, hb, -, heq⟩ := h
  rw [heq]
  exact Nat.pow_le_pow_right (n := 2) (by decide) hb

theorem IsSize.mask (h : IsSize max) (x : UInt) :
    (x &&& (max - 1)).toNat = x.toNat % max.toNat := by
  obtain ⟨b, -, hb, heq⟩ := h
  have hpos : 0 < 2 ^ b := Nat.two_pow_pos b
  have hmask : (max - 1).toNat = 2 ^ b - 1 := by
    have hone : (1 : UInt).toNat = 1 := rfl
    rw [BitVec.toNat_sub, heq, hone]
    omega
  rw [BitVec.toNat_and, hmask, heq, Nat.and_two_pow_sub_one_eq_mod]

theorem IsSize.coprime (h : IsSize max) (key : UInt) : (strideOf key).toNat.Coprime max.toNat := by
  obtain ⟨b, -, -, heq⟩ := h
  have hodd : (strideOf key).toNat % 2 = 1 := by
    rw [strideOf, BitVec.toNat_or]
    simp [Nat.or_mod_two_eq_one]
  rw [heq]
  exact Nat.Coprime.pow_right b (Nat.coprime_two_right.mpr (Nat.odd_iff.mpr hodd))

/-- The next key as a number, although the sum may overflow. -/
theorem IsSize.nextKey {t : NodeHash} (h : IsSize t.max) (stride key : UInt) :
    (t.nextKey stride key).toNat = (key.toNat + stride.toNat) % t.max.toNat := by
  have hdvd : t.max.toNat ∣ 2 ^ 32 := by
    obtain ⟨b, -, hb, heq⟩ := h
    rw [heq]
    exact Nat.pow_dvd_pow 2 (by omega)
  rw [NodeHash.nextKey, h.mask, BitVec.toNat_add, Nat.mod_mod_of_dvd _ hdvd]

/-- A larger table, unless the size overflows. -/
theorem IsSize.double (h : IsSize max) (hlt : max.toNat < 2 ^ 31) :
    IsSize (max <<< 1) ∧ (max <<< 1).toNat = 2 * max.toNat := by
  obtain ⟨b, hb, -, heq⟩ := h
  have hdouble : (max <<< 1).toNat = 2 * max.toNat := by
    rw [BitVec.toNat_shiftLeft, Nat.shiftLeft_eq]
    omega
  refine ⟨⟨b + 1, by omega, ?_, by rw [hdouble, heq, Nat.pow_succ, Nat.mul_comm]⟩, hdouble⟩
  rw [heq] at hlt
  exact (Nat.pow_lt_pow_iff_right (by decide)).mp hlt

theorem toNat_limitOf (max : UInt) : (limitOf max).toNat = max.toNat - max.toNat / 4 := by
  have hlt := max.isLt
  rw [limitOf, BitVec.toNat_sub, BitVec.toNat_ushiftRight, Nat.shiftRight_eq_div_pow]
  omega

/-! ## Slots -/

variable (t this : NodeHash)

/-- The slot at a position, as a number. -/
def slotAt (p : Nat) : Slot := this.table[p]?.getD .null

/-- The number of slots that are not `NULL`. -/
def nonNull : Nat := this.table.countP (· ≠ .null)

/-- The nodes in the table. -/
def contents : Set NodeId := { n | .node n ∈ this.table }

/-- The home slot of a hash, as a number. -/
def home (hash : UInt) : Nat := (this.homeKey hash).toNat

/-- The stride of a hash, as a number. -/
def stride (hash : UInt) : Nat := (strideOf (this.homeKey hash)).toNat

def Occupied (p : Nat) : Prop := this.slotAt p ≠ .null

instance : DecidablePred this.Occupied := fun p =>
  inferInstanceAs (Decidable (this.slotAt p ≠ .null))

/-- Slot `p` is reached by the probes of a hash. -/
def Reached (hash : UInt) (p : Nat) : Prop :=
  OnPath this.Occupied this.max.toNat (this.home hash) (this.stride hash) p

/-- The array has as many slots as the table thinks. -/
structure Sized : Prop where
  size : IsSize this.max
  length : this.table.length = this.max.toNat
  limit : this.insertLimit = limitOf this.max

variable {t} {p : Nat}

theorem slotAt_eq (hp : p < t.table.length) : t.slotAt p = t.table[p] := by
  rw [slotAt, List.getElem?_eq_getElem hp, Option.getD_some]

theorem mem_contents {n : NodeId} : n ∈ t.contents ↔ ∃ p, t.slotAt p = .node n := by
  constructor
  · intro h
    obtain ⟨p, hp, hget⟩ := List.mem_iff_getElem.mp h
    exact ⟨p, by rw [slotAt_eq hp, hget]⟩
  rintro ⟨p, hp⟩
  rw [slotAt] at hp
  cases hget : t.table[p]? with
  | none =>
    rw [hget] at hp
    cases hp
  | some k =>
    rw [hget] at hp
    obtain rfl : k = .node n := hp
    exact List.mem_of_getElem? hget

theorem read_eq {key : UInt} (h : key.toNat < t.table.length) :
    t.read key = some (t.slotAt key.toNat) := by
  rw [read, slotAt_eq h, List.getElem?_eq_getElem h]

theorem lt_of_slotAt_ne_null (h : t.slotAt p ≠ .null) : p < t.table.length := by
  by_contra hge
  refine h ?_
  rw [slotAt, List.getElem?_eq_none (Nat.not_lt.mp hge), Option.getD_none]

/-- A table that is not full has an empty slot. -/
theorem exists_null (h : t.nonNull < t.table.length) :
    ∃ p < t.table.length, ¬t.Occupied p := by
  by_contra hall
  refine absurd (List.countP_eq_length.mpr ?_) (Nat.ne_of_lt h)
  intro k hk
  obtain ⟨p, hp, rfl⟩ := List.mem_iff_getElem.mp hk
  have hocc : t.Occupied p := by
    by_contra hnot
    exact hall ⟨p, hp, hnot⟩
  rw [Occupied, slotAt_eq hp] at hocc
  exact decide_eq_true hocc

/-! ## Probing -/

/-- The key of the `i`-th probe. -/
def keyAt (this : NodeHash) (hash : UInt) (i : Nat) : UInt :=
  (this.nextKey (strideOf (this.homeKey hash)))^[i] (this.homeKey hash)

/-- The slot of the `i`-th probe. -/
def probed (this : NodeHash) (hash : UInt) (i : Nat) : Slot :=
  this.slotAt (this.keyAt hash i).toNat

theorem nextKey_keyAt (hash : UInt) (i : Nat) :
    t.nextKey (strideOf (t.homeKey hash)) (t.keyAt hash i) = t.keyAt hash (i + 1) :=
  (Function.iterate_succ_apply' _ _ _).symm

theorem Sized.toNat_keyAt (hs : t.Sized) (hash : UInt) (i : Nat) : (t.keyAt hash i).toNat =
      probeAt t.max.toNat (t.home hash) (t.stride hash) i := by
  induction i with
  | zero =>
    have hhome : t.home hash < t.max.toNat := by
      rw [home, homeKey, hs.size.mask]
      exact Nat.mod_lt _ hs.size.pos
    exact (probeAt_zero hhome).symm
  | succ i ih =>
    rw [← nextKey_keyAt, hs.size.nextKey, ih]
    exact probeAt_succ i

theorem Sized.keyAt_lt (hs : t.Sized) (hash : UInt) (i : Nat) :
    (t.keyAt hash i).toNat < t.table.length := by
  rw [hs.toNat_keyAt, hs.length]
  exact probeAt_lt hs.size.pos i

theorem Sized.read_keyAt (hs : t.Sized) (hash : UInt) (i : Nat) :
    t.read (t.keyAt hash i) = some (t.probed hash i) :=
  read_eq (hs.keyAt_lt hash i)

/-- A slot is reached if no probe before it found an empty one. -/
theorem Sized.reached (hs : t.Sized) {hash : UInt} {i : Nat} (hi : i < t.max.toNat)
    (hpath : ∀ j < i, t.probed hash j ≠ .null) :
    t.Reached hash (t.keyAt hash i).toNat := by
  refine ⟨i, hi, (hs.toNat_keyAt hash i).symm, fun j hj => ?_⟩
  rw [← hs.toNat_keyAt]
  exact hpath j hj

/-- Probing for a kind of slot that includes the empty ones ends at the first such slot. -/
theorem Sized.exists_probe (hs : t.Sized) (hfree : t.nonNull < t.max.toNat) (hash : UInt)
    (stop : Slot → Bool) (hnull : stop .null = true) : ∃ i < t.max.toNat,
      t.probe hash stop = some (t.keyAt hash i, t.probed hash i) ∧
      stop (t.probed hash i) = true ∧ ∀ j < i, stop (t.probed hash j) = false := by
  rw [← hs.length] at hfree
  obtain ⟨p, hp, hempty⟩ := exists_null hfree
  have hslot : t.slotAt p = .null := Decidable.not_not.mp hempty
  obtain ⟨i, hi, hstop, hgo⟩ := @exists_first_free t.max.toNat (t.home hash)
    (t.stride hash) (fun p => stop (t.slotAt p) = false) inferInstance
    (hs.size.coprime _) ⟨p, by rwa [← hs.length], by simp [hslot, hnull]⟩
  rw [← hs.toNat_keyAt, Bool.not_eq_false] at hstop
  have hstop' : stop (t.probed hash i) = true := hstop
  have hgo' : ∀ j < i, stop (t.probed hash j) = false := by
    intro j hj
    have hj' := hgo j hj
    rw [← hs.toNat_keyAt] at hj'
    exact hj'
  have heq := @search_eq _ _ t.read (t.nextKey (strideOf (t.homeKey hash))) stop
    (t.keyAt hash) (t.probed hash) (nextKey_keyAt hash) (hs.read_keyAt hash) 0 i
    t.max.toNat hi (by simpa using hgo') (by simpa using hstop')
  rw [Nat.zero_add] at heq
  exact ⟨i, hi, heq, hstop', hgo'⟩

/-! ## Writing a slot -/

/-- The table after `_table[p] = k`. -/
def setAt (this : NodeHash) (p : Nat) (k : Slot) : NodeHash :=
  { this with table := this.table.set p k }

theorem write_eq {key : UInt} (h : key.toNat < t.table.length) (k : Slot) :
    t.write key k = some (t.setAt key.toNat k) :=
  if_pos h

theorem Sized.setAt (hs : t.Sized) (p : Nat) (k : Slot) : (t.setAt p k).Sized :=
  ⟨hs.size, (List.length_set ..).trans hs.length, hs.limit⟩

theorem slotAt_setAt_self (hp : p < t.table.length) (k : Slot) :
    (t.setAt p k).slotAt p = k := by
  simp [setAt, slotAt, hp]

theorem slotAt_setAt_of_ne {q : Nat} (hq : q ≠ p) (k : Slot) :
    (t.setAt p k).slotAt q = t.slotAt q := by
  simp [setAt, slotAt, List.getElem?_set_ne hq.symm]

/-- Writing into an empty slot makes one more slot used, writing into another one does not. -/
theorem nonNull_setAt (hp : p < t.table.length) {k : Slot} (hk : k ≠ .null) :
    (t.setAt p k).nonNull = t.nonNull + (if t.slotAt p = .null then 1 else 0) := by
  have hused : t.slotAt p ≠ .null → 0 < t.nonNull := by
    intro h
    refine List.countP_pos_iff.mpr ⟨t.slotAt p, ?_, decide_eq_true h⟩
    rw [slotAt_eq hp]
    exact List.getElem_mem hp
  rw [nonNull, setAt, List.countP_set hp, ← slotAt_eq hp]
  by_cases hnull : t.slotAt p = .null
  · simp [hnull, hk, nonNull]
  · rw [if_pos (decide_eq_true hnull), if_pos (decide_eq_true hk), if_neg hnull]
    exact Nat.sub_add_cancel (hused hnull)

/-- Paths are not cut by a write that is not `NULL`. -/
theorem Reached.setAt {hash : UInt} {q : Nat} {k : Slot} (h : t.Reached hash q)
    (hp : p < t.table.length) (hk : k ≠ .null) : (t.setAt p k).Reached hash q := by
  refine OnPath.mono h fun r _ hocc => ?_
  rcases eq_or_ne r p with rfl | hne
  · rw [Occupied, slotAt_setAt_self hp]
    exact hk
  · rw [Occupied, slotAt_setAt_of_ne hne]
    exact hocc

section Entries

variable {β : Type} (cls : NodeClasses β) (nodes : NodeId → Node β)

/-- Every node in the table has a hash, lies on its path and is there only once. -/
structure Stored (this : NodeHash) : Prop where
  hashed : ∀ p n, this.slotAt p = .node n → cls.hash (nodes n) ≠ Node.NO_HASH
  reached : ∀ p n, this.slotAt p = .node n → this.Reached (cls.hash (nodes n)) p
  unique : ∀ p q n, this.slotAt p = .node n → this.slotAt q = .node n → p = q

variable {cls nodes}

/-- A node is written into a free slot on its path. -/
theorem Stored.setAt_node (h : t.Stored cls nodes) {p : Nat} (hp : p < t.table.length)
    (hfree : t.slotAt p = .null ∨ t.slotAt p = .sentinel) {n : NodeId}
    (hn : n ∉ t.contents) (hhash : cls.hash (nodes n) ≠ Node.NO_HASH)
    (hpath : t.Reached (cls.hash (nodes n)) p) : (t.setAt p (.node n)).Stored cls nodes ∧
      (t.setAt p (.node n)).contents = insert n t.contents := by
  have hnew : ∀ q, t.slotAt q ≠ .node n := fun q hq => hn (mem_contents.mpr ⟨q, hq⟩)
  have hcases : ∀ q m, (t.setAt p (.node n)).slotAt q = .node m →
      (q = p ∧ m = n) ∨ (q ≠ p ∧ m ≠ n ∧ t.slotAt q = .node m) := by
    intro q m hq
    rcases eq_or_ne q p with rfl | hne
    · rw [slotAt_setAt_self hp] at hq
      exact .inl ⟨rfl, (Slot.node.inj hq).symm⟩
    · rw [slotAt_setAt_of_ne hne] at hq
      refine .inr ⟨hne, ?_, hq⟩
      rintro rfl
      exact hnew q hq
  refine ⟨⟨?_, ?_, ?_⟩, ?_⟩
  · intro q m hq
    rcases hcases q m hq with ⟨-, rfl⟩ | ⟨-, -, hold⟩
    · exact hhash
    · exact h.hashed q m hold
  · intro q m hq
    rcases hcases q m hq with ⟨rfl, rfl⟩ | ⟨-, -, hold⟩
    · exact hpath.setAt hp (by simp)
    · exact (h.reached q m hold).setAt hp (by simp)
  · intro q r m hq hr
    rcases hcases q m hq with ⟨rfl, rfl⟩ | ⟨-, hne, hold⟩
    · rcases hcases r m hr with ⟨rfl, -⟩ | ⟨-, hne, -⟩
      · rfl
      · exact absurd rfl hne
    · rcases hcases r m hr with ⟨-, rfl⟩ | ⟨-, -, hold'⟩
      · exact absurd rfl hne
      · exact h.unique q r m hold hold'
  · ext m
    rw [mem_contents, Set.mem_insert_iff, mem_contents]
    constructor
    · rintro ⟨q, hq⟩
      rcases hcases q m hq with ⟨-, rfl⟩ | ⟨-, -, hold⟩
      · exact .inl rfl
      · exact .inr ⟨q, hold⟩
    · rintro (rfl | ⟨q, hq⟩)
      · exact ⟨p, slotAt_setAt_self hp _⟩
      refine ⟨q, ?_⟩
      rw [slotAt_setAt_of_ne ?_, hq]
      rintro rfl
      rcases hfree with hnull | hsentinel
      · rw [hnull] at hq
        cases hq
      · rw [hsentinel] at hq
        cases hq

/-- A node is replaced by the sentinel. -/
theorem Stored.setAt_sentinel (h : t.Stored cls nodes) {p : Nat} {n : NodeId}
    (hp : t.slotAt p = .node n) : (t.setAt p .sentinel).Stored cls nodes ∧
      (t.setAt p .sentinel).contents = t.contents \ {n} := by
  have hlt : p < t.table.length := lt_of_slotAt_ne_null (by simp [hp])
  have hcases : ∀ q m, (t.setAt p .sentinel).slotAt q = .node m →
      q ≠ p ∧ t.slotAt q = .node m := by
    intro q m hq
    rcases eq_or_ne q p with rfl | hne
    · rw [slotAt_setAt_self hlt] at hq
      cases hq
    · rw [slotAt_setAt_of_ne hne] at hq
      exact ⟨hne, hq⟩
  refine ⟨⟨?_, ?_, ?_⟩, ?_⟩
  · intro q m hq
    exact h.hashed q m (hcases q m hq).2
  · intro q m hq
    exact (h.reached q m (hcases q m hq).2).setAt hlt (by simp)
  · intro q r m hq hr
    exact h.unique q r m (hcases q m hq).2 (hcases r m hr).2
  · ext m
    rw [mem_contents, Set.mem_sdiff, mem_contents, Set.mem_singleton_iff]
    constructor
    · rintro ⟨q, hq⟩
      obtain ⟨hne, hold⟩ := hcases q m hq
      refine ⟨⟨q, hold⟩, ?_⟩
      rintro rfl
      exact hne (h.unique q p m hold hp)
    · rintro ⟨⟨q, hq⟩, hne⟩
      refine ⟨q, ?_⟩
      rw [slotAt_setAt_of_ne ?_, hq]
      rintro rfl
      rw [hp] at hq
      exact hne (Slot.node.inj hq).symm

end Entries

end NodeHash

end Gvn

end Hotspot.Opto
