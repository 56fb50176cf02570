-- SUMMARY: What each operation of the node table does to the set of nodes.
import Hotspot.Opto.NodeHashInvariant

/-!
# Operations of the node table

One specification for each operation, in terms of the set of nodes in the table.
-/

namespace Hotspot.Opto

namespace Gvn

open OpenAddressing

open Nat hiding add_le_add ne_of_lt

variable {β : Type} {cls : NodeClasses β} {ns : NodeId → Node β}

namespace NodeClasses

theorem congruent_self (n : Node β) : cls.congruent n n = true := by
  simp [congruent, cls.cmp_self]

theorem hash_of_congruent {n k : Node β} (h : cls.congruent n k = true) :
    cls.hash n = cls.hash k := by
  simp only [congruent, Bool.and_eq_true, beq_iff_eq] at h
  obtain ⟨⟨⟨-, hop⟩, hinputs⟩, hcmp⟩ := h
  exact cls.hash_eq n k hop.symm hinputs hcmp

theorem hash_sentinelNode : cls.hash cls.sentinelNode = Node.NO_HASH :=
  cls.hash_projNode none Control false

end NodeClasses

namespace NodeHash

variable {t : NodeHash} {n : NodeId}

/-! ## Lookup -/

/-- What a lookup for `n` in a set of nodes may return. -/
def Finds (cls : NodeClasses β) (nodes : NodeId → Node β) (S : Set NodeId) (n : NodeId) :
    Slot → Prop
  | .null => ∀ m ∈ S, cls.congruent (nodes n) (nodes m) = false
  | .sentinel => False
  | .node m => m ∈ S ∧ cls.congruent (nodes n) (nodes m) = true

/-- The sentinel is never taken for an equal node. -/
theorem hits_sentinel (hh : cls.hash (ns n) ≠ Node.NO_HASH) : hits cls ns n .sentinel = false := by
  cases hcong : hits cls ns n .sentinel with
  | false => rfl
  | true => exact absurd ((NodeClasses.hash_of_congruent hcong).trans cls.hash_sentinelNode) hh

/-- An entry stands before the first empty slot of its path. -/
theorem Stored.before_null (hs : t.Sized) (h : t.Stored cls ns) (hn : n ∈ t.contents)
    {i : Nat} (hnull : t.probed (cls.hash (ns n)) i = .null) :
    ∃ j < i, t.probed (cls.hash (ns n)) j = .node n := by
  obtain ⟨p, hp⟩ := mem_contents.mp hn
  obtain ⟨j, hj, hpos, hpath⟩ := h.reached p n hp
  rw [← hs.toNat_keyAt] at hpos
  have hslot : t.probed (cls.hash (ns n)) j = .node n := by rw [probed, hpos, hp]
  refine ⟨j, ?_, hslot⟩
  rcases lt_trichotomy j i with hlt | rfl | hgt
  · exact hlt
  · rw [hnull] at hslot
    cases hslot
  · have hocc := hpath i hgt
    rw [← hs.toNat_keyAt] at hocc
    exact absurd hnull hocc

/-- The slot at which the probes for an equal node end. -/
theorem Stored.finds (hs : t.Sized) (h : t.Stored cls ns)
    (hh : cls.hash (ns n) ≠ Node.NO_HASH) {i : Nat}
    (hstop : t.probed (cls.hash (ns n)) i = .null ∨
      hits cls ns n (t.probed (cls.hash (ns n)) i) = true)
    (hgo : ∀ j < i, hits cls ns n (t.probed (cls.hash (ns n)) j) = false) :
    Finds cls ns t.contents n (t.probed (cls.hash (ns n)) i) := by
  cases hslot : t.probed (cls.hash (ns n)) i with
  | null =>
    intro m hm
    cases hcong : cls.congruent (ns n) (ns m) with
    | false => rfl
    | true =>
      have heq := NodeClasses.hash_of_congruent hcong
      obtain ⟨j, hj, hentry⟩ := h.before_null hs hm (heq ▸ hslot)
      have hmiss := hgo j hj
      rw [heq, hentry] at hmiss
      exact absurd (hcong.symm.trans hmiss) (by decide)
  | sentinel =>
    rcases hstop with hnull | hhit
    · rw [hslot] at hnull
      cases hnull
    · rw [hslot, hits_sentinel hh] at hhit
      cases hhit
  | node m =>
    rcases hstop with hnull | hhit
    · rw [hslot] at hnull
      cases hnull
    · rw [hslot] at hhit
      exact ⟨mem_contents.mpr ⟨_, hslot⟩, hhit⟩

/-- A node without a hash is equal to no entry. -/
theorem Stored.finds_null (h : t.Stored cls ns) (hh : cls.hash (ns n) = Node.NO_HASH) :
    Finds cls ns t.contents n .null := by
  intro m hm
  obtain ⟨p, hp⟩ := mem_contents.mp hm
  cases hcong : cls.congruent (ns n) (ns m) with
  | false => rfl
  | true => exact absurd ((NodeClasses.hash_of_congruent hcong).symm.trans hh) (h.hashed p m hp)

theorem hashFind_spec (hs : t.Sized) (h : t.Stored cls ns)
    (hfree : t.nonNull < t.max.toNat) (n : NodeId) :
    ∃ k, t.hashFind cls ns n = some k ∧ Finds cls ns t.contents n k := by
  by_cases hh : cls.hash (ns n) = Node.NO_HASH
  · exact ⟨.null, if_pos hh, h.finds_null hh⟩
  obtain ⟨i, hi, hprobe, hstop, hgo⟩ := hs.exists_probe hfree (cls.hash (ns n))
    (fun k => k == .null || hits cls ns n k) rfl
  refine ⟨t.probed (cls.hash (ns n)) i, ?_, ?_⟩
  · simp only [hashFind, if_neg hh, hprobe, some_bind]
    rfl
  simp only [Bool.or_eq_true, beq_iff_eq] at hstop
  refine h.finds hs hh hstop fun j hj => ?_
  have hnot := hgo j hj
  simp only [Bool.or_eq_false_iff] at hnot
  exact hnot.2

/-- The loop of `hash_find_insert` ends where `hash_find` does. On a miss it has chosen an empty
slot or a sentinel before it. -/
theorem findInsertLoop_spec (hs : t.Sized) {hash : UInt} {start m fuel : Nat} (hfuel : m < fuel)
    {firstSentinel : UInt} (hfirst : firstSentinel = 0 ∨
      ∃ j < start, firstSentinel = t.keyAt hash j ∧ t.probed hash j = .sentinel)
    (hgo : ∀ i < m, t.probed hash (start + i) ≠ .null ∧
      hits cls ns n (t.probed hash (start + i)) = false) :
    (t.probed hash (start + m) = .null → ∃ j ≤ start + m,
      t.findInsertLoop cls ns n (strideOf (t.homeKey hash)) fuel (t.keyAt hash start)
        firstSentinel = some (.miss (t.keyAt hash j)) ∧
      (t.probed hash j = .null ∨ t.probed hash j = .sentinel)) ∧
    (t.probed hash (start + m) ≠ .null → hits cls ns n (t.probed hash (start + m)) = true →
      t.findInsertLoop cls ns n (strideOf (t.homeKey hash)) fuel (t.keyAt hash start)
        firstSentinel = some (.hit (t.probed hash (start + m)))) := by
  induction m generalizing start fuel firstSentinel with
  | zero =>
    obtain ⟨fuel, rfl⟩ := exists_eq_succ_of_ne_zero (ne_of_gt hfuel)
    simp only [findInsertLoop, hs.read_keyAt, some_bind, add_zero]
    refine ⟨fun hnull => ?_, fun hne hhit => ?_⟩
    · rw [if_pos hnull]
      rcases hfirst with rfl | ⟨j, hj, rfl, hsentinel⟩
      · exact ⟨start, le_rfl, rfl, .inl hnull⟩
      by_cases hzero : t.keyAt hash j = 0
      · rw [if_pos hzero]
        exact ⟨start, le_rfl, rfl, .inl hnull⟩
      · rw [if_neg hzero]
        exact ⟨j, hj.le, rfl, .inr hsentinel⟩
    · rw [if_neg hne, if_pos hhit]
      rfl
  | succ m ih =>
    obtain ⟨fuel, rfl⟩ := exists_eq_succ_of_ne_zero (ne_of_gt (zero_lt_of_lt hfuel))
    obtain ⟨hne, hmiss⟩ := hgo 0 (succ_pos m)
    rw [add_zero] at hne hmiss
    have hshift : ∀ i, start + (i + 1) = start + 1 + i := fun i => by omega
    simp only [hshift m, findInsertLoop, hs.read_keyAt, nextKey_keyAt, some_bind, hmiss, Bool.false_eq_true,
      if_false, if_neg hne]
    refine ih (lt_of_succ_lt_succ hfuel) ?_ fun i hi => ?_
    · -- the sentinel that is remembered has been probed
      split
      next hnew => exact .inr ⟨start, lt_succ_self _, rfl, hnew.2⟩
      · rcases hfirst with hzero | ⟨j, hj, hkey⟩
        · exact .inl hzero
        · exact .inr ⟨j, lt_succ_of_lt hj, hkey⟩
    · rw [← hshift]
      exact hgo (i + 1) (succ_lt_succ hi)

/-! ## Insertion -/

/-- A table that counts one more insertion. -/
def counted (this : NodeHash) : NodeHash := { this with inserts := this.inserts + 1 }

/-- The loop of `hash_insert` chooses a free slot on the path of a node. -/
theorem Sized.insertSlot (hs : t.Sized) (hfree : t.nonNull < t.max.toNat) (hash : UInt)
    (n : NodeId) : ∃ p < t.table.length, (t.slotAt p = .null ∨ t.slotAt p = .sentinel) ∧
      t.Reached hash p ∧ (do
        let (key, _) ← t.probe hash fun k => k == .null || k == .sentinel
        t.write key (.node n)) = some (t.setAt p (.node n)) := by
  obtain ⟨i, hi, hprobe, hstop, hgo⟩ :=
    hs.exists_probe hfree hash (fun k => k == .null || k == .sentinel) rfl
  have hlt := hs.keyAt_lt hash i
  simp only [Bool.or_eq_true, beq_iff_eq] at hstop
  refine ⟨(t.keyAt hash i).toNat, hlt, hstop, hs.reached hi ?_, ?_⟩
  · intro j hj hnull
    have hnot := hgo j hj
    rw [hnull] at hnot
    cases hnot
  · rw [hprobe]
    exact write_eq hlt _

/-- `hash_insert` without growth. -/
theorem hashInsertWith_of_ne (hs : t.Sized) (h : t.Stored cls ns)
    (hfree : t.nonNull < t.max.toNat) (hh : cls.hash (ns n) ≠ Node.NO_HASH)
    (hn : n ∉ t.contents) (hne : t.inserts + 1 ≠ t.insertLimit)
    (grow : NodeHash → Option NodeHash) :
    ∃ p < t.table.length, (t.slotAt p = .null ∨ t.slotAt p = .sentinel) ∧
      t.hashInsertWith cls ns grow n = some (t.counted.setAt p (.node n)) ∧
      (t.counted.setAt p (.node n)).Sized ∧ (t.counted.setAt p (.node n)).Stored cls ns ∧
      (t.counted.setAt p (.node n)).contents = insert n t.contents := by
  have hs' : t.counted.Sized := ⟨hs.size, hs.length, hs.limit⟩
  have h' : t.counted.Stored cls ns := ⟨h.hashed, h.reached, h.unique⟩
  obtain ⟨p, hp, hslot, hpath, hinsert⟩ := hs'.insertSlot hfree (cls.hash (ns n)) n
  obtain ⟨hstored, hcontents⟩ := h'.setAt_node hp hslot hn hh hpath
  refine ⟨p, hp, hslot, ?_, hs'.setAt p _, hstored, hcontents⟩
  have hgrow : t.checkGrowWith grow = some t.counted := if_neg hne
  simp only [hashInsertWith, if_neg hh, hgrow, some_bind]
  exact hinsert

theorem toNat_inserts_succ (hlt : t.inserts.toNat < t.insertLimit.toNat) :
    (t.inserts + 1).toNat = t.inserts.toNat + 1 := by
  have hone : (1 : UInt).toNat = 1 := rfl
  rw [BitVec.toNat_add, hone]
  omega

/-- The counter is compared as a number. -/
theorem inserts_succ_ne (hlt : t.inserts.toNat + 1 < t.insertLimit.toNat) :
    t.inserts + 1 ≠ t.insertLimit := by
  intro heq
  have hsucc := toNat_inserts_succ (lt_of_succ_lt hlt)
  rw [heq] at hsucc
  omega

/-! ## Growth -/

/-- The nodes among some slots. -/
def nodesOf (slots : List Slot) : Set NodeId := { n | .node n ∈ slots }

/-- The new table while the slots `done` of the old one have been moved to it. -/
structure Rehashed (cls : NodeClasses β) (nodes : NodeId → Node β) (max : UInt) (done : List Slot)
    (that : NodeHash) : Prop where
  sized : that.Sized
  max_eq : that.max = max
  stored : that.Stored cls nodes
  contents_eq : that.contents = nodesOf done
  no_sentinel : ∀ p, that.slotAt p ≠ .sentinel
  nonNull_eq : that.nonNull = that.inserts.toNat
  inserts_le : that.inserts.toNat ≤ done.countP (· ≠ .null)

theorem slotAt_empty (max : UInt) (p : Nat) : (empty max).slotAt p = .null := by
  rw [slotAt, empty, List.getElem?_replicate]
  split <;> rfl

variable {max : UInt}

theorem rehashed_empty (hmax : IsSize max) :
    Rehashed cls ns max [] (empty max) where
  sized := ⟨hmax, List.length_replicate, rfl⟩
  max_eq := rfl
  stored := by
    constructor
    · intro p n hp
      rw [slotAt_empty] at hp
      cases hp
    · intro p n hp
      rw [slotAt_empty] at hp
      cases hp
    · intro p q n hp
      rw [slotAt_empty] at hp
      cases hp
  contents_eq := by
    ext n
    rw [mem_contents]
    simp [slotAt_empty, nodesOf]
  no_sentinel p := by simp [slotAt_empty]
  nonNull_eq := by
    simp [nonNull, empty, List.countP_replicate]
  inserts_le := zero_le _

theorem Sized.limit_lt (hs : t.Sized) : t.insertLimit.toNat < t.max.toNat := by
  have hsize := hs.size.le
  rw [hs.limit, toNat_limitOf]
  omega

theorem nodesOf_append (done : List Slot) (slot : Slot) :
    nodesOf (done ++ [slot]) = nodesOf done ∪ { n | .node n = slot } := by
  ext n
  simp [nodesOf]

variable {done : List Slot}

/-- Moving one slot. -/
theorem Rehashed.step {slot : Slot} {u : NodeHash} (h : Rehashed cls ns max done u)
    (hnew : ∀ m, slot = .node m → m ∉ nodesOf done ∧ cls.hash (ns m) ≠ Node.NO_HASH)
    (hroom : done.countP (· ≠ .null) + 1 < (limitOf max).toNat)
    (grow : NodeHash → Option NodeHash) : ∃ that', u.reinsertWith cls ns grow slot = some that' ∧
      Rehashed cls ns max (done ++ [slot]) that' := by
  have hcount : done.countP (· ≠ .null) ≤ (done ++ [slot]).countP (· ≠ .null) := by
    rw [List.countP_append]
    exact le_add_right _ _
  cases slot with
  | null =>
    refine ⟨u, rfl, { h with contents_eq := ?_, inserts_le := h.inserts_le.trans hcount }⟩
    rw [h.contents_eq, nodesOf_append]
    simp
  | sentinel =>
    refine ⟨u, rfl, { h with contents_eq := ?_, inserts_le := h.inserts_le.trans hcount }⟩
    rw [h.contents_eq, nodesOf_append]
    simp
  | node m =>
    obtain ⟨hm, hh⟩ := hnew m rfl
    have hlimit : u.inserts.toNat + 1 < u.insertLimit.toNat := by
      rw [h.sized.limit, h.max_eq]
      exact (succ_le_succ h.inserts_le).trans_lt hroom
    have hfree : u.nonNull < u.max.toNat := by
      have hlt := h.sized.limit_lt
      rw [h.nonNull_eq]
      omega
    obtain ⟨p, hp, hslot, hinsert, hsized, hstored, hcontents⟩ :=
      hashInsertWith_of_ne h.sized h.stored hfree hh (h.contents_eq ▸ hm)
        (inserts_succ_ne hlimit) grow
    have hnull : u.slotAt p = .null := by
      rcases hslot with hnull | hsentinel
      · exact hnull
      · exact absurd hsentinel (h.no_sentinel p)
    have hsucc := toNat_inserts_succ (lt_of_succ_lt hlimit)
    refine ⟨_, hinsert, hsized, h.max_eq, hstored, ?_, ?_, ?_, ?_⟩
    · rw [hcontents, h.contents_eq, nodesOf_append]
      ext k
      simp
    · intro q
      rcases eq_or_ne q p with rfl | hne
      · rw [@slotAt_setAt_self u.counted q hp]
        simp
      · rw [@slotAt_setAt_of_ne u.counted p q hne]
        exact h.no_sentinel q
    · have hset := @nonNull_setAt u.counted p hp (.node m) (by simp)
      refine hset.trans ?_
      show u.nonNull + (if u.slotAt p = .null then 1 else 0) = (u.inserts + 1).toNat
      rw [if_pos hnull, hsucc, h.nonNull_eq]
    · show (u.inserts + 1).toNat ≤ _
      rw [hsucc, List.countP_append]
      exact Nat.add_le_add h.inserts_le (le_refl 1)

/-- Moving all slots. The induction is on the slots that are left. -/
theorem Rehashed.foldlM {todo : List Slot} {u : NodeHash} (h : Rehashed cls ns max done u)
    (hnew : ∀ pre m post, done ++ todo = pre ++ .node m :: post →
      m ∉ nodesOf pre ∧ cls.hash (ns m) ≠ Node.NO_HASH)
    (hroom : (done ++ todo).countP (· ≠ .null) + 1 < (limitOf max).toNat)
    (grow : NodeHash → Option NodeHash) :
    ∃ that', List.foldlM (fun u slot => reinsertWith u cls ns grow slot) u todo =
        some that' ∧ Rehashed cls ns max (done ++ todo) that' := by
  induction todo generalizing done u with
  | nil =>
    rw [List.append_nil]
    exact ⟨u, rfl, h⟩
  | cons slot todo ih =>
    have hroom' : done.countP (· ≠ .null) + 1 < (limitOf max).toNat := by
      rw [List.countP_append] at hroom
      omega
    obtain ⟨next, hstep, hnext⟩ := h.step
      (fun m (hm : slot = .node m) => hnew done m todo (by rw [hm])) hroom' grow
    have hsplit : done ++ slot :: todo = (done ++ [slot]) ++ todo := by simp
    rw [hsplit] at hnew hroom ⊢
    obtain ⟨that', hrest, hdone⟩ := ih hnext hnew hroom
    refine ⟨that', ?_, hdone⟩
    rw [List.foldlM_cons, hstep]
    exact hrest

/-- The nodes of a table are all different. -/
theorem Stored.not_mem_before (h : t.Stored cls ns) {pre post : List Slot} {m : NodeId}
    (hsplit : t.table = pre ++ .node m :: post) :
    m ∉ nodesOf pre ∧ cls.hash (ns m) ≠ Node.NO_HASH := by
  have hslot : t.slotAt pre.length = .node m := by
    simp [slotAt, hsplit]
  refine ⟨fun hmem => ?_, h.hashed _ m hslot⟩
  obtain ⟨q, hq, hget⟩ := List.mem_iff_getElem.mp hmem
  have hslot' : t.slotAt q = .node m := by
    simp [slotAt, hsplit, List.getElem?_append_left hq, hq, hget]
  exact Nat.ne_of_lt hq (h.unique q pre.length m hslot' hslot)

/-- Growth moves all nodes to a table of twice the size. -/
theorem grow_spec (hs : t.Sized) (h : t.Stored cls ns) (hmax : t.max.toNat < 2 ^ 31)
    (hroom : t.nonNull ≤ t.insertLimit.toNat + 1) : ∃ u, t.grow cls ns = some u ∧
      Rehashed cls ns (t.max <<< 1) t.table u ∧
      u.insertLimit.toNat = 2 * t.insertLimit.toNat := by
  obtain ⟨hsize, hdouble⟩ := hs.size.double hmax
  have hle := hs.size.le
  have hlimit : (limitOf (t.max <<< 1)).toNat = 2 * t.insertLimit.toNat := by
    obtain ⟨b, hb, -, heq⟩ := hs.size
    obtain ⟨c, hc⟩ : ∃ c, t.max.toNat = 4 * c :=
      ⟨2 ^ (b - 2), by rw [heq, show (4 : Nat) = 2 ^ 2 from rfl, ← pow_add]; congr 1; omega⟩
    rw [hs.limit, toNat_limitOf, toNat_limitOf, hdouble]
    omega
  have hfits : t.table.countP (· ≠ .null) + 1 < (limitOf (t.max <<< 1)).toNat := by
    have hbig : 12 ≤ t.insertLimit.toNat := by
      rw [hs.limit, toNat_limitOf]
      omega
    exact (succ_le_succ hroom).trans_lt (by omega)
  obtain ⟨u, hfold, hdone⟩ := @Rehashed.foldlM _ cls ns _ [] t.table _
    (rehashed_empty hsize) (fun pre m post hsplit => h.not_mem_before hsplit) hfits
    (growLoop cls ns 32)
  refine ⟨u, hfold, hdone, ?_⟩
  rw [hdone.sized.limit, hdone.max_eq, hlimit]

/-! ## The operations -/

/-- What holds between operations. One slot more may be in use than insertions were counted. -/
structure Inv (cls : NodeClasses β) (nodes : NodeId → Node β) (this : NodeHash) : Prop where
  sized : this.Sized
  stored : this.Stored cls nodes
  inserts_lt : this.inserts.toNat < this.insertLimit.toNat
  nonNull_le : this.nonNull ≤ this.inserts.toNat + 1

/-- A slot is always free. -/
theorem Inv.free (inv : t.Inv cls ns) : t.nonNull < t.max.toNat := by
  have hlimit := inv.sized.limit_lt
  have hlt := inv.inserts_lt
  have hle := inv.nonNull_le
  omega

theorem inv_empty (hmax : IsSize max) : (empty max).Inv cls ns := by
  have h := @rehashed_empty _ cls ns max hmax
  have hle := hmax.le
  refine ⟨h.sized, h.stored, ?_, by rw [h.nonNull_eq]; exact le_succ _⟩
  show (0 : UInt).toNat < (limitOf max).toNat
  rw [toNat_limitOf]
  show 0 < _
  omega

/-- The new table after a growth. -/
theorem Rehashed.inv (h : Rehashed cls ns max done t)
    (hlt : t.inserts.toNat < t.insertLimit.toNat) : t.Inv cls ns :=
  ⟨h.sized, h.stored, hlt, by rw [h.nonNull_eq]; exact le_succ _⟩

/-- The growth that an insertion may set off. -/
theorem grow_counted (hs : t.Sized) (h : t.Stored cls ns) (hmax : t.max.toNat < 2 ^ 31)
    (heq : t.inserts + 1 = t.insertLimit) (hroom : t.nonNull ≤ t.insertLimit.toNat + 1) :
    ∃ u, t.checkGrow cls ns = some u ∧ Rehashed cls ns (t.max <<< 1) t.table u ∧
      u.inserts.toNat + 1 < u.insertLimit.toNat ∧ u.contents = t.contents := by
  obtain ⟨u, hgrow, hdone, hlimit⟩ := @grow_spec _ cls ns t.counted
    ⟨hs.size, hs.length, hs.limit⟩ ⟨h.hashed, h.reached, h.unique⟩ hmax hroom
  have hle := hs.size.le
  have hbig : 12 ≤ t.insertLimit.toNat := by
    rw [hs.limit, toNat_limitOf]
    omega
  have hcount : u.inserts.toNat ≤ t.nonNull := hdone.inserts_le
  have hlimit' : u.insertLimit.toNat = 2 * t.insertLimit.toNat := hlimit
  exact ⟨u, (if_pos heq).trans hgrow, hdone, by omega, hdone.contents_eq⟩

/-- Deletion. -/
theorem hashDelete_spec (inv : t.Inv cls ns) (n : NodeId) :
    (n ∉ t.contents ∧ t.hashDelete cls ns n = some (false, t)) ∨
    (n ∈ t.contents ∧ ∃ u, t.hashDelete cls ns n = some (true, u) ∧
      u.Inv cls ns ∧ u.contents = t.contents \ {n} ∧
      u.inserts = t.inserts ∧ u.nonNull = t.nonNull) := by
  by_cases hh : cls.hash (ns n) = Node.NO_HASH
  · refine .inl ⟨fun hn => ?_, if_pos hh⟩
    obtain ⟨p, hp⟩ := mem_contents.mp hn
    exact inv.stored.hashed p n hp hh
  obtain ⟨i, hi, hprobe, hstop, hgo⟩ := inv.sized.exists_probe inv.free (cls.hash (ns n))
    (fun k => k == .null || k == .node n) rfl
  simp only [Bool.or_eq_true, beq_iff_eq] at hstop
  rcases hstop with hnull | hnode
  · refine .inl ⟨fun hn => ?_, ?_⟩
    · obtain ⟨j, hj, hentry⟩ := inv.stored.before_null inv.sized hn hnull
      have hnot := hgo j hj
      simp [hentry] at hnot
    · simp only [hashDelete, if_neg hh, hprobe, some_bind,
        if_pos hnull]
      rfl
  · have hlt := inv.sized.keyAt_lt (cls.hash (ns n)) i
    have hslot : t.slotAt (t.keyAt (cls.hash (ns n)) i).toNat = .node n := hnode
    obtain ⟨hstored, hcontents⟩ := inv.stored.setAt_sentinel hslot
    have hcount := @nonNull_setAt t _ hlt .sentinel (by simp)
    rw [if_neg (by simp [hslot]), add_zero] at hcount
    refine .inr ⟨mem_contents.mpr ⟨_, hslot⟩, _, ?_,
      ⟨inv.sized.setAt _ _, hstored, inv.inserts_lt, hcount.le.trans inv.nonNull_le⟩, hcontents,
      rfl, hcount⟩
    simp only [hashDelete, if_neg hh, hprobe, some_bind, write_eq hlt]
    rw [if_neg (by simp [hnode])]
    rfl

theorem removeUseless_eq_null {useful : Nat → Bool} {k : Slot} :
    removeUseless ns useful k = .null ↔ k = .null := by
  cases k with
  | null => exact Iff.rfl
  | sentinel => simp [removeUseless]
  | node n =>
    rw [removeUseless]
    split <;> simp

theorem removeUseless_eq_node {useful : Nat → Bool} {k : Slot} :
    removeUseless ns useful k = .node n ↔ k = .node n ∧ useful (ns n).idx = true := by
  cases k with
  | null => simp [removeUseless]
  | sentinel => simp [removeUseless]
  | node m =>
    rw [removeUseless]
    split
    next huseful =>
      refine ⟨fun h => ⟨h, ?_⟩, fun h => h.1⟩
      rw [← Slot.node.inj h]
      exact huseful
    next huseful =>
      refine ⟨nofun, fun h => ?_⟩
      rw [Slot.node.inj h.1] at huseful
      exact absurd h.2 huseful

theorem slotAt_removeUselessNodes (useful : Nat → Bool) (p : Nat) :
    (t.removeUselessNodes ns useful).slotAt p = removeUseless ns useful (t.slotAt p) := by
  rw [slotAt, removeUselessNodes, List.getElem?_map, slotAt]
  cases t.table[p]? <;> rfl

section

variable (inv : t.Inv cls ns)

include inv

/-- Useless nodes are replaced by the sentinel. -/
theorem removeUselessNodes_spec (useful : Nat → Bool) :
    (t.removeUselessNodes ns useful).Inv cls ns ∧ (t.removeUselessNodes ns useful).contents =
        { n ∈ t.contents | useful (ns n).idx = true } ∧
      (t.removeUselessNodes ns useful).nonNull = t.nonNull := by
  have hcount : (t.removeUselessNodes ns useful).nonNull = t.nonNull := by
    rw [nonNull, removeUselessNodes, List.countP_map, nonNull]
    refine List.countP_congr fun k _ => ?_
    simp [removeUseless_eq_null]
  have hold : ∀ p n, (t.removeUselessNodes ns useful).slotAt p = .node n →
      t.slotAt p = .node n := by
    intro p n hp
    rw [slotAt_removeUselessNodes] at hp
    exact (removeUseless_eq_node.mp hp).1
  refine ⟨⟨⟨inv.sized.size, ?_, inv.sized.limit⟩, ⟨?_, ?_, ?_⟩, inv.inserts_lt, ?_⟩, ?_, hcount⟩
  · exact (List.length_map _).trans inv.sized.length
  · intro p n hp
    exact inv.stored.hashed p n (hold p n hp)
  · intro p n hp
    refine OnPath.mono (inv.stored.reached p n (hold p n hp)) fun q _ hocc => ?_
    rw [Occupied, slotAt_removeUselessNodes, ne_eq, removeUseless_eq_null]
    exact hocc
  · intro p q n hp hq
    exact inv.stored.unique p q n (hold p n hp) (hold q n hq)
  · exact hcount.le.trans inv.nonNull_le
  · ext n
    rw [mem_contents, Set.mem_ofPred_eq, mem_contents]
    simp [slotAt_removeUselessNodes, removeUseless_eq_node]

theorem clear_spec : t.clear.Inv cls ns ∧ t.clear.contents = ∅ ∧ t.clear.nonNull = 0 := by
  have h := @rehashed_empty _ cls ns t.max inv.sized.size
  have hnonNull : t.clear.nonNull = 0 := h.nonNull_eq
  refine ⟨⟨⟨inv.sized.size, List.length_replicate, inv.sized.limit⟩, ?_, inv.inserts_lt, ?_⟩, ?_,
    hnonNull⟩
  · exact ⟨h.stored.hashed, h.stored.reached, h.stored.unique⟩
  · rw [hnonNull]
    exact zero_le _
  · refine Eq.trans h.contents_eq ?_
    simp [nodesOf]

/-- `hash_insert` without growth. -/
theorem hashInsert_of_ne (hn : n ∉ t.contents)
    (hh : cls.hash (ns n) ≠ Node.NO_HASH) (hne : t.inserts + 1 ≠ t.insertLimit) :
    ∃ u, t.hashInsert cls ns n = some u ∧ u.Inv cls ns ∧
      u.contents = insert n t.contents ∧ u.insertLimit = t.insertLimit ∧
      u.inserts.toNat = t.inserts.toNat + 1 ∧ u.nonNull ≤ t.nonNull + 1 := by
  obtain ⟨p, hp, -, hinsert, hsized, hstored, hcontents⟩ :=
    hashInsertWith_of_ne inv.sized inv.stored inv.free hh hn hne fun u => u.grow cls ns
  have hsucc := toNat_inserts_succ inv.inserts_lt
  have hcount : (t.counted.setAt p (.node n)).nonNull ≤ t.nonNull + 1 := by
    rw [@nonNull_setAt t.counted p hp (.node n) (by simp)]
    refine Nat.add_le_add_left ?_ t.nonNull
    split <;> decide
  have hlt : (t.inserts + 1).toNat < t.insertLimit.toNat := by
    refine lt_of_le_of_ne ?_ fun heq => hne (BitVec.eq_of_toNat_eq heq)
    rw [hsucc]
    exact inv.inserts_lt
  refine ⟨_, hinsert, ⟨hsized, hstored, hlt, ?_⟩, hcontents, rfl, hsucc, hcount⟩
  have hle := inv.nonNull_le
  show _ ≤ (t.inserts + 1).toNat + 1
  omega

/-- `hash_insert` with growth: the counter starts again from the nodes that were moved, and the
node that is inserted after that is not counted. -/
theorem hashInsert_of_eq (hn : n ∉ t.contents)
    (hh : cls.hash (ns n) ≠ Node.NO_HASH) (heq : t.inserts + 1 = t.insertLimit)
    (hmax : t.max.toNat < 2 ^ 31) :
    ∃ u, t.hashInsert cls ns n = some u ∧ u.Inv cls ns ∧
      u.contents = insert n t.contents ∧ u.nonNull = u.inserts.toNat + 1 := by
  have hsucc := toNat_inserts_succ inv.inserts_lt
  rw [heq] at hsucc
  have hle := inv.nonNull_le
  obtain ⟨next, hgrow, hdone, hlt, hnext⟩ :=
    grow_counted inv.sized inv.stored hmax heq (by omega)
  have hinv := hdone.inv (by omega)
  obtain ⟨p, hp, hslot, hpath, hinsert⟩ :=
    hinv.sized.insertSlot hinv.free (cls.hash (ns n)) n
  obtain ⟨hstored, hcontents⟩ := hinv.stored.setAt_node hp hslot (hnext ▸ hn) hh hpath
  have hnull : next.slotAt p = .null := by
    rcases hslot with hnull | hsentinel
    · exact hnull
    · exact absurd hsentinel (hdone.no_sentinel p)
  have hcount : (next.setAt p (.node n)).nonNull = next.inserts.toNat + 1 := by
    rw [nonNull_setAt hp (by simp), if_pos hnull, hdone.nonNull_eq]
  refine ⟨next.setAt p (.node n), ?_, ⟨hinv.sized.setAt p _, hstored, by exact hinv.inserts_lt,
    hcount.le⟩, by rw [hcontents, hnext], hcount⟩
  have hcheck : t.checkGrowWith (fun u => u.grow cls ns) = some next := hgrow
  simp only [hashInsert, hashInsertWith, if_neg hh, hcheck, some_bind]
  exact hinsert

end

/-- The table in which `hash_find_insert` has stored a node, before it checks for growth. -/
structure Entered (cls : NodeClasses β) (nodes : NodeId → Node β) (this : NodeHash) (n : NodeId)
    (that : NodeHash) : Prop where
  sized : that.Sized
  stored : that.Stored cls nodes
  contents_eq : that.contents = insert n this.contents
  max_eq : that.max = this.max
  inserts_eq : that.inserts = this.inserts
  limit_eq : that.insertLimit = this.insertLimit
  nonNull_le : that.nonNull ≤ this.nonNull + 1

/-- `hash_find_insert` returns an equal node, or it stores the node and checks for growth. -/
theorem hashFindInsert_cases (inv : t.Inv cls ns) (n : NodeId) :
    (cls.hash (ns n) = Node.NO_HASH ∧ t.hashFindInsert cls ns n = some (.null, t)) ∨
    (∃ m ∈ t.contents, cls.congruent (ns n) (ns m) = true ∧
      t.hashFindInsert cls ns n = some (.node m, t)) ∨
    (cls.hash (ns n) ≠ Node.NO_HASH ∧ Finds cls ns t.contents n .null ∧
      ∃ u, Entered cls ns t n u ∧ t.hashFindInsert cls ns n =
          (u.checkGrow cls ns).bind fun u => some (.null, u)) := by
  by_cases hh : cls.hash (ns n) = Node.NO_HASH
  · exact .inl ⟨hh, if_pos hh⟩
  obtain ⟨i, hi, -, hstop, hgo⟩ := inv.sized.exists_probe inv.free (cls.hash (ns n))
    (fun k => k == .null || hits cls ns n k) rfl
  simp only [Bool.or_eq_true, beq_iff_eq] at hstop
  simp only [Bool.or_eq_false_iff, beq_eq_false_iff_ne] at hgo
  have hfinds := inv.stored.finds inv.sized hh hstop fun j hj => (hgo j hj).2
  obtain ⟨hmiss, hhit⟩ := @findInsertLoop_spec _ cls ns t n inv.sized
    (cls.hash (ns n)) 0 i t.max.toNat hi 0 (.inl rfl) (by simpa using hgo)
  rw [Nat.zero_add] at hmiss hhit
  refine .inr ?_
  cases hslot : t.probed (cls.hash (ns n)) i with
  | null =>
    rw [hslot] at hfinds
    obtain ⟨j, hj, hloop, hfree⟩ := hmiss hslot
    have hlt := inv.sized.keyAt_lt (cls.hash (ns n)) j
    have hpath := inv.sized.reached (hj.trans_lt hi) fun x hx =>
      (hgo x (hx.trans_le hj)).1
    have hn : n ∉ t.contents := fun hn => by
      have hself := hfinds n hn
      rw [NodeClasses.congruent_self] at hself
      cases hself
    obtain ⟨hstored, hcontents⟩ := inv.stored.setAt_node hlt hfree hn hh hpath
    refine .inr ⟨hh, hfinds, _, ⟨inv.sized.setAt _ _, hstored, hcontents, rfl, rfl, rfl, ?_⟩, ?_⟩
    · rw [nonNull_setAt hlt (by simp)]
      refine Nat.add_le_add_left ?_ t.nonNull
      split <;> decide
    have hloop' : t.findInsertLoop cls ns n (strideOf (t.homeKey (cls.hash (ns n))))
        t.max.toNat (t.homeKey (cls.hash (ns n))) 0 = _ := hloop
    simp only [hashFindInsert, if_neg hh, hloop', some_bind, write_eq hlt]
    rfl
  | sentinel =>
    rw [hslot] at hfinds
    exact hfinds.elim
  | node m =>
    rw [hslot] at hfinds hhit
    refine .inl ⟨m, hfinds.1, hfinds.2, ?_⟩
    have hloop : t.findInsertLoop cls ns n (strideOf (t.homeKey (cls.hash (ns n))))
        t.max.toNat (t.homeKey (cls.hash (ns n))) 0 = _ := hhit (by simp) hfinds.2
    simp only [hashFindInsert, if_neg hh, hloop, some_bind]
    rfl

/-- `check_grow` after `hash_find_insert` has stored a node: without growth the node is counted,
and with growth the counter starts again from the nodes that were moved. -/
theorem Entered.checkGrow {u : NodeHash} (h : Entered cls ns t n u) (inv : t.Inv cls ns)
    (hroom : t.inserts + 1 ≠ t.insertLimit ∨ t.max.toNat < 2 ^ 31) :
    ∃ last, u.checkGrow cls ns = some last ∧ last.Inv cls ns ∧
      last.contents = insert n t.contents ∧
      (t.nonNull ≤ t.inserts.toNat → last.nonNull ≤ last.inserts.toNat) := by
  have hsucc := toNat_inserts_succ inv.inserts_lt
  have hlt := inv.inserts_lt
  have hle := inv.nonNull_le
  have hle' := h.nonNull_le
  by_cases heq : t.inserts + 1 = t.insertLimit
  · have hmax : u.max.toNat < 2 ^ 31 := by
      rw [h.max_eq]
      exact hroom.resolve_left (not_not_intro heq)
    obtain ⟨last, hgrow, hdone, hlast, hcontents⟩ := grow_counted h.sized h.stored hmax
      (by rw [h.inserts_eq, h.limit_eq, heq]) (by rw [h.limit_eq]; omega)
    refine ⟨last, hgrow, hdone.inv (by omega), hcontents.trans h.contents_eq, fun _ => ?_⟩
    exact hdone.nonNull_eq.le
  · have hne : ¬u.inserts + 1 = u.insertLimit := by rwa [h.inserts_eq, h.limit_eq]
    have hlast : (u.inserts + 1).toNat < u.insertLimit.toNat := by
      rw [h.inserts_eq, h.limit_eq]
      refine lt_of_le_of_ne ?_ fun heq' => heq (BitVec.eq_of_toNat_eq heq')
      rw [hsucc]
      exact hlt
    refine ⟨u.counted, if_neg hne, ⟨⟨h.sized.size, h.sized.length, h.sized.limit⟩,
      ⟨h.stored.hashed, h.stored.reached, h.stored.unique⟩, hlast, ?_⟩, h.contents_eq, fun hcount => ?_⟩
    · show u.nonNull ≤ (u.inserts + 1).toNat + 1
      rw [h.inserts_eq, hsucc]
      omega
    · show u.nonNull ≤ (u.inserts + 1).toNat
      rw [h.inserts_eq, hsucc]
      omega

/-! ## Overflow of the size

A table of `2 ^ 31` slots cannot be doubled: its size becomes zero. -/

theorem IsSize.double_eq_zero (h : IsSize max) (hmax : ¬max.toNat < 2 ^ 31) : max <<< 1 = 0 := by
  obtain ⟨b, -, hb, heq⟩ := h
  have hle : 2 ^ b ≤ 2 ^ 31 := Nat.pow_le_pow_right (by decide) hb
  have hmax' : max = BitVec.ofNat 32 (2 ^ 31) := BitVec.eq_of_toNat_eq (by
    rw [BitVec.toNat_ofNat]
    omega)
  rw [hmax']
  decide

theorem probe_of_zero (hzero : t.max = 0) (hash : UInt) (stop : Slot → Bool) :
    t.probe hash stop = none := by
  rw [probe, hzero]
  rfl

theorem hashInsertWith_zero {m : NodeId} (hh : cls.hash (ns m) ≠ Node.NO_HASH)
    (grow : NodeHash → Option NodeHash) : (empty 0).hashInsertWith cls ns grow m = none := by
  have hne : ¬(empty 0).inserts + 1 = (empty 0).insertLimit := by decide
  have hcheck : (empty 0).checkGrowWith grow = some (empty 0).counted := by
    rw [checkGrowWith]
    exact if_neg hne
  rw [hashInsertWith, if_neg hh, hcheck, some_bind, probe_of_zero rfl]
  rfl

/-- The first node that is moved does not fit into the new table. -/
theorem grow_overflow (hs : t.Sized) (h : t.Stored cls ns) (hmax : ¬t.max.toNat < 2 ^ 31) :
    t.grow cls ns = none ∨ (t.grow cls ns = some (empty 0) ∧ t.contents = ∅) := by
  have hh : ∀ m, .node m ∈ t.table → cls.hash (ns m) ≠ Node.NO_HASH := by
    intro m hm
    obtain ⟨p, hp⟩ := mem_contents.mp hm
    exact h.hashed p m hp
  rw [grow, growLoop, hs.size.double_eq_zero hmax]
  show _ ∨ (_ ∧ nodesOf t.table = ∅)
  generalize t.table = slots at hh
  induction slots with
  | nil => exact .inr ⟨rfl, by simp [nodesOf]⟩
  | cons slot slots ih =>
    rw [List.foldlM_cons]
    have ih := ih fun m hm => hh m (List.mem_cons_of_mem slot hm)
    cases slot with
    | null => simpa [reinsertWith, nodesOf] using ih
    | sentinel => simpa [reinsertWith, nodesOf] using ih
    | node m =>
      rw [reinsertWith, hashInsertWith_zero (hh m List.mem_cons_self)]
      exact .inl rfl

/-- `hash_insert` cannot make a table of `2 ^ 31` slots grow. -/
theorem hashInsert_overflow (inv : t.Inv cls ns)
    (hh : cls.hash (ns n) ≠ Node.NO_HASH) (heq : t.inserts + 1 = t.insertLimit)
    (hmax : ¬t.max.toNat < 2 ^ 31) : t.hashInsert cls ns n = none := by
  have hcheck : t.checkGrowWith (fun u => u.grow cls ns) = t.counted.grow cls ns := by
    exact if_pos heq
  rw [hashInsert, hashInsertWith, if_neg hh, hcheck]
  rcases @grow_overflow _ cls ns t.counted ⟨inv.sized.size, inv.sized.length, inv.sized.limit⟩
    ⟨inv.stored.hashed, inv.stored.reached, inv.stored.unique⟩ hmax with hnone | ⟨hsome, -⟩
  · rw [hnone]
    rfl
  · rw [hsome, some_bind, probe_of_zero rfl]
    rfl

/-- Neither can `hash_find_insert`. -/
theorem Entered.overflow {u : NodeHash} (h : Entered cls ns t n u)
    (heq : t.inserts + 1 = t.insertLimit) (hmax : ¬t.max.toNat < 2 ^ 31) :
    u.checkGrow cls ns = none := by
  have hcheck : u.checkGrow cls ns = u.counted.grow cls ns := by
    refine if_pos ?_
    rw [h.inserts_eq, h.limit_eq, heq]
  rw [hcheck]
  rcases @grow_overflow _ cls ns u.counted ⟨h.sized.size, h.sized.length, h.sized.limit⟩
    ⟨h.stored.hashed, h.stored.reached, h.stored.unique⟩ (by rwa [← h.max_eq] at hmax)
    with hnone | ⟨-, hempty⟩
  · exact hnone
  · have hcontents : insert n t.contents = ∅ := h.contents_eq.symm.trans hempty
    exact absurd hcontents (Set.insert_nonempty n _).ne_empty

end NodeHash

end Gvn

end Hotspot.Opto
