-- SUMMARY: Runs of the node table as a set, and when its counter covers all slots.
import Hotspot.Base.Run
import Hotspot.Opto.NodeHashOperations

/-!
# Runs of the node table

The clients of a table call its operations in any order and change nodes between them, but
they keep the hash of a node while it is in the table. Each operation does to the table what
it should do to the set of nodes in it.
-/

namespace Hotspot.Opto

namespace Gvn

open NodeHash (empty IsSize inv_empty roundUp roundUpLoop mem_contents)

variable {β : Type}

/-! ## Operations -/

/-- The operations of a table, and the changes that its clients make to nodes. -/
inductive Op (β : Type) where
  | hashFindInsert (n : NodeId)
  | hashInsert (n : NodeId)
  | hashDelete (n : NodeId)
  | removeUselessNodes (useful : Nat → Bool)
  | clear
  | change (nodes : NodeId → Node β)

/-- What an operation returns. -/
inductive Reply where
  | void
  | node (k : Slot)
  | bool (b : Bool)

/-- The nodes and the table of a phase. -/
structure Values (β : Type) where
  nodes : NodeId → Node β
  table : NodeHash

namespace Values

variable (cls : NodeClasses β)

def step (s : Values β) : Op β → Option (Reply × Values β)
  | .hashFindInsert n => do
    let (k, table) ← s.table.hashFindInsert cls s.nodes n
    return (.node k, { s with table := table })
  | .hashInsert n => do
    let table ← s.table.hashInsert cls s.nodes n
    return (.void, { s with table := table })
  | .hashDelete n => do
    let (b, table) ← s.table.hashDelete cls s.nodes n
    return (.bool b, { s with table := table })
  | .removeUselessNodes useful =>
    some (.void, { s with table := s.table.removeUselessNodes s.nodes useful })
  | .clear => some (.void, { s with table := s.table.clear })
  | .change nodes => some (.void, { s with nodes := nodes })

/-- What the table may expect of its clients: `hash_insert` is called for nodes that are not in
the table, and the hash of a node is stable while it is there. -/
def Allowed (s : Values β) : Op β → Prop
  | .hashInsert n => n ∉ s.table.contents
  | .change nodes => ∀ n ∈ s.table.contents, cls.hash (nodes n) = cls.hash (s.nodes n)
  | _ => True

/-! ## The set of nodes -/

/-- Adding a node to a set, unless it has no hash. -/
def addHashed (nodes : NodeId → Node β) (n : NodeId) (S : Set NodeId) : Set NodeId :=
  { m | m ∈ S ∨ (m = n ∧ cls.hash (nodes n) ≠ Node.NO_HASH) }

/-- What an operation should do to the set of nodes, and what it should return. -/
def Spec (nodes : NodeId → Node β) (S : Set NodeId) : Op β → Reply → Set NodeId → Prop
  | .hashFindInsert n, .node k, S' => NodeHash.Finds cls nodes S n k ∧
    S' = if k = .null then addHashed cls nodes n S else S
  | .hashInsert n, .void, S' => S' = addHashed cls nodes n S
  | .hashDelete n, .bool b, S' => (b = true ↔ n ∈ S) ∧ S' = S \ {n}
  | .removeUselessNodes useful, .void, S' => S' = { n ∈ S | useful (nodes n).idx = true }
  | .clear, .void, S' => S' = ∅
  | .change _, .void, S' => S' = S
  | _, _, _ => False

/-- The nodes after an operation. -/
def nodesAfter (nodes : NodeId → Node β) : Op β → NodeId → Node β
  | .change nodes' => nodes'
  | _ => nodes

/-- What should hold between operations, if at most `slack` slots in use are not counted: some
slot is free, and every lookup ends with an equal node from the table if there is one. -/
structure Good (slack : Nat) (s : Values β) : Prop where
  counted : s.table.nonNull ≤ s.table.inserts.toNat + slack
  free : s.table.nonNull < s.table.max.toNat
  find : ∀ n, ∃ k, s.table.hashFind cls s.nodes n = some k ∧
    NodeHash.Finds cls s.nodes s.table.contents n k

/-- An operation ends, does what it should do, and leaves the table as it should be. -/
def GoodStep (slack : Nat) (s : Values β) (op : Op β) : Prop :=
  ∃ reply s', s.step cls op = some (reply, s') ∧ s'.nodes = nodesAfter s.nodes op ∧
    Spec cls s.nodes s.table.contents op reply s'.table.contents ∧ Good cls slack s'

/-! ## Conditions on a step -/

/-- The next insertion makes the table grow. -/
def AtLimit (s : Values β) : Prop := s.table.inserts + 1 = s.table.insertLimit

/-- The size cannot be doubled. -/
def Largest (s : Values β) : Prop := s.table.max = BitVec.twoPow 32 31

/-- A step does not make a table of `2 ^ 31` slots grow. -/
def Fits (s : Values β) : Op β → Prop
  | .hashFindInsert n => cls.hash (s.nodes n) = Node.NO_HASH ∨
    (∃ m ∈ s.table.contents, cls.congruent (s.nodes n) (s.nodes m) = true) ∨
    ¬(AtLimit s ∧ Largest s)
  | .hashInsert n => cls.hash (s.nodes n) = Node.NO_HASH ∨ ¬(AtLimit s ∧ Largest s)
  | _ => True

/-- Besides, `hash_insert` does not make the table grow at all. -/
def Counts (s : Values β) : Op β → Prop
  | .hashInsert n => cls.hash (s.nodes n) = Node.NO_HASH ∨ ¬AtLimit s
  | op => Fits cls s op

/-! ## Steps -/

variable {cls} {s : Values β}

theorem good_of_inv {slack : Nat} (inv : s.table.Inv cls s.nodes)
    (hcount : s.table.nonNull ≤ s.table.inserts.toNat + slack) : Good cls slack s :=
  ⟨hcount, inv.free, NodeHash.hashFind_spec inv.sized inv.stored inv.free⟩

/-- The invariant depends on the hashes of the nodes in the table only. -/
theorem inv_change (inv : s.table.Inv cls s.nodes) {nodes : NodeId → Node β}
    (h : ∀ n ∈ s.table.contents, cls.hash (nodes n) = cls.hash (s.nodes n)) :
    s.table.Inv cls nodes := by
  have heq : ∀ p n, s.table.slotAt p = .node n → cls.hash (nodes n) = cls.hash (s.nodes n) :=
    fun p n hp => h n (mem_contents.mpr ⟨p, hp⟩)
  refine ⟨inv.sized, ⟨?_, ?_, inv.stored.unique⟩, inv.inserts_lt, inv.nonNull_le⟩
  · intro p n hp
    rw [heq p n hp]
    exact inv.stored.hashed p n hp
  · intro p n hp
    rw [heq p n hp]
    exact inv.stored.reached p n hp

variable {n : NodeId}

theorem addHashed_of_hash {nodes : NodeId → Node β} {S : Set NodeId}
    (hhash : cls.hash (nodes n) ≠ Node.NO_HASH) : addHashed cls nodes n S = insert n S := by
  ext m
  simp [addHashed, hhash, or_comm]

theorem addHashed_of_noHash {nodes : NodeId → Node β} {S : Set NodeId}
    (hhash : cls.hash (nodes n) = Node.NO_HASH) : addHashed cls nodes n S = S := by
  ext m
  simp [addHashed, hhash]

theorem not_largest (inv : s.table.Inv cls s.nodes) : ¬Largest s ↔ s.table.max.toNat < 2 ^ 31 := by
  have htwo : (BitVec.twoPow 32 31).toNat = 2 ^ 31 := by decide
  obtain ⟨b, -, hb, heq⟩ := inv.sized.size
  have hle : 2 ^ b ≤ 2 ^ 31 := Nat.pow_le_pow_right (by decide) hb
  constructor
  · intro hne
    by_contra hge
    exact hne (BitVec.eq_of_toNat_eq (by omega))
  · intro hlt hlargest
    rw [hlargest, htwo] at hlt
    exact absurd hlt (lt_irrefl _)

/-- A step that is good up to one slot in use that is not counted. -/
def Advances (cls : NodeClasses β) (s : Values β) (op : Op β) : Prop :=
  ∃ reply s', s.step cls op = some (reply, s') ∧ s'.nodes = nodesAfter s.nodes op ∧
    Spec cls s.nodes s.table.contents op reply s'.table.contents ∧ s'.table.Inv cls s'.nodes ∧
    (Counts cls s op → s.table.nonNull ≤ s.table.inserts.toNat →
      s'.table.nonNull ≤ s'.table.inserts.toNat)

section

variable (inv : s.table.Inv cls s.nodes)

include inv

theorem advances_hashFindInsert (hfits : Fits cls s (.hashFindInsert n)) : Advances cls s (.hashFindInsert n) := by
  rcases NodeHash.hashFindInsert_cases inv n with ⟨hhash, heq⟩ | ⟨m, hm, hcong, heq⟩ |
    ⟨hhash, hfinds, that, hentered, heq⟩
  · refine ⟨.node .null, s, by simp [step, heq], rfl, ⟨inv.stored.finds_null hhash, ?_⟩, inv,
      fun _ h => h⟩
    rw [if_pos rfl, addHashed_of_noHash hhash]
  · exact ⟨.node (.node m), s, by simp [step, heq], rfl, ⟨⟨hm, hcong⟩, rfl⟩, inv, fun _ h => h⟩
  have hroom : s.table.inserts + 1 ≠ s.table.insertLimit ∨ s.table.max.toNat < 2 ^ 31 := by
    rcases hfits with hnone | ⟨m, hm, hcong⟩ | hnot
    · exact absurd hnone hhash
    · exact absurd (hcong.symm.trans (hfinds m hm)) (by decide)
    · rw [← not_largest inv]
      exact not_and_or.mp hnot
  obtain ⟨last, hgrow, hinv, hcontents, hcount⟩ := hentered.checkGrow inv hroom
  refine ⟨.node .null, { s with table := last }, by simp [step, heq, hgrow], rfl,
    ⟨hfinds, ?_⟩, hinv, fun _ => hcount⟩
  rw [if_pos rfl, addHashed_of_hash hhash]
  exact hcontents

theorem advances_hashInsert (hallowed : n ∉ s.table.contents) (hfits : Fits cls s (.hashInsert n)) :
    Advances cls s (.hashInsert n) := by
  by_cases hhash : cls.hash (s.nodes n) = Node.NO_HASH
  · have heq : s.table.hashInsert cls s.nodes n = some s.table := if_pos hhash
    refine ⟨.void, s, by simp [step, heq], rfl, ?_, inv, fun _ h => h⟩
    rw [Spec, addHashed_of_noHash hhash]
  by_cases hlimit : AtLimit s
  · have hmax : s.table.max.toNat < 2 ^ 31 := by
      rw [← not_largest inv]
      rcases hfits with hnone | hnot
      · exact absurd hnone hhash
      · exact fun hlargest => hnot ⟨hlimit, hlargest⟩
    obtain ⟨that, heq, hinv, hcontents, -⟩ :=
      NodeHash.hashInsert_of_eq inv hallowed hhash hlimit hmax
    refine ⟨.void, { s with table := that }, by simp [step, heq], rfl, ?_, hinv, fun hcounts => ?_⟩
    · rw [Spec, addHashed_of_hash hhash]
      exact hcontents
    · rcases hcounts with hnone | hnot
      · exact absurd hnone hhash
      · exact absurd hlimit hnot
  · obtain ⟨that, heq, hinv, hcontents, -, hinserts, hnonNull⟩ :=
      NodeHash.hashInsert_of_ne inv hallowed hhash hlimit
    refine ⟨.void, { s with table := that }, by simp [step, heq], rfl, ?_, hinv, fun _ hle => ?_⟩
    · rw [Spec, addHashed_of_hash hhash]
      exact hcontents
    · show that.nonNull ≤ that.inserts.toNat
      omega

variable {op : Op β}

/-- What one step does. -/
theorem advances (hallowed : Allowed cls s op) (hfits : Fits cls s op) : Advances cls s op := by
  cases op with
  | hashFindInsert n => exact advances_hashFindInsert inv hfits
  | hashInsert n => exact advances_hashInsert inv hallowed hfits
  | hashDelete n =>
    rcases NodeHash.hashDelete_spec inv n with ⟨hn, heq⟩ | ⟨hn, that, heq, hinv, hcontents, hins, hnon⟩
    · refine ⟨.bool false, s, by simp [step, heq], rfl, ⟨by simp [hn], ?_⟩, inv, fun _ h => h⟩
      exact (Set.sdiff_singleton_eq_self hn).symm
    refine ⟨.bool true, { s with table := that }, by simp [step, heq], rfl,
      ⟨by simp [hn], hcontents⟩, hinv, fun _ hle => ?_⟩
    show that.nonNull ≤ that.inserts.toNat
    rw [hins, hnon]
    exact hle
  | removeUselessNodes useful =>
    obtain ⟨hinv, hcontents, hnon⟩ := NodeHash.removeUselessNodes_spec inv useful
    exact ⟨.void, _, rfl, rfl, hcontents, hinv, fun _ hle => hnon.le.trans hle⟩
  | clear =>
    obtain ⟨hinv, hcontents, hnon⟩ := NodeHash.clear_spec inv
    exact ⟨.void, _, rfl, rfl, hcontents, hinv, fun _ _ => hnon.le.trans (Nat.zero_le _)⟩
  | change nodes =>
    exact ⟨.void, _, rfl, rfl, rfl, inv_change inv hallowed, fun _ hle => hle⟩

/-- A step that does not fit has no result. -/
theorem step_eq_none (hnot : ¬Fits cls s op) : s.step cls op = none := by
  cases op with
  | hashFindInsert n =>
    simp only [Fits, not_or, not_not] at hnot
    obtain ⟨hhash, hno, hlimit, hlargest⟩ := hnot
    rcases NodeHash.hashFindInsert_cases inv n with ⟨hnone, -⟩ | ⟨m, hm, hcong, -⟩ |
      ⟨-, -, that, hentered, heq⟩
    · exact absurd hnone hhash
    · exact absurd ⟨m, hm, hcong⟩ hno
    · have hgrow := hentered.overflow hlimit ((not_largest inv).not.mp (not_not_intro hlargest))
      simp [step, heq, hgrow]
  | hashInsert n =>
    simp only [Fits, not_or, not_not] at hnot
    obtain ⟨hhash, hlimit, hlargest⟩ := hnot
    have heq := NodeHash.hashInsert_overflow inv hhash hlimit
      ((not_largest inv).not.mp (not_not_intro hlargest))
    simp [step, heq]
  | hashDelete n => exact absurd trivial hnot
  | removeUselessNodes useful => exact absurd trivial hnot
  | clear => exact absurd trivial hnot
  | change nodes => exact absurd trivial hnot

/-- Growth by `hash_insert` loses the count of the node. -/
theorem not_goodStep_hashInsert (hallowed : n ∉ s.table.contents) (hhash : cls.hash (s.nodes n) ≠ Node.NO_HASH)
    (hlimit : AtLimit s) : ¬GoodStep cls 0 s (.hashInsert n) := by
  rintro ⟨reply, s', hstep, -, -, hgood⟩
  by_cases hlargest : Largest s
  · rw [step_eq_none inv (by simp [Fits, hhash, hlimit, hlargest])] at hstep
    cases hstep
  obtain ⟨that, heq, -, -, hcount⟩ := NodeHash.hashInsert_of_eq inv hallowed hhash hlimit
    ((not_largest inv).mp hlargest)
  simp only [step, heq, some_bind, Option.pure_def, Option.some.injEq, Prod.mk.injEq] at hstep
  obtain ⟨-, rfl⟩ := hstep
  have hle : that.nonNull ≤ that.inserts.toNat + 0 := hgood.counted
  omega

end

theorem fits_of_counts (h : Counts cls s op) : Fits cls s op := by
  cases op with
  | hashInsert n => exact h.imp_right fun hnot hboth => hnot hboth.1
  | _ => exact h

theorem goodStep_zero_iff (inv : s.table.Inv cls s.nodes)
    (hcount : s.table.nonNull ≤ s.table.inserts.toNat) (hallowed : Allowed cls s op) :
    GoodStep cls 0 s op ↔ Counts cls s op := by
  constructor
  · intro hgood
    have hfits : Fits cls s op := by
      obtain ⟨reply, s', hstep, -⟩ := hgood
      by_contra hnot
      rw [step_eq_none inv hnot] at hstep
      cases hstep
    cases op with
    | hashInsert n =>
      by_contra hnot
      simp only [Counts, not_or, not_not] at hnot
      exact not_goodStep_hashInsert inv hallowed hnot.1 hnot.2 hgood
    | _ => exact hfits
  · intro hcounts
    obtain ⟨reply, s', hstep, hnodes, hspec, hinv, hcount'⟩ :=
      advances inv hallowed (fits_of_counts hcounts)
    exact ⟨reply, s', hstep, hnodes, hspec, good_of_inv hinv (hcount' hcounts hcount)⟩

/-- A step keeps the invariant. -/
theorem step_inv (inv : s.table.Inv cls s.nodes) (hallowed : Allowed cls s op)
    (hfits : Fits cls s op) {reply : Reply} {s' : Values β}
    (hstep : s.step cls op = some (reply, s')) :
    s'.table.Inv cls s'.nodes ∧ (Counts cls s op → s.table.nonNull ≤ s.table.inserts.toNat →
      s'.table.nonNull ≤ s'.table.inserts.toNat) := by
  obtain ⟨reply', s'', hstep', -, -, hinv, hcount⟩ := advances inv hallowed hfits
  rw [hstep'] at hstep
  obtain ⟨-, rfl⟩ := Prod.mk.inj (Option.some.inj hstep)
  exact ⟨hinv, hcount⟩

/-! ## Runs -/

theorem roundUpLoop_isSize {x i max : UInt} {fuel : Nat} (hx : 0 < x)
    (hi : IsSize i ∨ i = 0) (h : roundUpLoop x fuel i = some max) :
    IsSize max := by
  induction fuel generalizing i with
  | zero => cases h
  | succ fuel ih =>
    rw [roundUpLoop] at h
    split at h
    next hlt =>
      refine ih ?_ h
      rcases hi with hsize | rfl
      · by_cases hmax : i.toNat < 2 ^ 31
        · exact .inl (hsize.double hmax).1
        · exact .inr (hsize.double_eq_zero hmax)
      · exact .inr (by decide)
    next hge =>
      cases h
      rcases hi with hsize | rfl
      · exact hsize
      · exact absurd hx hge

theorem roundUp_isSize {x max : UInt} (h : roundUp x = some max) :
    IsSize max := by
  have hsixteen : IsSize 16 := ⟨4, by decide, by decide, rfl⟩
  rw [roundUp] at h
  split at h
  · cases h
    exact hsixteen
  next hge => exact roundUpLoop_isSize (by bv_omega) (.inl hsixteen) h

theorem new_eq_some {estMaxSize : UInt} {table : NodeHash}
    (h : NodeHash.new estMaxSize = some table) :
    ∃ max, IsSize max ∧ table = empty max := by
  obtain ⟨max, hround, htable⟩ := Option.bind_eq_some_iff.mp h
  exact ⟨max, roundUp_isSize hround, (Option.some.inj htable).symm⟩

theorem run_empty {nodes : NodeId → Node β} {max : UInt} (hmax : IsSize max)
    {ops : List (Op β)}
    (hallowed : EachStep (step cls) (Allowed cls) ⟨nodes, empty max⟩ ops) :
    Good cls 0 ⟨nodes, empty max⟩ ∧
      (EachStep (step cls) (GoodStep cls 0) ⟨nodes, empty max⟩ ops ↔
        EachStep (step cls) (Counts cls) ⟨nodes, empty max⟩ ops) := by
  have inv := @inv_empty _ cls nodes max hmax
  have hcount : (empty max).nonNull ≤ (empty max).inserts.toNat :=
    (@NodeHash.rehashed_empty _ cls nodes max hmax).nonNull_eq.le
  refine ⟨good_of_inv inv hcount, @eachStep_iff _ _ _ _ _ _ _
    (fun s => s.table.Inv cls s.nodes ∧ s.table.nonNull ≤ s.table.inserts.toNat) ?_ ?_ _ _
    ⟨inv, hcount⟩ hallowed⟩
  · intro s op inv hop
    exact goodStep_zero_iff inv.1 inv.2 hop
  · intro s op reply s' inv hop hcounts hstep
    obtain ⟨hinv, hcount'⟩ := step_inv inv.1 hop (fits_of_counts hcounts) hstep
    exact ⟨hinv, hcount' hcounts inv.2⟩

/-- A run of `hash_insert`s for new nodes that reaches the growth of the table at most: its steps
are counted as long as it stays below. -/
theorem eachStep_hashInserts (inv : s.table.Inv cls s.nodes) {todo : List NodeId}
    (hnodup : todo.Nodup)
    (hnew : ∀ n ∈ todo, n ∉ s.table.contents ∧ cls.hash (s.nodes n) ≠ Node.NO_HASH)
    (hle : s.table.inserts.toNat + todo.length ≤ s.table.insertLimit.toNat) :
    EachStep (step cls) (Allowed cls) s (todo.map .hashInsert) ∧
      (EachStep (step cls) (Counts cls) s (todo.map .hashInsert) ↔
        s.table.inserts.toNat + todo.length < s.table.insertLimit.toNat) := by
  induction todo generalizing s with
  | nil => exact ⟨trivial, iff_of_true trivial inv.inserts_lt⟩
  | cons n todo ih =>
    obtain ⟨hn, hhash⟩ := hnew n List.mem_cons_self
    rw [List.length_cons] at hle ⊢
    have hsucc := NodeHash.toNat_inserts_succ inv.inserts_lt
    by_cases hlimit : AtLimit s
    · rw [show s.table.inserts + 1 = _ from hlimit] at hsucc
      obtain rfl : todo = [] := List.eq_nil_of_length_eq_zero (by omega)
      refine ⟨⟨hn, fun _ _ _ => trivial⟩, iff_of_false (fun h => ?_) (by simp; omega)⟩
      exact h.1.elim hhash (absurd hlimit)
    obtain ⟨that, heq, hinv, hcontents, hlimit', hinserts, -⟩ :=
      NodeHash.hashInsert_of_ne inv hn hhash hlimit
    have hstep : s.step cls (.hashInsert n) = some (.void, { s with table := that }) := by
      simp [step, heq]
    have hrest := @ih { s with table := that } hinv (List.nodup_cons.mp hnodup).2
      (fun k hk => ⟨?_, (hnew k (List.mem_cons_of_mem n hk)).2⟩)
      (by simp only [hlimit', hinserts]; omega)
    · simp only [hlimit', hinserts, add_assoc, add_comm 1] at hrest
      rw [List.map_cons, eachStep_cons hstep, eachStep_cons hstep, ← hrest.2]
      exact ⟨⟨hn, hrest.1⟩, and_iff_right (.inr hlimit)⟩
    · rw [hcontents, Set.mem_insert_iff, not_or]
      refine ⟨?_, (hnew k (List.mem_cons_of_mem n hk)).1⟩
      rintro rfl
      exact (List.nodup_cons.mp hnodup).1 hk

/-- A run is good in every step exactly if `hash_insert` never makes the table grow, and
`hash_find_insert` never a table of `2 ^ 31` slots. -/
theorem run_goodStep_zero_iff (cls : NodeClasses β) (nodes : NodeId → Node β) (estMaxSize : UInt)
    (table : NodeHash) (hnew : NodeHash.new estMaxSize = some table) (ops : List (Op β))
    (hallowed : EachStep (step cls) (Allowed cls) ⟨nodes, table⟩ ops) :
    (Good cls 0 ⟨nodes, table⟩ ∧ EachStep (step cls) (GoodStep cls 0) ⟨nodes, table⟩ ops) ↔
      EachStep (step cls) (Counts cls) ⟨nodes, table⟩ ops := by
  obtain ⟨max, hmax, rfl⟩ := new_eq_some hnew
  obtain ⟨hgood, hiff⟩ := run_empty hmax hallowed
  rw [and_iff_right hgood, hiff]

/-- Nodes whose hash is all there is to compare. -/
def plainClasses : NodeClasses UInt where
  hash n := n.special
  cmp n k := n.special == k.special
  address n := BitVec.ofNat 32 n
  projNode src con isIoUse :=
    ⟨0, 0, [src], src.elim 0 (BitVec.ofNat 32) + (con <<< 1) + (if isIoUse then 1 else 0)⟩
  hash_projNode _ _ _ := rfl
  cmp_self n := beq_self_eq_true n.special
  hash_eq _ _ _ _ h := beq_iff_eq.mp h

/-- A node for each number, all different. -/
def plainNode (n : NodeId) : Node UInt := ⟨n, 1, [], BitVec.ofNat 32 (n + 1)⟩

theorem isSize_512 : IsSize 512 := ⟨9, by decide, by decide, rfl⟩

/-- The table of the smallest size takes 383 nodes before it grows. -/
theorem eachStep_plainInserts {k : Nat} (hk : k ≤ 384) :
    EachStep (step plainClasses) (Allowed plainClasses) ⟨plainNode, empty 512⟩
        ((List.range k).map .hashInsert) ∧
      (EachStep (step plainClasses) (Counts plainClasses) ⟨plainNode, empty 512⟩
        ((List.range k).map .hashInsert) ↔ k < 384) := by
  have hinserts : (empty 512).inserts.toNat = 0 := rfl
  have hlimit : (empty 512).insertLimit.toNat = 384 := by decide
  have hrun := @eachStep_hashInserts _ plainClasses ⟨plainNode, empty 512⟩
    (inv_empty isSize_512) (List.range k) List.nodup_range (fun n hn => ?_)
  · simpa only [List.length_range, hinserts, hlimit, Nat.zero_add, hk, forall_const] using hrun
  rw [List.mem_range] at hn
  refine ⟨?_, fun hzero => ?_⟩
  · rw [mem_contents]
    rintro ⟨p, hp⟩
    rw [NodeHash.slotAt_empty] at hp
    cases hp
  · have htoNat : (BitVec.ofNat 32 (n + 1)).toNat = 0 := congrArg BitVec.toNat hzero
    rw [BitVec.toNat_ofNat] at htoNat
    omega

/-- The last node is entered when the next one makes the table grow. -/
theorem run_goodStep_zero_hashInserts : NodeHash.new 255 = some (empty 512) ∧
    EachStep (step plainClasses) (GoodStep plainClasses 0) ⟨plainNode, empty 512⟩
      ((List.range 383).map .hashInsert) := by
  obtain ⟨hallowed, hcounts⟩ := eachStep_plainInserts (by decide : 383 ≤ 384)
  refine ⟨rfl, ?_⟩
  exact ((run_goodStep_zero_iff plainClasses plainNode 255 _ rfl _ hallowed).mpr
    (hcounts.mpr (by decide))).2

/-- As many nodes as it takes to make the table grow. -/
theorem hashInsert_loses_count :
    let s : Values UInt := ⟨plainNode, empty 512⟩
    let ops := (List.range 384).map Op.hashInsert
    NodeHash.new 255 = some s.table ∧ EachStep (step plainClasses) (Allowed plainClasses) s ops ∧
      ¬EachStep (step plainClasses) (GoodStep plainClasses 0) s ops := by
  obtain ⟨hallowed, hcounts⟩ := eachStep_plainInserts (le_refl 384)
  refine ⟨rfl, hallowed, ?_⟩
  rw [(run_empty isSize_512 hallowed).2, hcounts]
  decide

end Values

end Gvn

end Hotspot.Opto
