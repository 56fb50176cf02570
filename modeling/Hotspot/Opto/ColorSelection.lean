-- SUMMARY: Select gives live ranges registers that their neighbors do not have.
import Hotspot.Opto.ColorChoice

/-!
# Select

A live range that has been put back is colored or spilled. The mask of a colored one is restricted
to the registers it occupies, folded back into the first chunk, so subtracting it from the mask of
a neighbor in the same chunk keeps the two apart.
-/

namespace Hotspot.Chaitin

open List RegMask LRG

variable {cfg : Config}

/-- Where the chunk of a register starts. -/
def Config.chunkOf (cfg : Config) (reg : Int) : Int := cfg.chunkSize * (reg / cfg.chunkSize)

theorem Config.chunkSize_pos (cfg : Config) : 0 < cfg.chunkSize := by
  have := cfg.rmSize_pos
  unfold chunkSize
  omega

/-- A register is in one chunk only. -/
theorem Config.InChunk.unique {k k' : Nat} {reg : Int} (h : cfg.InChunk (cfg.chunkSize * k) reg)
    (h' : cfg.InChunk (cfg.chunkSize * k') reg) : k = k' := by
  have hbefore : ∀ {n n' : Nat}, n < n' →
      cfg.chunkSize * n + cfg.chunkSize ≤ cfg.chunkSize * n' := by
    intro n n' hlt
    have hmul : cfg.chunkSize * (n + 1 : Int) ≤ cfg.chunkSize * n' :=
      Int.mul_le_mul_of_nonneg_left (by omega) cfg.chunkSize_pos.le
    rwa [Int.mul_add, Int.mul_one] at hmul
  obtain ⟨hle, hlt⟩ := h
  obtain ⟨hle', hlt'⟩ := h'
  rcases Nat.lt_trichotomy k k' with hk | hk | hk
  · have := hbefore hk
    omega
  · exact hk
  · have := hbefore hk
    omega

/-- The registers and stack slots of a colored live range. -/
def LRG.occupied (cfg : Config) (lrg : LRG) : Finset Int :=
  (lrg.mask.regs cfg.rmSize).image fun r : Nat => cfg.chunkOf lrg.reg + (r : Int)

/-- A mask of all stack slots goes on in further chunks. -/
def RegMask.Allows (cfg : Config) (m : RegMask) (reg : Int) : Prop :=
  0 ≤ reg ∧ (reg < cfg.chunkSize ∧ m.member reg.toNat = true ∨ cfg.chunkSize ≤ reg ∧
    m.isAllStack cfg.rmSize = true)

/-- The live range `lrg₀` has got the register `r` of the chunk `k`. -/
structure ColoredAt (cfg : Config) (lrg₀ lrg : LRG) (k r : Nat) : Prop where
  reg : lrg.reg = cfg.chunkSize * k + r
  mem : r ∈ lrg.mask.regs cfg.rmSize
  single : lrg₀.numRegs = 1 → lrg.mask.regs cfg.rmSize = {r}
  pair : lrg₀.isPair = true → r % 2 = 1 ∧ lrg.mask.regs cfg.rmSize = {r - 1, r}
  first : k = 0 → lrg.mask.regs cfg.rmSize ⊆ lrg₀.mask.regs cfg.rmSize
  further : 0 < k → lrg₀.mask.isAllStack cfg.rmSize = true

namespace ColoredAt

variable {lrg₀ lrg lrg₀' lrg' : LRG} {k r k' r' : Nat}

section

variable (h : ColoredAt cfg lrg₀ lrg k r)

include h

theorem chunkOf_eq : cfg.chunkOf lrg.reg = cfg.chunkSize * k := by
  have hlt := (mem_regs.mp h.mem).1
  have hdiv : (r : Int) / cfg.chunkSize = 0 := Int.ediv_eq_zero_of_lt (Int.natCast_nonneg r) (by
    unfold Config.chunkSize
    omega)
  unfold Config.chunkOf
  rw [h.reg, Int.add_comm, Int.add_mul_ediv_left _ _ (ne_of_gt cfg.chunkSize_pos), hdiv,
    Int.zero_add]

theorem congr (hsame : lrg₀.Same lrg₀') : ColoredAt cfg lrg₀' lrg k r := by
  refine ⟨h.reg, h.mem, fun hone => h.single (hsame.numRegs.trans hone), fun hpair => h.pair ?_,
    fun hk => ?_, fun hk => ?_⟩
  · unfold isPair at hpair ⊢
    rwa [hsame.numRegs, hsame.fatProj]
  · rw [← hsame.mask]
    exact h.first hk
  · rw [← hsame.mask]
    exact h.further hk

theorem allows {a : Int} (ha : a ∈ lrg.occupied cfg) : lrg₀.mask.Allows cfg a := by
  obtain ⟨q, hq, rfl⟩ := Finset.mem_image.mp ha
  rw [h.chunkOf_eq]
  have hlt := (mem_regs.mp hq).1
  rcases Nat.eq_zero_or_pos k with rfl | hk
  · have hmem := (mem_regs.mp (h.first rfl hq)).2
    rw [Int.natCast_zero, Int.mul_zero, Int.zero_add]
    refine ⟨Int.natCast_nonneg q, .inl ⟨?_, hmem⟩⟩
    unfold Config.chunkSize
    omega
  · have hle : cfg.chunkSize * 1 ≤ cfg.chunkSize * (k : Int) :=
      Int.mul_le_mul_of_nonneg_left (by omega) cfg.chunkSize_pos.le
    have hpos := cfg.chunkSize_pos
    exact ⟨by omega, .inr ⟨by omega, h.further hk⟩⟩

end

end ColoredAt

namespace Phase

/-! ## Low degree -/

variable {g : Graph cfg} {s : Phase} {lidx : Nat}

variable {c : Choice} {k r : Nat} {m : RegMask}

/-- The live ranges `gone` are still out, as they were in the state `s₁` that Simplify left. -/
structure Restoring (g : Graph cfg) (s₁ : Phase) (gone : List Nat) (s : Phase) : Prop where
  kind : ∀ i, (s.lrgs i).alive = (g.lrgs i).alive ∧ (s.lrgs i).fatProj = (g.lrgs i).fatProj ∧
    (s.lrgs i).numRegs = (g.lrgs i).numRegs
  edges : Eliminated g.adjs s.adjs gone
  yanked : ∀ i, s.yanked i = decide (i ∈ gone)
  pending : ∀ i ∈ gone, s.lrgs i = s₁.lrgs i ∧ s.adjs i = s₁.adjs i

/-- A live range that is back is colored, or it is spilled and was not of low degree. -/
def Settled (g : Graph cfg) (s₁ s : Phase) (i : Nat) : Prop :=
  i ∉ s.spilled ∧ (∃ k r, ColoredAt cfg (g.lrgs i) (s.lrgs i) k r) ∨
    i ∈ s.spilled ∧ spillReg ≤ (s.lrgs i).reg ∧ (s₁.lrgs i).loDegree = false

/-- The allowed registers of no neighbor are in the mask. -/
def Exclusive (g : Graph cfg) (i : Nat) : Prop :=
  ∀ j, g.adjs i j = true →
    Disjoint ((g.lrgs i).mask.regs cfg.rmSize) ((g.lrgs j).mask.regs cfg.rmSize)

structure Selecting (g : Graph cfg) (s₁ : Phase) (gone : List Nat) (s : Phase) : Prop extends
    Restoring g s₁ gone s where
  settled : ∀ i, 0 < i → i < cfg.maxlrg → i ∉ gone → (g.lrgs i).alive = true → Settled g s₁ s i
  spilled : ∀ i ∈ s.spilled, i ∉ gone
  disjoint : ∀ i j, g.adjs i j = true → i ∉ gone → j ∉ gone → i ∉ s.spilled → j ∉ s.spilled →
    Disjoint ((s.lrgs i).occupied cfg) ((s.lrgs j).occupied cfg)
  fat : ∀ i, 0 < i → i < cfg.maxlrg → i ∉ gone → (g.lrgs i).alive = true → i ∉ s.spilled →
    (g.lrgs i).fatProj = true →
    Exclusive g i → (s.lrgs i).mask.regs cfg.rmSize = (g.lrgs i).mask.regs cfg.rmSize

variable {s₁ : Phase} {gone : List Nat} {x : Nat}

/-- Recording the color of `x` leaves the others alone. -/
theorem record_others (s : Phase) (x : Nat) (c : Choice) {i : Nat} (hi : i ≠ x) :
    (s.record x c).lrgs i = s.lrgs i ∧ (i ∈ (s.record x c).spilled ↔ i ∈ s.spilled) := by
  unfold record
  split
  · exact ⟨Function.update_of_ne hi _ _, Iff.rfl⟩
  · refine ⟨Function.update_of_ne hi _ _, ?_⟩
    rw [mem_cons]
    exact or_iff_right hi

theorem record_colored (s : Phase) (x : Nat) {c : Choice} (h : isValid c.reg = true) :
    (s.record x c).lrgs x = restrict (s.lrgs x) c ∧ (s.record x c).spilled = s.spilled := by
  unfold record
  rw [if_pos h]
  exact ⟨Function.update_self .., rfl⟩

theorem record_spilled (s : Phase) (x : Nat) {c : Choice} (h : isValid c.reg = false) :
    (s.record x c).lrgs x = { s.lrgs x with reg := spillReg + s.spilled.length, mask := c.mask } ∧
      (s.record x c).spilled = x :: s.spilled := by
  unfold record
  rw [if_neg (by rw [h]; exact Bool.false_ne_true)]
  exact ⟨Function.update_self .., rfl⟩

theorem record_graph (s : Phase) (x : Nat) (c : Choice) :
    (s.record x c).adjs = s.adjs ∧ (s.record x c).yanked = s.yanked := by
  unfold record
  split <;> exact ⟨rfl, rfl⟩

theorem record_kind (s : Phase) (x : Nat) (c : Choice) (i : Nat) :
    ((s.record x c).lrgs i).alive = (s.lrgs i).alive ∧
    ((s.record x c).lrgs i).fatProj = (s.lrgs i).fatProj ∧
    ((s.record x c).lrgs i).numRegs = (s.lrgs i).numRegs := by
  by_cases hi : i = x
  · subst hi
    rcases hvalid : isValid c.reg with _ | _
    · rw [(record_spilled s i hvalid).1]
      exact ⟨rfl, rfl, rfl⟩
    rw [(record_colored s i hvalid).1]
    unfold restrict
    dsimp only
    split
    · exact ⟨rfl, rfl, rfl⟩
    · split <;> exact ⟨rfl, rfl, rfl⟩
  · rw [(record_others s x c hi).1]
    exact ⟨rfl, rfl, rfl⟩

theorem Restoring.record (h : Restoring g s₁ gone s) (hx : x ∉ gone) (c : Choice) :
    Restoring g s₁ gone (s.record x c) := by
  obtain ⟨hadjs, hyanked⟩ := record_graph s x c
  refine ⟨fun i => ?_, hadjs ▸ h.edges, fun i => hyanked ▸ h.yanked i, fun i hi => ?_⟩
  · obtain ⟨halive, hfat, hregs⟩ := record_kind s x c i
    rw [halive, hfat, hregs]
    exact h.kind i
  · rw [(record_others s x c (by rintro rfl; exact hx hi)).1, hadjs]
    exact h.pending i hi

/-! ## One round -/

/-- The neighbors of a live range that is put back are back already. -/
structure Neighbor (g : Graph cfg) (gone : List Nat) (x n : Nat) : Prop where
  edge : g.adjs x n = true
  back : n ∉ x :: gone
  pos : 0 < n
  lt : n < cfg.maxlrg
  alive : (g.lrgs n).alive = true

theorem neighbor_of_edge {n : Nat} (hedge : g.adjs x n = true) (hn : n ∉ gone) :
    Neighbor g gone x n := by
  have hback := g.symm x n hedge
  obtain ⟨hpos, hlt⟩ := g.bounds n x hback
  refine ⟨hedge, ?_, hpos, hlt, g.alive n x hback⟩
  rw [mem_cons, not_or]
  refine ⟨?_, hn⟩
  rintro rfl
  rw [g.irrefl] at hedge
  cases hedge

/-- What a round does for the live range that is put back. -/
structure Outcome (g : Graph cfg) (s₁ : Phase) (gone : List Nat) (x : Nat) (s : Phase) : Prop where
  settled : Settled g s₁ s x
  apart : x ∉ s.spilled → ∀ n, Neighbor g gone x n → n ∉ s.spilled →
    Disjoint ((s.lrgs x).occupied cfg) ((s.lrgs n).occupied cfg)
  fat : x ∉ s.spilled → (g.lrgs x).fatProj = true → Exclusive g x →
    (s.lrgs x).mask.regs cfg.rmSize = (g.lrgs x).mask.regs cfg.rmSize

/-- The others keep their colors. -/
theorem Selecting.settle {t : Phase} (h : Selecting g s₁ (x :: gone) s) (hx : x ∉ gone)
    (ht : Restoring g s₁ gone t)
    (hothers : ∀ i ≠ x, t.lrgs i = s.lrgs i ∧ (i ∈ t.spilled ↔ i ∈ s.spilled))
    (hout : (g.lrgs x).alive = true → Outcome g s₁ gone x t) : Selecting g s₁ gone t := by
  have hback : ∀ {i}, i ≠ x → i ∉ gone → i ∉ x :: gone := fun hne hi => by simp [hne, hi]
  refine ⟨ht, fun i hpos hlt hi halive => ?_, fun i hi => ?_, fun i j hedge hi hj hi' hj' => ?_,
    fun i hpos hlt hi halive hi' hfat hexclusive => ?_⟩
  · by_cases hix : i = x
    · subst hix
      exact (hout halive).settled
    · have hold := h.settled i hpos hlt (hback hix hi) halive
      unfold Settled at hold ⊢
      rw [(hothers i hix).1, (hothers i hix).2]
      exact hold
  · by_cases hix : i = x
    · rw [hix]
      exact hx
    · exact fun hmem => h.spilled i ((hothers i hix).2.mp hi) (mem_cons_of_mem _ hmem)
  · by_cases hix : i = x
    · subst hix
      have hn := neighbor_of_edge hedge hj
      exact (hout (g.alive i j hedge)).apart hi' j hn hj'
    by_cases hjx : j = x
    · subst hjx
      have hn := neighbor_of_edge (g.symm i j hedge) hi
      exact ((hout (g.alive j i (g.symm i j hedge))).apart hj' i hn hi').symm
    · rw [(hothers i hix).2] at hi'
      rw [(hothers j hjx).2] at hj'
      rw [(hothers i hix).1, (hothers j hjx).1]
      exact h.disjoint i j hedge (hback hix hi) (hback hjx hj) hi' hj'
  · by_cases hix : i = x
    · subst hix
      exact (hout halive).fat hi' hfat hexclusive
    · rw [(hothers i hix).2] at hi'
      rw [(hothers i hix).1]
      exact h.fat i hpos hlt (hback hix hi) halive hi' hfat hexclusive

end Phase

/-- The colors after Select. A live range that Simplify has taken out keeps the degree it had then,
so `s₁` tells which were of low degree. -/
structure Sound (g : Graph cfg) (s₁ s : Phase) : Prop where
  restored : s.adjs = g.adjs ∧ s.yanked = g.yanked
  inside : ∀ i, 0 < i → i < cfg.maxlrg → (g.lrgs i).alive = true → i ∉ s.spilled →
    ∀ a ∈ (s.lrgs i).occupied cfg, (g.lrgs i).mask.Allows cfg a
  single : ∀ i, 0 < i → i < cfg.maxlrg → (g.lrgs i).alive = true → i ∉ s.spilled →
    (g.lrgs i).numRegs = 1 →
    (s.lrgs i).occupied cfg = {(s.lrgs i).reg}
  pair : ∀ i, 0 < i → i < cfg.maxlrg → (g.lrgs i).alive = true → i ∉ s.spilled →
    (g.lrgs i).isPair = true →
    (s.lrgs i).reg % 2 = 1 ∧ (s.lrgs i).occupied cfg = {(s.lrgs i).reg - 1, (s.lrgs i).reg}
  /-- A fat projection gets its whole mask, if no neighbor can have one of its registers. -/
  fat : ∀ i, 0 < i → i < cfg.maxlrg → (g.lrgs i).alive = true → i ∉ s.spilled →
    (g.lrgs i).fatProj = true →
    Phase.Exclusive g i → (s.lrgs i).mask.regs cfg.rmSize = (g.lrgs i).mask.regs cfg.rmSize
  disjoint : ∀ i j, g.adjs i j = true → i ∉ s.spilled → j ∉ s.spilled →
    Disjoint ((s.lrgs i).occupied cfg) ((s.lrgs j).occupied cfg)
  low : ∀ i, 0 < i → i < cfg.maxlrg → (g.lrgs i).alive = true → (s₁.lrgs i).loDegree = true →
    i ∉ s.spilled

theorem Phase.Selecting.sound {g : Graph cfg} {s₁ s : Phase} (h : Phase.Selecting g s₁ [] s) :
    Sound g s₁ s := by
  have hcolored : ∀ i, 0 < i → i < cfg.maxlrg → (g.lrgs i).alive = true → i ∉ s.spilled →
      ∃ k r, ColoredAt cfg (g.lrgs i) (s.lrgs i) k r := by
    intro i hpos hlt halive hi
    rcases h.settled i hpos hlt not_mem_nil halive with ⟨-, hex⟩ | ⟨hmem, -⟩
    · exact hex
    · exact absurd hmem hi
  refine ⟨⟨h.edges.eq_of_nil, ?_⟩, fun i hpos hlt halive hi a ha => ?_,
    fun i hpos hlt halive hi hone => ?_,
    fun i hpos hlt halive hi hpair => ?_,
      fun i hpos hlt halive => h.fat i hpos hlt not_mem_nil halive,
    fun i j hedge => h.disjoint i j hedge not_mem_nil not_mem_nil,
      fun i hpos hlt halive hlow hi => ?_⟩
  · rw [g.yanked_eq]
    funext i
    exact h.yanked i
  · obtain ⟨k, r, hc⟩ := hcolored i hpos hlt halive hi
    exact hc.allows ha
  · obtain ⟨k, r, hc⟩ := hcolored i hpos hlt halive hi
    unfold occupied
    rw [hc.single hone, Finset.image_singleton, hc.chunkOf_eq, ← hc.reg]
  · obtain ⟨k, r, hc⟩ := hcolored i hpos hlt halive hi
    obtain ⟨hodd, hregs⟩ := hc.pair hpair
    have heven : cfg.chunkSize * (k : Int) % 2 = 0 := Phase.chunk_even k
    have hreg := hc.reg
    refine ⟨by omega, ?_⟩
    unfold occupied
    rw [hregs, Finset.image_insert, Finset.image_singleton, hc.chunkOf_eq, hreg]
    congr 1
    omega
  · rcases h.settled i hpos hlt not_mem_nil halive with ⟨hnot, -⟩ | ⟨-, -, hfalse⟩
    · exact hnot hi
    · rw [hlow] at hfalse
      cases hfalse

/-- A mask of registers of the first word. -/
def RegMask.low (bits : BitVec 32) : RegMask := ⟨fun i => if i = 0 then bits else 0⟩

end Hotspot.Chaitin
