-- SUMMARY: After any allocations every address is mapped to the start of its block.
import Hotspot.Memory.BlockOffsetTable

/-!
# Lookup of blocks

An entry of the table resolves to an address if the loops of the lookup lead from its card
to that address. The invariant of a space says that all cards before `_next_offset_index`
resolve to boundaries of blocks; an allocation changes no such card. From a boundary the
lookup walks forward to the block it looks for.
-/

namespace Hotspot.Memory

open List Nat

/-! ## Cards -/

theorem powerToCardsBack_eq (i : Nat) : powerToCardsBack i = 16 ^ i := by
  rw [powerToCardsBack, shiftLeft_eq, one_mul, pow_mul]
  rfl

namespace BlockOffsetSharedArray

variable {t that : BlockOffsetSharedArray}

theorem nWords_mul_bytes (t : BlockOffsetSharedArray) :
    t.nWords * t.wordSize.bytes = 2 ^ LogN := by
  rw [nWords, logNWords]
  cases t.wordSize <;> rfl

theorem nWords_le (t : BlockOffsetSharedArray) : t.nWords ≤ 128 := by
  rw [nWords, logNWords]
  cases t.wordSize <;> decide

theorem nWords_pos (t : BlockOffsetSharedArray) : 0 < t.nWords := by
  rw [nWords, logNWords]
  cases t.wordSize <;> decide

theorem addressForIndex_eq (t : BlockOffsetSharedArray) (ix : Nat) :
    t.addressForIndex ix = t.reservedStart + ix * t.nWords := by
  rw [addressForIndex, nWords, shiftLeft_eq, shiftLeft_eq, one_mul]

theorem addressForIndex_mono {i j : Nat} (h : i ≤ j) : t.addressForIndex i ≤ t.addressForIndex j := by
  rw [addressForIndex_eq, addressForIndex_eq]
  exact Nat.add_le_add_left (Nat.mul_le_mul_right _ h) _

theorem indexFor_eq (t : BlockOffsetSharedArray) (pc : Nat) :
    t.indexFor pc = (pc / t.wordSize.bytes - t.reservedStart) / t.nWords := by
  rw [indexFor, Nat.shiftRight_eq_div_pow, ← t.nWords_mul_bytes, Nat.mul_comm t.nWords,
    ← Nat.div_div_eq_div_mul, Nat.mul_comm t.reservedStart, Nat.sub_mul_div]

theorem indexForWord_eq (t : BlockOffsetSharedArray) (p : Nat) :
    t.indexForWord p = (p - t.reservedStart) / t.nWords := by
  have hpos : 0 < t.wordSize.bytes := Nat.two_pow_pos _
  rw [indexForWord, indexFor_eq, Nat.mul_div_cancel _ hpos]

/-- Two arrays over the same cards. -/
def SameCards (this that : BlockOffsetSharedArray) : Prop :=
  this.wordSize = that.wordSize ∧ this.reservedStart = that.reservedStart

theorem SameCards.nWords (h : t.SameCards that) : t.nWords = that.nWords := by
  rw [BlockOffsetSharedArray.nWords, logNWords, h.1]
  rfl

theorem SameCards.addressForIndex (h : t.SameCards that) (ix : Nat) :
    t.addressForIndex ix = that.addressForIndex ix := by
  rw [addressForIndex_eq, addressForIndex_eq, h.2, h.nWords]

/-! ## Logarithmic entries -/

/-- The entry of card `c` goes back by a power of 16, but not beyond card `k`. -/
def LogEntry (this : BlockOffsetSharedArray) (k c : Nat) : Prop :=
  ∃ i < nPowers, 16 ^ i ≤ c - k ∧ c - k < 16 ^ (i + 1) ∧
    (this.offsetArray c).toNat = this.nWords + i

theorem toNat_setOffsetArrayRange {i c lo hi : Nat} (t : BlockOffsetSharedArray) (hpower : i < nPowers)
    (hc : lo ≤ c ∧ c ≤ hi) :
    ((t.setOffsetArrayRange lo hi (BitVec.ofNat 8 (t.nWords + i))).offsetArray c).toNat = t.nWords + i := by
  have hle := t.nWords_le
  have hset : (t.setOffsetArrayRange lo hi (BitVec.ofNat 8 (t.nWords + i))).offsetArray c =
    BitVec.ofNat 8 (t.nWords + i) := if_pos hc
  rw [hset, BitVec.toNat_ofNat, mod_eq_of_lt]
  simp only [nPowers] at hpower
  omega

/-- The cards from `lo` to `hi` are made to point back to card `k`, and no others. -/
structure PointsBack (this that : BlockOffsetSharedArray) (k lo hi : Nat) : Prop where
  same : that.SameCards this
  frame : ∀ c, c < lo ∨ hi < c → that.offsetArray c = this.offsetArray c
  log : ∀ c, lo ≤ c → c ≤ hi → that.LogEntry k c

/-- The loop marks the cards from region `i` on. -/
theorem remainderLoop_spec {k endCard i n : Nat} (hn : i + n = nPowers) (hend : endCard - k < 16 ^ nPowers) :
    t.PointsBack (remainderLoop (k + 1) endCard n (k + 16 ^ i) t) k (k + 16 ^ i) endCard := by
  induction n generalizing i t with
  | zero =>
    obtain rfl : i = nPowers := hn
    refine ⟨⟨rfl, rfl⟩, fun _ _ => rfl, fun c hlo hhi => ?_⟩
    omega
  | succ n ih =>
    have hi : nPowers - (n + 1) = i := by omega
    have hlt : i < nPowers := by omega
    have hpow : 16 ^ i < 16 ^ (i + 1) := Nat.pow_lt_pow_right (by decide) (Nat.lt_succ_self i)
    have hreach : k + 1 - 1 + (powerToCardsBack (i + 1) - 1) = k + 16 ^ (i + 1) - 1 := by
      rw [powerToCardsBack_eq]
      omega
    rw [remainderLoop, hi, hreach]
    split
    next hge =>
      refine ⟨⟨rfl, rfl⟩, fun c hc => ?_, fun c hlo hhi => ?_⟩
      · exact if_neg (by omega)
      exact ⟨i, hlt, by omega, by omega, toNat_setOffsetArrayRange t hlt ⟨hlo, hhi⟩⟩
    next hge =>
      have hnext : k + 16 ^ (i + 1) - 1 + 1 = k + 16 ^ (i + 1) := by omega
      rw [hnext]
      obtain ⟨hsame, hframe, hmark⟩ := @ih (t.setOffsetArrayRange (k + 16 ^ i)
        (k + 16 ^ (i + 1) - 1) (BitVec.ofNat 8 (t.nWords + i))) (i + 1) (by omega)
      refine ⟨hsame, fun c hc => ?_, fun c hlo hhi => ?_⟩
      · rw [hframe c (by omega)]
        exact if_neg (by omega)
      by_cases hregion : k + 16 ^ (i + 1) ≤ c
      · exact hmark c hregion hhi
      refine ⟨i, hlt, by omega, by omega, ?_⟩
      rw [hframe c (by omega), hsame.nWords]
      exact toNat_setOffsetArrayRange t hlt (by omega)

/-! ## Resolving a card -/

/-- Card `c` points back to card `k`, which has an offset in words. -/
structure Points (this : BlockOffsetSharedArray) (k c : Nat) : Prop where
  le : k ≤ c
  log : ∀ x, k < x → x ≤ c → this.LogEntry k x
  offset : (this.offsetArray k).toNat ≤ this.nWords

/-- The offset at card `k` leads to address `s`, directly or through the card before it. -/
def Lands (this : BlockOffsetSharedArray) (k s : Nat) : Prop :=
  ((this.offsetArray k).toNat < this.nWords ∧
    s = this.addressForIndex k - (this.offsetArray k).toNat) ∨
  ((this.offsetArray k).toNat = this.nWords ∧
    ∃ k', k = k' + 1 ∧ (this.offsetArray k').toNat < this.nWords ∧
      s = this.addressForIndex k' - (this.offsetArray k').toNat)

/-- The table leads from card `c` to address `s`. -/
def Resolves (this : BlockOffsetSharedArray) (c s : Nat) : Prop :=
  ∃ k, this.Points k c ∧ this.Lands k s

/-- Cards behind `c` do not matter. -/
theorem Resolves.frame {c s : Nat} (h : t.Resolves c s) (hsame : that.SameCards t)
    (hframe : ∀ x ≤ c, that.offsetArray x = t.offsetArray x) : that.Resolves c s := by
  obtain ⟨k, hp, hlands⟩ := h
  have hk := hframe k hp.le
  refine ⟨k, ⟨hp.le, ?_, ?_⟩, ?_⟩
  · intro x hlo hhi
    obtain ⟨i, hi, hge, hlt, hentry⟩ := hp.log x hlo hhi
    exact ⟨i, hi, hge, hlt, by rw [hframe x hhi, hentry, hsame.nWords]⟩
  · rw [hk, hsame.nWords]
    exact hp.offset
  obtain ⟨hlt, hs⟩ | ⟨heq, k', rfl, hlt, hs⟩ := hlands
  · exact .inl ⟨by rwa [hk, hsame.nWords], by rwa [hk, hsame.addressForIndex]⟩
  · have hk' := hframe k' (by have := hp.le; omega)
    exact .inr ⟨by rwa [hk, hsame.nWords], k', rfl, by rwa [hk', hsame.nWords],
      by rwa [hk', hsame.addressForIndex]⟩

theorem Lands.le {k s : Nat} (h : t.Lands k s) : s ≤ t.addressForIndex k := by
  obtain ⟨-, rfl⟩ | ⟨-, k', rfl, -, rfl⟩ := h
  · exact sub_le _ _
  · exact (sub_le _ _).trans (addressForIndex_mono (le_succ k'))

theorem Resolves.le {c s : Nat} (h : t.Resolves c s) : s ≤ t.addressForIndex c := by
  obtain ⟨k, hp, hlands⟩ := h
  exact hlands.le.trans (addressForIndex_mono hp.le)

end BlockOffsetSharedArray

namespace BlockOffsetArrayContigSpace

open BlockOffsetSharedArray

variable {ar : BlockOffsetSharedArray}

/-- A cursor at a card up to `bound`, with all it should know about it. -/
structure Cursor.At (array : BlockOffsetSharedArray) (bound index : Nat) (c : Cursor) : Prop where
  index_eq : c.index = index
  le_bound : index ≤ bound
  q_eq : c.q = array.addressForIndex index
  offset_eq : c.offset = array.offsetArray index
  visited_le : ∀ v ∈ c.visited, v ≤ bound

variable {ix : Nat}

theorem Cursor.At.back {bound n : Nat} {c : Cursor} (h : c.At ar bound ix)
    (hn : n ≤ ix) : ∃ c', c.back ar n = some c' ∧ c'.At ar bound (ix - n) := by
  obtain ⟨rfl, hbound, hq, hoffset, hvisited⟩ := h
  refine ⟨_, if_pos hn, rfl, by omega, ?_, rfl, ?_⟩
  · have hle := mul_le_mul_right ar.nWords hn
    show c.q - ar.nWords * n = ar.addressForIndex (c.index - n)
    rw [hq, addressForIndex_eq, addressForIndex_eq, Nat.sub_mul, Nat.mul_comm ar.nWords]
    omega
  · exact forall_mem_append.mpr ⟨hvisited, forall_mem_singleton.mpr (by omega)⟩

/-- The powers lead to a card whose entry is no power, not before `k`. -/
theorem skipPowers_spec {fuel bound k : Nat} {c : Cursor} (hc : c.At ar bound ix)
    (hp : ar.Points k ix) (hfuel : ix < fuel) :
    ∃ c' index', skipPowers ar fuel c = some c' ∧ c'.At ar bound index' ∧
      ar.Points k index' ∧ (ar.offsetArray index').toNat ≤ ar.nWords := by
  induction fuel generalizing c ix with
  | zero => exact absurd hfuel (not_lt_zero _)
  | succ fuel ih =>
    rw [skipPowers, hc.offset_eq]
    split
    next hgt =>
      have hk : k < ix := by
        refine lt_of_le_of_ne hp.le ?_
        rintro rfl
        exact absurd hp.offset (not_le.mpr hgt)
      obtain ⟨i, hi, hge, hlt, hentry⟩ := hp.log ix hk le_rfl
      have hback : ar.entryToCardsBack (ar.offsetArray ix) = 16 ^ i := by
        rw [entryToCardsBack, hentry, Nat.add_sub_cancel_left, powerToCardsBack_eq]
      obtain ⟨c', hc', hat⟩ := hc.back (n := 16 ^ i) (by omega)
      have hpoints' : ar.Points k (ix - 16 ^ i) :=
        ⟨by omega, fun x hlo hhi => hp.log x hlo (by omega), hp.offset⟩
      obtain ⟨c'', index', hskip, hrest⟩ := ih hat hpoints' (by omega)
      refine ⟨c'', index', ?_, hrest⟩
      rw [hback, hc']
      exact hskip
    next hle => exact ⟨c, ix, rfl, hc, hp, not_lt.mp hle⟩

/-- A card behind `k` without a power goes back one card. -/
theorem entry_of_no_power {k : Nat} (hp : ar.Points k ix)
    (hle : (ar.offsetArray ix).toNat ≤ ar.nWords) (hlt : k < ix) :
    (ar.offsetArray ix).toNat = ar.nWords ∧ (ar.offsetArray (ix - 1)).toNat ≤ ar.nWords := by
  obtain ⟨i, hi, hge, hlt', hentry⟩ := hp.log ix hlt le_rfl
  obtain rfl : i = 0 := by omega
  refine ⟨by omega, ?_⟩
  obtain hk | hk := lt_or_ge k (ix - 1)
  · obtain ⟨j, hj, hge', -, hentry'⟩ := hp.log (ix - 1) hk (by omega)
    cases j with
    | zero => omega
    | succ j =>
      have hpow : 16 ^ 1 ≤ 16 ^ (j + 1) := Nat.pow_le_pow_right (by decide) (Nat.le_add_left 1 j)
      omega
  · obtain rfl : k = ix - 1 := by omega
    exact hp.offset

/-- Single cards lead on to `k`, and from there to the address it stands for. -/
theorem skipCards_spec {fuel bound k s : Nat} {c : Cursor} (hc : c.At ar bound ix)
    (hp : ar.Points k ix) (hle : (ar.offsetArray ix).toNat ≤ ar.nWords)
    (hlands : ar.Lands k s) (hfuel : ix < fuel) :
    ∃ c' : Cursor, skipCards ar fuel c = some c' ∧ c'.q - c'.offset.toNat = s ∧
      ∀ v ∈ c'.visited, v ≤ bound := by
  induction fuel generalizing c ix with
  | zero => exact absurd hfuel (not_lt_zero _)
  | succ fuel ih =>
    rw [skipCards, hc.offset_eq]
    obtain hk | rfl := lt_or_eq_of_le hp.le
    · obtain ⟨heq, hle'⟩ := entry_of_no_power hp hle hk
      obtain ⟨c', hc', hat⟩ := hc.back (n := 1) (by omega)
      have hpoints' : ar.Points k (ix - 1) :=
        ⟨by omega, fun x hlo hhi => hp.log x hlo (by omega), hp.offset⟩
      obtain ⟨c'', hskip, hrest⟩ := ih hat hpoints' hle' (by omega)
      refine ⟨c'', ?_, hrest⟩
      rw [if_pos heq, hc']
      exact hskip
    · obtain ⟨hlt, rfl⟩ | ⟨heq, k', rfl, hlt, rfl⟩ := hlands
      · refine ⟨c, if_neg (Nat.ne_of_lt hlt), ?_, hc.visited_le⟩
        rw [hc.q_eq, hc.offset_eq]
      -- only the first block behind the bottom card has an offset of a whole card
      obtain ⟨c', hc', hat⟩ := hc.back (n := 1) (by omega)
      have hstop : skipCards ar fuel c' = some c' := by
        obtain ⟨fuel, rfl⟩ := exists_eq_succ_of_ne_zero (show fuel ≠ 0 by omega)
        rw [skipCards, hat.offset_eq]
        exact if_neg (Nat.ne_of_lt hlt)
      refine ⟨c', ?_, ?_, hat.visited_le⟩
      · rw [if_pos heq, hc']
        exact hstop
      · rw [hat.q_eq, hat.offset_eq]
        rfl

end BlockOffsetArrayContigSpace

/-! ## Walking over blocks -/

namespace ContiguousSpace

variable {sp : ContiguousSpace}

/-- The start of a block, or the top. -/
def IsBoundary (sp : ContiguousSpace) (s : Nat) : Prop :=
  ∃ before after, sp.blocks = before ++ after ∧ s = sp.bottom + before.sum

/-- The block that starts at `start` contains the byte at `addr`. -/
def IsBlockOf (sp : ContiguousSpace) (ws : HeapWordSize) (start addr : Nat) : Prop :=
  ∃ before size after, sp.blocks = before ++ size :: after ∧ start = sp.bottom + before.sum ∧
    start * ws.bytes ≤ addr ∧ addr < (start + size) * ws.bytes

theorem sizeAt_block {before after : List Nat} {n start : Nat} (hpos : ∀ b ∈ before, 0 < b) :
    sizeAt start (before ++ n :: after) (start + before.sum) = some n := by
  induction before generalizing start with
  | nil => simp [sizeAt]
  | cons b before ih =>
    have hb := hpos b mem_cons_self
    have hrest := @ih (start + b) (fun x hx => hpos x (mem_cons_of_mem b hx))
    rw [cons_append, sizeAt, if_neg (by simp; omega), sum_cons, ← add_assoc]
    exact hrest

theorem blockSize_block (hpos : ∀ b ∈ sp.blocks, 0 < b) {before after : List Nat} {n : Nat}
    (h : sp.blocks = before ++ n :: after) : sp.blockSize (sp.bottom + before.sum) = some n := by
  have hsize : 0 < n := hpos n (by simp [h])
  have hlt : sp.bottom + before.sum < sp.top := by
    rw [top, h, List.sum_append, sum_cons]
    omega
  rw [blockSize, if_pos hlt, h]
  exact sizeAt_block (fun b hb => hpos b (by simp [h, hb]))

/-- No address lies in two blocks. -/
theorem IsBlockOf.unique {ws : HeapWordSize} {s s' addr : Nat} (h : sp.IsBlockOf ws s addr)
    (h' : sp.IsBlockOf ws s' addr) : s' = s := by
  obtain ⟨before, n, after, heq, rfl, hlo, hhi⟩ := h
  obtain ⟨before', size', after', heq', rfl, hlo', hhi'⟩ := h'
  have hlt := lt_of_mul_lt_mul_right (hlo.trans_lt hhi')
  have hlt' := lt_of_mul_lt_mul_right (hlo'.trans_lt hhi)
  rw [heq] at heq'
  obtain ⟨mid, rfl, hmid⟩ | ⟨mid, rfl, hmid⟩ := append_eq_append_iff.mp heq'
  · cases mid with
    | nil => simp
    | cons m mid =>
      obtain ⟨rfl, -⟩ := cons.inj hmid
      simp only [List.sum_append, sum_cons] at hlt'
      omega
  · cases mid with
    | nil => simp
    | cons m mid =>
      obtain ⟨rfl, -⟩ := cons.inj hmid
      simp only [List.sum_append, sum_cons] at hlt
      omega

/-- From a boundary at or before an address, the walk finds its block. -/
theorem walkForward_spec (hpos : ∀ b ∈ sp.blocks, 0 < b) {ws : HeapWordSize} {addr fuel q : Nat}
    {before after : List Nat} (h : sp.blocks = before ++ after)
    (hlo : (sp.bottom + before.sum) * ws.bytes ≤ addr) (hhi : addr < sp.top * ws.bytes)
    (hfuel : addr + 2 ≤ fuel + (sp.bottom + before.sum)) :
    ∃ start, BlockOffsetArrayContigSpace.walkForward sp ws addr fuel q (sp.bottom + before.sum) =
      some start ∧ sp.IsBlockOf ws start addr := by
  induction after generalizing before fuel q with
  | nil =>
    rw [append_nil] at h
    rw [top, h] at hhi
    exact absurd hhi (not_lt.mpr hlo)
  | cons n after ih =>
    have hsize : 0 < n := hpos n (by simp [h])
    have hbytes : 0 < ws.bytes := Nat.two_pow_pos _
    have hle : sp.bottom + before.sum ≤ addr := le_trans (Nat.le_mul_of_pos_right _ hbytes) hlo
    obtain ⟨fuel, rfl⟩ := Nat.exists_eq_add_of_le' (show 2 ≤ fuel by omega)
    rw [BlockOffsetArrayContigSpace.walkForward, if_pos hlo, blockSize_block hpos h,
      Option.bind_eq_bind, Option.bind_some]
    by_cases hnext : (sp.bottom + before.sum + n) * ws.bytes ≤ addr
    · have hsplit : sp.blocks = (before ++ [n]) ++ after := by simp [h]
      have hsum : sp.bottom + (before ++ [n]).sum = sp.bottom + before.sum + n := by
        simp [add_assoc]
      rw [← hsum] at hnext ⊢
      exact ih hsplit hnext (by omega)
    · refine ⟨sp.bottom + before.sum, ?_, before, n, after, h, rfl, hlo, not_le.mp hnext⟩
      exact if_neg hnext

end ContiguousSpace

/-! ## Allocation -/

/-- Where a space lies: it starts at a card and ends within the address space. -/
structure Region where
  wordSize : HeapWordSize
  reservedStart : Nat
  bottomIndex : Nat
  limit : Nat
  fits : limit * wordSize.bytes ≤ wordSize.addressSpace

/-- A space with its part of the block offset table. -/
structure Heap where
  bot : BlockOffsetArrayContigSpace
  sp : ContiguousSpace

namespace Region

variable (r : Region)

/-- The array before anything is allocated, with arbitrary contents. -/
def array (contents : Nat → UChar) : BlockOffsetSharedArray := ⟨r.wordSize, r.reservedStart, contents⟩

def bottom : Nat := r.reservedStart + r.bottomIndex * (r.array fun _ => 0).nWords

/-- The empty space. -/
def init (contents : Nat → UChar) : Heap where
  bot := BlockOffsetArrayContigSpace.zeroBottomEntry
    (BlockOffsetArrayContigSpace.initializeThreshold ⟨r.array contents, r.bottom, 0, 0⟩)
  sp := ⟨r.bottom, r.limit, []⟩

end Region

namespace Heap

/-- Allocate a block at the top, if there is room, and report it to the table. -/
def allocate (h : Heap) (size : Nat) : Option Heap :=
  if 0 < size ∧ h.sp.top + size ≤ h.sp.limit then
    some ⟨h.bot.allocBlock h.sp.top (h.sp.top + size),
      { h.sp with blocks := h.sp.blocks ++ [size] }⟩
  else none

/-- Any number of allocations, back to back. -/
def run (h : Heap) : List Nat → Option Heap
  | [] => some h
  | size :: sizes => do (← h.allocate size).run sizes

/-- The table of a space that has been filled by allocations. -/
structure Inv (r : Region) (h : Heap) : Prop where
  cards : h.bot.array.SameCards (r.array fun _ => 0)
  bottom_eq : h.sp.bottom = r.bottom
  limit_eq : h.sp.limit = r.limit
  blocks_pos : ∀ b ∈ h.sp.blocks, 0 < b
  threshold_eq : h.bot.nextOffsetThreshold = h.bot.array.addressForIndex h.bot.nextOffsetIndex
  bottom_lt : r.bottomIndex < h.bot.nextOffsetIndex
  top_le : h.sp.top ≤ h.bot.nextOffsetThreshold
  /-- The top lies on the last card that is covered, unless nothing is allocated. -/
  top_near : h.bot.nextOffsetThreshold < h.sp.top + h.bot.array.nWords ∨
    (h.sp.top = r.bottom ∧ h.bot.nextOffsetIndex = r.bottomIndex + 1)
  bottom_entry : h.bot.array.offsetArray r.bottomIndex = 0
  resolves : ∀ c, r.bottomIndex ≤ c → c < h.bot.nextOffsetIndex →
    ∃ s, h.bot.array.Resolves c s ∧ h.sp.IsBoundary s

end Heap

namespace BlockOffsetSharedArray

variable {t : BlockOffsetSharedArray}

theorem indexForWord_addressForIndex {ix d : Nat} (hd : d < t.nWords) :
    t.indexForWord (t.addressForIndex ix + d) = ix := by
  rw [indexForWord_eq, addressForIndex_eq, Nat.add_assoc, Nat.add_sub_cancel_left, Nat.mul_comm,
    mul_add_div t.nWords_pos, div_eq_of_lt hd, add_zero]

theorem addressForIndex_succ (ix : Nat) :
    t.addressForIndex (ix + 1) = t.addressForIndex ix + t.nWords := by
  rw [addressForIndex_eq, addressForIndex_eq, succ_mul, add_assoc]

/-- A word lies on its card. -/
theorem addressForIndex_indexForWord {p : Nat} (hp : t.reservedStart ≤ p) :
    t.addressForIndex (t.indexForWord p) ≤ p ∧
      p < t.addressForIndex (t.indexForWord p + 1) := by
  rw [addressForIndex_eq, addressForIndex_eq, indexForWord_eq]
  have hle := div_mul_le_self (p - t.reservedStart) t.nWords
  have hlt := lt_div_mul_add t.nWords_pos (a := p - t.reservedStart)
  rw [succ_mul]
  omega

theorem index_le_of_address_lt {i j : Nat} (h : t.addressForIndex i < t.addressForIndex j) :
    i < j := by
  by_contra hle
  exact absurd (addressForIndex_mono (not_lt.mp hle)) (not_le.mpr h)

theorem setRemainder_spec {k e : Nat} (hk : k + 1 ≤ e) (hend : e - k < 16 ^ nPowers) :
    t.PointsBack (t.setRemainderToPointToStart (t.addressForIndex (k + 1))
      (t.addressForIndex e + t.nWords)) k (k + 1) e := by
  have hpos := t.nWords_pos
  have hmono := t.addressForIndex_mono hk
  have hstart : t.indexForWord (t.addressForIndex (k + 1)) = k + 1 :=
    indexForWord_addressForIndex (d := 0) hpos
  have hstop : t.indexForWord (t.addressForIndex e + t.nWords - 1) = e := by
    rw [Nat.add_sub_assoc hpos]
    exact indexForWord_addressForIndex (by omega)
  rw [setRemainderToPointToStart, if_neg (by omega), hstart, hstop, setRemainderToPointToStartIncl,
    if_neg (by omega)]
  exact @remainderLoop_spec t k e 0 nPowers (zero_add _) hend

end BlockOffsetSharedArray

namespace BlockOffsetArrayContigSpace

open BlockOffsetSharedArray

variable {t : BlockOffsetArrayContigSpace}

/-- The cards before the next one are left as they are, that one gets the offset to the block,
and the others up to the end of the block point back to it. -/
theorem markBlock_spec {s e : Nat} (hs : t.nextOffsetThreshold - s ≤ t.array.nWords)
    (hend : e - t.nextOffsetIndex < 16 ^ nPowers) : (t.markBlock s e).SameCards t.array ∧
    (∀ c < t.nextOffsetIndex, (t.markBlock s e).offsetArray c = t.array.offsetArray c) ∧
    ((t.markBlock s e).offsetArray t.nextOffsetIndex).toNat = t.nextOffsetThreshold - s ∧
    (∀ c, t.nextOffsetIndex < c → c ≤ e →
      (t.markBlock s e).LogEntry t.nextOffsetIndex c) := by
  let marked := t.array.setOffsetArrayDelta t.nextOffsetIndex t.nextOffsetThreshold s
  have hcards : marked.SameCards t.array := ⟨rfl, rfl⟩
  have hframe : ∀ c < t.nextOffsetIndex, marked.offsetArray c = t.array.offsetArray c :=
    fun c hc => if_neg hc.ne
  have hentry : (marked.offsetArray t.nextOffsetIndex).toNat = t.nextOffsetThreshold - s := by
    have hbound := t.array.nWords_le
    have hset : marked.offsetArray t.nextOffsetIndex =
      BitVec.ofNat 8 (t.nextOffsetThreshold - s) := if_pos rfl
    rw [hset, BitVec.toNat_ofNat, mod_eq_of_lt]
    omega
  unfold markBlock
  split
  next hmore =>
    obtain ⟨hsame, hframe', hlog⟩ := @setRemainder_spec marked t.nextOffsetIndex e hmore hend
    refine ⟨⟨hsame.1.trans hcards.1, hsame.2.trans hcards.2⟩, fun c hc => ?_, ?_, hlog⟩
    · exact (hframe' c (.inl (hc.trans (lt_succ_self _)))).trans (hframe c hc)
    · exact (congrArg BitVec.toNat (hframe' _ (.inl (lt_succ_self _)))).trans hentry
  next hdone => exact ⟨hcards, hframe, hentry, fun c hlo hhi => absurd (by omega) hdone⟩

end BlockOffsetArrayContigSpace

namespace Heap

open BlockOffsetSharedArray BlockOffsetArrayContigSpace

variable {r : Region} {h h' : Heap}

theorem init_inv (r : Region) (contents : Nat → UChar) : (r.init contents).Inv r := by
  have hbottom : r.bottom = (r.array contents).addressForIndex r.bottomIndex := by
    rw [addressForIndex_eq]
    rfl
  have hindex : (r.array contents).indexForWord r.bottom = r.bottomIndex := by
    rw [hbottom]
    exact indexForWord_addressForIndex (d := 0) (nWords_pos _)
  have hnext : (r.init contents).bot.nextOffsetIndex = r.bottomIndex + 1 :=
    congrArg (· + 1) hindex
  have hentry : (r.init contents).bot.array.offsetArray r.bottomIndex = 0 :=
    if_pos hindex.symm
  refine ⟨⟨rfl, rfl⟩, rfl, rfl, nofun, rfl, by omega, ?_, .inr ⟨rfl, hnext⟩, hentry, ?_⟩
  · show r.bottom ≤ (r.array contents).addressForIndex ((r.array contents).indexForWord r.bottom + 1)
    rw [hindex, hbottom]
    exact addressForIndex_mono (le_succ _)
  intro c hlo hhi
  obtain rfl : c = r.bottomIndex := by omega
  have hpos := nWords_pos (r.init contents).bot.array
  refine ⟨r.bottom, ⟨r.bottomIndex, ⟨le_rfl, fun x hlo hhi => by omega, ?_⟩,
    .inl ⟨?_, ?_⟩⟩, [], [], rfl, rfl⟩
  · rw [hentry]
    exact zero_le _
  · rw [hentry]
    exact hpos
  · rw [hentry]
    exact hbottom

theorem top_append (sp : ContiguousSpace) (n : Nat) :
    ContiguousSpace.top { sp with blocks := sp.blocks ++ [n] } = sp.top + n := by
  simp [ContiguousSpace.top, add_assoc]

theorem boundary_append {sp : ContiguousSpace} {s : Nat} (hs : sp.IsBoundary s) (n : Nat) :
    ContiguousSpace.IsBoundary { sp with blocks := sp.blocks ++ [n] } s := by
  obtain ⟨before, after, heq, rfl⟩ := hs
  exact ⟨before, after ++ [n], by simp [heq], rfl⟩

theorem boundary_top (sp : ContiguousSpace) : sp.IsBoundary sp.top :=
  ⟨sp.blocks, [], by simp, rfl⟩

variable {n : Nat}

section

variable (inv : h.Inv r)

include inv

theorem blocks_pos_append (hsize : 0 < n) : ∀ b ∈ h.sp.blocks ++ [n], 0 < b :=
  forall_mem_append.mpr ⟨inv.blocks_pos, forall_mem_singleton.mpr hsize⟩

/-- The block fits into the address space, so its cards are within reach of the powers. -/
theorem Inv.card_lt {p : Nat} (hp : p < r.limit) : h.bot.array.indexForWord p < 16 ^ nPowers := by
  have hfits := r.fits
  have hspace : r.wordSize.addressSpace ≤ 2 ^ 64 := by cases r.wordSize <;> decide
  have hws : h.bot.array.wordSize = r.wordSize := inv.cards.1
  have hdiv : h.bot.array.indexForWord p * h.bot.array.nWords ≤ p := by
    rw [indexForWord_eq]
    exact (div_mul_le_self _ _).trans (sub_le _ _)
  have hcard : h.bot.array.indexForWord p * 2 ^ LogN ≤ p * r.wordSize.bytes := by
    rw [← nWords_mul_bytes h.bot.array, hws, ← mul_assoc]
    exact mul_le_mul_right _ hdiv
  have hlt : p * r.wordSize.bytes < r.limit * r.wordSize.bytes :=
    Nat.mul_lt_mul_of_pos_right hp (Nat.two_pow_pos _)
  simp only [LogN, nPowers] at *
  omega

theorem Inv.bottom_address : r.bottom = h.bot.array.addressForIndex r.bottomIndex := by
  rw [inv.cards.addressForIndex, addressForIndex_eq]
  rfl

/-- The assertion of `alloc_block_work` on the offset that it stores. -/
theorem Inv.threshold_le : h.bot.nextOffsetThreshold ≤ h.sp.top + h.bot.array.nWords := by
  obtain hnear | ⟨htop, hnext⟩ := inv.top_near
  · exact hnear.le
  · rw [inv.threshold_eq, hnext, addressForIndex_succ, ← inv.bottom_address, htop]

/-- An allocation that stays before the threshold leaves the table as it is. -/
theorem inv_of_le (hsize : 0 < n)
    (hle : h.sp.top + n ≤ h.bot.nextOffsetThreshold) :
    Heap.Inv r ⟨h.bot, { h.sp with blocks := h.sp.blocks ++ [n] }⟩ where
  cards := inv.cards
  bottom_eq := inv.bottom_eq
  limit_eq := inv.limit_eq
  blocks_pos := blocks_pos_append inv hsize
  threshold_eq := inv.threshold_eq
  bottom_lt := inv.bottom_lt
  top_le := by
    rw [top_append]
    exact hle
  top_near := by
    rw [top_append]
    have hback := inv.threshold_le
    exact .inl (show h.bot.nextOffsetThreshold < h.sp.top + n + h.bot.array.nWords by omega)
  bottom_entry := inv.bottom_entry
  resolves c hlo hhi := by
    obtain ⟨s, hresolves, hs⟩ := inv.resolves c hlo hhi
    exact ⟨s, hresolves, boundary_append hs n⟩

/-- The address that the card at the threshold leads to after it got the offset to the top. -/
theorem Inv.lands {that : BlockOffsetSharedArray} (hsame : that.SameCards h.bot.array)
    (hframe : ∀ c < h.bot.nextOffsetIndex, that.offsetArray c = h.bot.array.offsetArray c)
    (hentry : (that.offsetArray h.bot.nextOffsetIndex).toNat =
      h.bot.nextOffsetThreshold - h.sp.top) : that.Lands h.bot.nextOffsetIndex h.sp.top := by
  have htop := inv.top_le
  have hthreshold : that.addressForIndex h.bot.nextOffsetIndex = h.bot.nextOffsetThreshold := by
    rw [hsame.addressForIndex, inv.threshold_eq]
  obtain hlt | heq := lt_or_eq_of_le inv.threshold_le
  · exact .inl ⟨by rw [hentry, hsame.nWords]; omega, by rw [hthreshold, hentry]; omega⟩
  obtain hnear | ⟨hbottom, hnext⟩ := inv.top_near
  · exact absurd hnear (not_lt.mpr heq.ge)
  -- the first block starts at the bottom, a whole card before the threshold
  have hzero : that.offsetArray r.bottomIndex = 0 :=
    (hframe _ inv.bottom_lt).trans inv.bottom_entry
  refine .inr ⟨by rw [hentry, hsame.nWords]; omega, r.bottomIndex, hnext, ?_, ?_⟩
  · rw [hzero]
    exact nWords_pos that
  · rw [hzero, hsame.addressForIndex, ← inv.bottom_address]
    exact hbottom

/-- An allocation beyond the threshold. -/
theorem inv_of_gt (hsize : 0 < n) (hlimit : h.sp.top + n ≤ h.sp.limit)
    (hgt : h.bot.nextOffsetThreshold < h.sp.top + n) :
    Heap.Inv r ⟨h.bot.allocBlockWork h.sp.top (h.sp.top + n),
      { h.sp with blocks := h.sp.blocks ++ [n] }⟩ := by
  rw [inv.limit_eq] at hlimit
  let e := h.bot.array.indexForWord (h.sp.top + n - 1)
  have hreserved : h.bot.array.reservedStart ≤ h.sp.top + n - 1 := by
    have hle : h.bot.array.reservedStart ≤ h.bot.nextOffsetThreshold := by
      rw [inv.threshold_eq, addressForIndex_eq]
      exact le_add_right _ _
    omega
  obtain ⟨hlo, hhi⟩ : h.bot.array.addressForIndex e ≤ h.sp.top + n - 1 ∧
      h.sp.top + n - 1 < h.bot.array.addressForIndex (e + 1) :=
    addressForIndex_indexForWord hreserved
  have hk : h.bot.nextOffsetIndex < e + 1 := by
    refine @index_le_of_address_lt h.bot.array _ _ ?_
    rw [← inv.threshold_eq]
    exact lt_of_le_of_lt (by omega) hhi
  have hcard : e < 16 ^ nPowers := inv.card_lt (by omega)
  have hback := inv.threshold_le
  obtain ⟨hsame, hframe, hentry, hlog⟩ :=
    @markBlock_spec h.bot h.sp.top e (by omega) (by omega)
  have hoffset : ((h.bot.markBlock h.sp.top e).offsetArray h.bot.nextOffsetIndex).toNat ≤
      (h.bot.markBlock h.sp.top e).nWords := by
    rw [hentry, hsame.nWords]
    omega
  have hlands := inv.lands hsame hframe hentry
  refine ⟨⟨hsame.1.trans inv.cards.1, hsame.2.trans inv.cards.2⟩, inv.bottom_eq, inv.limit_eq,
    ?_, ?_, ?_, ?_, ?_, ?_, ?_⟩
  · exact blocks_pos_append inv hsize
  · show h.bot.array.addressForIndex e + h.bot.array.nWords =
      (h.bot.markBlock h.sp.top e).addressForIndex (e + 1)
    rw [hsame.addressForIndex, addressForIndex_succ]
  · exact inv.bottom_lt.trans_le hk.le
  · rw [top_append]
    show h.sp.top + n ≤ h.bot.array.addressForIndex e + h.bot.array.nWords
    rw [← addressForIndex_succ]
    omega
  · rw [top_append]
    refine .inl (show h.bot.array.addressForIndex e + h.bot.array.nWords <
      h.sp.top + n + (h.bot.markBlock h.sp.top e).nWords from ?_)
    rw [hsame.nWords]
    omega
  · exact (hframe _ inv.bottom_lt).trans inv.bottom_entry
  · intro c hbottom hc
    obtain hold | hnew := lt_or_ge c h.bot.nextOffsetIndex
    · obtain ⟨s, hresolves, hs⟩ := inv.resolves c hbottom hold
      exact ⟨s, hresolves.frame hsame fun x hx => hframe x (hx.trans_lt hold),
        boundary_append hs n⟩
    · refine ⟨h.sp.top, ⟨h.bot.nextOffsetIndex, ⟨hnew, fun x hlt hle => ?_, hoffset⟩, hlands⟩,
        boundary_append (boundary_top h.sp) n⟩
      exact hlog x hlt (hle.trans (le_of_lt_succ hc))

end

theorem allocate_eq_some (halloc : h.allocate n = some h') :
    0 < n ∧ h.sp.top + n ≤ h.sp.limit ∧ h' = ⟨h.bot.allocBlock h.sp.top (h.sp.top + n),
        { h.sp with blocks := h.sp.blocks ++ [n] }⟩ := by
  obtain ⟨⟨hsize, hlimit⟩, heq⟩ := Option.ite_none_right_eq_some.mp halloc
  exact ⟨hsize, hlimit, (Option.some.inj heq).symm⟩

theorem allocate_inv (inv : h.Inv r) (halloc : h.allocate n = some h') : h'.Inv r := by
  obtain ⟨hsize, hlimit, rfl⟩ := allocate_eq_some halloc
  unfold allocBlock
  split
  next hgt => exact inv_of_gt inv hsize hlimit hgt
  next hle => exact inv_of_le inv hsize (not_lt.mp hle)

theorem run_inv {sizes : List Nat} (inv : h.Inv r) (hrun : h.run sizes = some h') : h'.Inv r := by
  induction sizes generalizing h with
  | nil =>
    cases hrun
    exact inv
  | cons n sizes ih =>
    obtain ⟨next, halloc, hrest⟩ := Option.bind_eq_some_iff.mp hrun
    exact ih (allocate_inv inv halloc) hrest

theorem run_blocks {sizes : List Nat} (hrun : h.run sizes = some h') :
    h'.sp.blocks = h.sp.blocks ++ sizes := by
  induction sizes generalizing h with
  | nil =>
    cases hrun
    rw [append_nil]
  | cons n sizes ih =>
    obtain ⟨next, halloc, hrest⟩ := Option.bind_eq_some_iff.mp hrun
    have hnext : next.sp.blocks = h.sp.blocks ++ [n] := by
      obtain ⟨-, -, rfl⟩ := allocate_eq_some halloc
      rfl
    rw [ih hrest, hnext, append_assoc, singleton_append]

/-- The allocations succeed while there is room. -/
theorem run_of_room (sizes : List Nat) (h : Heap) (hpos : ∀ b ∈ sizes, 0 < b)
    (hroom : h.sp.top + sizes.sum ≤ h.sp.limit) : ∃ h', h.run sizes = some h' := by
  induction sizes generalizing h with
  | nil => exact ⟨h, rfl⟩
  | cons n sizes ih =>
    rw [sum_cons, ← add_assoc] at hroom
    let next : Heap := ⟨h.bot.allocBlock h.sp.top (h.sp.top + n),
      { h.sp with blocks := h.sp.blocks ++ [n] }⟩
    have halloc : h.allocate n = some next := if_pos ⟨hpos n mem_cons_self, by omega⟩
    have htop : next.sp.top = h.sp.top + n := top_append h.sp n
    obtain ⟨h', hrest⟩ := ih next (fun b hb => hpos b (mem_cons_of_mem n hb))
      (by rw [htop]; exact hroom)
    exact ⟨h', Option.bind_eq_some_iff.mpr ⟨next, halloc, hrest⟩⟩

/-- The lookup in a space that satisfies the invariant. -/
theorem Inv.blockStartUnsafe (inv : h.Inv r) {addr : Nat}
    (hlo : r.bottom * r.wordSize.bytes ≤ addr) (hhi : addr < h.sp.top * r.wordSize.bytes) :
    ∃ start visited, h.bot.blockStartUnsafe h.sp addr = some (start, visited) ∧
      h.sp.IsBlockOf r.wordSize start addr ∧ ∀ c ∈ visited, c < h.bot.nextOffsetIndex := by
  have hbytes : 0 < r.wordSize.bytes := Nat.two_pow_pos _
  have hws : h.bot.array.wordSize = r.wordSize := inv.cards.1
  have hword : r.bottom ≤ addr / r.wordSize.bytes := (le_div_iff_mul_le hbytes).mpr hlo
  have hreserved : h.bot.array.reservedStart ≤ addr / r.wordSize.bytes := by
    refine le_trans ?_ hword
    rw [inv.bottom_address, addressForIndex_eq]
    exact le_add_right _ _
  have hindex : h.bot.array.indexFor addr = h.bot.array.indexForWord (addr / r.wordSize.bytes) := by
    rw [indexFor_eq, indexForWord_eq, hws]
  obtain ⟨hcard, hcard'⟩ := addressForIndex_indexForWord hreserved
  rw [← hindex] at hcard hcard'
  have hbottom : r.bottomIndex < h.bot.array.indexFor addr + 1 := by
    refine @index_le_of_address_lt h.bot.array _ _ ?_
    rw [← inv.bottom_address]
    exact lt_of_le_of_lt hword hcard'
  -- the index is clipped to the cards that are covered
  obtain ⟨ix, hmin⟩ : ∃ ix, min (h.bot.array.indexFor addr) (h.bot.nextOffsetIndex - 1) = ix :=
    ⟨_, rfl⟩
  have hnext := inv.bottom_lt
  obtain ⟨s, ⟨k, hp, hlands⟩, before, after, hblocks, hs⟩ :=
    inv.resolves ix (by omega) (by omega)
  have hle : s ≤ addr / r.wordSize.bytes := by
    refine le_trans (Resolves.le ⟨k, hp, hlands⟩) (le_trans ?_ hcard)
    exact addressForIndex_mono (by omega)
  have hat : Cursor.At h.bot.array ix ix ⟨ix, h.bot.array.addressForIndex ix,
      h.bot.array.offsetArray ix, [ix]⟩ :=
    ⟨rfl, le_refl _, rfl, rfl, by simp⟩
  obtain ⟨c, index', hpowers, hat', hpoints', hnopower⟩ :=
    skipPowers_spec hat hp (lt_succ_self ix)
  obtain ⟨c', hcards, hq, hvisited⟩ :=
    skipCards_spec hat' hpoints' hnopower hlands (lt_succ_self index')
  obtain ⟨start, hwalk, hblock⟩ := @ContiguousSpace.walkForward_spec h.sp inv.blocks_pos
    r.wordSize addr (addr + 2) s before after hblocks
    (by rw [← hs]; exact (le_div_iff_mul_le hbytes).mp hle) hhi (by omega)
  refine ⟨start, c'.visited, ?_, hblock, fun v hv => ?_⟩
  · simp only [BlockOffsetArrayContigSpace.blockStartUnsafe, hmin, hpowers, hat'.index_eq, hcards,
      hq, hws, Option.bind_eq_bind, Option.bind_some]
    rw [← hs] at hwalk
    rw [hwalk]
    rfl
  · have hv' := hvisited v hv
    omega

/-- After any allocations every address of the space is mapped to the start of the only block that
contains it, and no card from `_next_offset_index` on is looked at. -/
theorem run_blockStartUnsafe (r : Region) (contents : Nat → UChar) (sizes : List Nat) (h : Heap)
    (hrun : (r.init contents).run sizes = some h) (addr : Nat)
    (hlo : r.bottom * r.wordSize.bytes ≤ addr) (hhi : addr < h.sp.top * r.wordSize.bytes) :
    h.sp.bottom = r.bottom ∧ h.sp.blocks = sizes ∧
    ∃ start visited, h.bot.blockStartUnsafe h.sp addr = some (start, visited) ∧
      h.sp.IsBlockOf r.wordSize start addr ∧
      (∀ start', h.sp.IsBlockOf r.wordSize start' addr → start' = start) ∧
      ∀ c ∈ visited, c < h.bot.nextOffsetIndex := by
  have inv := run_inv (init_inv r contents) hrun
  obtain ⟨start, visited, hlookup, hblock, hvisited⟩ := inv.blockStartUnsafe hlo hhi
  exact ⟨inv.bottom_eq, run_blocks hrun, start, visited, hlookup, hblock,
    fun _ hother => hblock.unique hother, hvisited⟩

/-- A lookup in the last of four blocks, on a card that goes back by sixteen. -/
theorem run_blockStartUnsafe_last_block :
    let r : Region := ⟨.eight, 0, 1, 4096, by decide⟩
    ∃ h, (r.init fun _ => 0xFF).run [10, 200, 64, 1500] = some h ∧
      ∃ start visited, h.bot.blockStartUnsafe h.sp 14000 = some (start, visited) ∧
        h.sp.IsBlockOf r.wordSize start 14000 := by
  intro r
  obtain ⟨h, hrun⟩ := run_of_room [10, 200, 64, 1500] (r.init fun _ => 0xFF)
    (by decide) (by decide)
  have htop : h.sp.top = 1838 := by
    rw [ContiguousSpace.top, (run_inv (init_inv r _) hrun).bottom_eq, run_blocks hrun]
    rfl
  obtain ⟨-, -, start, visited, hlookup, hblock, -⟩ :=
    run_blockStartUnsafe r _ _ h hrun 14000 (by decide) (by rw [htop]; decide)
  exact ⟨h, hrun, start, visited, hlookup, hblock⟩

end Heap

end Hotspot.Memory
