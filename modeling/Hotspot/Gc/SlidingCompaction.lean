-- SUMMARY: Sliding compaction: each live object moves behind the ones below it.
import Hotspot.Gc.ParallelCompactData

/-!
# Sliding compaction

Marking leaves in each chunk the live words of the chunk, divided into those of objects that
enter it from the left and those of objects that start in it. From this the summary and the
bitmap give each live object the address that the sum of the live sizes below it says.
-/

namespace Hotspot.Gc

open List

open BitVec hiding append_assoc cons_append

open Memory (HeapWordSize)

/-! ## Walking over the bitmap -/

namespace ParMarkBitMap

/-- The bits of a map are those of a family of intervals of bits. -/
structure Marks (bm : ParMarkBitMap) (is : List Interval) : Prop where
  beg : ∀ b, bm.begBits b = true ↔ ∃ i ∈ is, i.start = b
  fin : ∀ b, bm.endBits b = true ↔ ∃ i ∈ is, i.stop = b + 1
  pos : ∀ i ∈ is, 0 < i.size
  disjoint : is.Pairwise Interval.Disjoint

variable {bm : ParMarkBitMap} {is : List Interval} (hmarks : bm.Marks is)

include hmarks

variable {re : Nat}

/-- The search for a begin bit stops at the first interval, at the latest at one that is known. -/
theorem Marks.findObjBeg_spec {x e : Nat} (hx : Uncrossed is x) (hxe : x ≤ e)
    (he : ∃ i ∈ is, i.start = e) (hrange : e ≤ re) :
    (∃ i ∈ is, i.start = bm.findObjBeg x re) ∧ x ≤ bm.findObjBeg x re ∧
      bm.findObjBeg x re ≤ e ∧ covered is x (bm.findObjBeg x re) = 0 := by
  obtain ⟨hle, hend, hnone, hfound⟩ := findFrom_spec bm.begBits (re - x) x
  have hle' : bm.findObjBeg x re ≤ e := by
    by_contra hgt
    have hfalse := hnone e hxe (Nat.lt_of_not_le hgt)
    rw [(hmarks.beg e).mpr he] at hfalse
    cases hfalse
  have hstart : ∃ i ∈ is, i.start = bm.findObjBeg x re := by
    by_cases hlt : bm.findObjBeg x re < x + (re - x)
    · exact (hmarks.beg _).mp (hfound hlt)
    · have heq : bm.findObjBeg x re = e := by omega
      rw [heq]
      exact he
  refine ⟨hstart, hle, hle', covered_eq_zero fun i hi => ?_⟩
  rcases hx i hi with hstop | hge
  · exact .inl hstop
  · refine .inr (Nat.le_of_not_lt fun hlt => ?_)
    have hfalse := hnone i.start hge hlt
    rw [(hmarks.beg _).mpr ⟨i, hi, rfl⟩] at hfalse
    cases hfalse

theorem Marks.findObjEnd_eq {i : Interval} (hi : i ∈ is)
    (hrange : i.stop ≤ re) : bm.findObjEnd i.start re = i.stop - 1 := by
  have hpos := hmarks.pos i hi
  have hstop : i.stop = i.start + i.size := rfl
  refine findFrom_eq (by omega) (by omega) ((hmarks.fin _).mpr ⟨i, hi, by omega⟩) fun b hb hb' => ?_
  rw [Bool.eq_false_iff]
  intro hbit
  obtain ⟨j, hj, hjstop⟩ := (hmarks.fin b).mp hbit
  have hne : j ≠ i := by
    rintro rfl
    omega
  have hij := hmarks.disjoint.forall hj hi hne
  unfold Interval.Disjoint Interval.stop at *
  omega

/-- The loop from a begin bit on counts the bits of the intervals up to a begin bit. -/
theorem Marks.liveWordsLoop_eq {e : Nat} (he : ∃ i ∈ is, i.start = e)
    (hrange : e ≤ re) (fuel k live : Nat) (hk : ∃ i ∈ is, i.start = k) (hke : k ≤ e)
    (hfuel : e - k < fuel) : bm.liveWordsLoop e re fuel k live = some (live + covered is k e) := by
  induction fuel generalizing k live with
  | zero => omega
  | succ fuel ih =>
    rw [liveWordsLoop]
    by_cases hlt : k < e
    · obtain ⟨i, hi, rfl⟩ := hk
      obtain ⟨l, hl, rfl⟩ := he
      have hpos := hmarks.pos i hi
      have hstop : i.stop = i.start + i.size := rfl
      -- the interval ends before the next known begin bit
      have hstop_le : i.stop ≤ l.start := by
        rcases uncrossed_start hmarks.disjoint hl i hi with h | h <;> omega
      obtain ⟨hk', hxk, hk'e, hzero⟩ := hmarks.findObjBeg_spec
        (uncrossed_stop hmarks.disjoint hi) hstop_le
        ⟨l, hl, rfl⟩ hrange
      have hnext : i.stop - 1 + 1 = i.stop := by omega
      rw [if_pos hlt, hmarks.findObjEnd_eq hi (hstop_le.trans hrange), if_pos (by omega), hnext,
        ih _ _ hk' hk'e (by omega), covered_add is (by omega : i.start ≤ i.stop) hstop_le,
        covered_add is hxk hk'e, hzero, covered_of_mem hmarks.disjoint hi le_rfl (by omega) le_rfl]
      congr 1
      omega
    · have heq : k = e := by omega
      rw [if_neg hlt, heq, covered_self, Nat.add_zero]

end ParMarkBitMap

/-! ## The data of a chunk -/

namespace ChunkData

theorem getLsbD_losMask (i : Nat) : losMask.getLsbD i = decide (i < 27) := by
  by_cases h : i < 32
  · simp only [losMask, dcMask, dcShift, getLsbD_not, getLsbD_shiftLeft,
      getLsbD_allOnes]
    by_cases h' : i < 27
    · simp [h, h']
    · simp [h, h', show i - 27 < 32 by omega]
  · rw [getLsbD_of_ge _ _ (by omega)]
    simp
    omega

theorem losMask_toNat : losMask.toNat = 2 ^ 27 - 1 := by decide

theorem liveObjSize_eq (cd : ChunkData) : cd.liveObjSize = cd.dcAndLos.toNat % 2 ^ 27 := by
  rw [liveObjSize, toNat_and, losMask_toNat, Nat.and_two_pow_sub_one_eq_mod]

@[simp]
theorem liveObjSize_setDestinationCount (cd : ChunkData) (count : UInt) :
    (cd.setDestinationCount count).liveObjSize = cd.liveObjSize := by
  unfold setDestinationCount liveObjSize
  congr 1
  apply eq_of_getLsbD_eq
  intro i hi
  simp only [ofNat_toNat, setWidth_eq, getLsbD_and, getLsbD_or,
    getLsbD_shiftLeft, getLsbD_losMask, dcShift]
  by_cases h : i < 27
  · simp [h]
  · simp [h]

end ChunkData

namespace ParallelCompactData

theorem chunkSize_eq : ChunkSize = 512 := rfl

/-- The first word of a chunk. -/
def chunkBeg (regionStart chunk : Nat) : Nat := regionStart + chunk * 512

theorem chunkBeg_succ (r c : Nat) : chunkBeg r (c + 1) = chunkBeg r c + 512 := by
  unfold chunkBeg
  omega

theorem addrToChunkIdx_eq (d : ParallelCompactData) (addr : Nat) :
    d.addrToChunkIdx addr = (addr - d.regionStart) / 512 := by
  rw [addrToChunkIdx, Nat.shiftRight_eq_div_pow]
  rfl

@[simp]
theorem update_regionStart (d : ParallelCompactData) (c : Nat) (f : ChunkData → ChunkData) :
    (d.update c f).regionStart = d.regionStart := rfl

theorem update_chunkData (d : ParallelCompactData) (c : Nat) (f : ChunkData → ChunkData)
    (c' : Nat) : (d.update c f).chunkData c' =
      if c' = c then f (d.chunkData c') else d.chunkData c' := rfl

theorem spanChunks_chunkData (addr n c : Nat) (d : ParallelCompactData) (c' : Nat) :
    (spanChunks addr n c d).chunkData c' =
      if c ≤ c' ∧ c' < c + n then (d.chunkData c').setPartialObj ChunkSize addr
      else d.chunkData c' := by
  induction n generalizing c d with
  | zero => rw [spanChunks, if_neg (by omega)]
  | succ n ih =>
    rw [spanChunks, ih, update_chunkData]
    by_cases h : c' = c
    · rw [if_neg (by omega), if_pos h, if_pos (by omega)]
    · rw [if_neg h]
      by_cases h' : c + 1 ≤ c' ∧ c' < c + 1 + n
      · rw [if_pos h', if_pos (by omega)]
      · rw [if_neg h', if_neg (by omega)]

theorem spanChunks_regionStart (addr n c : Nat) (d : ParallelCompactData) :
    (spanChunks addr n c d).regionStart = d.regionStart := by
  induction n generalizing c d with
  | zero => rfl
  | succ n ih => rw [spanChunks, ih, update_regionStart]

theorem addObj_regionStart (d : ParallelCompactData) (addr len : Nat) :
    (d.addObj addr len).regionStart = d.regionStart := by
  unfold addObj
  dsimp only
  split
  · rfl
  · rw [update_regionStart, spanChunks_regionStart, update_regionStart]

theorem chunkBeg_shiftRight {r addr : Nat} (h : r ≤ addr) :
    chunkBeg r ((addr - r) >>> Log2ChunkSize) ≤ addr ∧
      addr < chunkBeg r ((addr - r) >>> Log2ChunkSize) + 512 := by
  have hdiv : (addr - r) >>> Log2ChunkSize = (addr - r) / 512 := Nat.shiftRight_eq_div_pow _ _
  unfold chunkBeg
  omega

/-- What an object adds to a chunk: the words of its part there, as the part of an object that
starts in the chunk or as the part of one that enters it. -/
theorem addObj_chunkData (d : ParallelCompactData) (o : Interval) (c : Nat)
    (hal : d.regionStart % 512 = 0) (hregion : d.regionStart ≤ o.start)
    (hpos : 0 < o.size) :
    let beg := chunkBeg d.regionStart c
    ((d.addObj o.start o.size).chunkData c).partialObjSize =
        (if o.start < beg ∧ beg < o.stop then BitVec.ofNat 32 (o.overlap beg (beg + 512))
        else (d.chunkData c).partialObjSize) ∧
      ((d.addObj o.start o.size).chunkData c).dcAndLos =
        (if beg ≤ o.start ∧ o.start < beg + 512 then
          (d.chunkData c).dcAndLos + BitVec.ofNat 32 (o.overlap beg (beg + 512))
        else (d.chunkData c).dcAndLos) := by
  obtain ⟨start, size⟩ := o
  dsimp only at hregion hpos ⊢
  have hfirst := chunkBeg_shiftRight hregion
  have hlast := chunkBeg_shiftRight (show d.regionStart ≤ start + size - 1 by omega)
  rw [show start + size - 1 - d.regionStart = start - d.regionStart + size - 1 by omega] at hlast
  unfold addObj
  dsimp only
  generalize (start - d.regionStart) >>> Log2ChunkSize = b at *
  generalize (start - d.regionStart + size - 1) >>> Log2ChunkSize = e at *
  unfold chunkBeg Interval.overlap Interval.stop chunkOffset at *
  have hstarts : (d.regionStart + c * 512 ≤ start ∧ start < d.regionStart + c * 512 + 512) ↔ c = b := by omega
  have henters : (start < d.regionStart + c * 512 ∧ d.regionStart + c * 512 < start + size) ↔ b < c ∧ c ≤ e := by
    omega
  simp only [hstarts, henters]
  generalize hwords : min (start + size) _ - _ = words
  by_cases hone : b = e
  · rw [if_pos hone, update_chunkData, if_neg (show ¬ (b < c ∧ c ≤ e) by omega)]
    by_cases hc : c = b
    · rw [if_pos hc, if_pos hc, show words = size by omega]
      exact ⟨rfl, rfl⟩
    · rw [if_neg hc, if_neg hc]
      exact ⟨rfl, rfl⟩
  · rw [if_neg hone, update_chunkData, spanChunks_chunkData, update_chunkData]
    by_cases hend : c = e
    · rw [if_pos hend, if_neg (by omega), if_neg (show c ≠ b by omega), if_pos (show b < c ∧ c ≤ e by omega),
        if_neg (show c ≠ b by omega), show words = (start + size - 1) % 512 + 1 by omega]
      exact ⟨rfl, rfl⟩
    rw [if_neg hend]
    by_cases hspan : b < c ∧ c < e
    · rw [if_pos (by omega), if_neg (show c ≠ b by omega), if_pos (show b < c ∧ c ≤ e by omega),
        if_neg (show c ≠ b by omega), show words = 512 by omega]
      exact ⟨rfl, rfl⟩
    rw [if_neg (by omega), if_neg (show ¬ (b < c ∧ c ≤ e) by omega)]
    by_cases hc : c = b
    · rw [if_pos hc, if_pos hc, show words = 512 - start % 512 by omega]
      exact ⟨rfl, rfl⟩
    · rw [if_neg hc, if_neg hc]
      exact ⟨rfl, rfl⟩

/-- The words of the objects that enter a chunk from the left. -/
def entering (regionStart : Nat) (objs : List Interval) (c : Nat) : Nat :=
  (objs.map fun o => if o.start < chunkBeg regionStart c then
    o.overlap (chunkBeg regionStart c) (chunkBeg regionStart c + 512) else 0).sum

/-- The words in a chunk of the objects that start in it. -/
def starting (regionStart : Nat) (objs : List Interval) (c : Nat) : Nat :=
  (objs.map fun o => if chunkBeg regionStart c ≤ o.start then
    o.overlap (chunkBeg regionStart c) (chunkBeg regionStart c + 512) else 0).sum

variable (r : Nat)

theorem entering_add_starting (os : List Interval) (c : Nat) : entering r os c + starting r os c =
      covered os (chunkBeg r c) (chunkBeg r c + 512) := by
  induction os with
  | nil => rfl
  | cons o os ih =>
    simp only [entering, starting, map_cons, sum_cons, covered_cons] at ih ⊢
    by_cases h : o.start < chunkBeg r c
    · rw [if_pos h, if_neg (by omega)]
      omega
    · rw [if_neg h, if_pos (by omega)]
      omega

theorem entering_cons (o : Interval) (os : List Interval) (c : Nat) :
    entering r (o :: os) c = (if o.start < chunkBeg r c then
      o.overlap (chunkBeg r c) (chunkBeg r c + 512) else 0) +
      entering r os c := rfl

theorem starting_cons (o : Interval) (os : List Interval) (c : Nat) :
    starting r (o :: os) c = (if chunkBeg r c ≤ o.start then
      o.overlap (chunkBeg r c) (chunkBeg r c + 512) else 0) +
      starting r os c := rfl

/-- If one object enters a chunk, no other one does. -/
theorem entering_eq_zero {r : Nat} {o : Interval} {os : List Interval} {c : Nat}
    (hdisj : ∀ p ∈ os, o.Disjoint p) (hstart : o.start < chunkBeg r c)
    (hstop : chunkBeg r c < o.stop) : entering r os c = 0 := by
  refine sum_eq_zero fun x hx => ?_
  obtain ⟨p, hp, rfl⟩ := mem_map.mp hx
  have hop := hdisj p hp
  split
  · apply Interval.overlap_of_outside
    unfold Interval.Disjoint at hop
    omega
  · rfl

theorem entering_cons_of_enters {r : Nat} {o : Interval} {os : List Interval} {c : Nat}
    (hdisj : ∀ p ∈ os, o.Disjoint p) (henters : o.start < chunkBeg r c ∧ chunkBeg r c < o.stop) :
    entering r (o :: os) c = o.overlap (chunkBeg r c) (chunkBeg r c + 512) := by
  rw [entering_cons, if_pos henters.1, entering_eq_zero hdisj henters.1 henters.2]
  exact Nat.add_zero _

theorem entering_cons_of_not {r : Nat} {o : Interval} {c : Nat} (os : List Interval)
    (henters : ¬ (o.start < chunkBeg r c ∧ chunkBeg r c < o.stop)) :
    entering r (o :: os) c = entering r os c := by
  rw [entering_cons]
  split
  · rw [Interval.overlap_of_outside (by omega), Nat.zero_add]
  · exact Nat.zero_add _

/-- The chunk data after some objects were added. -/
structure Holds (data : ParallelCompactData) (objs : List Interval) : Prop where
  partialObjSize : ∀ c, (data.chunkData c).partialObjSize.toNat = entering data.regionStart objs c
  dcAndLos : ∀ c, (data.chunkData c).dcAndLos.toNat = starting data.regionStart objs c

variable {d : ParallelCompactData}

theorem Holds.addObj {os : List Interval} {o : Interval}
    (h : d.Holds os) (hal : d.regionStart % 512 = 0)
    (hregion : d.regionStart ≤ o.start) (hpos : 0 < o.size)
    (hdisj : (o :: os).Pairwise Interval.Disjoint) : (d.addObj o.start o.size).Holds (o :: os) := by
  have hlen : ∀ c, entering d.regionStart (o :: os) c +
      starting d.regionStart (o :: os) c ≤ 512 := fun c =>
    (entering_add_starting d.regionStart (o :: os) c).le.trans (covered_le hdisj _ 512)
  constructor
  · intro c
    have hle := hlen c
    rw [addObj_regionStart, (addObj_chunkData d o c hal hregion hpos).1]
    split
    next henters =>
      rw [entering_cons_of_enters (pairwise_cons.mp hdisj).1 henters] at hle ⊢
      rw [toNat_ofNat, Nat.mod_eq_of_lt (by omega)]
    next henters => rw [h.partialObjSize, entering_cons_of_not os henters]
  · intro c
    have hle := hlen c
    rw [addObj_regionStart, (addObj_chunkData d o c hal hregion hpos).2]
    rw [starting_cons] at hle ⊢
    split
    next hstarts =>
      rw [if_pos hstarts.1] at hle
      rw [toNat_add, toNat_ofNat, h.dcAndLos, if_pos hstarts.1, Nat.add_mod_mod,
        Nat.mod_eq_of_lt (by omega), Nat.add_comm]
    next hstarts =>
      rw [h.dcAndLos]
      split
      next hstart => rw [Interval.overlap_of_outside (by omega), Nat.zero_add]
      · exact (Nat.zero_add _).symm

/-- The data of a chunk is what the objects cover of it. -/
theorem Holds.dataSize_eq {os : List Interval} (h : d.Holds os)
    (hdisj : os.Pairwise Interval.Disjoint) (c : Nat) : (d.chunkData c).dataSize =
      covered os (chunkBeg d.regionStart c) (chunkBeg d.regionStart (c + 1)) := by
  have hsum := entering_add_starting d.regionStart os c
  have hle := covered_le hdisj (chunkBeg d.regionStart c) 512
  rw [ChunkData.dataSize, ChunkData.liveObjSize_eq, h.partialObjSize, h.dcAndLos,
    Nat.mod_eq_of_lt (by omega), hsum, chunkBeg_succ]

/-! ## The summary -/

/-- The summary changes neither the sizes in a chunk nor their place. -/
structure SameSizes (data data' : ParallelCompactData) : Prop where
  regionStart : data'.regionStart = data.regionStart
  partialObjSize : ∀ c, (data'.chunkData c).partialObjSize = (data.chunkData c).partialObjSize
  liveObjSize : ∀ c, (data'.chunkData c).liveObjSize = (data.chunkData c).liveObjSize

theorem SameSizes.refl (d : ParallelCompactData) : SameSizes d d :=
  ⟨rfl, fun _ => rfl, fun _ => rfl⟩

theorem SameSizes.trans {data' data'' : ParallelCompactData} (h : SameSizes d data')
    (h' : SameSizes data' data'') : SameSizes d data'' :=
  ⟨h'.regionStart.trans h.regionStart, fun c => (h'.partialObjSize c).trans (h.partialObjSize c),
    fun c => (h'.liveObjSize c).trans (h.liveObjSize c)⟩

theorem SameSizes.dataSize {data' : ParallelCompactData} (h : SameSizes d data') (c : Nat) :
    (data'.chunkData c).dataSize = (d.chunkData c).dataSize := by
  rw [ChunkData.dataSize, ChunkData.dataSize, h.partialObjSize, h.liveObjSize]

/-- What an update of a chunk does not change in the chunk, it does not change in the data. -/
theorem update_keeps {α : Type} (g : ChunkData → α) (d : ParallelCompactData) (c : Nat) {f : ChunkData → ChunkData}
    (hf : ∀ cd, g (f cd) = g cd) (c' : Nat) : g ((d.update c f).chunkData c') = g (d.chunkData c') := by
  rw [update_chunkData]
  split
  · exact hf _
  · rfl

/-- The counts and the source chunks are all that `setDestinations` changes. -/
theorem setDestinations_keeps {α : Type} (g : ChunkData → α) (d : ParallelCompactData) {cur : Nat}
    (dest words : Nat) (hsource : ∀ cd, g (cd.setSourceChunk cur) = g cd)
    (hcount : ∀ cd count, g (cd.setDestinationCount count) = g cd) (c : Nat) :
    g ((d.setDestinations cur dest words).chunkData c) = g (d.chunkData c) := by
  refine (update_keeps g _ _ (fun cd => hcount cd _) c).trans ?_
  split
  · exact update_keeps g _ _ hsource c
  · split
    · exact update_keeps g _ _ hsource c
    · rfl

theorem setDestinations_regionStart (d : ParallelCompactData) (cur dest words : Nat) :
    (d.setDestinations cur dest words).regionStart = d.regionStart := by
  unfold setDestinations
  dsimp only
  split
  · rfl
  · split <;> rfl

theorem sameSizes_setDestinations (d : ParallelCompactData) (cur dest words : Nat) :
    SameSizes d (d.setDestinations cur dest words) where
  regionStart := setDestinations_regionStart d cur dest words
  partialObjSize := setDestinations_keeps _ d dest words (fun _ => rfl) (fun _ _ => rfl)
  liveObjSize := setDestinations_keeps _ d dest words (fun _ => rfl) ChunkData.liveObjSize_setDestinationCount

theorem chunkBeg_mono {c c' : Nat} (h : c ≤ c') : chunkBeg r c ≤ chunkBeg r c' := by
  unfold chunkBeg
  omega

/-- One turn of the loop. -/
theorem summarizeLoop_succ (te n cur dest : Nat) (d : ParallelCompactData)
    (hfit : dest + (d.chunkData cur).dataSize ≤ te) :
    ∃ data', SameSizes d data' ∧ (data'.chunkData cur).destination = dest ∧
      (∀ c, c ≠ cur → (data'.chunkData c).destination = (d.chunkData c).destination) ∧
      summarizeLoop te (n + 1) cur dest d =
        summarizeLoop te n (cur + 1) (dest + (d.chunkData cur).dataSize) data' := by
  have hdest : SameSizes d (d.update cur fun cd => cd.setDestination dest) :=
    ⟨rfl, update_keeps _ d cur fun _ => rfl, update_keeps _ d cur fun _ => rfl⟩
  have hcur : ((d.update cur fun cd => cd.setDestination dest).chunkData cur).destination =
      dest := by
    rw [update_chunkData, if_pos rfl]
    rfl
  have hother : ∀ c, c ≠ cur →
      ((d.update cur fun cd => cd.setDestination dest).chunkData c).destination =
        (d.chunkData c).destination := by
    intro c hc
    rw [update_chunkData, if_neg hc]
  rw [summarizeLoop]
  rw [if_neg (by omega)]
  split
  · refine ⟨_, hdest.trans (sameSizes_setDestinations _ cur dest _), ?_, fun c hc => ?_, rfl⟩
    · exact (setDestinations_keeps _ _ dest _ (fun _ => rfl) (fun _ _ => rfl) cur).trans hcur
    · exact (setDestinations_keeps _ _ dest _ (fun _ => rfl) (fun _ _ => rfl) c).trans (hother c hc)
  · exact ⟨_, hdest, hcur, hother, rfl⟩

/-- The summary puts the data of the chunks one behind the other. -/
theorem summarizeLoop_spec {data₀ : ParallelCompactData} {os : List Interval}
    (hholds : data₀.Holds os) (hdisj : os.Pairwise Interval.Disjoint) (te n cur dest : Nat)
    (d : ParallelCompactData) (hsame : SameSizes data₀ d)
    (hfit : dest + covered os (chunkBeg data₀.regionStart cur)
      (chunkBeg data₀.regionStart (cur + n)) ≤ te) :
    ∃ data', summarizeLoop te n cur dest d = some (data', dest + covered os
        (chunkBeg data₀.regionStart cur) (chunkBeg data₀.regionStart (cur + n))) ∧
      SameSizes data₀ data' ∧
      (∀ c, c < cur → (data'.chunkData c).destination = (d.chunkData c).destination) ∧
      ∀ c, cur ≤ c → c < cur + n → (data'.chunkData c).destination =
        dest + covered os (chunkBeg data₀.regionStart cur) (chunkBeg data₀.regionStart c) := by
  induction n generalizing cur dest d with
  | zero =>
    rw [Nat.add_zero, covered_self]
    exact ⟨d, rfl, hsame, fun c _ => rfl, fun c hc hc' => by omega⟩
  | succ n ih =>
    have hsize : (d.chunkData cur).dataSize = covered os (chunkBeg data₀.regionStart cur)
        (chunkBeg data₀.regionStart (cur + 1)) := by
      rw [hsame.dataSize, hholds.dataSize_eq hdisj]
    have hsplit : ∀ c, cur + 1 ≤ c → covered os (chunkBeg data₀.regionStart cur)
        (chunkBeg data₀.regionStart c) = (d.chunkData cur).dataSize +
          covered os (chunkBeg data₀.regionStart (cur + 1)) (chunkBeg data₀.regionStart c) := by
      intro c hc
      rw [hsize]
      exact covered_add os (chunkBeg_mono _ (Nat.le_succ cur)) (chunkBeg_mono _ hc)
    have hend : cur + (n + 1) = cur + 1 + n := by omega
    have hsum := hsplit (cur + (n + 1)) (by omega)
    rw [hend] at hfit hsum ⊢
    obtain ⟨data₁, hsame₁, hcur₁, hother₁, hloop⟩ :=
      summarizeLoop_succ te n cur dest d (by omega)
    obtain ⟨data', hrun, hsame', hbefore, hdest⟩ :=
      ih (cur + 1) (dest + (d.chunkData cur).dataSize) data₁ (hsame.trans hsame₁) (by omega)
    refine ⟨data', ?_, hsame', fun c hc => ?_, fun c hc hc' => ?_⟩
    · rw [hloop, hrun, hsum, Nat.add_assoc]
    · rw [hbefore c (by omega), hother₁ c (by omega)]
    · by_cases heq : c = cur
      · subst heq
        rw [hbefore c (by omega), hcur₁, covered_self, Nat.add_zero]
      · rw [hdest c (by omega) hc', hsplit c (by omega), Nat.add_assoc]

/-- What enters a chunk is the part of one object, or nothing. -/
theorem entering_cases {r : Nat} {os : List Interval} (c : Nat)
    (hdisj : os.Pairwise Interval.Disjoint) :
    (∃ o ∈ os, o.start < chunkBeg r c ∧ chunkBeg r c < o.stop ∧ entering r os c =
        o.overlap (chunkBeg r c) (chunkBeg r c + 512)) ∨
    (Uncrossed os (chunkBeg r c) ∧ entering r os c = 0) := by
  induction os with
  | nil => exact .inr ⟨nofun, rfl⟩
  | cons o os ih =>
    rw [pairwise_cons] at hdisj
    by_cases ho : o.start < chunkBeg r c ∧ chunkBeg r c < o.stop
    · exact .inl ⟨o, by simp, ho.1, ho.2, entering_cons_of_enters hdisj.1 ho⟩
    rw [entering_cons_of_not os ho]
    rcases ih hdisj.2 with ⟨p, hp, hrest⟩ | ⟨hcross, hnone⟩
    · exact .inl ⟨p, by simp [hp], hrest⟩
    · refine .inr ⟨fun p hp => ?_, hnone⟩
      rcases mem_cons.mp hp with rfl | hp
      · omega
      · exact hcross p hp

/-! ## The end of a partial object -/

/-- Where the object that enters at an address ends; the address itself if none does. -/
def EntersTo (objs : List Interval) (beg stop : Nat) : Prop :=
  (∃ o ∈ objs, o.start < beg ∧ beg < o.stop ∧ stop = o.stop) ∨ Uncrossed objs beg ∧ stop = beg

theorem chunkToAddr_eq (d : ParallelCompactData) (c : Nat) : d.chunkToAddr c = chunkBeg d.regionStart c := by
  rw [chunkToAddr, Nat.shiftLeft_eq]
  rfl

/-- An object that reaches the start of a chunk is the one that enters it. -/
theorem entering_of_mem {r : Nat} {os : List Interval} {o : Interval} {c : Nat}
    (hdisj : os.Pairwise Interval.Disjoint) (ho : o ∈ os) (hstart : o.start < chunkBeg r c)
    (hstop : chunkBeg r c ≤ o.stop) :
    entering r os c = o.overlap (chunkBeg r c) (chunkBeg r c + 512) := by
  obtain ⟨p, hp, hpstart, hpstop, heq⟩ | ⟨hcross, hzero⟩ := entering_cases c hdisj
  · by_cases hpo : p = o
    · rw [heq, hpo]
    · have hapart := hdisj.forall hp ho hpo
      unfold Interval.Disjoint at hapart
      omega
  · have hnot := hcross o ho
    rw [hzero, Interval.overlap_of_outside (by omega)]

/-- The run: from a chunk that an object reaches, the loop goes to the end of the object, or to the last
of its chunks. -/
theorem Holds.partialObjEndLoop_eq {os : List Interval} {o : Interval} (h : d.Holds os)
    (hdisj : os.Pairwise Interval.Disjoint) (ho : o ∈ os) (n c : Nat)
    (hstart : o.start < chunkBeg d.regionStart c) (hstop : chunkBeg d.regionStart c ≤ o.stop) :
    d.partialObjEndLoop n c (chunkBeg d.regionStart c) = min o.stop (chunkBeg d.regionStart (c + n)) := by
  induction n generalizing c with
  | zero => exact (Nat.min_eq_right hstop).symm
  | succ n ih =>
    have hnext := chunkBeg_succ d.regionStart c
    have hlast := chunkBeg_mono d.regionStart (show c + 1 ≤ c + (n + 1) by omega)
    rw [partialObjEndLoop, h.partialObjSize, entering_of_mem hdisj ho hstart hstop, Interval.overlap, chunkSize_eq]
    by_cases hfull : chunkBeg d.regionStart (c + 1) ≤ o.stop
    · have hrest := ih (c + 1) (by omega) hfull
      rw [if_pos (by omega), show c + (n + 1) = c + 1 + n by omega, ← hrest]
      congr 1
      omega
    · rw [if_neg (by omega)]
      omega

/-- What `partial_obj_end` computes: the last chunk is left out. -/
theorem Holds.partialObjEnd_eq {os : List Interval} {cc c stop : Nat} (h : d.Holds os)
    (hdisj : os.Pairwise Interval.Disjoint) (hc : c < cc)
    (hstop : EntersTo os (d.chunkToAddr c) stop) :
    d.partialObjEnd cc c = min stop (d.chunkToAddr (cc - 1)) := by
  rw [partialObjEnd]
  rw [chunkToAddr_eq] at hstop
  simp only [chunkToAddr_eq]
  obtain ⟨o, ho, hstart, hend, rfl⟩ | ⟨hcross, rfl⟩ := hstop
  · rw [h.partialObjEndLoop_eq hdisj ho _ c hstart hend.le, show c + (cc - 1 - c) = cc - 1 by omega]
  · rw [Nat.min_eq_left (chunkBeg_mono d.regionStart (show c ≤ cc - 1 by omega))]
    cases cc - 1 - c with
    | zero => rfl
    | succ n =>
      have hnone : entering d.regionStart os c = 0 := by
        obtain ⟨p, hp, hstart, hend, -⟩ | ⟨-, hzero⟩ := @entering_cases d.regionStart os c hdisj
        · have hnot := hcross p hp
          omega
        · exact hzero
      rw [partialObjEndLoop, h.partialObjSize, hnone, if_neg (by decide), Nat.add_zero]

end ParallelCompactData

/-! ## Marked objects -/

/-- What the collector knows of an object: its place in the region, its alignment and size. -/
structure IsObject (ws : HeapWordSize) (regionStart : Nat) (o : Interval) : Prop where
  region : regionStart ≤ o.start
  pos : 0 < o.size
  start_aligned : (o.start - regionStart) % minObjAlignment ws = 0
  size_aligned : o.size % minObjAlignment ws = 0

/-- The bits of an object. -/
def bitsOf (ws : HeapWordSize) (regionStart : Nat) (o : Interval) : Interval :=
  ⟨(o.start - regionStart) / minObjAlignment ws, o.size / minObjAlignment ws⟩

variable {ws : HeapWordSize} {r : Nat} {o : Interval}

theorem bitsOf_disjoint {p : Interval}
    (ho : IsObject ws r o) (hp : IsObject ws r p) (h : o.Disjoint p) :
    (bitsOf ws r o).Disjoint (bitsOf ws r p) := by
  obtain ⟨hor, _, hos, hoz⟩ := ho
  obtain ⟨hpr, _, hps, hpz⟩ := hp
  unfold Interval.Disjoint Interval.stop bitsOf at *
  cases ws <;> simp only [minObjAlignment] at * <;> omega

theorem bitsOf_pos (ho : IsObject ws r o) : 0 < (bitsOf ws r o).size := by
  obtain ⟨_, hpos, _, hsize⟩ := ho
  unfold bitsOf
  cases ws <;> simp only [minObjAlignment] at * <;> omega

/-- The overlap of an object with an aligned range, counted in bits. -/
theorem overlap_bitsOf {a b : Nat} (ho : IsObject ws r o) (ha : r ≤ a) (hb : r ≤ b)
    (ha' : (a - r) % minObjAlignment ws = 0) (hb' : (b - r) % minObjAlignment ws = 0) :
    (bitsOf ws r o).overlap ((a - r) / minObjAlignment ws)
      ((b - r) / minObjAlignment ws) * minObjAlignment ws = o.overlap a b := by
  obtain ⟨hregion, _, hstart, hsize⟩ := ho
  unfold Interval.overlap Interval.stop bitsOf
  rw [Nat.sub_mul, ← Nat.mul_min_mul_right, ← Nat.mul_max_mul_right, Nat.add_mul]
  simp only [Nat.div_mul_cancel (Nat.dvd_of_mod_eq_zero ha'), Nat.div_mul_cancel (Nat.dvd_of_mod_eq_zero hb'),
    Nat.div_mul_cancel (Nat.dvd_of_mod_eq_zero hstart), Nat.div_mul_cancel (Nat.dvd_of_mod_eq_zero hsize)]
  omega

theorem covered_bitsOf {os : List Interval} {a b : Nat}
    (hobjs : ∀ o ∈ os, IsObject ws r o) (ha : r ≤ a) (hb : r ≤ b)
    (ha' : (a - r) % minObjAlignment ws = 0) (hb' : (b - r) % minObjAlignment ws = 0) :
    covered (os.map (bitsOf ws r)) ((a - r) / minObjAlignment ws)
      ((b - r) / minObjAlignment ws) * minObjAlignment ws = covered os a b := by
  induction os with
  | nil => simp
  | cons o os ih =>
    rw [map_cons, covered_cons, covered_cons, Nat.add_mul,
      overlap_bitsOf (hobjs o (by simp)) ha hb ha' hb', ih fun p hp => hobjs p (by simp [hp])]

/-- The state of marking after some objects. -/
structure MarkState.Marked (ws : HeapWordSize) (regionStart : Nat) (s : MarkState)
    (objs : List Interval) : Prop where
  wordSize : s.bitmap.wordSize = ws
  bitmap_start : s.bitmap.regionStart = regionStart
  summary_start : s.summary.regionStart = regionStart
  marks : s.bitmap.Marks (objs.map (bitsOf ws regionStart))
  holds : s.summary.Holds objs

namespace MarkState

theorem marked_clear (ws : HeapWordSize) (r : Nat) :
    Marked ws r (clear ws r) [] where
  wordSize := rfl
  bitmap_start := rfl
  summary_start := rfl
  marks := ⟨by simp [clear], by simp [clear], by simp, .nil⟩
  holds := ⟨fun _ => rfl, fun _ => rfl⟩

variable {ws : HeapWordSize} {r : Nat} {s : MarkState} {os : List Interval}

variable {o : Interval}

/-- The bits that `mark_obj` sets are those of the object. -/
theorem addrToBit_eq (h : Marked ws r s os) (ho : IsObject ws r o) :
    s.bitmap.addrToBit o.start = (bitsOf ws r o).start ∧
      s.bitmap.addrToBit (o.start + o.size - 1) + 1 = (bitsOf ws r o).stop := by
  obtain ⟨hregion, hpos, hstart, hsize⟩ := ho
  unfold ParMarkBitMap.addrToBit ParMarkBitMap.wordsToBits ParMarkBitMap.objGranularity
  rw [h.wordSize, h.bitmap_start]
  refine ⟨rfl, ?_⟩
  unfold bitsOf Interval.stop
  cases ws <;> simp only [minObjAlignment] at * <;> omega

/-- Marking a new object. -/
theorem Marked.markObj (h : Marked ws r s os)
    (hal : r % 512 = 0) (hobjs : ∀ p ∈ o :: os, IsObject ws r p)
    (hdisj : (o :: os).Pairwise Interval.Disjoint) : Marked ws r (s.markObj o) (o :: os) := by
  have ho := hobjs o (by simp)
  obtain ⟨hbeg, hend⟩ := addrToBit_eq h ho
  have hbits : ((o :: os).map (bitsOf ws r)).Pairwise Interval.Disjoint := by
    rw [pairwise_map]
    exact hdisj.imp_of_mem fun ha hb hab => bitsOf_disjoint (hobjs _ ha) (hobjs _ hb) hab
  have hnew : s.bitmap.begBits (bitsOf ws r o).start = false := by
    rw [Bool.eq_false_iff]
    intro hset
    obtain ⟨i, hi, hstart⟩ := (h.marks.beg _).mp hset
    have hpos := h.marks.pos i hi
    have hopos := bitsOf_pos ho
    have hdis := (pairwise_cons.mp hbits).1 i hi
    unfold Interval.Disjoint Interval.stop at hdis
    omega
  have hmark : s.bitmap.markObj o.start o.size = (true, { s.bitmap with
      begBits := fun b => b = (bitsOf ws r o).start || s.bitmap.begBits b
      endBits := fun b => b = s.bitmap.addrToBit (o.start + o.size - 1) ||
        s.bitmap.endBits b }) := by
    unfold ParMarkBitMap.markObj
    dsimp only
    rw [hbeg, hnew]
    rfl
  unfold MarkState.markObj
  rw [hmark]
  exact {
    wordSize := h.wordSize
    bitmap_start := h.bitmap_start
    summary_start := (ParallelCompactData.addObj_regionStart _ _ _).trans h.summary_start
    marks := {
      beg := fun b => by
        have hb : b = (bitsOf ws r o).start ↔ (bitsOf ws r o).start = b := eq_comm
        simp [h.marks.beg, hb]
      fin := fun b => by
        have hb : b = s.bitmap.addrToBit (o.start + o.size - 1) ↔
            (bitsOf ws r o).stop = b + 1 := by omega
        rw [map_cons]
        simp [Bool.or_eq_true, decide_eq_true_eq, mem_cons, exists_eq_or_imp, h.marks.fin, hb]
      pos := fun i hi => by
        obtain ⟨p, hp, rfl⟩ := mem_map.mp hi
        exact bitsOf_pos (hobjs p hp)
      disjoint := hbits }
    holds := h.holds.addObj (h.summary_start ▸ hal) (h.summary_start ▸ ho.region) ho.pos
      hdisj }

/-- Marking objects in some order. -/
theorem Marked.markAll (todo : List Interval) (h : Marked ws r s os)
    (hal : r % 512 = 0) (hobjs : ∀ p ∈ todo ++ os, IsObject ws r p)
    (hdisj : (todo ++ os).Pairwise Interval.Disjoint) :
    Marked ws r (s.markAll todo) (todo.reverse ++ os) := by
  induction todo generalizing s os with
  | nil => exact h
  | cons o todo ih =>
    have hperm : (todo ++ o :: os).Perm (o :: todo ++ os) := perm_middle
    have hstep : Marked ws r (s.markObj o) (o :: os) := by
      refine h.markObj hal (fun p hp => hobjs p ?_) ?_
      · rcases mem_cons.mp hp with rfl | hp
        · simp
        · simp [hp]
      · rw [cons_append, pairwise_cons, pairwise_append] at hdisj
        exact pairwise_cons.mpr
          ⟨fun p hp => hdisj.1 p (by simp [hp]), hdisj.2.2.1⟩
    have hrest := ih hstep (fun p hp => hobjs p (hperm.mem_iff.mp hp))
      (hperm.pairwise_iff (fun h => Std.Symm.symm _ _ h) |>.mpr hdisj)
    rw [reverse_cons, append_assoc]
    exact hrest

theorem le_wordAlignUp (bm : ParMarkBitMap) (bit : Nat) : bit ≤ bm.wordAlignUp bit := by
  unfold ParMarkBitMap.wordAlignUp HeapWordSize.bytes HeapWordSize.log
  cases bm.wordSize <;> dsimp only <;> omega

/-- The live words between a point that no object crosses and an object. -/
theorem Marked.liveWordsInRange_eq (h : Marked ws r s os)
    (hobjs : ∀ p ∈ os, IsObject ws r p) {a : Nat} (ha : r ≤ a)
    (ha' : (a - r) % minObjAlignment ws = 0) (hcross : Uncrossed os a)
    (ho : o ∈ os) (hle : a ≤ o.start) :
    s.bitmap.liveWordsInRange a o.start = some (covered os a o.start) := by
  have hoo := hobjs o ho
  have hbit : ∀ addr, s.bitmap.addrToBit addr = (addr - r) / minObjAlignment ws := by
    intro addr
    unfold ParMarkBitMap.addrToBit ParMarkBitMap.wordsToBits ParMarkBitMap.objGranularity
    rw [h.wordSize, h.bitmap_start]
  have hcross' : Uncrossed (os.map (bitsOf ws r))
      ((a - r) / minObjAlignment ws) := by
    intro i hi
    obtain ⟨p, hp, rfl⟩ := mem_map.mp hi
    have hap := hcross p hp
    obtain ⟨hpr, _, hps, hpz⟩ := hobjs p hp
    unfold bitsOf Interval.stop at *
    cases ws <;> simp only [minObjAlignment] at * <;> omega
  have hle' : (a - r) / minObjAlignment ws ≤
      (o.start - r) / minObjAlignment ws := Nat.div_le_div_right (by omega)
  have hend : ∃ i ∈ os.map (bitsOf ws r),
      i.start = (o.start - r) / minObjAlignment ws :=
    ⟨_, mem_map_of_mem ho, rfl⟩
  have hrange := le_wordAlignUp s.bitmap ((o.start - r) / minObjAlignment ws)
  obtain ⟨hk, hxk, hke, hzero⟩ := h.marks.findObjBeg_spec hcross' hle' hend hrange
  have hwords := covered_bitsOf hobjs ha hoo.region ha' hoo.start_aligned
  have hloop := h.marks.liveWordsLoop_eq hend hrange
    ((o.start - r) / minObjAlignment ws + 1) _ 0 hk hke (by omega)
  rw [covered_add _ hxk hke, hzero, Nat.zero_add] at hwords
  rw [ParMarkBitMap.liveWordsInRange]
  simp only [hbit, hloop, Nat.zero_add, Option.bind_eq_bind, Option.bind_some]
  rw [ParMarkBitMap.bitsToWords, ParMarkBitMap.objGranularity, h.wordSize, hwords]
  rfl

open ParallelCompactData

theorem entering_aligned (hal : r % 512 = 0) (hobjs : ∀ p ∈ os, IsObject ws r p) (c : Nat) :
    entering r os c % minObjAlignment ws = 0 := by
  refine Nat.mod_eq_zero_of_dvd (dvd_sum fun x hx => ?_)
  obtain ⟨p, hp, rfl⟩ := mem_map.mp hx
  obtain ⟨hregion, _, hstart, hsize⟩ := hobjs p hp
  split
  · unfold Interval.overlap Interval.stop chunkBeg
    cases ws <;> simp only [minObjAlignment] at * <;> omega
  · exact dvd_zero _

/-- The live words of the chunk of an object below the object, as they are computed. -/
theorem Marked.liveInChunk (h : Marked ws r s os) (hal : r % 512 = 0)
    (hobjs : ∀ p ∈ os, IsObject ws r p) (hdisj : os.Pairwise Interval.Disjoint)
    (ho : o ∈ os) {c : Nat} (hc : chunkBeg r c ≤ o.start) (hc' : o.start < chunkBeg r c + 512) :
    (s.bitmap.liveWordsInRange (chunkBeg r c + entering r os c) o.start).map (entering r os c + ·) =
      some (covered os (chunkBeg r c) o.start) := by
  have hregion : r ≤ chunkBeg r c := Nat.le_add_right _ _
  have hmod := entering_aligned hal hobjs c
  have hstart : (chunkBeg r c + entering r os c - r) %
      minObjAlignment ws = 0 := by
    unfold chunkBeg at *
    cases ws <;> simp only [minObjAlignment] at * <;> omega
  rcases @entering_cases r os c hdisj with
    ⟨p, hp, hpbeg, hpstop, hpart⟩ | ⟨hcross, hnone⟩
  · -- the object that enters the chunk ends below the object
    have hne : p ≠ o := by
      rintro rfl
      omega
    have hle : p.stop ≤ o.start := by
      have hstop : o.stop = o.start + o.size := rfl
      rcases hdisj.forall hp ho hne with hpo | hop <;> omega
    have hsearch : chunkBeg r c + entering r os c = p.stop := by
      rw [hpart]
      unfold Interval.overlap
      omega
    have hcross : Uncrossed os p.stop := uncrossed_stop hdisj hp
    have hcovered := covered_of_mem hdisj hp hpbeg.le hpstop.le le_rfl
    rw [hsearch] at hstart ⊢
    rw [h.liveWordsInRange_eq hobjs (by omega) hstart hcross ho hle,
      covered_add os hpstop.le hle, hcovered, Option.map_some]
    congr 2
    omega
  · rw [hnone, Nat.add_zero] at hstart ⊢
    rw [h.liveWordsInRange_eq hobjs hregion hstart hcross ho hc]
    simp

/-- The new address of an object, if the destination of its chunk is known. -/
theorem Marked.chunkCalcNewPointer_eq (h : Marked ws r s os)
    (hal : r % 512 = 0) (hobjs : ∀ p ∈ os, IsObject ws r p)
    (hdisj : os.Pairwise Interval.Disjoint) (ho : o ∈ os)
    {d : ParallelCompactData} (hsame : SameSizes s.summary d) {base target c : Nat}
    (hc : c = (o.start - r) / 512) (hbase : base ≤ chunkBeg r c)
    (hdest : (d.chunkData c).destination = target + covered os base (chunkBeg r c)) :
    d.chunkCalcNewPointer s.bitmap o.start = some (target + covered os base o.start) := by
  have hregion := (hobjs o ho).region
  have hbeg : chunkBeg r c ≤ o.start := by
    unfold chunkBeg
    omega
  have hend : o.start < chunkBeg r c + 512 := by
    unfold chunkBeg
    omega
  have hdown : chunkAlignDown o.start = chunkBeg r c := by
    unfold chunkAlignDown chunkBeg
    rw [chunkSize_eq]
    omega
  have hidx : d.addrToChunkIdx o.start = c := by
    rw [addrToChunkIdx_eq, hsame.regionStart, h.summary_start, hc]
  have hsize := hsame.dataSize c
  rw [h.holds.dataSize_eq hdisj, h.summary_start] at hsize
  have hentering : (d.chunkData c).partialObjSize.toNat = entering r os c := by
    rw [hsame.partialObjSize, h.holds.partialObjSize, h.summary_start]
  rw [covered_add os hbase hbeg, ← Nat.add_assoc, ← hdest]
  simp only [chunkCalcNewPointer, hidx, hdown, hentering]
  split
  next hfull =>
    -- all words of the chunk are live, those below the object too
    rw [hsize, chunkBeg_succ, chunkSize_eq, covered_add os hbeg hend.le] at hfull
    have hleft := covered_le hdisj (chunkBeg r c) (o.start - chunkBeg r c)
    have hright := covered_le hdisj o.start (chunkBeg r c + 512 - o.start)
    rw [Nat.add_sub_of_le hbeg] at hleft
    rw [Nat.add_sub_of_le hend.le] at hright
    show some _ = some _
    congr 2
    omega
  · have hlive := h.liveInChunk hal hobjs hdisj ho hbeg hend
    obtain ⟨live, hrange, hsum⟩ := Option.map_eq_some_iff.mp hlive
    rw [hrange, ← hsum]
    rfl

end MarkState

/-! ## A space -/

/-- A space of the heap, and all live objects of the heap in the order in which they are marked.
The space is aligned to chunks, and an object lies in it or outside of it. -/
structure LiveSpace (ws : HeapWordSize) where
  regionStart : Nat
  bottom : Nat
  top : Nat
  limit : Nat
  objects : List Interval
  regionStart_aligned : regionStart % ChunkSize = 0
  bottom_aligned : bottom % ChunkSize = 0
  limit_aligned : limit % ChunkSize = 0
  region_le : regionStart ≤ bottom
  bottom_le : bottom ≤ top
  top_le : top ≤ limit
  isObject : ∀ o ∈ objects, IsObject ws regionStart o
  disjoint : objects.Pairwise Interval.Disjoint
  placed : ∀ o ∈ objects, (bottom ≤ o.start ∧ o.stop ≤ top) ∨ o.stop ≤ bottom ∨ limit ≤ o.start

namespace LiveSpace

open ParallelCompactData

variable {ws : HeapWordSize} (sp : LiveSpace ws)

/-- The live objects of the space. -/
def live : List Interval := sp.objects.filter fun o => sp.bottom ≤ o.start ∧ o.start < sp.top

/-- The total size of the live objects of the space. -/
def liveSize : Nat := (sp.live.map Interval.size).sum

/-- The total size of the live objects of the space below an address. -/
def liveBelow (addr : Nat) : Nat :=
  ((sp.live.filter fun o => o.start < addr).map Interval.size).sum

/-- The state after marking. -/
def marked : MarkState := (MarkState.clear ws sp.regionStart).markAll sp.objects

theorem covered_reverse (os : List Interval) (a b : Nat) :
    covered os.reverse a b = covered os a b := by
  unfold covered
  rw [map_reverse, sum_reverse]

theorem uncrossed_outside {a : Nat} (ha : a ≤ sp.bottom ∧ sp.bottom ≤ a ∨ sp.top ≤ a ∧ a ≤ sp.limit) :
    Uncrossed sp.objects a := by
  intro o ho
  have hplaced := sp.placed o ho
  have hbottom := sp.bottom_le
  have htop := sp.top_le
  omega

variable {o : Interval}

theorem mem_live : o ∈ sp.live ↔ o ∈ sp.objects ∧ sp.bottom ≤ o.start ∧ o.start < sp.top := by
  simp [live]

theorem covered_space {a : Nat} (ha : sp.top ≤ a) (ha' : a ≤ sp.limit) :
    covered sp.objects sp.bottom a = sp.liveSize := by
  have hbottom := sp.bottom_le
  rw [covered_eq_sum (by omega) (sp.uncrossed_outside (.inl ⟨le_rfl, le_rfl⟩))
    (sp.uncrossed_outside (.inr ⟨ha, ha'⟩)), liveSize, live]
  congr 2
  refine filter_congr fun o ho => ?_
  have hpos := (sp.isObject o ho).pos
  have hplaced := sp.placed o ho
  unfold Interval.stop at hplaced
  simp only [decide_eq_decide]
  omega

theorem covered_below (ho : o ∈ sp.live) :
    covered sp.objects sp.bottom o.start = sp.liveBelow o.start := by
  obtain ⟨hmem, hbottom, htop⟩ := sp.mem_live.mp ho
  rw [covered_eq_sum hbottom (sp.uncrossed_outside (.inl ⟨le_rfl, le_rfl⟩))
    (uncrossed_start sp.disjoint hmem), liveBelow, live, filter_filter]
  congr 2
  refine filter_congr fun p hp => ?_
  simp only [← Bool.decide_and, decide_eq_decide]
  omega

theorem disjoint_reverse : sp.objects.reverse.Pairwise Interval.Disjoint :=
  pairwise_reverse.mpr (sp.disjoint.imp Or.symm)

theorem marked_marked : MarkState.Marked ws sp.regionStart sp.marked sp.objects.reverse := by
  have hmarked := (MarkState.marked_clear ws sp.regionStart).markAll sp.objects
    sp.regionStart_aligned (by simpa using sp.isObject) (by simpa using sp.disjoint)
  rwa [append_nil] at hmarked

/-- The summary of the space succeeds if the live data fits, and the destination of each chunk is
behind the live data below the chunk. -/
theorem summarize_eq {targetBeg te : Nat} (hfit : targetBeg + sp.liveSize ≤ te) :
    ∃ d, sp.marked.summary.summarize targetBeg te sp.bottom sp.top =
        some (d, targetBeg + sp.liveSize) ∧ SameSizes sp.marked.summary d ∧
      ∀ c, sp.bottom ≤ chunkBeg sp.regionStart c → chunkBeg sp.regionStart c < sp.top →
        (d.chunkData c).destination =
          targetBeg + covered sp.objects sp.bottom (chunkBeg sp.regionStart c) := by
  have h := sp.marked_marked
  have hregion := sp.regionStart_aligned
  have hbottom := sp.bottom_aligned
  have hlimit := sp.limit_aligned
  have hle := sp.region_le
  have hle' := sp.bottom_le
  have htop := sp.top_le
  rw [chunkSize_eq] at hregion hbottom hlimit
  -- the chunks of the space
  have hup : chunkAlignUp sp.top = (sp.top + 511) - (sp.top + 511) % 512 := rfl
  have hfirst : chunkBeg sp.regionStart ((sp.bottom - sp.regionStart) / 512) = sp.bottom := by
    unfold chunkBeg
    omega
  have hlast : chunkBeg sp.regionStart ((sp.bottom - sp.regionStart) / 512 +
      ((chunkAlignUp sp.top - sp.regionStart) / 512 - (sp.bottom - sp.regionStart) / 512)) =
      chunkAlignUp sp.top := by
    unfold chunkBeg
    omega
  have hspace : covered sp.objects.reverse sp.bottom (chunkAlignUp sp.top) = sp.liveSize := by
    rw [covered_reverse]
    exact sp.covered_space (by rw [hup]; omega) (by rw [hup]; omega)
  have hspec := summarizeLoop_spec h.holds sp.disjoint_reverse te
    ((chunkAlignUp sp.top - sp.regionStart) / 512 - (sp.bottom - sp.regionStart) / 512)
    ((sp.bottom - sp.regionStart) / 512) targetBeg sp.marked.summary (SameSizes.refl _)
  rw [h.summary_start, hfirst, hlast, hspace] at hspec
  obtain ⟨d, hrun, hsame, -, hdest⟩ := hspec hfit
  refine ⟨d, ?_, hsame, fun c hc hc' => ?_⟩
  · rw [summarize, addrToChunkIdx_eq, addrToChunkIdx_eq, h.summary_start]
    exact hrun
  rw [hdest c, covered_reverse]
  · unfold chunkBeg at hc
    omega
  · unfold chunkBeg at hc'
    omega

/-- Live objects below another one are whole below it. -/
theorem liveBelow_add_size_le {p : Interval} (ho : o ∈ sp.live) (hp : p ∈ sp.live)
    (hlt : p.start < o.start) : sp.liveBelow p.start + p.size ≤ sp.liveBelow o.start := by
  obtain ⟨hpmem, hpbottom, -⟩ := sp.mem_live.mp hp
  obtain ⟨homem, -, -⟩ := sp.mem_live.mp ho
  have hstop : p.stop ≤ o.start := by
    rcases uncrossed_start sp.disjoint homem p hpmem with h | h <;> omega
  have hpstop : p.stop = p.start + p.size := rfl
  have hown := covered_of_mem sp.disjoint hpmem le_rfl (by omega) le_rfl
  rw [← sp.covered_below ho, ← sp.covered_below hp, covered_add _ hpbottom hlt.le,
    covered_add _ (by omega : p.start ≤ p.stop) hstop]
  omega

theorem liveBelow_le (ho : o ∈ sp.live) : sp.bottom + sp.liveBelow o.start ≤ o.start := by
  obtain ⟨-, hbottom, -⟩ := sp.mem_live.mp ho
  have hle := covered_le sp.disjoint sp.bottom (o.start - sp.bottom)
  rw [Nat.add_sub_of_le hbottom, sp.covered_below ho] at hle
  omega

/-- After marking in any order and the summary of the space, the new address of each live object
is the target plus the live sizes below it. So the images of the objects are in order and do not
overlap, and if the space is its own target no object moves up. -/
theorem summarize_chunkCalcNewPointer (targetBeg targetEnd : Nat)
    (hfit : targetBeg + sp.liveSize ≤ targetEnd) :
    ∃ data, sp.marked.summary.summarize targetBeg targetEnd sp.bottom sp.top =
        some (data, targetBeg + sp.liveSize) ∧ ∀ o ∈ sp.live,
        data.chunkCalcNewPointer sp.marked.bitmap o.start =
            some (targetBeg + sp.liveBelow o.start) ∧ (∀ p ∈ sp.live, p.start < o.start →
            targetBeg + sp.liveBelow p.start + p.size ≤ targetBeg + sp.liveBelow o.start) ∧
          (targetBeg = sp.bottom → targetBeg + sp.liveBelow o.start ≤ o.start) := by
  obtain ⟨data, hrun, hsame, hdest⟩ := sp.summarize_eq hfit
  refine ⟨data, hrun, fun o ho => ⟨?_, fun p hp hlt => ?_, ?_⟩⟩
  · obtain ⟨hmem, hbottom, htop⟩ := sp.mem_live.mp ho
    have hregion := sp.regionStart_aligned
    have hbottom' := sp.bottom_aligned
    have hle := sp.region_le
    rw [chunkSize_eq] at hregion hbottom'
    have hbase : sp.bottom ≤ chunkBeg sp.regionStart ((o.start - sp.regionStart) / 512) := by
      unfold chunkBeg
      omega
    have hbelow : chunkBeg sp.regionStart ((o.start - sp.regionStart) / 512) < sp.top := by
      unfold chunkBeg
      omega
    have hnew := sp.marked_marked.chunkCalcNewPointer_eq hregion
      (fun p hp => sp.isObject p (mem_reverse.mp hp)) sp.disjoint_reverse
      (mem_reverse.mpr hmem) hsame rfl hbase
      (by rw [covered_reverse]; exact hdest _ hbase hbelow)
    rwa [covered_reverse, sp.covered_below ho] at hnew
  · have hbelow := sp.liveBelow_add_size_le ho hp hlt
    omega
  · rintro rfl
    exact sp.liveBelow_le ho

/-- Three live objects, marked out of order; the first spans three chunks. -/
def threeObjects : LiveSpace .eight where
  regionStart := 0
  bottom := 512
  top := 2060
  limit := 2560
  objects := [⟨1800, 3⟩, ⟨520, 1100⟩, ⟨1900, 160⟩]
  regionStart_aligned := rfl
  bottom_aligned := rfl
  limit_aligned := rfl
  region_le := by decide
  bottom_le := by decide
  top_le := by decide
  isObject := by
    intro o ho
    simp only [List.mem_cons, List.not_mem_nil, or_false] at ho
    rcases ho with rfl | rfl | rfl <;> exact ⟨by decide, by decide, rfl, rfl⟩
  disjoint := by simp [Interval.Disjoint, Interval.stop]
  placed := by
    intro o ho
    simp only [List.mem_cons, List.not_mem_nil, or_false] at ho
    rcases ho with rfl | rfl | rfl <;> exact .inl ⟨by decide, by decide⟩

theorem summarize_chunkCalcNewPointer_three :
    ∃ data, threeObjects.marked.summary.summarize 512 2560 512 2060 = some (data, 1775) ∧
      data.chunkCalcNewPointer threeObjects.marked.bitmap 1900 = some 1615 := by
  obtain ⟨data, hrun, hnew⟩ := threeObjects.summarize_chunkCalcNewPointer 512 2560 (by decide)
  exact ⟨data, hrun, (hnew ⟨1900, 160⟩ (by decide)).1⟩

theorem partialObjEnd_marked {cc c stop : Nat} (hc : c < cc)
    (hstop : EntersTo sp.objects (sp.marked.summary.chunkToAddr c) stop) :
    sp.marked.summary.partialObjEnd cc c = min stop (sp.marked.summary.chunkToAddr (cc - 1)) := by
  refine sp.marked_marked.holds.partialObjEnd_eq sp.disjoint_reverse hc ?_
  simpa only [EntersTo, Uncrossed, mem_reverse] using hstop

/-- `partial_obj_end` is the end of the object that enters a chunk exactly if the object does not enter
the last chunk. -/
theorem partialObjEnd_eq_iff (chunkCount c stop : Nat) (hc : c < chunkCount)
    (hstop : EntersTo sp.objects (sp.marked.summary.chunkToAddr c) stop) :
    sp.marked.summary.partialObjEnd chunkCount c = stop ↔ stop ≤ sp.marked.summary.chunkToAddr (chunkCount - 1) := by
  rw [sp.partialObjEnd_marked hc hstop, min_eq_left_iff]

theorem partialObjEnd_eq_iff_three : threeObjects.marked.summary.partialObjEnd 5 2 = 1620 :=
  (threeObjects.partialObjEnd_eq_iff 5 2 1620 (by decide) (.inl ⟨⟨520, 1100⟩, by decide⟩)).mpr (by decide)

/-- The same heap: the object at 1900 ends in the last one. -/
theorem partialObjEnd_lastChunk :
    EntersTo threeObjects.objects (threeObjects.marked.summary.chunkToAddr 4) 2060 ∧
      threeObjects.marked.summary.partialObjEnd 5 4 = 2048 := by
  have henters : EntersTo threeObjects.objects (threeObjects.marked.summary.chunkToAddr 4) 2060 :=
    .inl ⟨⟨1900, 160⟩, by decide⟩
  exact ⟨henters, (threeObjects.partialObjEnd_marked (by decide) henters).trans (by decide)⟩

end LiveSpace

end Hotspot.Gc
