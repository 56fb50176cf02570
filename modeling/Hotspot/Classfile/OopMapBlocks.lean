-- SUMMARY: The oop map blocks cover their references, as long as 16 bits are enough.
import Hotspot.Classfile.FieldOffsets

/-!
# Oop map blocks

A block covers the references from its offset on. Without truncation each step of the loop adds
the reference it is given to what is covered. With truncation the same blocks result if all blocks
but the first begin below 64K. The first block may begin anywhere if the last one of the superclass
is extended by it.
-/

namespace Hotspot.FieldLayout

open List Arithmetic OopMapBlock

open Int

variable {w : Nat}

def OopMapBlock.Covers (heapOopSize : Nat) (b : OopMapBlock) (o : Int) : Prop :=
  ∃ i : Nat, (i : Int) < b.length ∧ o = b.offset + i * heapOopSize

/-- The offsets where the collector looks for references. -/
def Covered (heapOopSize : Nat) (blocks : List OopMapBlock) (o : Int) : Prop := ∃ b ∈ blocks, b.Covers heapOopSize o

variable {bs : List OopMapBlock} {o : Int}

theorem covered_append {bs' : List OopMapBlock} :
    Covered w (bs ++ bs') o ↔ Covered w bs o ∨ Covered w bs' o := by
  simp [Covered, mem_append, or_and_right, exists_or]

variable {b : OopMapBlock}

theorem covered_cons : Covered w (b :: bs) o ↔ b.Covers w o ∨ Covered w bs o := by
  simp [Covered]

theorem not_covered_nil : ¬ Covered w [] o := by
  rintro ⟨b, hmem, -⟩
  cases hmem

/-- A block that is extended by `n` references at its end. -/
theorem covers_extend (w n : Nat) (hlen : 0 ≤ b.length) :
    OopMapBlock.Covers w { b with length := b.length + n } o ↔
      b.Covers w o ∨ OopMapBlock.Covers w ⟨b.offset + b.length * w, n⟩ o := by
  constructor
  · rintro ⟨i, hi, rfl⟩
    by_cases hlt : (i : Int) < b.length
    · exact .inl ⟨i, hlt, rfl⟩
    refine .inr ⟨i - b.length.toNat, ?_, ?_⟩
    · dsimp only at hi ⊢
      omega
    · have hcast : ((i - b.length.toNat : Nat) : Int) = i - b.length := by omega
      rw [hcast]
      ring
  · rintro (⟨i, hi, rfl⟩ | ⟨i, hi, rfl⟩)
    · refine ⟨i, ?_, rfl⟩
      dsimp only
      omega
    refine ⟨b.length.toNat + i, ?_, ?_⟩
    · dsimp only at hi ⊢
      omega
    · have hcast : ((b.length.toNat + i : Nat) : Int) = b.length + i := by omega
      rw [hcast]
      ring

theorem covers_single {o' : Int} : OopMapBlock.Covers w ⟨o', 1⟩ o ↔ o = o' := by
  constructor
  · rintro ⟨i, hi, rfl⟩
    obtain rfl : i = 0 := by
      dsimp only at hi
      omega
    simp
  · rintro rfl
    exact ⟨0, by simp, by simp⟩

theorem forall_mem_tail_concat {p : OopMapBlock → Prop} {l : OopMapBlock} :
    (∀ b ∈ (bs ++ [l]).tail, p b) ↔ (∀ b ∈ bs.tail, p b) ∧ (bs ≠ [] → p l) := by
  cases bs with
  | nil => simp
  | cons b bs => simp only [cons_append, tail_cons, forall_mem_append, forall_mem_singleton, ne_eq,
      reduceCtorEq, not_false_eq_true, forall_const]

theorem le_length_mul (w : Nat) (hlen : 0 < b.length) : (w : Int) ≤ b.length * w :=
  le_mul_of_one_le_left (natCast_nonneg _) hlen

/-! ## The loop, without truncation -/

namespace OopMaps

/-- What holds of the maps during the loop. -/
structure Valid (maps : OopMaps) : Prop where
  length : ∀ b ∈ maps.blocks, 0 < b.length ∧ 0 ≤ b.offset
  first : ∀ b ∈ maps.blocks.head?, 0 < maps.firstOopOffset ∧ b.offset = maps.firstOopOffset
  undefined : maps.blocks = [] → maps.firstOopOffset = 0

variable {m : OopMaps} {o : Int}

/-- The two things a reference can do. -/
theorem add_cases (ar : Arithmetic) (w : Nat) (m : OopMaps) (o : Int) :
    (∃ bs l, m.blocks = bs ++ [l] ∧ l.offset = ar.ushort (o - l.length * w) ∧
      m.add ar w o = { m with blocks := bs ++ [{ l with length := ar.ushort (l.length + 1) }] }) ∨
    (∀ bs l, m.blocks = bs ++ [l] → l.offset ≠ ar.ushort (o - l.length * w)) ∧
      m.add ar w o =
        { blocks := m.blocks ++ [⟨ar.ushort o, 1⟩]
          firstOopOffset := if m.firstOopOffset = 0 then o else m.firstOopOffset } := by
  rcases eq_nil_or_concat m.blocks with hnil | ⟨bs, l, hbs⟩
  · refine .inr ⟨fun bs l hbs => absurd (hnil.symm.trans hbs) (by simp), ?_⟩
    simp [add, hnil]
  rw [concat_eq_append] at hbs
  by_cases heq : l.offset = ar.ushort (o - l.length * w)
  · refine .inl ⟨bs, l, hbs, heq, ?_⟩
    simp [add, hbs, if_pos heq]
  refine .inr ⟨fun bs' last' hblocks' => ?_, ?_⟩
  · rw [hbs] at hblocks'
    obtain ⟨-, hlast⟩ := append_inj' hblocks' rfl
    cases hlast
    exact heq
  · simp [add, hbs, if_neg heq]

theorem Valid.add (h : m.Valid) (ho : 0 < o) : (m.add .exact w o).Valid := by
  rcases add_cases .exact w m o with ⟨bs, l, hbs, -, heq⟩ | ⟨-, heq⟩ <;> rw [heq]
  · have hlen := h.length
    have hfirst := h.first
    rw [hbs] at hlen hfirst
    refine ⟨forall_mem_append.mpr ⟨fun b hb => hlen b (mem_append_left _ hb), ?_⟩, ?_, ?_⟩
    · have hlast := hlen l (mem_append_right _ (mem_singleton_self _))
      refine forall_mem_singleton.mpr ?_
      simp only [exact_ushort]
      omega
    · cases bs with
      | nil => exact fun b hb => by cases hb; exact hfirst l rfl
      | cons b bs => exact fun b hb => hfirst b hb
    · intro hnil
      exact absurd hnil (by simp)
  · refine ⟨forall_mem_append.mpr ⟨h.length, forall_mem_singleton.mpr ⟨one_pos, ho.le⟩⟩, ?_, ?_⟩
    · cases hbs : m.blocks with
      | nil =>
        intro b hb
        cases hb
        simp only [h.undefined hbs, if_pos, exact_ushort]
        exact ⟨ho, trivial⟩
      | cons b' bs =>
        intro b hb
        cases hb
        have hfirst := h.first b' (by rw [hbs]; rfl)
        rw [if_neg (by omega)]
        exact hfirst
    · intro hnil
      exact absurd hnil (by simp)

theorem covered_add (h : m.Valid) {o' : Int} :
    Covered w (m.add .exact w o).blocks o' ↔ Covered w m.blocks o' ∨ o' = o := by
  rcases add_cases .exact w m o with ⟨bs, l, hbs, hoff, heq⟩ | ⟨-, heq⟩ <;> rw [heq]
  · have hlast : 0 < l.length := (h.length l (by simp [hbs])).1
    rw [exact_ushort] at hoff
    have hend : l.offset + l.length * w = o := by omega
    simp only [exact_ushort]
    rw [hbs, covered_append, covered_append, covered_cons, covered_cons, or_assoc, or_iff_left not_covered_nil,
      or_iff_left not_covered_nil]
    have hextend := covers_extend w 1 (o := o') hlast.le
    rw [hend, Nat.cast_one, covers_single] at hextend
    rw [hextend]
  · rw [covered_append, covered_cons, or_iff_left not_covered_nil, exact_ushort, covers_single]

variable (w) in
theorem foldl_add {os : List Int} (h : m.Valid) (hos : ∀ o ∈ os, 0 < o) :
    (os.foldl (add .exact w) m).Valid ∧ ∀ o, Covered w (os.foldl (add .exact w) m).blocks o ↔
        Covered w m.blocks o ∨ o ∈ os := by
  induction os generalizing m with
  | nil => exact ⟨h, fun o => by simp⟩
  | cons o os ih =>
    obtain ⟨ho, hos⟩ := forall_mem_cons.mp hos
    obtain ⟨hvalid, hcov⟩ := ih (h.add ho) hos
    refine ⟨hvalid, fun o' => ?_⟩
    rw [foldl_cons, hcov, covered_add h, mem_cons, or_assoc]

/-! ## The loop with 16 bits -/

end OopMaps

def OopMapBlock.trunc (b : OopMapBlock) : OopMapBlock := ⟨b.offset % 2 ^ 16, b.length % 2 ^ 16⟩

theorem OopMapBlock.trunc_eq (hoff : 0 ≤ b.offset ∧ b.offset < 2 ^ 16)
    (hlen : 0 ≤ b.length ∧ b.length < 2 ^ 16) : b.trunc = b := by
  obtain ⟨offset, length⟩ := b
  dsimp only at hoff hlen
  simp only [trunc, mk.injEq]
  omega

namespace OopMaps

def trunc (maps : OopMaps) : OopMaps := { maps with blocks := maps.blocks.map OopMapBlock.trunc }

/-- Nothing is lost, except that the first block may begin anywhere. -/
structure Narrow (maps : OopMaps) : Prop where
  length : ∀ b ∈ maps.blocks, b.length < 2 ^ 16
  offset : ∀ b ∈ maps.blocks.tail, b.offset < 2 ^ 16

variable {m : OopMaps} {o : Int}

theorem Narrow.of_add (h : (m.add .exact w o).Narrow) : m.Narrow := by
  obtain ⟨hlen, hoff⟩ := h
  rcases add_cases .exact w m o with ⟨bs, l, hbs, -, heq⟩ | ⟨-, heq⟩ <;> rw [heq] at hlen hoff
  · rw [forall_mem_append, forall_mem_singleton, exact_ushort] at hlen
    refine ⟨?_, ?_⟩
    · rw [hbs, forall_mem_append, forall_mem_singleton]
      have hlast : l.length + 1 < 2 ^ 16 := hlen.2
      exact ⟨hlen.1, by omega⟩
    have hoff := forall_mem_tail_concat.mp hoff
    rw [hbs]
    exact forall_mem_tail_concat.mpr hoff
  · exact ⟨fun b hb => hlen b (mem_append_left _ hb), (forall_mem_tail_concat.mp hoff).1⟩

variable {os : List Int}

theorem Narrow.of_foldl_add (h : (os.foldl (add .exact w) m).Narrow) : m.Narrow := by
  induction os generalizing m with
  | nil => exact h
  | cons o os ih => exact (ih h).of_add

/-- The blocks end at `stop` or before it. -/
def EndsBy (heapOopSize : Nat) (maps : OopMaps) (stop : Int) : Prop :=
  ∀ b ∈ maps.blocks, b.offset + b.length * heapOopSize ≤ stop

variable {stop : Int}

theorem EndsBy.mono {stop' : Int} (h : m.EndsBy w stop) (hle : stop ≤ stop') :
    m.EndsBy w stop' := fun b hb => (h b hb).trans hle

theorem EndsBy.add (h : m.EndsBy w o) : (m.add .exact w o).EndsBy w (o + w) := by
  have hmono := h.mono (show o ≤ o + w by omega)
  rcases add_cases .exact w m o with ⟨bs, l, hbs, hoff, heq⟩ | ⟨-, heq⟩ <;> rw [heq]
  · refine forall_mem_append.mpr ⟨fun b hb => hmono b (by simp [hbs, hb]), forall_mem_singleton.mpr ?_⟩
    rw [exact_ushort] at hoff
    simp only [exact_ushort, add_mul]
    omega
  · refine forall_mem_append.mpr ⟨hmono, forall_mem_singleton.mpr ?_⟩
    simp only [exact_ushort]
    omega

theorem trunc_add_extend {bs : List OopMapBlock} {l : OopMapBlock} (hbs : m.blocks = bs ++ [l])
    (hlen : 0 ≤ l.length ∧ l.length < 2 ^ 16) (hoff : l.offset = o - l.length * w) :
    m.trunc.add .machine w o =
      { m with blocks := bs.map OopMapBlock.trunc ++ [{ l.trunc with length := (l.length + 1) % 2 ^ 16 }] } := by
  have htest : l.offset % 2 ^ 16 = machine.ushort (o - l.length % 2 ^ 16 * w) := by
    rw [emod_eq_of_lt hlen.1 hlen.2, ← hoff]
    rfl
  have hsum : machine.ushort (l.length % 2 ^ 16 + 1) = (l.length + 1) % 2 ^ 16 :=
    emod_add_emod _ _ _
  simp only [add, trunc, hbs, map_append, map_cons, map_nil, getLast?_concat,
    OopMapBlock.trunc, dropLast_concat]
  rw [if_pos htest, hsum]

theorem add_machine (h : m.Valid) (hn : (m.add .exact w o).Narrow) (hend : m.EndsBy w o) :
    m.trunc.add .machine w o = (m.add .exact w o).trunc := by
  have hprev := hn.of_add
  rcases add_cases .exact w m o with ⟨bs, l, hbs, hoff, heq⟩ | ⟨hne, heq⟩
  · have hlast : l ∈ m.blocks := by simp [hbs]
    rw [trunc_add_extend hbs ⟨(h.length l hlast).1.le, hprev.length l hlast⟩ hoff, heq]
    simp [trunc, OopMapBlock.trunc, exact_ushort]
  rw [heq] at hn ⊢
  rcases eq_nil_or_concat m.blocks with hnil | ⟨bs, l, hbs⟩
  · simp only [add, trunc, hnil, map_nil, getLast?_nil]
    rfl
  rw [concat_eq_append] at hbs
  have hlast : l ∈ m.blocks := by simp [hbs]
  have hlen := hprev.length l hlast
  obtain ⟨hpos, hnonneg⟩ := h.length l hlast
  have hle := hend l hlast
  have hne := hne bs l hbs
  have ho : o < 2 ^ 16 := by
    refine hn.offset ⟨exact.ushort o, 1⟩ ?_
    rw [hbs]
    cases bs <;> simp
  -- both sides of the test are below 64K already
  have hmul : 0 ≤ l.length * w := mul_nonneg hpos.le (natCast_nonneg _)
  have htest : ¬ l.offset % 2 ^ 16 = machine.ushort (o - l.length % 2 ^ 16 * w) := by
    rw [emod_eq_of_lt hpos.le hlen, emod_eq_of_lt hnonneg (by omega)]
    show ¬ l.offset = (o - l.length * w) % 2 ^ 16
    rw [emod_eq_of_lt (by omega) (by omega)]
    exact hne
  simp only [add, trunc, hbs, map_append, map_cons, map_nil, getLast?_concat,
    OopMapBlock.trunc, exact_ushort]
  rw [if_neg htest]
  rfl

theorem foldl_add_machine (h : m.Valid) (hos : ∀ o ∈ os, 0 < o)
    (hn : (os.foldl (add .exact w) m).Narrow) (hend : m.EndsBy w stop)
    (hasc : Ascending w stop os) :
    os.foldl (add .machine w) m.trunc = (os.foldl (add .exact w) m).trunc := by
  induction os generalizing m stop with
  | nil => rfl
  | cons o os ih =>
    obtain ⟨ho, hos⟩ := forall_mem_cons.mp hos
    obtain ⟨hstop, hasc⟩ := hasc
    rw [foldl_cons] at hn ⊢
    rw [add_machine h hn.of_foldl_add (hend.mono hstop)]
    exact ih (h.add ho) hos hn (hend.mono hstop).add hasc

/-! ## What is lost -/

/-- The blocks with 16 bits have fallen behind: they end before the last reference, which is at `o`. This
also holds if the first block is given back its true offset. -/
structure Behind (heapOopSize : Nat) (maps : OopMaps) (o : Int) : Prop where
  large : 2 ^ 16 ≤ o
  nonempty : maps.blocks ≠ []
  firstOopOffset : 0 < maps.firstOopOffset
  length : ∀ b ∈ maps.blocks, 0 ≤ b.length
  first : ∀ b ∈ maps.blocks.head?, b.offset ≤ maps.firstOopOffset ∧ maps.firstOopOffset + b.length * heapOopSize ≤ o
  rest : ∀ b ∈ maps.blocks.tail, b.offset + b.length * heapOopSize ≤ o

theorem machine_ushort_le {x : Int} (hx : 0 ≤ x) : 0 ≤ machine.ushort x ∧ machine.ushort x ≤ x := by
  show 0 ≤ x % 2 ^ 16 ∧ x % 2 ^ 16 ≤ x
  omega

/-- The last block grows, but not beyond `o'`. -/
theorem Behind.extend {bs : List OopMapBlock} {l : OopMapBlock} {first o' n : Int}
    (h : Behind w ⟨bs ++ [l], first⟩ o) (hle : o ≤ o') (hn : 0 ≤ n)
    (hgrow : o + n * w ≤ o' + l.length * w) :
    Behind w ⟨bs ++ [{ l with length := n }], first⟩ o' := by
  obtain ⟨hlarge, -, hpos, hlen, hfirst, hrest⟩ := h
  refine ⟨by omega, by simp, hpos, ?_, ?_, ?_⟩
  · exact forall_mem_append.mpr ⟨fun b hb => hlen b (mem_append_left _ hb), forall_mem_singleton.mpr hn⟩
  · intro b hb
    cases bs with
    | nil | cons _ _ =>
      cases hb
      obtain ⟨hoff, hend⟩ := hfirst _ rfl
      exact ⟨hoff, by dsimp only at hend ⊢; omega⟩
  · obtain ⟨hrest, hlast⟩ := forall_mem_tail_concat.mp hrest
    refine forall_mem_tail_concat.mpr ⟨fun b hb => (hrest b hb).trans hle, fun hne => ?_⟩
    have := hlast hne
    dsimp only
    omega

/-- A new block ends before `o'` if its offset is truncated. -/
theorem Behind.append {o' : Int} (h : m.Behind w o) (hoop : w ≤ 8) (hle : o ≤ o') :
    Behind w ⟨m.blocks ++ [⟨machine.ushort o', 1⟩], m.firstOopOffset⟩ o' := by
  have hushort : machine.ushort o' + 1 * w ≤ o' := by
    have := h.large
    show o' % 2 ^ 16 + 1 * w ≤ o'
    omega
  obtain ⟨hlarge, hne, hpos, hlen, hfirst, hrest⟩ := h
  refine ⟨by omega, by simp, hpos, ?_, fun b hb => ?_, ?_⟩
  · exact forall_mem_append.mpr ⟨hlen, forall_mem_singleton.mpr Int.one_nonneg⟩
  · rw [head?_append_of_ne_nil _ hne] at hb
    obtain ⟨hoff, hend⟩ := hfirst b hb
    exact ⟨hoff, hend.trans hle⟩
  · exact forall_mem_tail_concat.mpr ⟨fun b hb => (hrest b hb).trans hle, fun _ => hushort⟩

theorem Behind.add {o' : Int} (h : m.Behind w o) (hoop : w ≤ 8) (hle : o + w ≤ o') :
    (m.add .machine w o').Behind w o' := by
  rcases add_cases .machine w m o' with ⟨bs, l, hbs, -, heq⟩ | ⟨-, heq⟩ <;> rw [heq]
  · have hlast := h.length l (by simp [hbs])
    obtain ⟨hnonneg, hushort⟩ := machine_ushort_le (x := l.length + 1) (by omega)
    have hmul := mul_le_mul_of_nonneg_right hushort (natCast_nonneg w)
    rw [add_mul, one_mul] at hmul
    refine Behind.extend (o := o) ?_ (by omega) hnonneg (by omega)
    rw [← hbs]
    exact h
  · rw [if_neg h.firstOopOffset.ne']
    exact h.append hoop (by omega)

theorem Behind.foldl_add (h : m.Behind w o) (hoop : w ≤ 8) (hasc : Ascending w (o + w) os) :
    ∃ o' ∈ o :: os, (os.foldl (OopMaps.add .machine w) m).Behind w o' := by
  induction os generalizing m o with
  | nil => exact ⟨o, mem_singleton_self o, h⟩
  | cons o' os ih =>
    obtain ⟨o'', hmem, hbehind⟩ := ih (h.add hoop hasc.1) hasc.2
    exact ⟨o'', mem_cons_of_mem _ hmem, hbehind⟩

/-- Each block ends where the next begins, or before. -/
def Sorted (heapOopSize : Nat) (maps : OopMaps) : Prop :=
  maps.blocks.Pairwise fun b b' : OopMapBlock => b.offset + b.length * heapOopSize ≤ b'.offset

theorem Sorted.add (h : m.Sorted w) (hend : m.EndsBy w o) : (m.add .exact w o).Sorted w := by
  rcases add_cases .exact w m o with ⟨bs, l, hbs, -, heq⟩ | ⟨-, heq⟩ <;> rw [heq]
  · rw [Sorted, hbs, pairwise_append] at h
    refine pairwise_append.mpr ⟨h.1, pairwise_singleton _ _, fun b hb b' hb' => ?_⟩
    obtain rfl := mem_singleton.mp hb'
    exact h.2.2 b hb l (mem_singleton_self _)
  · refine pairwise_append.mpr ⟨h, pairwise_singleton _ _, fun b hb b' hb' => ?_⟩
    obtain rfl := mem_singleton.mp hb'
    exact hend b hb

theorem le_offset_foldl_add (h : ∀ b ∈ m.blocks, stop ≤ b.offset) (hos : ∀ o ∈ os, stop ≤ o) :
    ∀ b ∈ (os.foldl (OopMaps.add .exact w) m).blocks, stop ≤ b.offset := by
  induction os generalizing m with
  | nil => exact h
  | cons o os ih =>
    obtain ⟨ho, hos⟩ := forall_mem_cons.mp hos
    refine ih ?_ hos
    rcases add_cases .exact w m o with ⟨bs, l, hbs, -, heq⟩ | ⟨-, heq⟩ <;> rw [heq]
    · rw [hbs, forall_mem_append, forall_mem_singleton] at h
      exact forall_mem_append.mpr ⟨h.1, forall_mem_singleton.mpr h.2⟩
    · exact forall_mem_append.mpr ⟨h, forall_mem_singleton.mpr ho⟩

theorem Sorted.foldl_add (h : m.Sorted w) (hend : m.EndsBy w stop)
    (hasc : Ascending w stop os) : (os.foldl (OopMaps.add .exact w) m).Sorted w := by
  induction os generalizing m stop with
  | nil => exact h
  | cons o os ih =>
    have hend := hend.mono hasc.1
    exact ih (h.add hend) hend.add hasc.2

theorem behind_trunc (h : m.Valid) (hend : m.EndsBy w o) (hne : m.blocks ≠ []) (ho : 2 ^ 16 ≤ o) :
    m.trunc.Behind w o := by
  have htrunc : ∀ b ∈ m.blocks, 0 ≤ b.trunc.length ∧ b.trunc.offset ≤ b.offset ∧
      b.trunc.length * w ≤ b.length * w := by
    intro b hb
    obtain ⟨hlen, hoff⟩ := h.length b hb
    have hle : b.length % 2 ^ 16 ≤ b.length := (machine_ushort_le hlen.le).2
    exact ⟨(machine_ushort_le hlen.le).1, (machine_ushort_le hoff).2,
      mul_le_mul_of_nonneg_right hle (natCast_nonneg _)⟩
  obtain ⟨first, rest, hbs⟩ := exists_cons_of_ne_nil hne
  have hfirst := h.first first (by simp [hbs])
  rw [EndsBy, hbs, forall_mem_cons] at hend
  rw [hbs, forall_mem_cons] at htrunc
  unfold trunc
  rw [hbs]
  refine ⟨ho, by simp, hfirst.1, ?_, ?_, ?_⟩
  · exact forall_mem_map.mpr (forall_mem_cons.mpr ⟨htrunc.1.1, fun b hb => (htrunc.2 b hb).1⟩)
  · intro b hb
    cases hb
    have := htrunc.1
    dsimp only
    omega
  · refine forall_mem_map.mpr fun b hb => ?_
    have := htrunc.2 b hb
    have := hend.2 b hb
    omega

/-- The step at which something is lost. -/
theorem behind_of_not_narrow (hoop : 4 ≤ w ∧ w ≤ 8) (h : m.Valid) (hso : m.Sorted w)
    (hend : m.EndsBy w o) (hprev : m.Narrow) (hn : ¬ (m.add .exact w o).Narrow) :
    (m.trunc.add .machine w o).Behind w o := by
  rcases add_cases .exact w m o with ⟨bs, l, hbs, hoff, heq⟩ | ⟨hne, heq⟩ <;> rw [heq] at hn
  · have hlast : l ∈ m.blocks := by simp [hbs]
    have hlen := hprev.length l hlast
    obtain ⟨hpos, hnonneg⟩ := h.length l hlast
    rw [exact_ushort] at hoff
    -- the length of the block overflows to 0
    have hfull : l.length = 2 ^ 16 - 1 := by
      by_contra hlt
      refine hn ⟨?_, ?_⟩
      · refine forall_mem_append.mpr ⟨fun b hb => hprev.length b (by simp [hbs, hb]), forall_mem_singleton.mpr ?_⟩
        simp only [exact_ushort]
        omega
      have hoffsets := hprev.offset
      rw [hbs] at hoffsets
      have hoffsets := forall_mem_tail_concat.mp hoffsets
      exact forall_mem_tail_concat.mpr hoffsets
    have ho : 2 ^ 16 ≤ o := by
      rw [hfull] at hoff
      omega
    have hbehind := behind_trunc h hend (by simp [hbs]) ho
    rw [trunc, hbs, map_append, map_singleton] at hbehind
    rw [trunc_add_extend hbs ⟨hpos.le, hlen⟩ hoff, hfull]
    have htrunc : l.trunc.length = l.length := emod_eq_of_lt hpos.le hlen
    refine hbehind.extend le_rfl (by omega) ?_
    rw [htrunc, hfull]
    omega
  · have hwide : m.blocks ≠ [] ∧ 2 ^ 16 ≤ o := by
      by_contra hcond
      refine hn ⟨forall_mem_append.mpr ⟨hprev.length, forall_mem_singleton.mpr (show (1 : Int) < 2 ^ 16 by omega)⟩, ?_⟩
      exact forall_mem_tail_concat.mpr ⟨hprev.offset, fun hne' => not_le.mp fun hle => hcond ⟨hne', hle⟩⟩
    rcases add_cases .machine w m.trunc o with ⟨bs', last', hblocks', hoffset', -⟩ | ⟨-, heq'⟩
    · -- the last block is extended although it ends at least 64K earlier
      obtain ⟨bs, l, hbs⟩ : ∃ bs l, m.blocks = bs ++ [l] :=
        ⟨_, _, (dropLast_append_getLast hwide.1).symm⟩
      have hlast : l ∈ m.blocks := by simp [hbs]
      have hlen := hprev.length l hlast
      obtain ⟨hpos, hnonneg⟩ := h.length l hlast
      have hlast_end := hend l hlast
      have hne := hne bs l hbs
      rw [trunc, hbs, map_append, map_singleton] at hblocks'
      obtain ⟨-, heq_last⟩ := append_inj' hblocks' rfl
      cases heq_last
      have hmod : l.offset % 2 ^ 16 = (o - l.length % 2 ^ 16 * w) % 2 ^ 16 := hoffset'
      rw [emod_eq_of_lt hpos.le hlen] at hmod
      rw [exact_ushort] at hne
      have hmul := le_length_mul w hpos
      have hend' : m.EndsBy w (o - w) := by
        rw [Sorted, hbs, pairwise_append] at hso
        rw [EndsBy, hbs, forall_mem_append, forall_mem_singleton]
        refine ⟨fun b hb => ?_, by omega⟩
        have := hso.2.2 b hb l (mem_singleton_self _)
        omega
      exact (behind_trunc h hend' hwide.1 (by omega)).add hoop.2 (by omega)
    · have hbehind := behind_trunc h hend hwide.1 hwide.2
      rw [heq', if_neg hbehind.firstOopOffset.ne']
      exact hbehind.append hoop.2 le_rfl

theorem foldl_add_narrow_or_behind (hoop : 4 ≤ w ∧ w ≤ 8) (h : m.Valid)
    (hso : m.Sorted w) (hend : m.EndsBy w stop) (hprev : m.Narrow)
    (hos : ∀ o ∈ os, 0 < o) (hasc : Ascending w stop os) : (os.foldl (add .exact w) m).Narrow ∨
      ∃ o ∈ os, (os.foldl (add .machine w) m.trunc).Behind w o := by
  induction os generalizing m stop with
  | nil => exact .inl hprev
  | cons o os ih =>
    obtain ⟨ho, hos⟩ := forall_mem_cons.mp hos
    have hend := hend.mono hasc.1
    rw [foldl_cons, foldl_cons]
    by_cases hn : (m.add .exact w o).Narrow
    · rw [add_machine h hn hend]
      refine (ih (h.add ho) (hso.add hend) hend.add hn hos hasc.2).imp_right ?_
      rintro ⟨o', hmem, hbehind⟩
      exact ⟨o', mem_cons_of_mem _ hmem, hbehind⟩
    · exact .inr ((behind_of_not_narrow hoop h hso hend hprev hn).foldl_add hoop.2 hasc.2)

end OopMaps

/-! ## The maps of the superclass -/

variable {sup : List OopMapBlock} {m : OopMaps}

/-- The maps of a class, from those of its superclass and its own. -/
abbrev klassMaps (ar : Arithmetic) (heapOopSize : Nat) (superMaps : List OopMapBlock) (maps : OopMaps) :=
  fillOopMaps ar (computeOopMapSize heapOopSize superMaps maps) superMaps maps

/-- The maps of the class are merged into those of the superclass, or follow them. -/
theorem fillOopMaps_cases (ar : Arithmetic) (w : Nat) (sup : List OopMapBlock) (m : OopMaps) :
    (∃ bs l first rest, sup = bs ++ [l] ∧ m.blocks = first :: rest ∧
      l.offset + l.length * w = m.firstOopOffset ∧
      klassMaps ar w sup m =
        bs ++ { l with length := ar.ushort (l.length + first.length) } :: rest) ∨
    mergesMaps w sup m = false ∧
      klassMaps ar w sup m = sup ++ m.blocks := by
  rcases eq_nil_or_concat sup with hnil | ⟨bs, l, hsuper⟩
  · subst hnil
    refine .inr ⟨rfl, ?_⟩
    cases hbs : m.blocks <;> simp [fillOopMaps, hbs]
  rw [concat_eq_append] at hsuper
  subst hsuper
  cases hbs : m.blocks with
  | nil => exact .inr ⟨by simp [mergesMaps, hbs], by simp [fillOopMaps, hbs]⟩
  | cons first rest =>
    by_cases hmerge : l.offset + l.length * w = m.firstOopOffset
    · refine .inl ⟨bs, l, first, rest, rfl, rfl, hmerge, ?_⟩
      simp [fillOopMaps, computeOopMapSize, mergesMaps, hbs, hmerge]
    · refine .inr ⟨by simp [mergesMaps, hbs, hmerge], ?_⟩
      simp [fillOopMaps, computeOopMapSize, mergesMaps, hbs, hmerge]

theorem covered_fillOopMaps (hsuper : ∀ b ∈ sup, 0 < b.length) (h : m.Valid) :
    Covered w (klassMaps .exact w sup m) o ↔ Covered w sup o ∨ Covered w m.blocks o := by
  rcases fillOopMaps_cases .exact w sup m with
    ⟨bs, l, first, rest, rfl, hbs, hend, heq⟩ | ⟨-, heq⟩ <;> rw [heq]
  · have hlast := hsuper l (by simp)
    have hfirst := (h.length first (by simp [hbs])).1
    have hoff := (h.first first (by simp [hbs])).2
    obtain ⟨n, hn⟩ : ∃ n : Nat, first.length = n := ⟨first.length.toNat, by omega⟩
    have hextend := covers_extend w n (o := o) hlast.le
    have hfirst_eq : (⟨l.offset + l.length * w, n⟩ : OopMapBlock) = first := by
      rw [hend, ← hoff, ← hn]
    rw [hfirst_eq, ← hn] at hextend
    rw [hbs, covered_append, covered_append, covered_cons, covered_cons, covered_cons, or_iff_left not_covered_nil,
      exact_ushort, hextend, or_assoc, or_assoc]
  · exact covered_append

theorem map_trunc_eq (hvalid : ∀ b ∈ bs, 0 < b.length ∧ 0 ≤ b.offset)
    (hbs : ∀ b ∈ bs, b.offset < 2 ^ 16 ∧ b.length < 2 ^ 16) : bs.map trunc = bs := by
  refine (map_congr_left fun b hb => ?_).trans (map_id _)
  obtain ⟨hlen, hoff⟩ := hvalid b hb
  exact trunc_eq ⟨hoff, (hbs b hb).1⟩ ⟨hlen.le, (hbs b hb).2⟩

variable {rest : List OopMapBlock} {first : OopMapBlock}

theorem fillOopMaps_trunc_merge {l : OopMapBlock}
    (hbs : m.blocks = first :: rest) (hend : l.offset + l.length * w = m.firstOopOffset) :
    klassMaps .machine w (bs ++ [l]) m.trunc =
      bs ++ { l with length := machine.ushort (l.length + first.length % 2 ^ 16) } ::
        rest.map trunc := by
  simp [fillOopMaps, computeOopMapSize, mergesMaps, OopMaps.trunc, hbs, hend, trunc]

theorem fillOopMaps_trunc_append (hmerge : mergesMaps w sup m = false) :
    klassMaps .machine w sup m.trunc = sup ++ m.blocks.map trunc := by
  rcases fillOopMaps_cases .machine w sup m.trunc with
    ⟨bs, l, first, rest, rfl, hbs, hend, -⟩ | ⟨-, heq⟩
  · obtain ⟨first', rest', hblocks', -⟩ := map_eq_cons_iff.mp hbs
    have hend : l.offset + l.length * w = m.firstOopOffset := hend
    simp [mergesMaps, hblocks', hend] at hmerge
  · exact heq

/-- If no block of the result is truncated, nothing that matters is truncated on the way. -/
theorem fillOopMaps_machine (hsuper : ∀ b ∈ sup, 0 < b.length) (h : m.Valid)
    (hfits : ∀ b ∈ klassMaps .exact w sup m, b.offset < 2 ^ 16 ∧ b.length < 2 ^ 16) : m.Narrow ∧
      klassMaps .machine w sup m.trunc = klassMaps .exact w sup m := by
  rcases fillOopMaps_cases .exact w sup m with
    ⟨bs, l, first, rest, rfl, hbs, hend, heq⟩ | ⟨hmerge, heq⟩ <;> rw [heq] at hfits ⊢
  · rw [forall_mem_append, forall_mem_cons, exact_ushort] at hfits
    obtain ⟨-, ⟨-, hmerged⟩, hrest⟩ := hfits
    have hmerged : l.length + first.length < 2 ^ 16 := hmerged
    have hlast := hsuper l (by simp)
    have hlen := h.length
    rw [hbs, forall_mem_cons] at hlen
    obtain ⟨⟨hfirst, -⟩, hvalid⟩ := hlen
    refine ⟨⟨?_, ?_⟩, ?_⟩
    · rw [hbs, forall_mem_cons]
      exact ⟨by omega, fun b hb => (hrest b hb).2⟩
    · rw [hbs]
      exact fun b hb => (hrest b hb).1
    have htrunc : rest.map trunc = rest := map_trunc_eq hvalid hrest
    have hsum : machine.ushort (l.length + first.length % 2 ^ 16) = l.length + first.length := by
      rw [emod_eq_of_lt hfirst.le (by omega)]
      exact emod_eq_of_lt (by omega) hmerged
    rw [fillOopMaps_trunc_merge hbs hend, htrunc, hsum, exact_ushort]
  · rw [forall_mem_append] at hfits
    refine ⟨⟨fun b hb => (hfits.2 b hb).2, fun b hb => (hfits.2 b (mem_of_mem_tail hb)).1⟩, ?_⟩
    rw [fillOopMaps_trunc_append hmerge, map_trunc_eq h.length hfits.2]

theorem not_covered_of_endsBy (hoop : 0 < w)
    (hend : ∀ b ∈ bs, b.offset + b.length * w ≤ o) : ¬ Covered w bs o := by
  rintro ⟨b, hb, i, hi, rfl⟩
  have hle := hend b hb
  have hlt : (i : Int) * w < b.length * w := mul_lt_mul_of_pos_right hi (by omega)
  omega

theorem not_covered_of_lt (hlt : ∀ b ∈ bs, o < b.offset) : ¬ Covered w bs o := by
  rintro ⟨b, hb, i, hi, rfl⟩
  have := hlt b hb
  have : (0 : Int) ≤ i * w := mul_nonneg (natCast_nonneg _) (natCast_nonneg _)
  omega

/-- What is known about the maps of a superclass whose fields end at `stop`. -/
structure SuperMaps (heapOopSize : Nat) (superMaps : List OopMapBlock) (stop : Int) : Prop where
  nonneg : ∀ b ∈ superMaps, 0 < b.length ∧ 0 ≤ b.offset
  small : ∀ b ∈ superMaps, b.offset < 2 ^ 16 ∧ b.length < 2 ^ 16
  endsBy : ∀ b ∈ superMaps, b.offset + b.length * heapOopSize ≤ stop

variable {stop : Int}

/-- Blocks that have fallen behind do not cover the last reference. -/
theorem OopMaps.Behind.not_covered (hoop : 0 < w) (hsuper : SuperMaps w sup stop)
    (h : m.Behind w o) (hstop : stop ≤ o) : ¬ Covered w (klassMaps .machine w sup m) o := by
  have hends : ∀ b ∈ sup, b.offset + b.length * w ≤ o := fun b hb => (hsuper.endsBy b hb).trans hstop
  rcases fillOopMaps_cases .machine w sup m with
    ⟨bs, l, first, rest, rfl, hbs, hend, heq⟩ | ⟨-, heq⟩ <;> rw [heq]
  · rw [forall_mem_append, forall_mem_singleton] at hends
    have hlast := (hsuper.nonneg l (by simp)).1
    have hlen := h.length first (by simp [hbs])
    have hfirst := (h.first first (by simp [hbs])).2
    have hrest := h.rest
    rw [hbs] at hrest
    have hle := (machine_ushort_le (x := l.length + first.length) (by omega)).2
    have hmul := mul_le_mul_of_nonneg_right hle (natCast_nonneg w)
    rw [add_mul] at hmul
    refine not_covered_of_endsBy hoop (forall_mem_append.mpr ⟨hends.1, forall_mem_cons.mpr ⟨?_, hrest⟩⟩)
    dsimp only
    omega
  · refine not_covered_of_endsBy hoop (forall_mem_append.mpr ⟨hends, ?_⟩)
    obtain ⟨first, rest, hbs⟩ := exists_cons_of_ne_nil h.nonempty
    have hfirst := h.first first (by simp [hbs])
    have hrest := h.rest
    rw [hbs] at hrest ⊢
    exact forall_mem_cons.mpr ⟨by omega, hrest⟩

theorem covers_last (hlen : 0 < b.length) : b.Covers w (b.offset + b.length * w - w) := by
  obtain ⟨n, hn⟩ : ∃ n : Nat, b.length = n + 1 := ⟨(b.length - 1).toNat, by omega⟩
  refine ⟨n, by omega, ?_⟩
  rw [hn]
  ring

/-- The last reference of a block that is truncated when it is merged is not covered. -/
theorem length_lt_of_covered {l : OopMapBlock} (hoop : 0 < w)
    (hsuper : SuperMaps w (bs ++ [l]) stop) (h : m.Valid) (hso : m.Sorted w)
    (hn : m.Narrow) (hstop : stop ≤ first.offset) (hbs : m.blocks = first :: rest)
    (hend : l.offset + l.length * w = m.firstOopOffset)
    (hcov : Covered w (klassMaps .machine w (bs ++ [l]) m.trunc)
      (first.offset + first.length * w - w)) : l.length + first.length < 2 ^ 16 := by
  obtain ⟨hlengths, hoffsets⟩ := hn
  have hvalid := h.length
  rw [hbs, forall_mem_cons] at hlengths hvalid
  rw [hbs] at hoffsets
  rw [OopMaps.Sorted, hbs, pairwise_cons] at hso
  have hlast_small := (hsuper.small l (by simp)).2
  have hoff := (h.first first (by simp [hbs])).2
  have hmul := le_length_mul w hvalid.1.1
  by_contra hge
  have hmod : machine.ushort (l.length + first.length) = l.length + first.length - 2 ^ 16 := by
    show (l.length + first.length) % 2 ^ 16 = _
    omega
  rw [fillOopMaps_trunc_merge hbs hend, emod_eq_of_lt hvalid.1.1.le hlengths.1, hmod,
    map_trunc_eq hvalid.2 fun b hb => ⟨hoffsets b hb, hlengths.2 b hb⟩, covered_append, covered_cons] at hcov
  rcases hcov with hcov | ⟨i, hi, heq⟩ | hcov
  · refine not_covered_of_endsBy hoop (fun b hb => ?_) hcov
    have := hsuper.endsBy b (by simp [hb])
    omega
  · have hlt : (i : Int) * w < (l.length + first.length - 2 ^ 16) * w :=
      mul_lt_mul_of_pos_right hi (by omega)
    rw [sub_mul, add_mul] at hlt
    dsimp only at heq
    omega
  · refine not_covered_of_lt (fun b hb => ?_) hcov
    have := hso.1 b hb
    omega

/-- The last reference of a first block that begins above 64K is not covered if it is not merged. -/
theorem offset_lt_of_covered (hoop : 0 < w ∧ w ≤ 8) (hsuper : SuperMaps w sup stop) (h : m.Valid)
    (hso : m.Sorted w) (hn : m.Narrow) (hstop : stop ≤ first.offset)
    (hbs : m.blocks = first :: rest) (hmerge : mergesMaps w sup m = false)
    (hcov : Covered w (klassMaps .machine w sup m.trunc)
      (first.offset + first.length * w - w)) : first.offset < 2 ^ 16 := by
  obtain ⟨hlengths, hoffsets⟩ := hn
  have hvalid := h.length
  rw [hbs, forall_mem_cons] at hlengths hvalid
  rw [hbs] at hoffsets
  rw [OopMaps.Sorted, hbs, pairwise_cons] at hso
  have hmul := le_length_mul w hvalid.1.1
  by_contra hge
  rw [fillOopMaps_trunc_append hmerge, hbs, covered_append, map_cons, covered_cons] at hcov
  rcases hcov with hcov | ⟨i, hi, heq⟩ | ⟨b, hb, -⟩
  · refine not_covered_of_endsBy hoop.1 (fun b hb => ?_) hcov
    have := hsuper.endsBy b hb
    omega
  · have hi : (i : Int) < first.length := hi.trans_le (OopMaps.machine_ushort_le hvalid.1.1.le).2
    have hlt : (i : Int) * w < first.length * w := mul_lt_mul_of_pos_right hi (by omega)
    have heq : first.offset + first.length * w - w = first.offset % 2 ^ 16 + i * w := heq
    omega
  · -- the other blocks begin behind the first one
    obtain ⟨b, hb, -⟩ := mem_map.mp hb
    have := hso.1 b hb
    have := hoffsets b hb
    omega

theorem fits_of_covered (hoop : 0 < w ∧ w ≤ 8) (hsuper : SuperMaps w sup stop)
    (h : m.Valid) (hso : m.Sorted w) (hn : m.Narrow) (hstop : ∀ b ∈ m.blocks, stop ≤ b.offset)
    (hcov : ∀ o, Covered w m.blocks o → Covered w (klassMaps .machine w sup m.trunc) o) :
    ∀ b ∈ klassMaps .exact w sup m, b.offset < 2 ^ 16 ∧ b.length < 2 ^ 16 := by
  have hlast : ∀ b ∈ m.blocks, Covered w m.blocks (b.offset + b.length * w - w) :=
    fun b hb => ⟨b, hb, covers_last (h.length b hb).1⟩
  rcases fillOopMaps_cases .exact w sup m with
    ⟨bs, l, first, rest, rfl, hbs, hend, heq⟩ | ⟨hmerge, heq⟩ <;> rw [heq]
  · have hfirst : first ∈ m.blocks := by simp [hbs]
    have hlt := length_lt_of_covered hoop.1 hsuper h hso hn (hstop first hfirst) hbs hend
      (hcov _ (hlast first hfirst))
    have hsmall := hsuper.small
    rw [forall_mem_append, forall_mem_singleton] at hsmall
    refine forall_mem_append.mpr ⟨hsmall.1, forall_mem_cons.mpr ⟨⟨hsmall.2.1, hlt⟩, fun b hb => ?_⟩⟩
    exact ⟨hn.offset b (by simp [hbs, hb]), hn.length b (by simp [hbs, hb])⟩
  · refine forall_mem_append.mpr ⟨hsuper.small, fun b hb => ⟨?_, hn.length b hb⟩⟩
    cases hbs : m.blocks with
    | nil => simp [hbs] at hb
    | cons first rest =>
      have hfirst : first ∈ m.blocks := by simp [hbs]
      rw [hbs] at hb
      rcases mem_cons.mp hb with rfl | hb
      · exact offset_lt_of_covered hoop hsuper h hso hn (hstop _ hfirst) hbs hmerge (hcov _ (hlast _ hfirst))
      · exact hn.offset b (by simp [hbs, hb])

end Hotspot.FieldLayout
