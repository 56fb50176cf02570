-- SUMMARY: Sections of equal slots that are handed out from the front, apart and aligned.
import Mathlib

/-!
# Sections

Each section is a run of slots of one size. Slots are taken from the front of a section. If the
sections do not overlap, neither do the slots, in whatever order they are taken.
-/

namespace Hotspot

/-- The slots that are left. -/
structure Sections (ι : Type) where
  size : ι → Nat
  start : ι → Int
  count : ι → Nat

/-- A range of bytes. -/
structure ByteRange where
  start : Int
  size : Nat
deriving DecidableEq, Repr

def ByteRange.Apart (a b : ByteRange) : Prop :=
  a.start + a.size ≤ b.start ∨ b.start + b.size ≤ a.start

namespace Sections

variable {ι : Type} (S : Sections ι)

def stop (q : ι) : Int := S.start q + S.count q * S.size q

/-- The first slot of a section. -/
def slot (q : ι) : ByteRange := ⟨S.start q, S.size q⟩

/-- The sections between `lo` and `hi`, aligned and apart. -/
structure Placed (lo hi : Int) : Prop where
  aligned : ∀ q, 0 < S.count q → (S.size q : Int) ∣ S.start q
  bounds : ∀ q, 0 < S.count q → lo ≤ S.start q ∧ S.stop q ≤ hi
  apart : ∀ q q', q ≠ q' → 0 < S.count q → 0 < S.count q' → S.stop q ≤ S.start q' ∨
    S.stop q' ≤ S.start q

theorem Placed.mono {S : Sections ι} {lo lo' hi : Int} (h : S.Placed lo hi) (hle : lo' ≤ lo) :
    S.Placed lo' hi :=
  ⟨h.aligned, fun q hq => ⟨hle.trans (h.bounds q hq).1, (h.bounds q hq).2⟩, h.apart⟩

/-- Sections one after the other, between the bounds `b`. -/
theorem apart_of_order {S : Sections ι} (order : ι → Nat) (b : Nat → Int) (hb : Monotone b)
    (hinj : Function.Injective order)
    (hbounds : ∀ q, 0 < S.count q → b (order q) ≤ S.start q ∧ S.stop q ≤ b (order q + 1)) (q q' : ι)
    (hne : q ≠ q')
    (hq : 0 < S.count q) (hq' : 0 < S.count q') :
      S.stop q ≤ S.start q' ∨ S.stop q' ≤ S.start q := by
  have hbq := hbounds q hq
  have hbq' := hbounds q' hq'
  rcases Nat.lt_or_ge (order q) (order q') with hlt | hge
  · exact .inl (hbq.2.trans ((hb (Nat.succ_le_of_lt hlt)).trans hbq'.1))
  · have hlt : order q' < order q := lt_of_le_of_ne hge fun heq => hne (hinj heq.symm)
    exact .inr (hbq'.2.trans ((hb (Nat.succ_le_of_lt hlt)).trans hbq.1))

theorem slot_le_stop {S : Sections ι} {q : ι} (hq : 0 < S.count q) :
    S.start q + S.size q ≤ S.stop q := by
  obtain ⟨n, hn⟩ : ∃ n, S.count q = n + 1 := ⟨S.count q - 1, by omega⟩
  unfold stop
  rw [hn]
  push_cast
  have hnonneg : (0 : Int) ≤ n * S.size q :=
    mul_nonneg (Int.natCast_nonneg n) (Int.natCast_nonneg _)
  rw [add_mul, one_mul]
  omega

variable [DecidableEq ι]

/-- The sections without the first slot of `q`. -/
def next (q : ι) : Sections ι where
  size := S.size
  start := Function.update S.start q (S.start q + S.size q)
  count := Function.update S.count q (S.count q - 1)

variable {S} {lo hi : Int} {q : ι}

theorem stop_next (hq : 0 < S.count q) (q' : ι) : (S.next q).stop q' = S.stop q' := by
  unfold stop next
  dsimp only
  by_cases heq : q' = q
  · subst heq
    rw [Function.update_self, Function.update_self]
    obtain ⟨n, hn⟩ : ∃ n, S.count q' = n + 1 := ⟨S.count q' - 1, by omega⟩
    rw [hn]
    push_cast
    ring
  · rw [Function.update_of_ne heq, Function.update_of_ne heq]

theorem start_le_next (q q' : ι) : S.start q' ≤ (S.next q).start q' := by
  unfold next
  dsimp only
  by_cases heq : q' = q
  · subst heq
    rw [Function.update_self]
    omega
  · rw [Function.update_of_ne heq]

theorem count_next_le (q q' : ι) : (S.next q).count q' ≤ S.count q' := by
  unfold next
  dsimp only
  by_cases heq : q' = q
  · subst heq
    rw [Function.update_self]
    omega
  · rw [Function.update_of_ne heq]

theorem Placed.next (hS : S.Placed lo hi) (hq : 0 < S.count q) : (S.next q).Placed lo hi := by
  have hcount : ∀ {q'}, 0 < (S.next q).count q' → 0 < S.count q' :=
    fun h => h.trans_le (count_next_le q _)
  refine ⟨fun q' hq' => ?_, fun q' hq' => ?_, fun q₁ q₂ hne h₁ h₂ => ?_⟩
  · have haligned := hS.aligned q' (hcount hq')
    unfold Sections.next
    dsimp only
    by_cases heq : q' = q
    · subst heq
      rw [Function.update_self]
      exact Int.dvd_add haligned (dvd_refl _)
    · rw [Function.update_of_ne heq]
      exact haligned
  · obtain ⟨hlo, hhi⟩ := hS.bounds q' (hcount hq')
    rw [stop_next hq]
    exact ⟨hlo.trans (start_le_next q q'), hhi⟩
  · rw [stop_next hq, stop_next hq]
    have hle₁ := start_le_next (S := S) q q₁
    have hle₂ := start_le_next (S := S) q q₂
    rcases hS.apart q₁ q₂ hne (hcount h₁) (hcount h₂) with h | h
    · exact .inl (h.trans hle₂)
    · exact .inr (h.trans hle₁)

/-- The first slot does not overlap what is left. -/
theorem Placed.slot_apart (hS : S.Placed lo hi) (hq : 0 < S.count q) {q' : ι}
    (hq' : 0 < (S.next q).count q') :
    S.start q + S.size q ≤ (S.next q).start q' ∨ (S.next q).stop q' ≤ S.start q := by
  by_cases heq : q' = q
  · subst heq
    refine .inl ?_
    show _ ≤ Function.update S.start q' (S.start q' + S.size q') q'
    rw [Function.update_self]
  · have hpos := hq'.trans_le (count_next_le q q')
    have hle := slot_le_stop hq
    have hstart := start_le_next (S := S) q q'
    rw [stop_next hq]
    rcases hS.apart q q' (Ne.symm heq) hq hpos with h | h
    · exact .inl (by omega)
    · exact .inr h

/-- Slots have been taken: they are apart, aligned and in bounds, and do not overlap what is
left. -/
structure Taken (S : Sections ι) (lo hi : Int) (rs : List ByteRange) : Prop where
  placed : S.Placed lo hi
  pairwise : rs.Pairwise ByteRange.Apart
  aligned : ∀ r ∈ rs, (r.size : Int) ∣ r.start
  bounds : ∀ r ∈ rs, lo ≤ r.start ∧ r.start + r.size ≤ hi
  apart : ∀ r ∈ rs, ∀ q, 0 < S.count q → r.start + r.size ≤ S.start q ∨ S.stop q ≤ r.start

theorem Taken.next {rs : List ByteRange} (h : S.Taken lo hi rs) (hq : 0 < S.count q) :
    (S.next q).Taken lo hi (rs ++ [S.slot q]) := by
  have hslot := slot_le_stop hq
  have hbounds := h.placed.bounds q hq
  refine ⟨h.placed.next hq, ?_, ?_, ?_, ?_⟩
  · refine List.pairwise_append.mpr ⟨h.pairwise, List.pairwise_singleton _ _, fun r hr r' hr' => ?_⟩
    obtain rfl := List.mem_singleton.mp hr'
    rcases h.apart r hr q hq with hle | hle
    · exact .inl hle
    · exact .inr (hslot.trans hle)
  · refine List.forall_mem_append.mpr ⟨h.aligned,
      List.forall_mem_singleton.mpr (h.placed.aligned q hq)⟩
  · refine List.forall_mem_append.mpr ⟨h.bounds, List.forall_mem_singleton.mpr ⟨hbounds.1, ?_⟩⟩
    exact hslot.trans hbounds.2
  · refine List.forall_mem_append.mpr ⟨fun r hr q' hq' =>
      ?_, List.forall_mem_singleton.mpr fun q' hq' => ?_⟩
    · rw [stop_next hq]
      rcases h.apart r hr q' (hq'.trans_le (count_next_le q q')) with hle | hle
      · exact .inl (hle.trans (start_le_next q q'))
      · exact .inr hle
    · exact h.placed.slot_apart hq hq'

end Sections

end Hotspot
