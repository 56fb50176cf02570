-- SUMMARY: Lists of integer ranges that tile an interval, and how splits keep it.
import Mathlib

/-!
# Tilings

A list of non-empty integer ranges tiles an interval if each range starts where the one before
it stops. Every point of the interval is then in just one range.
-/

namespace Hotspot

variable {ρ : Type}

/-- The ranges, in order, make up the interval from `a` to `b`, both included. -/
def Tiles (lo hi : ρ → Int) : List ρ → Int → Int → Prop
  | [], a, b => a = b + 1
  | r :: rs, a, b => lo r = a ∧ a ≤ hi r ∧ Tiles lo hi rs (hi r + 1) b

/-- The first range that a point is in. -/
def rangeOf (lo hi : ρ → Int) (rs : List ρ) (k : Int) : Option ρ :=
  rs.find? fun r => lo r ≤ k ∧ k ≤ hi r

namespace Tiles

variable {lo hi : ρ → Int} {rs rs' : List ρ} {a b : Int}

theorem le_succ (h : Tiles lo hi rs a b) : a ≤ b + 1 := by
  induction rs generalizing a with
  | nil => exact h.le
  | cons r rs ih =>
    have := ih h.2.2
    have := h.2.1
    omega

theorem append_iff : Tiles lo hi (rs ++ rs') a b ↔
    ∃ m, Tiles lo hi rs a m ∧ Tiles lo hi rs' (m + 1) b := by
  induction rs generalizing a with
  | nil =>
    constructor
    · intro h
      refine ⟨a - 1, ?_, ?_⟩
      · show a = a - 1 + 1
        omega
      · rwa [sub_add_cancel]
    · rintro ⟨m, hm, h⟩
      have hm : a = m + 1 := hm
      rwa [hm]
  | cons r rs ih =>
    constructor
    · rintro ⟨hlo, hle, hrest⟩
      obtain ⟨m, hm, hm'⟩ := ih.mp hrest
      exact ⟨m, ⟨hlo, hle, hm⟩, hm'⟩
    · rintro ⟨m, ⟨hlo, hle, hm⟩, hm'⟩
      exact ⟨hlo, hle, ih.mpr ⟨m, hm, hm'⟩⟩

theorem append {m : Int} (h : Tiles lo hi rs a m) (h' : Tiles lo hi rs' (m + 1) b) :
    Tiles lo hi (rs ++ rs') a b := append_iff.mpr ⟨m, h, h'⟩

theorem bounds (h : Tiles lo hi rs a b) {r : ρ} (hr : r ∈ rs) :
    a ≤ lo r ∧ lo r ≤ hi r ∧ hi r ≤ b := by
  induction rs generalizing a with
  | nil => cases hr
  | cons s rs ih =>
    obtain ⟨hlo, hle, hrest⟩ := h
    have hnext := hrest.le_succ
    rcases List.mem_cons.mp hr with rfl | hr
    · omega
    · have := ih hrest hr
      omega

/-- The end of the interval is the end of the last range. -/
theorem hi_last {r : ρ} (h : Tiles lo hi (rs ++ [r]) a b) : hi r = b := by
  obtain ⟨m, -, hm⟩ := append_iff.mp h
  have hend : hi r + 1 = b + 1 := hm.2.2
  omega

theorem rangeOf_eq_none {k : Int} (h : Tiles lo hi rs a b) (hk : k < a ∨ b < k) :
    rangeOf lo hi rs k = none := by
  unfold rangeOf
  rw [List.find?_eq_none]
  intro r hr
  have := h.bounds hr
  simp only [decide_eq_true_eq]
  omega

/-- Of two tilings side by side, the point is looked up in the one it is in. -/
theorem rangeOf_append_left {m k : Int} (h' : Tiles lo hi rs' (m + 1) b) (hk : k ≤ m) :
    rangeOf lo hi (rs ++ rs') k = rangeOf lo hi rs k := by
  have hnone := h'.rangeOf_eq_none (k := k) (.inl (by omega))
  unfold rangeOf at *
  rw [List.find?_append, hnone, Option.or_none]

theorem rangeOf_append_right {m k : Int} (h : Tiles lo hi rs a m) (hk : m < k) :
    rangeOf lo hi (rs ++ rs') k = rangeOf lo hi rs' k := by
  have hnone := h.rangeOf_eq_none (k := k) (.inr hk)
  unfold rangeOf at *
  rw [List.find?_append, hnone, Option.none_or]

theorem rangeOf_cons_of_le {r : ρ} {k : Int} (h : Tiles lo hi (r :: rs) a b) (hlo : a ≤ k)
    (hhi : k ≤ hi r) :
    rangeOf lo hi (r :: rs) k = some r := by
  unfold rangeOf
  rw [List.find?_cons_of_pos]
  have := h.1
  simp only [decide_eq_true_eq]
  omega

end Tiles

end Hotspot
