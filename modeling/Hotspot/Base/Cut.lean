-- SUMMARY: A range of words cut into blocks: their starts and sizes, and which block covers a word.
import Mathlib

/-!
# Ranges cut into blocks

The blocks are given by their sizes, from word 0 up. All else that is used of them is that a block
ends where the next one starts, or at the top, and that they do not overlap.
-/

namespace Hotspot

structure Cut where
  sizes : List Nat
  pos : ∀ s ∈ sizes, 0 < s

namespace Cut

/-- The starts of blocks that lie one after another from `base` up. -/
def startsFrom : Nat → List Nat → List Nat
  | _, [] => []
  | base, s :: rest => base :: startsFrom (base + s) rest

/-- The size of the block that starts at `p`, or 0. -/
def sizeFrom : Nat → List Nat → Nat → Nat
  | _, [], _ => 0
  | base, s :: rest, p => if p = base then s else sizeFrom (base + s) rest p

variable (cut : Cut)

def top : Nat := cut.sizes.sum

def starts : List Nat := startsFrom 0 cut.sizes

def size (p : Nat) : Nat := sizeFrom 0 cut.sizes p

/-- The first word after the block. -/
def stop (p : Nat) : Nat := p + cut.size p

def IsStart (p : Nat) : Prop := p ∈ cut.starts

instance (p : Nat) : Decidable (cut.IsStart p) := inferInstanceAs (Decidable (p ∈ cut.starts))

/-- A block starts here, or the last one ends. -/
def IsBoundary (p : Nat) : Prop := cut.IsStart p ∨ p = cut.top

/-- The block at `p` contains the word `a`. -/
def Covers (p a : Nat) : Prop := cut.IsStart p ∧ p ≤ a ∧ a < cut.stop p

/-! ## Lists of sizes -/

variable {sizes : List Nat}

theorem le_of_mem_startsFrom {base p : Nat} (h : p ∈ startsFrom base sizes) : base ≤ p := by
  induction sizes generalizing base with
  | nil => cases h
  | cons s rest ih =>
    rcases List.mem_cons.mp h with rfl | h
    · exact le_rfl
    · exact (Nat.le_add_right _ _).trans (ih h)

theorem startsFrom_next {base p : Nat} (hpos : ∀ s ∈ sizes, 0 < s) (h : p ∈ startsFrom base sizes) :
    0 < sizeFrom base sizes p ∧ p + sizeFrom base sizes p ≤ base + sizes.sum ∧
      (p + sizeFrom base sizes p < base + sizes.sum → p + sizeFrom base sizes p ∈ startsFrom base sizes) := by
  induction sizes generalizing base with
  | nil => cases h
  | cons s rest ih =>
    have hs := hpos s List.mem_cons_self
    unfold sizeFrom startsFrom
    rw [List.sum_cons]
    by_cases hp : p = base
    · rw [if_pos hp]
      subst hp
      refine ⟨hs, by omega, fun hlt => List.mem_cons_of_mem _ ?_⟩
      cases rest with
      | nil =>
        rw [List.sum_nil] at hlt
        omega
      | cons s' rest => exact List.mem_cons_self
    · rw [if_neg hp]
      have hrest : p ∈ startsFrom (base + s) rest := (List.mem_cons.mp h).resolve_left hp
      obtain ⟨h1, h2, h3⟩ := ih (fun x hx => hpos x (List.mem_cons_of_mem _ hx)) hrest
      exact ⟨h1, by omega, fun hlt => List.mem_cons_of_mem _ (h3 (by omega))⟩

theorem startsFrom_lt {base p q : Nat} (hpos : ∀ s ∈ sizes, 0 < s) (hp : p ∈ startsFrom base sizes)
    (hq : q ∈ startsFrom base sizes) (hlt : p < q) : p + sizeFrom base sizes p ≤ q := by
  induction sizes generalizing base with
  | nil => cases hp
  | cons s rest ih =>
    have hq' : q ∈ startsFrom (base + s) rest := by
      refine (List.mem_cons.mp hq).resolve_left fun heq => ?_
      have := le_of_mem_startsFrom hp
      omega
    unfold sizeFrom
    by_cases hbase : p = base
    · rw [if_pos hbase, hbase]
      exact le_of_mem_startsFrom hq'
    · rw [if_neg hbase]
      exact ih (fun x hx => hpos x (List.mem_cons_of_mem _ hx)) ((List.mem_cons.mp hp).resolve_left hbase) hq'

/-! ## Blocks -/

variable {cut} {p q a : Nat}

section

variable (h : cut.IsStart p)

include h

theorem IsStart.size_pos : 0 < cut.size p := (startsFrom_next cut.pos h).1

theorem IsStart.lt_stop : p < cut.stop p := Nat.lt_add_of_pos_right h.size_pos

theorem IsStart.stop_le_top : cut.stop p ≤ cut.top := by
  have := (startsFrom_next cut.pos h).2.1
  rwa [Nat.zero_add] at this

theorem IsStart.lt_top : p < cut.top := h.lt_stop.trans_le h.stop_le_top

theorem IsStart.boundary : cut.IsBoundary p := .inl h

theorem IsStart.stop_boundary : cut.IsBoundary (cut.stop p) := by
  rcases Nat.lt_or_ge (cut.stop p) cut.top with hlt | hge
  · refine .inl ((startsFrom_next cut.pos h).2.2 ?_)
    rwa [Nat.zero_add]
  · exact .inr (le_antisymm h.stop_le_top hge)

end

theorem IsBoundary.le_top (h : cut.IsBoundary p) : p ≤ cut.top := by
  rcases h with h | rfl
  · exact h.lt_top.le
  · exact le_rfl

theorem IsBoundary.isStart (h : cut.IsBoundary p) (hlt : p < cut.top) : cut.IsStart p :=
  h.resolve_right (ne_of_lt hlt)

/-- A block that starts before a boundary ends there at the latest. -/
theorem IsStart.stop_le (h : cut.IsStart p) (hq : cut.IsBoundary q) (hlt : p < q) : cut.stop p ≤ q := by
  rcases hq with hq | rfl
  · exact startsFrom_lt cut.pos h hq hlt
  · exact h.stop_le_top

theorem zero_boundary (cut : Cut) : cut.IsBoundary 0 := by
  unfold IsBoundary IsStart starts top
  cases cut.sizes with
  | nil => exact .inr rfl
  | cons s rest => exact .inl List.mem_cons_self

/-- A block that reaches beyond a word starts at its block or later. -/
theorem Covers.le_of_lt_stop (hp : cut.Covers p a) (hq : cut.IsStart q) (hlt : a < cut.stop q) : p ≤ q := by
  by_contra hgt
  have hstop := hq.stop_le hp.1.boundary (by omega)
  have := hp.2.1
  omega

/-- A boundary after the start of the block of a word lies after the word. -/
theorem Covers.stop_le (hp : cut.Covers p a) (hq : cut.IsBoundary q) (hlt : p < q) : a < q :=
  hp.2.2.trans_le (hp.1.stop_le hq hlt)

end Cut

end Hotspot
