-- SUMMARY: Open addressing with a stride: probed slots, search, and paths to entries.
import Mathlib

/-!
# Open addressing

A key has a home slot and a stride. Its probes start at the home slot and move on by the
stride, modulo the number of slots. If stride and size are coprime, the first `size` probes
visit every slot.

A table is well formed if every entry can be reached by the probes of its key without
crossing an empty slot. Slots of any type are allowed here; a predicate tells which of them
are empty.
-/

namespace Hotspot.OpenAddressing

open Nat

/-! ## Probes -/

/-- The slot of the `i`-th probe. -/
def probeAt (size home stride i : Nat) : Nat := (home + i * stride) % size

variable {size home stride : Nat}

theorem probeAt_lt (hsize : 0 < size) (i : Nat) : probeAt size home stride i < size :=
  mod_lt _ hsize

theorem probeAt_zero (hhome : home < size) : probeAt size home stride 0 = home := by
  simp [probeAt, mod_eq_of_lt hhome]

theorem probeAt_succ (i : Nat) :
    (probeAt size home stride i + stride) % size = probeAt size home stride (i + 1) := by
  rw [probeAt, probeAt, mod_add_mod, succ_mul, add_assoc]

theorem probeAt_injective (hstride : stride.Coprime size) {i j : Nat} (hi : i < size)
    (hj : j < size) (h : probeAt size home stride i = probeAt size home stride j) : i = j := by
  have hmul : Nat.ModEq size (i * stride) (j * stride) := Nat.ModEq.add_left_cancel' home h
  have hmod : Nat.ModEq size i j := Nat.ModEq.cancel_right_of_coprime hstride.symm hmul
  exact Nat.ModEq.eq_of_lt_of_lt hmod hi hj

/-- Every slot is probed. -/
theorem exists_probeAt (hstride : stride.Coprime size) {p : Nat} (hp : p < size) :
    ∃ i < size, probeAt size home stride i = p := by
  have hsize : 0 < size := zero_lt_of_lt hp
  let probe : Fin size → Fin size := fun i =>
    ⟨probeAt size home stride i, probeAt_lt hsize i⟩
  have hinj : Function.Injective probe := by
    intro i j h
    exact Fin.ext (probeAt_injective hstride i.2 j.2 (Fin.mk.inj h))
  obtain ⟨i, hi⟩ := Finite.surjective_of_injective hinj ⟨p, hp⟩
  exact ⟨i, i.2, Fin.mk.inj hi⟩

/-! ## Search -/

section Search

variable {κ σ : Type}

/-- Probe until a slot satisfies `stop`. There is no result if a slot cannot be read or the
fuel is used up. -/
def search (read : κ → Option σ) (next : κ → κ) (stop : σ → Bool) : Nat → κ → Option (κ × σ)
  | 0, _ => none
  | fuel + 1, key => do
    let slot ← read key
    if stop slot then some (key, slot) else search read next stop fuel (next key)

variable {read : κ → Option σ} {next : κ → κ} {stop : σ → Bool}

/-- The search ends at the first slot that satisfies `stop`. -/
theorem search_eq {pos : Nat → κ} {slot : Nat → σ} (hnext : ∀ i, next (pos i) = pos (i + 1))
    (hread : ∀ i, read (pos i) = some (slot i)) {start n fuel : Nat} (hfuel : n < fuel)
    (hgo : ∀ i < n, stop (slot (start + i)) = false) (hstop : stop (slot (start + n)) = true) :
    search read next stop fuel (pos start) = some (pos (start + n), slot (start + n)) := by
  induction n generalizing start fuel with
  | zero =>
    obtain ⟨fuel, rfl⟩ := exists_eq_succ_of_ne_zero (ne_of_gt hfuel)
    simp only [search, hread, Option.bind_eq_bind, Option.bind_some]
    exact if_pos hstop
  | succ n ih =>
    obtain ⟨fuel, rfl⟩ := exists_eq_succ_of_ne_zero (ne_of_gt (zero_lt_of_lt hfuel))
    have hfirst : stop (slot start) = false := hgo 0 (succ_pos n)
    have hshift : ∀ i, start + 1 + i = start + (i + 1) := fun i => by ring
    have hrest := @ih (start + 1) fuel (lt_of_succ_lt_succ hfuel)
      (fun i hi => by rw [hshift]; exact hgo (i + 1) (succ_lt_succ hi))
      (by rw [hshift]; exact hstop)
    rw [hshift] at hrest
    simp only [search, hread, Option.bind_eq_bind, Option.bind_some, hfirst, hnext]
    exact hrest

end Search

/-! ## Paths -/

/-- The probes reach slot `p` over occupied slots only. -/
def OnPath (occupied : Nat → Prop) (size home stride p : Nat) : Prop :=
  ∃ i < size, probeAt size home stride i = p ∧ ∀ j < i, occupied (probeAt size home stride j)

variable {occupied occupied' : Nat → Prop}

/-- Slots may become occupied. -/
theorem OnPath.mono {p : Nat} (h : OnPath occupied size home stride p)
    (himp : ∀ q < size, occupied q → occupied' q) : OnPath occupied' size home stride p := by
  obtain ⟨i, hi, hp, hpath⟩ := h
  refine ⟨i, hi, hp, fun j hj => himp _ (probeAt_lt (zero_lt_of_lt hi) j) (hpath j hj)⟩

/-- If some slot is not occupied, the probes get to such a slot. -/
theorem exists_first_free [DecidablePred occupied] (hstride : stride.Coprime size)
    (hfree : ∃ p < size, ¬occupied p) : ∃ n < size, ¬occupied (probeAt size home stride n) ∧
      ∀ j < n, occupied (probeAt size home stride j) := by
  obtain ⟨p, hp, hnot⟩ := hfree
  obtain ⟨i, hi, rfl⟩ := @exists_probeAt size home stride hstride p hp
  have hex : ∃ i, ¬occupied (probeAt size home stride i) := ⟨i, hnot⟩
  refine ⟨Nat.find hex, (Nat.find_min' hex hnot).trans_lt hi, Nat.find_spec hex, ?_⟩
  intro j hj
  exact Decidable.not_not.mp (Nat.find_min hex hj)

end Hotspot.OpenAddressing
