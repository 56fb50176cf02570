-- SUMMARY: Buffers of fixed capacity, and programs that fill them from the start.
import Mathlib

/-!
# Bounded buffers

A buffer is a memory of which the first `count` cells have been filled. A program that
writes to it has no result once it writes past the capacity.

`Appends m b vs r` says everything that a caller has to know about a program that only adds
to the filled part: it returns `r` and adds `vs` if there is room for them, and otherwise it
has no result. The rules below compose such programs.
-/

namespace Hotspot

open List

structure Buffer (α : Type) where
  mem : Nat → α
  count : Nat
  capacity : Nat
  fits : count ≤ capacity

/-- A program that writes to a buffer. -/
abbrev BufferM (α β : Type) := StateT (Buffer α) Option β

variable {α β γ : Type}

namespace Buffer

/-- The filled part. -/
def contents (b : Buffer α) : List α := (List.range b.count).map b.mem

@[simp]
theorem contents_length (b : Buffer α) : b.contents.length = b.count := by
  simp [contents]

/-- A buffer without contents, in a memory that may hold anything. -/
def empty (mem : Nat → α) (capacity : Nat) : Buffer α := ⟨mem, 0, capacity, Nat.zero_le _⟩

@[simp]
theorem contents_empty (mem : Nat → α) (capacity : Nat) : (empty mem capacity).contents = [] := rfl

theorem contents_eq_nil {b : Buffer α} (h : b.count = 0) : b.contents = [] := by
  rw [← length_eq_zero_iff, contents_length, h]

end Buffer

/-! ## Programs -/

namespace BufferM

/-- Write one cell after the filled part. -/
def push (v : α) : BufferM α Unit := fun b =>
  if h : b.count < b.capacity then
    some ((), ⟨Function.update b.mem b.count v, b.count + 1, b.capacity, h⟩)
  else none

def pushAll : List α → BufferM α Unit
  | [] => pure ()
  | v :: vs => do
    push v
    pushAll vs

/-- Copy a block of `n` cells behind the filled part, which grows by only `k` of them. -/
def blit (src : Nat → α) (n k : Nat) : BufferM α Unit := fun b =>
  if h : b.count + n ≤ b.capacity ∧ k ≤ n then
    some ((), ⟨fun i => if b.count ≤ i ∧ i < b.count + n then src (i - b.count) else b.mem i,
      b.count + k, b.capacity, by omega⟩)
  else none

/-- The number of filled cells. -/
def size : BufferM α Nat := fun b => some (b.count, b)

def read (i : Nat) : BufferM α α := fun b => if i < b.count then some (b.mem i, b) else none

/-- Change one of the filled cells. -/
def rewrite (i : Nat) (v : α) : BufferM α Unit := fun b =>
  if i < b.count then some ((), { b with mem := Function.update b.mem i v }) else none

/-- Give up the filled cells from `n` on. -/
def truncate (n : Nat) : BufferM α Unit := fun b =>
  some ((), ⟨b.mem, min n b.count, b.capacity, (Nat.min_le_right _ _).trans b.fits⟩)

@[simp]
theorem bind_apply (m : BufferM α β) (f : β → BufferM α γ) (b : Buffer α) :
    (m >>= f) b = (m b).bind fun r => f r.1 r.2 := rfl

@[simp]
theorem pure_apply (r : β) (b : Buffer α) : (pure r : BufferM α β) b = some (r, b) := rfl

end BufferM

open BufferM

/-! ## What a program appends -/

/-- If there is room for `vs`, the program adds them and returns `r`; otherwise it fails. -/
structure Appends (m : BufferM α β) (b : Buffer α) (vs : List α) (r : β) : Prop where
  room : b.count + vs.length ≤ b.capacity →
    ∃ b', m b = some (r, b') ∧ b'.contents = b.contents ++ vs ∧ b'.capacity = b.capacity
  full : b.capacity < b.count + vs.length → m b = none

namespace Appends

variable {m : BufferM α β} {f : β → BufferM α γ} {b : Buffer α} {vs ws : List α} {r : β} {s : γ}

theorem count_eq {b' : Buffer α} (h : b'.contents = b.contents ++ vs) :
    b'.count = b.count + vs.length := by
  rw [← Buffer.contents_length, h, length_append, Buffer.contents_length]

protected theorem pure (b : Buffer α) (r : β) : Appends (pure r : BufferM α β) b [] r where
  room := fun _ => ⟨b, rfl, (append_nil _).symm, rfl⟩
  full := fun h => absurd b.fits (by simpa using h)

protected theorem push (b : Buffer α) (v : α) : Appends (push v) b [v] () where
  room := by
    intro h
    have hlt : b.count < b.capacity := h
    refine ⟨_, dif_pos hlt, ?_, rfl⟩
    simp only [Buffer.contents, range_succ, map_append, map_cons, map_nil,
      Function.update_self]
    congr 1
    apply map_congr_left
    intro i hi
    rw [Function.update_of_ne (Nat.ne_of_lt (mem_range.mp hi))]
  full := by
    intro h
    have hge : ¬ b.count < b.capacity := Nat.not_lt.mpr (Nat.lt_succ_iff.mp h)
    exact dif_neg hge

protected theorem bind (hm : Appends m b vs r)
    (hf : ∀ b', b'.contents = b.contents ++ vs → b'.capacity = b.capacity → Appends (f r) b' ws s) :
    Appends (m >>= f) b (vs ++ ws) s where
  room := by
    intro h
    rw [length_append] at h
    obtain ⟨b', hrun, hcontents, hcap⟩ := hm.room (by omega)
    have hcount := count_eq hcontents
    obtain ⟨b'', hrun', hcontents', hcap'⟩ := (hf b' hcontents hcap).room (by omega)
    refine ⟨b'', ?_, ?_, hcap'.trans hcap⟩
    · rw [bind_apply, hrun]
      exact hrun'
    · rw [hcontents', hcontents, append_assoc]
  full := by
    intro h
    rw [length_append] at h
    by_cases hroom : b.count + vs.length ≤ b.capacity
    · obtain ⟨b', hrun, hcontents, hcap⟩ := hm.room hroom
      have hcount := count_eq hcontents
      rw [bind_apply, hrun]
      exact (hf b' hcontents hcap).full (by omega)
    · rw [bind_apply, hm.full (Nat.lt_of_not_le hroom)]
      rfl

theorem size_bind {f : Nat → BufferM α γ} (h : Appends (f b.count) b vs s) :
    Appends (size >>= f) b vs s :=
  ⟨h.room, h.full⟩

theorem eq_none_or (h : Appends m b vs r) :
    (b.count + vs.length ≤ b.capacity ∧ ∃ b', m b = some (r, b') ∧
      b'.contents = b.contents ++ vs ∧ b'.capacity = b.capacity) ∨
    (b.capacity < b.count + vs.length ∧ m b = none) := by
  by_cases hroom : b.count + vs.length ≤ b.capacity
  · exact .inl ⟨hroom, h.room hroom⟩
  · exact .inr ⟨Nat.lt_of_not_le hroom, h.full (Nat.lt_of_not_le hroom)⟩

end Appends

/-! ## Access to the filled part -/

namespace Buffer

variable {b : Buffer α} {c vs : List α} {v : α}

theorem mem_eq_of_contents (h : b.contents = c ++ v :: vs) :
    c.length < b.count ∧ b.mem c.length = v := by
  have hlt : c.length < b.count := by
    rw [← b.contents_length, h, length_append, length_cons]
    omega
  have hget : b.contents[c.length]? = some (b.mem c.length) := by
    simp [contents, hlt]
  rw [h, List.getElem?_append_right le_rfl, Nat.sub_self, List.getElem?_cons_zero] at hget
  exact ⟨hlt, (Option.some.inj hget).symm⟩

theorem read_eq (h : b.contents = c ++ v :: vs) : BufferM.read c.length b = some (v, b) := by
  obtain ⟨hlt, hmem⟩ := mem_eq_of_contents h
  rw [BufferM.read, if_pos hlt, hmem]

theorem rewrite_eq (w : α) (h : b.contents = c ++ v :: vs) :
    ∃ b', rewrite c.length w b = some ((), b') ∧ b'.contents = c ++ w :: vs ∧
      b'.capacity = b.capacity := by
  obtain ⟨hlt, -⟩ := mem_eq_of_contents h
  refine ⟨_, if_pos hlt, ?_, rfl⟩
  have hset : (List.range b.count).map (Function.update b.mem c.length w) =
      b.contents.set c.length w := by
    apply ext_getElem
    · simp [contents]
    · intro i hi hi'
      simp only [contents, getElem_map, getElem_range, getElem_set,
        Function.update_apply, eq_comm]
  calc (List.range b.count).map (Function.update b.mem c.length w)
      = (c ++ v :: vs).set c.length w := by rw [hset, h]
    _ = c ++ w :: vs := by simp

theorem truncate_eq (h : b.contents = c ++ vs) :
    ∃ b', truncate c.length b = some ((), b') ∧ b'.contents = c ∧ b'.capacity = b.capacity := by
  refine ⟨_, rfl, ?_, rfl⟩
  calc (List.range (min c.length b.count)).map b.mem
      = b.contents.take c.length := by rw [contents, ← map_take, take_range]
    _ = c := by rw [h, take_left]

end Buffer

/-- A block copy adds the cells that count as filled. -/
theorem Buffer.contents_blit {src : Nat → α} {n k : Nat} {b : Buffer α}
    (hroom : b.count + n ≤ b.capacity) (hk : k ≤ n) : ∃ b', blit src n k b = some ((), b') ∧
      b'.contents = b.contents ++ (List.range k).map src ∧ b'.capacity = b.capacity := by
  refine ⟨_, dif_pos ⟨hroom, hk⟩, ?_, rfl⟩
  simp only [Buffer.contents, range_add, map_append, map_map]
  congr 1
  · apply map_congr_left
    intro i hi
    have hlt := mem_range.mp hi
    simp [hlt]
  · apply map_congr_left
    intro i hi
    have hlt := mem_range.mp hi
    simp [show i < n by omega]

end Hotspot
