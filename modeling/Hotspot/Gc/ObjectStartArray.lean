-- SUMMARY: The object start array: an offset for each block, and the lookup of objects.
import Hotspot.Base.Cut
import Hotspot.Memory.BlockOffsetTable

/-!
# The object start array

A block of 512 bytes has the offset of one object that starts in it, or is clean. Blocks and cards
have the same size. Addresses are numbers of words from the start of the covered region, which is
the bottom of the space.
-/

namespace Hotspot.ParallelScavenge

open Memory (HeapWordSize)

/-! ## Cards -/

section Cards

variable (ws : HeapWordSize)

/-- `block_size_in_words`, and the words of a card. -/
def blockSizeInWords : Nat := 512 / ws.bytes

/-- The card of a word. -/
def byteFor (p : Nat) : Nat := p / blockSizeInWords ws

/-- The first word of a card. -/
def addrFor (card : Nat) : Nat := card * blockSizeInWords ws

theorem blockSizeInWords_pos : 0 < blockSizeInWords ws := by
  cases ws <;> decide

variable {ws}

theorem le_byteFor_iff {card p : Nat} : card ≤ byteFor ws p ↔ addrFor ws card ≤ p :=
  Nat.le_div_iff_mul_le (blockSizeInWords_pos ws)

theorem byteFor_lt_iff {card p : Nat} : byteFor ws p < card ↔ p < addrFor ws card :=
  Nat.div_lt_iff_lt_mul (blockSizeInWords_pos ws)

theorem addrFor_byteFor_le (p : Nat) : addrFor ws (byteFor ws p) ≤ p := le_byteFor_iff.mp le_rfl

theorem lt_addrFor_succ (p : Nat) : p < addrFor ws (byteFor ws p + 1) :=
  byteFor_lt_iff.mp (Nat.lt_succ_self _)

variable (ws) in
theorem addrFor_mono {c c' : Nat} (h : c ≤ c') : addrFor ws c ≤ addrFor ws c' :=
  Nat.mul_le_mul_right _ h

variable (ws) in
theorem addrFor_lt {c c' : Nat} (h : c < c') : addrFor ws c < addrFor ws c' :=
  Nat.mul_lt_mul_of_pos_right h (blockSizeInWords_pos ws)

variable (ws) in
theorem byteFor_mono {p p' : Nat} (h : p ≤ p') : byteFor ws p ≤ byteFor ws p' :=
  Nat.div_le_div_right h

end Cards

/-! ## The array -/

structure ObjectStartArray where
  /-- the end of `_covered_region` -/
  coveredEnd : Nat
  /-- the offset of an object in words; a clean block has none -/
  offset : Nat → Option Nat

namespace ObjectStartArray

variable (this : ObjectStartArray) (ws : HeapWordSize)

/-- A clean block gives the end of the covered region. -/
def offsetAddrForBlock (block : Nat) : Nat :=
  match this.offset block with
  | none => this.coveredEnd
  | some offset => addrFor ws block + offset

def allocateBlock (p : Nat) : ObjectStartArray :=
  { this with
    offset := Function.update this.offset (byteFor ws p) (some (p - addrFor ws (byteFor ws p))) }

/-- Go back over the first `n` blocks, down from the last. Before block 0 the result is the start of
the region. -/
def scrollBack (addr : Nat) : Nat → Nat
  | 0 => 0
  | n + 1 =>
    let scrollForward := this.offsetAddrForBlock ws n
    if addr < scrollForward then scrollBack addr n else scrollForward

/-- Go forward by objects to the one that contains `addr`. -/
def walkTo (size : Nat → Nat) (addr : Nat) : Nat → Nat → Nat → Option Nat
  | 0, _, _ => none
  | fuel + 1, scrollForward, next =>
    if next ≤ addr then walkTo size addr fuel next (next + size next) else some scrollForward

def objectStart (size : Nat → Nat) (addr : Nat) : Option Nat :=
  let scrollForward := this.scrollBack ws addr (byteFor ws addr + 1)
  walkTo size addr (addr + 2) scrollForward scrollForward

/-- The blocks from the one of `start` to the one of `stop`, with both. -/
def objectStartsInRange (start stop : Nat) : Bool :=
  if stop < start then false
  else (List.range' (byteFor ws start) (byteFor ws stop + 1 - byteFor ws start)).any fun b =>
    (this.offset b).isSome

end ObjectStartArray

/-! ## Validity -/

/-- Each entry of the array leads to an object of a space or above them, and there are entries for
some addresses. -/
structure ObjectStartArray.Allocated (this : ObjectStartArray) (ws : HeapWordSize) (objects : Cut)
    (done : Nat → Prop) : Prop where
  covered : objects.top ≤ this.coveredEnd
  isStart : ∀ block offset, this.offset block = some offset →
    objects.IsStart (addrFor ws block + offset) ∨ objects.top ≤ addrFor ws block + offset
  isSome : ∀ p, done p → (this.offset (byteFor ws p)).isSome = true

/-- The array knows the objects of a space. Objects that were allocated above its top since may have
entries too. -/
def ObjectStartArray.Valid (this : ObjectStartArray) (ws : HeapWordSize) (objects : Cut) : Prop :=
  this.Allocated ws objects objects.IsStart

namespace ObjectStartArray

variable {this : ObjectStartArray} {ws : HeapWordSize} {objects : Cut} {addr p : Nat}
  {done : Nat → Prop}

theorem Allocated.allocateBlock (h : this.Allocated ws objects done)
    (hp : objects.IsStart p ∨ objects.top ≤ p) :
    (this.allocateBlock ws p).Allocated ws objects fun q => q = p ∨ done q := by
  have hback : addrFor ws (byteFor ws p) + (p - addrFor ws (byteFor ws p)) = p :=
    Nat.add_sub_cancel' (addrFor_byteFor_le p)
  refine ⟨h.covered, ?_, ?_⟩
  · intro block offset heq
    unfold ObjectStartArray.allocateBlock at heq
    dsimp only at heq
    rw [Function.update_apply] at heq
    split at heq
    next hblock =>
      cases heq
      rw [hblock, hback]
      exact hp
    · exact h.isStart block offset heq
  · intro q hq
    unfold ObjectStartArray.allocateBlock
    dsimp only
    rw [Function.update_apply]
    split
    · rfl
    next hne => exact h.isSome q (hq.resolve_left fun heq => hne (congrArg (byteFor ws) heq))

/-- Allocations in any order. -/
theorem Allocated.foldl (h : this.Allocated ws objects done) {order : List Nat}
    (horder : ∀ p ∈ order, objects.IsStart p ∨ objects.top ≤ p) :
    (order.foldl (fun (array : ObjectStartArray) p => array.allocateBlock ws p) this).Allocated ws
      objects
      fun q => q ∈ order ∨ done q := by
  induction order generalizing this done with
  | nil => exact ⟨h.covered, h.isStart, fun q hq => h.isSome q (hq.resolve_left List.not_mem_nil)⟩
  | cons p order ih =>
    rw [List.forall_mem_cons] at horder
    have hrest := ih (h.allocateBlock horder.1) horder.2
    refine ⟨hrest.covered, hrest.isStart, fun q hq => hrest.isSome q ?_⟩
    rw [List.mem_cons] at hq
    tauto

/-- Allocating the objects of a space, and maybe others above them, from a clean array. -/
theorem valid_of_allocations {order : List Nat} (hall : ∀ p, objects.IsStart p → p ∈ order)
    (horder : ∀ p ∈ order, objects.IsStart p ∨ objects.top ≤ p) {coveredEnd : Nat}
    (hcovered : objects.top ≤ coveredEnd) :
    (order.foldl (fun (array : ObjectStartArray) p => array.allocateBlock ws p)
      ⟨coveredEnd, fun _ => none⟩).Valid ws
      objects := by
  have hempty : Allocated ⟨coveredEnd, fun _ => none⟩ ws objects fun _ => False :=
    ⟨hcovered, nofun, nofun⟩
  have h := hempty.foldl horder
  exact ⟨h.covered, h.isStart, fun p hp => h.isSome p (.inl (hall p hp))⟩

/-- The walk back ends at an object at or before the address. -/
theorem Valid.scrollBack (h : this.Valid ws objects) (haddr : addr < objects.top) (n : Nat) :
    objects.IsStart (this.scrollBack ws addr n) ∧ this.scrollBack ws addr n ≤ addr := by
  induction n with
  | zero =>
    have hstart : objects.IsStart 0 := objects.zero_boundary.isStart (by omega)
    exact ⟨hstart, Nat.zero_le _⟩
  | succ n ih =>
    unfold ObjectStartArray.scrollBack
    dsimp only
    split
    · exact ih
    next hle =>
      refine ⟨?_, by omega⟩
      unfold offsetAddrForBlock at hle ⊢
      cases hoffset : this.offset n with
      | none =>
        rw [hoffset] at hle
        have := h.covered
        dsimp only at hle
        omega
      | some offset =>
        rw [hoffset] at hle
        dsimp only at hle ⊢
        exact (h.isStart n offset hoffset).resolve_right (by omega)

theorem walkTo_spec {fuel q next : Nat} (haddr : addr < objects.top)
    (hnext : objects.IsBoundary next)
    (hq : next ≤ addr ∨ objects.Covers q addr) (hfuel : addr + 2 ≤ fuel + next) (hpos : 0 < fuel) :
    ∃ p, walkTo objects.size addr fuel q next = some p ∧ objects.Covers p addr := by
  induction fuel generalizing q next with
  | zero => omega
  | succ fuel ih =>
    unfold walkTo
    split
    next hle =>
      have hstart := hnext.isStart (by omega)
      have hsize := hstart.size_pos
      refine ih hstart.stop_boundary ?_ (by omega) (by omega)
      rcases Nat.lt_or_ge addr (objects.stop next) with hlt | hge
      · exact .inr ⟨hstart, hle, hlt⟩
      · exact .inl hge
    next hgt => exact ⟨q, rfl, hq.resolve_left hgt⟩

theorem Valid.objectStart (h : this.Valid ws objects) (haddr : addr < objects.top) :
    ∃ p, this.objectStart ws objects.size addr = some p ∧ objects.Covers p addr := by
  obtain ⟨hstart, hle⟩ := h.scrollBack haddr (byteFor ws addr + 1)
  exact walkTo_spec haddr hstart.boundary (.inl hle) (by omega) (by omega)

/-- The lookup after the objects were allocated in any order, and then some again or others above
them. -/
theorem objectStart_of_allocations (objects : Cut) (order later : List Nat)
    (hall : ∀ p, objects.IsStart p ↔ p ∈ order)
    (hlater : ∀ p ∈ later, objects.IsStart p ∨ objects.top ≤ p) {coveredEnd : Nat}
    (hcovered : objects.top ≤ coveredEnd)
    (haddr : addr < objects.top) :
    ∃ p, ((order ++ later).foldl (fun (array : ObjectStartArray) p => array.allocateBlock ws p)
      ⟨coveredEnd, fun _ => none⟩).objectStart ws objects.size addr = some p ∧
        objects.Covers p addr := by
  refine (valid_of_allocations (fun p hp => ?_) ?_ hcovered).objectStart haddr
  · exact List.mem_append_left _ ((hall p).mp hp)
  · exact List.forall_mem_append.mpr ⟨fun p hp => .inl ((hall p).mpr hp), hlater⟩

theorem objectStart_of_allocations_two : ∃ p, (([3, 0] ++ [200]).foldl
    (fun (array : ObjectStartArray) p => array.allocateBlock .eight p)
      ⟨512, fun _ => none⟩).objectStart .eight
      (Cut.size ⟨[3, 100], by decide⟩) 50 = some p ∧ Cut.Covers ⟨[3, 100], by decide⟩ p 50 :=
  objectStart_of_allocations ⟨[3, 100], by decide⟩ [3, 0] [200]
    (by simp [Cut.IsStart, Cut.starts, Cut.startsFrom, or_comm])
    (by decide) (by decide) (by decide)

/-- If no block of the range has an entry, then no object starts there. -/
theorem Valid.not_isStart (h : this.Valid ws objects) {start stop : Nat}
    (hrange : this.objectStartsInRange ws start stop = false) (hle : start ≤ stop) (hlo : start ≤ p)
    (hhi : p ≤ stop) :
    ¬ objects.IsStart p := by
  intro hp
  unfold objectStartsInRange at hrange
  rw [if_neg (not_lt.mpr hle), List.any_eq_false] at hrange
  refine hrange (byteFor ws p) ?_ (h.isSome p hp)
  have hlow := byteFor_mono ws hlo
  have hhigh := byteFor_mono ws hhi
  rw [List.mem_range'_1]
  omega

end ObjectStartArray

end Hotspot.ParallelScavenge
