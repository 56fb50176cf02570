-- SUMMARY: The offsets in int are the exact ones modulo 2^32.
import Hotspot.Classfile.FieldOffsets

/-!
# Offsets in `int`

Every offset that the code computes is the exact one, wrapped to 32 bits, also if an earlier one has
overflowed: sums and the alignment to a power of two do not depend on the high bits, and the gap has
the same length.
-/

namespace Hotspot.FieldLayout

open Arithmetic

/-! ## Wrapping -/

theorem machine_int {x : Int} (hlo : 0 ≤ x) (hhi : x < 2 ^ 31) : machine.int x = x := by
  show x.bmod (2 ^ 32) = x
  rw [Int.bmod_eq_of_le] <;> omega

/-- The overflow of a sum of a few terms. -/
theorem machine_int_overflow {x : Int} (hlo : 2 ^ 31 ≤ x) (hhi : x < 2 ^ 32) :
    machine.int x = x - 2 ^ 32 := by
  show x.bmod (2 ^ 32) = _
  rw [Int.bmod_def]
  split <;> omega

@[simp]
theorem machine_int_add (x c : Int) : machine.int (machine.int x + c) = machine.int (x + c) :=
  Int.bmod_add_bmod

@[simp]
theorem machine_int_add_right (x c : Int) :
    machine.int (c + machine.int x) = machine.int (c + x) := Int.add_bmod_bmod

theorem machine_int_sub (x y : Int) :
    machine.int (machine.int x - machine.int y) = machine.int (x - y) := by
  show Int.bmod (x.bmod _ - y.bmod _) _ = _
  rw [Int.bmod_sub_bmod, Int.sub_bmod_bmod]
  rfl

theorem exists_machine_int (x : Int) : ∃ k, machine.int x = x + k * 2 ^ 32 := by
  show ∃ k, x.bmod (2 ^ 32) = _
  rw [Int.bmod_def]
  split
  · exact ⟨-(x / 2 ^ 32), by omega⟩
  · exact ⟨-(x / 2 ^ 32) - 1, by omega⟩

theorem machine_int_add_mul (x k : Int) : machine.int (x + k * 2 ^ 32) = machine.int x := by
  show Int.bmod _ _ = Int.bmod _ _
  rw [mul_comm]
  exact Int.add_mul_bmod_self_left _ _ _

@[simp]
theorem machine_int_alignSizeUp (x : Int) {a : Nat} (ha : a = 4 ∨ a = 8) :
    machine.int (alignSizeUp (machine.int x) a) = machine.int (alignSizeUp x a) := by
  obtain ⟨k, hk⟩ := exists_machine_int x
  have halign : alignSizeUp (x + k * 2 ^ 32) a = alignSizeUp x a + k * 2 ^ 32 := by
    unfold alignSizeUp
    rcases ha with rfl | rfl <;> omega
  rw [hk, halign, machine_int_add_mul]

/-! ## The start offsets -/

section Starts

variable {hos sty : Nat} {cp : Bool} {nx : Int} {c : FieldKind → Nat}

def Gap.wrap (gap : Gap) : Gap := { gap with offset := fun kind => Arithmetic.machine.int (gap.offset kind) }

def Cursor.wrap (c : Cursor) : Cursor :=
  { c with spaceOffset := Arithmetic.machine.int c.spaceOffset, nextOffset := Arithmetic.machine.int c.nextOffset }

theorem beforeDoubles_machine : beforeDoubles .machine hos sty (machine.int nx) c =
    machine.int (beforeDoubles .exact hos sty nx c) := by
  unfold beforeDoubles
  split
  · rw [machine_int_add, exact_int]
  · rfl

theorem doubleOffset_machine : doubleOffset .machine hos sty (machine.int nx) c =
    machine.int (doubleOffset .exact hos sty nx c) := by
  unfold doubleOffset
  dsimp only
  rw [beforeDoubles_machine]
  split
  · rw [machine_int_alignSizeUp _ (.inr rfl), exact_int]
  · rfl

theorem fillGap_machine {offset : Int} {length : Nat} :
    fillGap .machine hos sty (machine.int offset) length c =
      (fillGap .exact hos sty offset length c).wrap := by
  unfold fillGap Gap.wrap
  dsimp only
  rw [Gap.mk.injEq]
  refine ⟨rfl, ?_⟩
  funext kind
  cases kind with
  | oop | byte => simp only [machine_int_add, exact_int]
  | short => simp only [machine_int_add, exact_int]
  | word => rfl
  | double => rfl

/-- The gap is shorter than 8 bytes, so it does not matter where it is. -/
theorem gapBeforeDoubles_machine : gapBeforeDoubles .machine hos sty cp (machine.int nx) c =
    (gapBeforeDoubles .exact hos sty cp nx c).wrap := by
  have hdouble := doubleOffset_eq hos sty nx c
  have hlength : machine.int (doubleOffset .exact hos sty nx c -
      beforeDoubles .exact hos sty nx c) =
      doubleOffset .exact hos sty nx c - beforeDoubles .exact hos sty nx c := by
    refine machine_int ?_ ?_ <;> split at hdouble <;> omega
  unfold gapBeforeDoubles
  dsimp only
  rw [beforeDoubles_machine, doubleOffset_machine, machine_int_sub, exact_int]
  have hne : (machine.int (beforeDoubles .exact hos sty nx c) !=
      machine.int (doubleOffset .exact hos sty nx c)) =
      (beforeDoubles .exact hos sty nx c != doubleOffset .exact hos sty nx c) := by
    rw [Bool.eq_iff_iff, bne_iff_ne, bne_iff_ne, not_iff_not]
    refine ⟨fun heq => ?_, fun heq => by rw [heq]⟩
    have hsub := machine_int_sub (doubleOffset .exact hos sty nx c)
      (beforeDoubles .exact hos sty nx c)
    rw [heq, sub_self, hlength, machine_int le_rfl (by omega)] at hsub
    omega
  rw [hne, hlength]
  split
  · exact fillGap_machine
  · rfl

theorem left_machine : left .machine hos sty cp (machine.int nx) c =
    left .exact hos sty cp nx c := by
  funext kind
  rw [left, left, gapBeforeDoubles_machine]
  rfl

theorem wordOffset_machine : wordOffset .machine hos sty (machine.int nx) c =
    machine.int (wordOffset .exact hos sty nx c) := by
  rw [wordOffset, wordOffset, doubleOffset_machine, machine_int_add, exact_int]

theorem shortOffset_machine : shortOffset .machine hos sty cp (machine.int nx) c =
    machine.int (shortOffset .exact hos sty cp nx c) := by
  rw [shortOffset, shortOffset, wordOffset_machine, left_machine, machine_int_add, exact_int]

theorem byteOffset_machine : byteOffset .machine hos sty cp (machine.int nx) c =
    machine.int (byteOffset .exact hos sty cp nx c) := by
  rw [byteOffset, byteOffset, shortOffset_machine, left_machine, machine_int_add, exact_int]

theorem bytesEnd_machine : bytesEnd .machine hos sty cp (machine.int nx) c =
    machine.int (bytesEnd .exact hos sty cp nx c) := by
  rw [bytesEnd, bytesEnd, byteOffset_machine, left_machine, machine_int_add, exact_int]

section

variable (hoop : hos = 4 ∨ hos = 8)

include hoop

theorem oopOffset_machine : oopOffset .machine hos sty cp (machine.int nx) c =
      machine.int (oopOffset .exact hos sty cp nx c) := by
  unfold oopOffset
  dsimp only
  rw [bytesEnd_machine, left_machine, machine_int_alignSizeUp _ hoop, exact_int]
  split
  · rfl
  · split <;> rfl

theorem cursor_machine (kind : FieldKind) :
    (computeStarts .machine hos sty cp (machine.int nx) c).cursor kind =
      ((computeStarts .exact hos sty cp nx c).cursor kind).wrap := by
  simp only [computeStarts, Cursor.wrap, gapBeforeDoubles_machine]
  have hnext : nextOffset .machine hos sty cp (machine.int nx) c kind =
      machine.int (nextOffset .exact hos sty cp nx c kind) := by
    cases kind with
    | oop => exact oopOffset_machine hoop
    | byte => exact byteOffset_machine
    | short => exact shortOffset_machine
    | word => exact wordOffset_machine
    | double => exact doubleOffset_machine
  rw [hnext]
  rfl

theorem notalignedOffset_machine :
    (computeStarts .machine hos sty cp (machine.int nx) c).notalignedOffset =
      machine.int (computeStarts .exact hos sty cp nx c).notalignedOffset := by
  simp only [computeStarts, bytesEnd_machine, oopOffset_machine hoop, left_machine, machine_int_add, exact_int]
  split <;> rfl

end

end Starts

/-! ## The loop over the fields -/

section Loop

variable {width : RefWidth} {a a' : Assignment} {kind : FieldKind} {kinds : List FieldKind}

def wrapField (field : FieldKind × Int) : FieldKind × Int := (field.1, Arithmetic.machine.int field.2)

theorem take_wrap (size : Nat) (c : Cursor) : c.wrap.take .machine size =
    (machine.int (c.take .exact size).1, (c.take .exact size).2.wrap) := by
  unfold Cursor.take Cursor.wrap
  split <;> simp only [machine_int_add, exact_int]

theorem foldl_place_machine (hcursor : ∀ kind, a'.cursor kind = (a.cursor kind).wrap)
    (hfields : a'.fields = a.fields.map wrapField) :
    (kinds.foldl (Assignment.place .machine width) a').fields =
      (kinds.foldl (Assignment.place .exact width) a).fields.map wrapField := by
  induction kinds generalizing a a' with
  | nil => exact hfields
  | cons kind kinds ih =>
    refine ih (fun kind' => ?_) ?_
    · simp only [Assignment.place, hcursor, take_wrap, Function.update_apply]
      split <;> rfl
    · simp only [Assignment.place, hcursor, take_wrap, hfields, List.map_append, List.map_cons, List.map_nil, wrapField]

end Loop

end Hotspot.FieldLayout
