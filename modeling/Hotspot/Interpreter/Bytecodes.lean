-- SUMMARY: The bytecodes: their numbers, their groups, and the lengths of instructions.
import Hotspot.Base.JavaTypes

/-!
# Bytecodes

A bytecode is the byte at the start of an instruction. The lengths are those of the format
strings of `Bytecodes::initialize`; an empty string, and length 0, stands for instructions
whose length depends on their operands.
-/

namespace Hotspot

/-- A memory of bytes. Numbers stand in it with their most significant byte first. -/
abbrev ByteMemory := Nat → BitVec 8

def ByteMemory.getU4 (mem : ByteMemory) (pos : Nat) : BitVec 32 :=
  mem pos ++ mem (pos + 1) ++ mem (pos + 2) ++ mem (pos + 3)

namespace Bytecodes

def iload : UChar := 21
def aload : UChar := 25
def istore : UChar := 54
def astore : UChar := 58
def iinc : UChar := 132
def ifeq : UChar := 153
def if_acmpne : UChar := 166
def goto : UChar := 167
def jsr : UChar := 168
def ret : UChar := 169
def tableswitch : UChar := 170
def lookupswitch : UChar := 171
def wide : UChar := 196
def ifnull : UChar := 198
def ifnonnull : UChar := 199
def goto_w : UChar := 200
def jsr_w : UChar := 201
def fast_linearswitch : UChar := 227
def fast_binaryswitch : UChar := 228

/-! ## Groups -/

/-- How an instruction transfers control. `ifJump` and `jump` have an offset of two bytes. -/
inductive Kind where
  | ifJump
  | jump
  | wideJump
  | table
  | lookup
  | other
  deriving DecidableEq, Repr

def kind (code : UChar) : Kind :=
  if ifeq ≤ code ∧ code ≤ if_acmpne ∨ code = ifnull ∨ code = ifnonnull then .ifJump
  else if code = goto ∨ code = jsr then .jump
  else if code = goto_w ∨ code = jsr_w then .wideJump
  else if code = tableswitch then .table
  else if code = lookupswitch ∨ code = fast_linearswitch ∨ code = fast_binaryswitch then .lookup
  else .other

/-! ## Lengths -/

def lengths : List Nat :=
  -- nop to dconst_1
  List.replicate 16 1 ++
  -- bipush, sipush, ldc, ldc_w, ldc2_w
  [2, 3, 2, 3, 3] ++
  -- iload to aload, iload_0 to saload
  List.replicate 5 2 ++ List.replicate 28 1 ++
  -- istore to astore, istore_0 to lxor
  List.replicate 5 2 ++ List.replicate 73 1 ++
  -- iinc, i2l to dcmpg
  [3] ++ List.replicate 20 1 ++
  -- ifeq to jsr, ret, tableswitch, lookupswitch
  List.replicate 16 3 ++ [2, 0, 0] ++
  -- ireturn to return, getstatic to invokestatic, invokeinterface, xxxunusedxxx
  List.replicate 6 1 ++ List.replicate 7 3 ++ [5, 0] ++
  -- new, newarray, anewarray, arraylength, athrow, checkcast, instanceof
  [3, 2, 3, 1, 1, 3, 3] ++
  -- monitorenter, monitorexit, wide, multianewarray
  [1, 1, 0, 4] ++
  -- ifnull, ifnonnull, goto_w, jsr_w, breakpoint
  [3, 3, 5, 5, 0] ++
  -- fast_agetfield to fast_sputfield
  List.replicate 16 3 ++
  -- fast_aload_0, fast_iaccess_0, fast_aaccess_0, fast_faccess_0
  [1, 4, 4, 4] ++
  -- fast_iload, fast_iload2, fast_icaload, fast_invokevfinal
  [2, 4, 3, 3] ++
  -- fast_linearswitch, fast_binaryswitch, return_register_finalizer, shouldnotreachhere
  [0, 0, 1, 1]

def lengthFor (code : UChar) : Nat := lengths.getD code.toNat 0

/-- The length of an instruction after `wide`, with the `wide` itself. -/
def wideLengthFor (code : UChar) : Nat :=
  if iload ≤ code ∧ code ≤ aload ∨ istore ≤ code ∧ code ≤ astore ∨ code = ret then 4
  else if code = iinc then 6
  else 0

/-- `round_to(n, jintSize)`. -/
def align (n : Nat) : Nat := (n + 3) / 4 * 4

/-- A length that is no positive `int` is -1. -/
def positiveInt (len : Int) : Int := if 0 < len ∧ len < 2 ^ 31 then len else -1

def specialLengthAt (mem : ByteMemory) (bci : Nat) : Int :=
  let aligned := align (bci + 1)
  if mem bci = wide then wideLengthFor (mem (bci + 1))
  else match kind (mem bci) with
    | .table =>
      let lo := (mem.getU4 (aligned + 4)).toInt
      let hi := (mem.getU4 (aligned + 8)).toInt
      positiveInt ((aligned - bci : Nat) + (3 + hi - lo + 1) * 4)
    | .lookup =>
      let npairs := (mem.getU4 (aligned + 4)).toInt
      positiveInt ((aligned - bci : Nat) + (2 + 2 * npairs) * 4)
    | _ => 0

def lengthAt (mem : ByteMemory) (bci : Nat) : Int :=
  if 0 < lengthFor (mem bci) then lengthFor (mem bci) else specialLengthAt mem bci

/-! ## Facts about the numbers -/

theorem lengthFor_of_kind : ∀ code : UChar,
    (kind code = .ifJump ∨ kind code = .jump → lengthFor code = 3) ∧
    (kind code = .wideJump → lengthFor code = 5) ∧
    (kind code = .table ∨ kind code = .lookup → lengthFor code = 0 ∧ code ≠ wide) := by
  decide +kernel

end Bytecodes

end Hotspot
