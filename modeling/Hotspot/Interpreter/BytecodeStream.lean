-- SUMMARY: The raw bytecode stream of the verifier, with every memory access.
import Hotspot.Base.JavaTypes
import Hotspot.Base.Traced
import Hotspot.Interpreter.Bytecodes

/-!
# The raw bytecode stream

The verifier scans the code of a method, which may be any bytes, with a `RawBytecodeStream`
and marks where instructions start. The model records each byte of memory and each entry of
a bytecode table that is read. Memory around the code, and what stands behind the table of
lengths, is arbitrary. A bci is an `int`, so sums of bcis and lengths wrap.
-/

namespace Hotspot

open Bytecodes

def Bytecodes.breakpoint : UChar := 202
def Bytecodes.new : UChar := 187
def Bytecodes.numberOfCodes : Nat := 231

/-- What `generate_code_data` stores for a byte of the code. -/
inductive CodeMark where
  | unmarked
  | bytecodeOffset
  | newOffset
  deriving DecidableEq, Repr

namespace BytecodeStream

/-- A sum of `int`s. -/
def intSum (x y : Int) : Int := Int.bmod (x + y) (2 ^ 32)

/-! ## Memory and its accesses -/

inductive Access where
  | byte (bci : Int)
  | length (code : UChar)
  | format (code : UChar)
  | wideFormat (code : UChar)
  | codeData (bci : Int)
  deriving DecidableEq, Repr

/-- The code of a method in memory. -/
structure MethodCode where
  bytes : List UChar
  outside : Int → UChar
  lengthOutside : UChar → UChar

namespace MethodCode

variable (m : MethodCode)

def codeSize : Nat := m.bytes.length

def byteAt (bci : Int) : UChar :=
  if 0 ≤ bci ∧ bci < m.codeSize then m.bytes.getD bci.toNat 0 else m.outside bci

/-- An access inside the code or inside the tables. -/
def InBounds : Access → Prop
  | .byte bci => 0 ≤ bci ∧ bci < m.codeSize
  | .codeData bci => 0 ≤ bci ∧ bci < m.codeSize
  | .length code => code.toNat < numberOfCodes
  | .format code => code.toNat < numberOfCodes
  | .wideFormat code => code.toNat < numberOfCodes

instance : DecidablePred m.InBounds := fun a => by
  cases a <;> unfold InBounds <;> infer_instance

def codeOrBpAt (bci : Int) : Traced Access UChar := .access (.byte bci) (m.byteAt bci)

def lengthForCode (code : UChar) : Traced Access Nat :=
  .access (.length code)
    (if code.toNat < numberOfCodes then lengthFor code else (m.lengthOutside code).toNat)

def getJavaU4 (bci : Int) : Traced Access JInt := do
  let b0 ← m.codeOrBpAt bci
  let b1 ← m.codeOrBpAt (bci + 1)
  let b2 ← m.codeOrBpAt (bci + 2)
  let b3 ← m.codeOrBpAt (bci + 3)
  return b0 ++ b1 ++ b2 ++ b3

/-- `xxxunusedxxx` is the code without a format. -/
def isDefined (code : UChar) : Traced Access Bool :=
  if code.toNat < numberOfCodes then .access (.format code) (code ≠ 186) else return false

def wideLengthForCode (code : UChar) : Traced Access Nat := do
  if ← isDefined code then .access (.wideFormat code) (wideLengthFor code) else return 0

def specialLengthAt (bci : Int) : Traced Access Int := do
  let code ← m.codeOrBpAt bci
  let aligned := (bci + 1 + 3) / 4 * 4
  if code = wide then
    let next ← m.codeOrBpAt (bci + 1)
    return ((← wideLengthForCode next) : Nat)
  else match kind code with
    | .table =>
      let lo ← m.getJavaU4 (aligned + 1 * 4)
      let hi ← m.getJavaU4 (aligned + 2 * 4)
      return positiveInt (aligned - bci + (3 + hi.toInt - lo.toInt + 1) * 4)
    | .lookup =>
      let npairs ← m.getJavaU4 (aligned + 4)
      return positiveInt (aligned - bci + (2 + 2 * npairs.toInt) * 4)
    | _ => return 0

def rawSpecialLengthAt (bci : Int) : Traced Access Int := do
  let code ← m.codeOrBpAt bci
  if code = breakpoint then return 1 else m.specialLengthAt bci

end MethodCode

/-! ## RawBytecodeStream -/

/-- A stream over the code of a method; `none` is the code of an illegal instruction. -/
structure RawBytecodeStream where
  bci : Int
  nextBci : Int
  endBci : Int
  code : Option UChar
  isWide : Bool

namespace RawBytecodeStream

variable (m : MethodCode)

def new : RawBytecodeStream := ⟨0, 0, m.codeSize, none, false⟩

variable (s : RawBytecodeStream)

def isLastBytecode : Bool := s.nextBci ≥ s.endBci

def rawNextSpecial (code : UChar) : Traced Access (Option UChar × RawBytecodeStream) := do
  let l ← m.rawSpecialLengthAt s.bci
  if l ≤ 0 ∨ intSum s.bci l > s.endBci then return (none, { s with code := none })
  else
    let s := { s with nextBci := intSum s.nextBci l, isWide := false }
    if code = wide then
      let code ← m.codeOrBpAt (s.bci + 1)
      return (some code, { s with isWide := true, code := some code })
    else return (some code, { s with code := some code })

def rawNext : Traced Access (Option UChar × RawBytecodeStream) := do
  let s := { s with bci := s.nextBci }
  let code ← m.codeOrBpAt s.bci
  let l ← m.lengthForCode code
  if l > 0 ∧ intSum s.bci l ≤ s.endBci then
    return (some code, { s with isWide := false, nextBci := intSum s.nextBci l, code := some code })
  else if code = wide ∧ intSum s.bci 1 ≥ s.endBci then return (none, s)
  else s.rawNextSpecial m code

end RawBytecodeStream

/-! ## ClassVerifier::generate_code_data -/

inductive CodeData where
  | badInstruction (bci : Int)
  | marks (data : List CodeMark)
  deriving DecidableEq, Repr

variable (m : MethodCode)

/-- The loop of `generate_code_data`, without a result if the bound on its steps is used up. -/
def generateLoop : Nat → RawBytecodeStream → List CodeMark → Traced Access (Option CodeData)
  | 0, _, _ => return none
  | fuel + 1, s, data =>
    if s.isLastBytecode then return some (.marks data)
    else do
      let (code, s) ← s.rawNext m
      if code = none then return some (.badInstruction s.bci)
      else
        let mark := if s.code = some Bytecodes.new then CodeMark.newOffset else .bytecodeOffset
        let data ← Traced.access (.codeData s.bci) (data.set s.bci.toNat mark)
        generateLoop fuel s data

def generateCodeData (fuel : Nat) : Traced Access (Option CodeData) :=
  generateLoop m fuel (.new m) (List.replicate m.codeSize .unmarked)

end BytecodeStream

end Hotspot
