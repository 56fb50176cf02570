-- SUMMARY: The reader of the StackMapTable attribute: stream, types, frames, table.
import Hotspot.Base.Decoder
import Hotspot.Classfile.VerificationType
import Hotspot.Interpreter.BytecodeStream

/-!
# StackMapTable

The attribute starts with the number of its frames. A frame is given by its difference to the
frame before it: the locals are kept, chopped, appended to or replaced.

Most errors do not stop the reader at once: a read beyond the end of the attribute yields 0 and
leaves an exception pending, and some loops run to their end before the exception is noticed.
Each access to an array of types is checked in the model, and a fault stands for an access
outside of the array or to a cell that was never written.
-/

namespace Hotspot

namespace VerificationType

/-- `BciForThis`. -/
def bciForThis : JChar := 0xFFFF

abbrev uninitializedThis : VerificationType := .uninitialized bciForThis

def isUninitializedThis (t : VerificationType) : Bool := t = uninitializedThis

def toCategory2Second (t : VerificationType) : VerificationType :=
  if t = .long then .long2 else .double2

end VerificationType

namespace StackMap

/-! ## Errors and the stream -/

/-- The first five are thrown as exceptions, the others are kept by the verifier. -/
inductive StackMapError where
  | accessBeyondEnd
  | badClassIndex
  | badVerificationType
  | reservedFrameType
  | wrongAttributeSize
  | badUninitializedOffset
  | badTypeArraySize
  | badOffset
  deriving DecidableEq, Repr

/-- An access that the program must not make. -/
inductive Fault where
  | outOfBounds (index : Int)
  | notWritten (index : Int)
  deriving DecidableEq, Repr

abbrev ReadM := Decoder UChar StackMapError Fault

open Decoder

def getU1 : ReadM UChar := token .accessBeyondEnd 0

/-- Two bytes, the high one first. None of them is taken if there are not two. -/
def getU2 : ReadM JChar := fun s =>
  match s.rest with
  | hi :: lo :: rest => .ok (hi ++ lo, ⟨rest, s.errors⟩)
  | _ => .ok (0, ⟨s.rest, s.errors ++ [.accessBeyondEnd]⟩)

/-! ## Arrays of types -/

/-- An array of types; a cell that was never written is `none`. There is no cell at `NULL`. -/
abbrev TypeArray := List (Option VerificationType)

namespace TypeArray

def alloc (n : Nat) : TypeArray := List.replicate n none

def read (a : TypeArray) (i : Int) : Except Fault VerificationType :=
  if i < 0 then .error (.outOfBounds i)
  else
    match a[i.toNat]? with
    | none => .error (.outOfBounds i)
    | some none => .error (.notWritten i)
    | some (some t) => .ok t

def write (a : TypeArray) (i : Nat) (t : VerificationType) : Except Fault TypeArray :=
  if i < a.length then .ok (a.set i (some t)) else .error (.outOfBounds i)

/-- The loop of `copy_locals`. -/
def copy (src dst : TypeArray) : Nat → Except Fault TypeArray
  | 0 => pure dst
  | n + 1 => do
    let dst ← copy src dst n
    dst.write n (← src.read n)

end TypeArray

/-! ## Frames and the method -/

/-- `FLAG_THIS_UNINIT`. -/
def flagThisUninit : UChar := 0x01

structure StackMapFrame where
  offset : Nat
  flags : UChar
  localsSize : Nat
  stackSize : Nat
  maxLocals : Nat
  maxStack : Nat
  locals : TypeArray
  stack : TypeArray
  deriving DecidableEq, Repr

/-- What the reader looks at in the constant pool. -/
inductive ConstantPoolEntry where
  | klass (name : Symbol)
  | unresolvedKlass (name : Symbol)
  | other

/-- The method whose attribute is read. The class file parser bounds the length of its code. -/
structure MethodContext where
  constants : List ConstantPoolEntry
  codeData : List CodeMark
  codeLength_le : codeData.length ≤ 65535
  maxLocals : JChar
  maxStack : JChar

namespace MethodContext

variable (m : MethodContext)

/-- The name of the class at an index, if the entry at the index is a class. -/
def klassNameAt (index : JChar) : Option Symbol :=
  if index.toNat = 0 then none
  else
    match m.constants[index.toNat]? with
    | some (.klass name) | some (.unresolvedKlass name) => some name
    | _ => none

/-- The mark of a byte of the code. -/
def markAt (offset : Nat) : CodeMark := (m.codeData[offset]?).getD .unmarked

/-- The constructor for the frames of the table; it takes the sizes as `u2`. -/
def frame (offset : Nat) (flags : UChar) (localsSize stackSize : Nat) (locals stack : TypeArray) :
    StackMapFrame where
  offset := offset
  flags := flags
  localsSize := localsSize % 65536
  stackSize := stackSize % 65536
  maxLocals := m.maxLocals.toNat
  maxStack := m.maxStack.toNat
  locals := locals
  stack := stack

end MethodContext

/-! ## The initial frame -/

/-- `vmSymbols::object_initializer_name()`. -/
def objectInitializerName : Symbol := [0x3C, 0x69, 0x6E, 0x69, 0x74, 0x3E]

/-- `SignatureStream::as_symbol`, on the text of one type. -/
def asSymbol (text : List UChar) : Symbol :=
  if text.head? = some JvmSignature.cls ∧ text.getLast? = some JvmSignature.endclass then
    (text.drop 1).dropLast
  else text

/-- `change_sig_to_verificationType`: the type of a parameter. -/
def parameterType (f : FieldType) : VerificationType :=
  match f.type with
  | .object | .array => .reference (asSymbol f.text)
  | .long => .long
  | .double => .double
  | .float => .float
  | _ => .integer

/-- Its writes, and the number of cells that they take. -/
def changeSigToVerificationType (f : FieldType) (locals : TypeArray) (i : Nat) :
    Except Fault (TypeArray × Nat) := do
  let t := parameterType f
  let locals ← locals.write i t
  if t.isCategory2 then return (← locals.write (i + 1) t.toCategory2Second, 2)
  else return (locals, 1)

/-- The loop of `set_locals_from_arg`. -/
def setParameters : List FieldType → TypeArray → Nat → Except Fault (TypeArray × Nat)
  | [], locals, initLocalNum => return (locals, initLocalNum)
  | f :: params, locals, initLocalNum => do
    let (locals, n) ← changeSigToVerificationType f locals initLocalNum
    setParameters params locals (initLocalNum + n)

/-- What the initial frame depends on. -/
structure MethodHeader where
  isStatic : Bool
  name : Symbol
  holder : Symbol
  params : List FieldType

/-- The type of the receiver in the initial frame. -/
def MethodHeader.thisType (h : MethodHeader) : VerificationType :=
  if h.name = objectInitializerName ∧ h.holder ≠ javaLangObject then .uninitializedThis
  else .reference h.holder

/-- The frame at the entry of a method, as the constructor and `set_locals_from_arg` leave it. -/
def setLocalsFromArg (m : MethodContext) (h : MethodHeader) : Except Fault StackMapFrame := do
  let locals : TypeArray := List.replicate m.maxLocals.toNat (some .bogus)
  let stack : TypeArray := List.replicate m.maxStack.toNat (some .bogus)
  if h.isStatic then do
    let (locals, size) ← setParameters h.params locals 0
    return { m.frame 0 0 0 0 locals stack with localsSize := size }
  else do
    let locals ← locals.write 0 h.thisType
    let flags := if h.thisType = .uninitializedThis then flagThisUninit else 0
    let (locals, size) ← setParameters h.params locals 1
    return { m.frame 0 flags 0 0 locals stack with localsSize := size }

/-! ## StackMapReader -/

/-- `VerificationType::from_tag`, for the tags below `ITEM_UninitializedThis`. -/
def fromTag (tag : UChar) : VerificationType :=
  match tag.toNat with
  | 1 => .integer
  | 2 => .float
  | 3 => .double
  | 4 => .long
  | 5 => .null
  | _ => .bogus

namespace StackMapReader

/-- The loop of `chop`; of the iterations `n` are left. -/
def chopLoop (locals : TypeArray) : Nat → Int → Except Fault Int
  | 0, pos => return pos + 1
  | n + 1, pos => do
    let t ← locals.read pos
    let pos := if t.isCategory2Second then pos - 2 else pos - 1
    if pos < 0 ∧ 0 < n then return -1
    else chopLoop locals n pos

/-- The number of cells that stay when the last `chops` values are dropped. -/
def chop (locals : TypeArray) (length : Nat) (chops : Nat) : Except Fault Int :=
  chopLoop locals chops (length - 1)

/-- The loop that sets the flags anew after values were chopped. -/
def flagsOfLocals (locals : TypeArray) : Nat → Nat → Except Fault UChar
  | 0, _ => return 0
  | n + 1, i => do
    if (← locals.read i).isUninitializedThis then return flagThisUninit
    else flagsOfLocals locals n (i + 1)

def checkVerificationTypeArraySize (size : Int) (maxSize : JChar) : ReadM Unit :=
  if size < 0 ∨ maxSize.toNat < size then report .badTypeArraySize else pure ()

variable (m : MethodContext)

/-- The type that is read, and the flags; callers that pass no flags ignore them. -/
def parseVerificationType (flags : UChar) : ReadM (VerificationType × UChar) := do
  let tag ← getU1
  if tag.toNat < 6 then return (fromTag tag, flags)
  else if tag.toNat = 7 then do
    let classIndex ← getU2
    match m.klassNameAt classIndex with
    | none => do
      report .badClassIndex
      return (.bogus, flags)
    | some name => return (.reference name, flags)
  else if tag.toNat = 6 then return (.uninitializedThis, flags ||| flagThisUninit)
  else if tag.toNat = 8 then do
    let offset ← getU2
    if m.markAt offset.toNat = .newOffset then return (.uninitialized offset, flags)
    else do
      report .badUninitializedOffset
      return (.bogus, flags)
  else do
    report .badVerificationType
    return (.bogus, flags)

/-- The loop over the types of an array: a value of two words takes two cells. -/
def parseTypes : Nat → TypeArray → Nat → UChar → ReadM (TypeArray × Nat × UChar)
  | 0, types, size, flags => return (types, size, flags)
  | n + 1, types, size, flags => do
    let (t, flags) ← parseVerificationType m flags
    let types ← types.write size t
    if t.isCategory2 then do
      let types ← types.write (size + 1) t.toCategory2Second
      parseTypes n types (size + 2) flags
    else parseTypes n types (size + 1) flags

/-- The locals of a frame that keeps some of those of the frame before it. They are shared,
except with the first frame, which the verifier updates. -/
def keepLocals (preFrame : StackMapFrame) (first : Bool) (newLength : Nat) :
    Except Fault TypeArray :=
  if first then
    TypeArray.copy preFrame.locals (TypeArray.alloc newLength) (min preFrame.localsSize newLength)
  else return preFrame.locals

def sameFrame (preFrame : StackMapFrame) (first : Bool) (offset : Nat) :
    ReadM (Option StackMapFrame) := do
  let locals ← keepLocals preFrame first preFrame.localsSize
  return some (m.frame offset preFrame.flags preFrame.localsSize 0 locals [])

def sameLocals1StackItemFrame (preFrame : StackMapFrame) (first : Bool) (offset : Nat) :
    ReadM (Option StackMapFrame) := do
  let (stack, stackSize, _) ← parseTypes m 1 (TypeArray.alloc 2) 0 0
  unlessError do
    checkVerificationTypeArraySize stackSize m.maxStack
    unlessError do
      let locals ← keepLocals preFrame first preFrame.localsSize
      return some (m.frame offset preFrame.flags preFrame.localsSize stackSize locals stack)

/-- A chop frame, or a same frame with a wide offset if there is nothing to chop. -/
def chopFrame (preFrame : StackMapFrame) (first : Bool) (chops offset : Nat) :
    ReadM (Option StackMapFrame) :=
  if chops = 0 then sameFrame m preFrame first offset
  else do
    let newLength ← chop preFrame.locals preFrame.localsSize chops
    checkVerificationTypeArraySize newLength m.maxLocals
    unlessError do
      let flags ← flagsOfLocals preFrame.locals newLength.toNat 0
      let locals ← keepLocals preFrame first newLength.toNat
      return some (m.frame offset flags newLength.toNat 0 locals [])

def appendFrame (preFrame : StackMapFrame) (appends offset : Nat) :
    ReadM (Option StackMapFrame) := do
  let locals ← TypeArray.copy preFrame.locals
    (TypeArray.alloc (preFrame.localsSize + appends * 2)) preFrame.localsSize
  let (locals, realLength, flags) ←
    parseTypes m appends locals preFrame.localsSize preFrame.flags
  checkVerificationTypeArraySize realLength m.maxLocals
  unlessError do
    return some (m.frame offset flags realLength 0 locals [])

def fullFrame (offset : Nat) : ReadM (Option StackMapFrame) := do
  let localsSize ← getU2
  let (locals, realLocalsSize, flags) ←
    parseTypes m localsSize.toNat (TypeArray.alloc (localsSize.toNat * 2)) 0 0
  checkVerificationTypeArraySize realLocalsSize m.maxLocals
  unlessError do
    let stackSize ← getU2
    let (stack, realStackSize, _) ←
      parseTypes m stackSize.toNat (TypeArray.alloc (stackSize.toNat * 2)) 0 0
    checkVerificationTypeArraySize realStackSize m.maxStack
    unlessError do
      return some (m.frame offset flags realLocalsSize realStackSize locals stack)

/-- The offset of a frame: the deltas of all but the first leave out the byte they start from. -/
def offsetFrom (preFrame : StackMapFrame) (first : Bool) (delta : Nat) : Nat :=
  if first then delta else preFrame.offset + delta + 1

/-- The frames whose first byte is 128 or more have an offset of two bytes. -/
def extendedFrame (preFrame : StackMapFrame) (first : Bool) (frameType : Nat) :
    ReadM (Option StackMapFrame) := do
  let offsetDelta ← getU2
  let offset := offsetFrom preFrame first offsetDelta.toNat
  if frameType < 247 then do
    report .reservedFrameType
    return none
  else if frameType = 247 then sameLocals1StackItemFrame m preFrame first offset
  else if frameType ≤ 251 then chopFrame m preFrame first (251 - frameType) offset
  else if frameType < 255 then appendFrame m preFrame (frameType - 251) offset
  else fullFrame m offset

/-- The rest of `next`, by the first byte of the frame. -/
def nextOfType (preFrame : StackMapFrame) (first : Bool) (frameType : Nat) :
    ReadM (Option StackMapFrame) :=
  if frameType < 64 then sameFrame m preFrame first (offsetFrom preFrame first frameType)
  else if frameType < 128 then
    sameLocals1StackItemFrame m preFrame first (offsetFrom preFrame first (frameType - 64))
  else extendedFrame m preFrame first frameType

def next (preFrame : StackMapFrame) (first : Bool) : ReadM (Option StackMapFrame) := do
  let frameType ← getU1
  nextOfType m preFrame first frameType.toNat

def checkEnd : ReadM Unit := atEnd .wrongAttributeSize

end StackMapReader

/-! ## StackMapTable -/

open StackMapReader

variable (m : MethodContext)

/-- The loop over the frames. There is no result if it was left because of an error. -/
def readFrames : Nat → Bool → StackMapFrame → ReadM (Option (List StackMapFrame))
  | 0, _, _ => return some []
  | n + 1, first, preFrame => do
    let frame ← next m preFrame first
    unlessError do
      match frame with
      | none => return none
      | some frame =>
        if m.markAt frame.offset = .unmarked then do
          report .badOffset
          return none
        else do
          let frames ← readFrames n false frame
          return frames.map (frame :: ·)

/-- The reader and the table for a method that has the attribute. -/
def stackMapTable (initFrame : StackMapFrame) : ReadM (Option (List StackMapFrame)) := do
  let frameCount ← getU2
  match ← readFrames m frameCount.toNat true initFrame with
  | none => return none
  | some frames => do
    checkEnd
    return some frames

/-- The errors that were reported, and the frames. -/
def readStackMapTable (initFrame : StackMapFrame) (data : List UChar) :
    Except Fault (List StackMapError × List StackMapFrame) := do
  let (frames, s) ← (stackMapTable m initFrame).run ⟨data, []⟩
  return (s.errors, frames.getD [])

end StackMap

end Hotspot
