-- SUMMARY: The walkers over method descriptors: SignatureIterator and SignatureStream.
import Hotspot.Classfile.Descriptor

/-!
# Signature walkers

`SignatureIterator` and `SignatureStream` walk over a descriptor that the class file
parser has accepted, and do not check it again: an unexpected character is a fatal error,
and so is a read behind the end.
-/

namespace Hotspot

/-- What stops the virtual machine in the middle of a walk. -/
inductive Fault where
  | pastEnd
  | shouldNotReachHere
  | expecting (c : UChar)
  | diverges
  deriving DecidableEq, Repr

namespace Signature

/-- `_signature->byte_at(index)`. -/
def byteAt (sig : List UChar) (index : Nat) : Except Fault UChar :=
  match sig[index]? with
  | some c => .ok c
  | none => .error .pastEnd

/-- The number of bytes up to the first one that fails the test. -/
def countWhile (p : UChar → Bool) : List UChar → Except Fault Nat
  | [] => .error .pastEnd
  | c :: cs => if p c then (countWhile p cs).map (· + 1) else .ok 0

/-- `while (p(byte_at(index))) index++`. -/
def skipWhile (p : UChar → Bool) (sig : List UChar) (index : Nat) : Except Fault Nat :=
  (countWhile p (sig.drop index)).map (index + ·)

/-- `while (byte_at(index++) != c)`. -/
def skipPast (c : UChar) (sig : List UChar) (index : Nat) : Except Fault Nat :=
  (skipWhile (· ≠ c) sig index).map (· + 1)

def isDigit (c : UChar) : Bool := 0x30#8 ≤ c && c ≤ 0x39#8

/-- The further dimensions of an array: each bracket may be followed by a size. -/
def skipDims (skipSize : List UChar → Nat → Except Fault Nat) (sig : List UChar) :
    Nat → Nat → Except Fault Nat
  | 0, _ => throw .diverges
  | fuel + 1, index => do
    if (← byteAt sig index) = JvmSignature.array then
      skipDims skipSize sig fuel (← skipSize sig (index + 1))
    else return index

end Signature

open Signature

/-! ## SignatureIterator -/

/-- The virtual calls of a `SignatureIterator`. -/
inductive Call where
  | basic (t : BasicType)
  | object (begin stop : Nat)
  | array (begin stop : Nat)
  deriving DecidableEq, Repr

def Call.type : Call → BasicType
  | .basic t => t
  | .object _ _ => .object
  | .array _ _ => .array

/-- The fields of a `SignatureIterator`, and the calls it has made, each with the
parameter index at which it was made. The return type is unknown at first. -/
structure SignatureIterator where
  index : Nat
  parameterIndex : Int
  returnType : Option BasicType
  calls : List (Int × Call)
  deriving DecidableEq, Repr

namespace SignatureIterator

def init : SignatureIterator := ⟨0, 0, none, []⟩

def setIndex (this : SignatureIterator) (index : Nat) : SignatureIterator :=
  { this with index := index }

def setParameterIndex (this : SignatureIterator) (parameterIndex : Int) : SignatureIterator :=
  { this with parameterIndex := parameterIndex }

/-- One of the calls `do_bool` to `do_array`, with the steps that follow each of them. -/
def visit (this : SignatureIterator) (c : Call) (index : Nat) : SignatureIterator :=
  { this with
    index := index
    returnType := if this.parameterIndex < 0 then some c.type else this.returnType
    calls := this.calls ++ [(this.parameterIndex, c)] }

def expect (sig : List UChar) (c : UChar) (this : SignatureIterator) :
    Except Fault SignatureIterator := do
  if (← byteAt sig this.index) ≠ c then throw (.expecting c)
  return this.setIndex (this.index + 1)

def skipOptionalSize (sig : List UChar) (index : Nat) : Except Fault Nat := skipWhile isDigit sig index

/-- The element type of an array, behind the dimensions. -/
def skipElement (sig : List UChar) (index : Nat) : Except Fault Nat := do
  if (← byteAt sig index) = JvmSignature.cls then skipPast JvmSignature.endclass sig index
  else return index + 1

/-- Visit the type at the index. The result is its size. -/
def parseType (sig : List UChar) (this : SignatureIterator) :
    Except Fault (Nat × SignatureIterator) := do
  match char2type (← byteAt sig this.index) with
  | some .object =>
    let begin := this.index + 1
    let index ← skipPast JvmSignature.endclass sig begin
    return (BasicType.object.size, this.visit (.object begin index) index)
  | some .array =>
    let begin := this.index + 1
    let index ← skipOptionalSize sig begin
    let index ← skipDims skipOptionalSize sig (sig.length + 1) index
    let index ← skipElement sig index
    return (BasicType.array.size, this.visit (.array begin index) index)
  | some t => return (t.size, this.visit (.basic t) (this.index + 1))
  | none => throw .shouldNotReachHere

/-- `while (byte_at(_index) != ')') _parameter_index += parse_type()`. -/
def parameterLoop (sig : List UChar) : Nat → SignatureIterator → Except Fault SignatureIterator
  | 0, _ => throw .diverges
  | fuel + 1, this => do
    if (← byteAt sig this.index) ≠ JvmSignature.endfunc then
      let (size, this) ← parseType sig this
      parameterLoop sig fuel (this.setParameterIndex (this.parameterIndex + size))
    else return this

def iterateParameters (sig : List UChar) : Except Fault SignatureIterator := do
  let this ← init.expect sig JvmSignature.func
  let this ← parameterLoop sig (sig.length + 1) this
  let this ← this.expect sig JvmSignature.endfunc
  return this.setParameterIndex 0

/-- Characters behind the end of the return type are only reported. -/
def iterateReturntype (sig : List UChar) : Except Fault SignatureIterator := do
  let this ← init.expect sig JvmSignature.func
  let index ← skipWhile (· ≠ JvmSignature.endfunc) sig this.index
  let this ← (this.setIndex index).expect sig JvmSignature.endfunc
  let (_, this) ← parseType sig (this.setParameterIndex (-1))
  return this.setParameterIndex 0

def iterate (sig : List UChar) : Except Fault SignatureIterator := do
  let this ← init.expect sig JvmSignature.func
  let this ← parameterLoop sig (sig.length + 1) this
  let this ← this.expect sig JvmSignature.endfunc
  let (_, this) ← parseType sig (this.setParameterIndex (-1))
  return this.setParameterIndex 0

end SignatureIterator

/-- `ArgumentSizeComputer::size`: each call adds the size of its type. -/
def ArgumentSizeComputer.size (sig : List UChar) : Except Fault Nat := do
  let this ← SignatureIterator.iterateParameters sig
  return (this.calls.map fun c => c.2.type.size).sum

/-! ## SignatureStream -/

structure SignatureStream where
  begin : Nat
  stop : Nat
  type : Option BasicType
  atReturnType : Bool
  deriving DecidableEq, Repr

namespace SignatureStream

def isDone (sig : List UChar) (this : SignatureStream) : Bool := this.stop > sig.length

/-- `while (isDigit(c)) c = byte_at(_end++)`, where `_end` stays one behind: the number of
increments. -/
def countSize (c : UChar) : List UChar → Except Fault Nat
  | [] => if isDigit c then throw .pastEnd else return 0
  | c' :: cs => if isDigit c then (countSize c' cs).map (· + 1) else return 0

def skipSize (sig : List UChar) (stop : Nat) : Except Fault Nat := do
  return stop + (← countSize (← byteAt sig stop) (sig.drop stop))

/-- The element type of an array, behind the dimensions. -/
def skipElement (sig : List UChar) (stop : Nat) : Except Fault Nat := do
  match char2type (← byteAt sig stop) with
  | some .object | some .array | some .void | none => skipPast JvmSignature.endclass sig stop
  | some _ => return stop + 1

/-- `next` with `next_non_primitive`. -/
def next (sig : List UChar) : Nat → SignatureStream → Except Fault SignatureStream
  | 0, _ => throw .diverges
  | fuel + 1, this => do
    if this.stop ≥ sig.length then return { this with stop := sig.length + 1 }
    let this := { this with begin := this.stop }
    let t ← byteAt sig this.begin
    match char2type t with
    | some .object =>
      let stop ← skipPast JvmSignature.endclass sig this.stop
      return { this with type := some .object, stop := stop }
    | some .array =>
      let stop ← skipSize sig this.stop
      let stop ← skipDims skipSize sig (sig.length + 1) stop
      let stop ← skipElement sig stop
      return { this with type := some .array, stop := stop }
    | some t => return { this with type := some t, stop := this.stop + 1 }
    | none =>
      if t = JvmSignature.endfunc then
        let this ← next sig fuel { this with stop := this.stop + 1 }
        return { this with atReturnType := true }
      else throw .shouldNotReachHere

/-- The constructor, for a method signature. -/
def make (sig : List UChar) : Except Fault SignatureStream :=
  next sig (sig.length + 1) ⟨1, 1, none, false⟩

/-- `for (; !is_done(); next())`: all positions of the stream. -/
def walkFrom (sig : List UChar) : Nat → SignatureStream → Except Fault (List SignatureStream)
  | 0, _ => throw .diverges
  | fuel + 1, this => do
    if this.isDone sig then return []
    else return this :: (← walkFrom sig fuel (← next sig (sig.length + 1) this))

def walk (sig : List UChar) : Except Fault (List SignatureStream) := do
  walkFrom sig (sig.length + 1) (← make sig)

end SignatureStream

end Hotspot
