-- SUMMARY: Relocation records as half-words: bit fields, data, and their iterator.
import Hotspot.Base.JavaTypes
import Hotspot.Base.Buffer

/-!
# Relocation information

A relocation record is a half-word with a type, a format and the distance of its address
from that of the record before. Data of the relocation stand in front of it, in a prefix that
holds either one small number or a count of further half-words. Records of type `none` are
filler.

The iterator is modelled without the relocation index: `UseRelocIndex` is off, and the
constructor of a `CodeBlob` insists on that.
-/

namespace Hotspot.Asm

/-- The machines of the virtual machine, as far as relocation records depend on them. -/
inductive Platform where
  | x86
  | amd64
  | sparc
  | sparcv9
  deriving DecidableEq, Repr

namespace Platform

def offsetUnit : Platform → Nat
  | x86 | amd64 => 1
  | sparc | sparcv9 => 4

def formatWidth : Platform → Nat
  | x86 => 1
  | amd64 => 2
  | sparc => 0
  | sparcv9 => 1

def bytesPerWord : Platform → Nat
  | x86 | sparc => 4
  | amd64 | sparcv9 => 8

end Platform

inductive RelocType where
  | none
  | oop
  | virtualCall
  | optVirtualCall
  | staticCall
  | staticStub
  | runtimeCall
  | externalWord
  | internalWord
  | sectionWord
  | poll
  | pollReturn
  | breakpoint
  | yetUnused
  | yetUnused2
  | dataPrefixTag
  deriving DecidableEq, Repr

namespace RelocType

def code : RelocType → Nat
  | none => 0
  | oop => 1
  | virtualCall => 2
  | optVirtualCall => 3
  | staticCall => 4
  | staticStub => 5
  | runtimeCall => 6
  | externalWord => 7
  | internalWord => 8
  | sectionWord => 9
  | poll => 10
  | pollReturn => 11
  | breakpoint => 12
  | yetUnused => 13
  | yetUnused2 => 14
  | dataPrefixTag => 15

/-- The type with a code of four bits. -/
def ofCode : Nat → RelocType
  | 0 => none
  | 1 => oop
  | 2 => virtualCall
  | 3 => optVirtualCall
  | 4 => staticCall
  | 5 => staticStub
  | 6 => runtimeCall
  | 7 => externalWord
  | 8 => internalWord
  | 9 => sectionWord
  | 10 => poll
  | 11 => pollReturn
  | 12 => breakpoint
  | 13 => yetUnused
  | 14 => yetUnused2
  | _ => dataPrefixTag

@[simp]
theorem ofCode_code (t : RelocType) : ofCode t.code = t := by
  cases t <;> rfl

theorem code_lt (t : RelocType) : t.code < 16 := by
  cases t <;> decide

end RelocType

/-! ## relocInfo -/

def nontypeWidth : Nat := 12
def datalenWidth : Nat := nontypeWidth - 1
def datalenTag : Nat := 1 <<< datalenWidth
def datalenLimit : Nat := 1 <<< datalenWidth
def datalenMask : Nat := (1 <<< datalenWidth) - 1

namespace Platform

variable (p : Platform)

def offsetWidth : Nat := nontypeWidth - p.formatWidth
def offsetMask : Nat := (1 <<< p.offsetWidth) - 1
def formatMask : Nat := (1 <<< p.formatWidth) - 1
def offsetLimit : Nat := (1 <<< p.offsetWidth) * p.offsetUnit

/-- An estimate of the length of a record: a prefix, its count, three words, and the record. -/
def lengthLimit : Nat := 1 + 1 + 3 * p.bytesPerWord / 2 + 1

end Platform

/-- A half-word of relocation information. -/
abbrev RelocInfo := BitVec 16

namespace RelocInfo

/-- The constructor from `RAW_BITS`. -/
def ofBits (type : RelocType) (bits : Nat) : RelocInfo :=
  BitVec.ofNat 16 ((type.code <<< nontypeWidth) + bits)

def ofOffset (p : Platform) (type : RelocType) (offset format : Nat) : RelocInfo :=
  BitVec.ofNat 16
    ((type.code <<< nontypeWidth) + offset / p.offsetUnit + (format <<< p.offsetWidth))

variable (this : RelocInfo)

def type : RelocType := RelocType.ofCode (this.toNat >>> nontypeWidth)

def format (p : Platform) : Nat :=
  if p.formatMask = 0 then 0 else p.formatMask &&& (this.toNat >>> p.offsetWidth)

def addrOffset (p : Platform) : Nat := (this.toNat &&& p.offsetMask) * p.offsetUnit

def isPrefix : Bool := this.type = .dataPrefixTag

def isDatalen : Bool := this.toNat &&& datalenTag ≠ 0

def datalen : Nat := this.toNat &&& datalenMask

def immediate : JShort := BitVec.ofNat 16 (this.toNat &&& datalenMask)

end RelocInfo

def fillerRelocInfo (p : Platform) : RelocInfo :=
  .ofOffset p .none (p.offsetLimit - p.offsetUnit) 0

def prefixRelocInfo (datalen : Nat) : RelocInfo := .ofBits .dataPrefixTag (datalenTag ||| datalen)

def immediateRelocInfo (data0 : JShort) : RelocInfo := .ofBits .dataPrefixTag data0.toNat

def fitsIntoImmediate (data0 : JShort) : Bool := 0 ≤ data0.toInt ∧ data0.toInt < datalenLimit

/-! ## Packing of data -/

/-- What a relocation keeps in its prefix. -/
inductive DataKind where
  | noData
  | oneInt
  | twoInts
  deriving DecidableEq, Repr

inductive RelocData where
  | noData
  | oneInt (x0 : JInt)
  | twoInts (x0 x1 : JInt)
  deriving DecidableEq, Repr

def RelocData.kind : RelocData → DataKind
  | .noData => .noData
  | .oneInt _ => .oneInt
  | .twoInts .. => .twoInts

/-- The data of each type of relocation. A breakpoint has a layout of its own, and the types
that are not used have none. -/
def Platform.dataKind (p : Platform) : RelocType → Option DataKind
  | .none | .optVirtualCall | .staticCall | .runtimeCall | .poll | .pollReturn => some .noData
  | .staticStub | .internalWord | .sectionWord => some .oneInt
  | .oop | .virtualCall => some .twoInts
  -- an address takes one or two ints
  | .externalWord => some (if p.bytesPerWord = 8 then .twoInts else .oneInt)
  | .breakpoint | .yetUnused | .yetUnused2 | .dataPrefixTag => none

structure Relocation (p : Platform) where
  type : RelocType
  data : RelocData
  kind_eq : p.dataKind type = some data.kind

def data0FromInt (x : JInt) : JShort := (x.sshiftRight 16).setWidth 16

def data1FromInt (x : JInt) : JShort := x.setWidth 16

def isShort (x : JInt) : Bool := x = (x.setWidth 16).signExtend 32

section Pack

open BufferM

def addShort (x : JInt) : BufferM RelocInfo Unit := push (x.setWidth 16)

def addJint (x : JInt) : BufferM RelocInfo Unit := do
  push (data0FromInt x)
  push (data1FromInt x)

def addVarInt (x : JInt) : BufferM RelocInfo Unit := if isShort x then addShort x else addJint x

def pack1IntTo (x0 : JInt) : BufferM RelocInfo Unit := if x0 ≠ 0 then addVarInt x0 else pure ()

def pack2IntsTo (x0 x1 : JInt) : BufferM RelocInfo Unit :=
  if x0 = 0 ∧ x1 = 0 then pure ()
  else if isShort x0 ∧ isShort x1 then do
    addShort x0
    if x1 ≠ 0 then addShort x1 else pure ()
  else do
    addJint x0
    addVarInt x1

def packDataTo : RelocData → BufferM RelocInfo Unit
  | .noData => pure ()
  | .oneInt x0 => pack1IntTo x0
  | .twoInts x0 x1 => pack2IntsTo x0 x1

/-- `relocInfo::finish_prefix` for the half-word at `this`. It returns the new end of the prefix. -/
def finishPrefix (this prefixLimit : Nat) : BufferM RelocInfo Nat := do
  let plen := prefixLimit - (this + 1)
  if plen = 0 then
    return this
  let p0 ← read (this + 1)
  if plen = 1 ∧ fitsIntoImmediate p0 then
    rewrite this (immediateRelocInfo p0)
    return this + 1
  rewrite this (prefixRelocInfo plen)
  return prefixLimit

/-- The end of `relocInfo::initialize` for the half-word at `this`, once its data are packed. -/
def finishReloc (this : Nat) : BufferM RelocInfo Unit := do
  let dataLimit ← size
  if dataLimit > this + 1 then
    let suffix ← read this
    let dataLimit ← finishPrefix this dataLimit
    truncate dataLimit
    push suffix

/-- `relocInfo::initialize` for the half-word at `this`, the last one written. -/
def initializeReloc (this : Nat) (data : RelocData) : BufferM RelocInfo Unit := do
  packDataTo data
  finishReloc this

end Pack

section Unpack

def shortDataAt (n : Nat) (data : List JShort) : JInt :=
  if data.length > n then (data.getD n 0).signExtend 32 else 0

def jintFromData (data0 data1 : JShort) : JInt :=
  (data0.signExtend 32 <<< 16) + data1.setWidth 32

def jintDataAt (n : Nat) (data : List JShort) : JInt :=
  if data.length > n + 1 then jintFromData (data.getD n 0) (data.getD (n + 1) 0)
  else shortDataAt n data

def unpack1Int (data : List JShort) : RelocData := .oneInt (jintDataAt 0 data)

def unpack2Ints (data : List JShort) : RelocData :=
  if data.length ≤ 2 then .twoInts (shortDataAt 0 data) (shortDataAt 1 data)
  else .twoInts (jintDataAt 0 data) (jintDataAt 2 data)

def unpackData : DataKind → List JShort → RelocData
  | .noData, _ => .noData
  | .oneInt, data => unpack1Int data
  | .twoInts, data => unpack2Ints data

end Unpack

/-! ## RelocIterator -/

/-- What an iterator shows of its current record. -/
structure Located where
  addr : Nat
  type : RelocType
  format : Nat
  data : List JShort
  deriving DecidableEq, Repr

/-- An iterator, with the half-words between its current one and the end. -/
structure RelocIterator where
  rest : List RelocInfo
  addr : Nat
  limit : Option Nat
  deriving DecidableEq, Repr

namespace RelocIterator

variable (p : Platform)

/-- The data of a prefix and what follows it; nothing if the data would go past the end. -/
def advanceOverPrefix (current : RelocInfo) (rest : List RelocInfo) :
    Option (List JShort × List RelocInfo) :=
  if current.isDatalen then
    if current.datalen ≤ rest.length then
      some (rest.take current.datalen, rest.drop current.datalen)
    else none
  else some ([current.immediate], rest)

def pastLimit (limit : Option Nat) (addr : Nat) : Bool :=
  match limit with
  | none => false
  | some limit => addr ≥ limit

/-- Go to the record at `current`, which has these data. -/
def settle (this : RelocIterator) (data : List JShort) (current : RelocInfo)
    (rest : List RelocInfo) : Option Located × RelocIterator :=
  let addr := this.addr + current.addrOffset p
  let this := { this with rest := rest, addr := addr }
  if pastLimit this.limit addr then (none, this)
  else (some ⟨addr, current.type, current.format p, data⟩, this)

/-- The next record, if there is one. There is no result if the iterator overruns its end. -/
def next (this : RelocIterator) : Option (Option Located × RelocIterator) :=
  match this.rest with
  | [] => some (none, this)
  | current :: rest =>
    if current.isPrefix then
      match advanceOverPrefix current rest with
      | none => none
      | some (_, []) => none
      | some (data, current :: rest) => some (this.settle p data current rest)
    else some (this.settle p [] current rest)

/-- The loop of `set_limits` that goes to the last state before the first record at `begin`. -/
def skipTo (begin : Nat) : Nat → RelocIterator → Option RelocIterator
  | 0, _ => none
  | fuel + 1, backup => do
    let (current, this) ← backup.next p
    match current with
    | none => some backup
    | some current => if current.addr ≥ begin then some backup else skipTo begin fuel this

def setLimits (this : RelocIterator) (begin limit : Option Nat) : Option RelocIterator :=
  let this := { this with limit := limit }
  match begin with
  | none => some this
  | some begin => skipTo p begin (this.rest.length + 1) this

/-- `while (iter.next())`. -/
def toList : Nat → RelocIterator → Option (List Located)
  | 0, _ => none
  | fuel + 1, this => do
    let (current, this) ← this.next p
    match current with
    | none => some []
    | some current => return current :: (← toList fuel this)

/-- All records of an array of half-words that belongs to the code at `start`. -/
def records (words : List RelocInfo) (start : Nat) (begin limit : Option Nat) :
    Option (List Located) := do
  let this ← setLimits p ⟨words, start, none⟩ begin limit
  toList p (words.length + 1) this

end RelocIterator

end Hotspot.Asm
