-- SUMMARY: The layout of instance fields and the oop maps, as the parser computes them.
import Mathlib

/-!
# Field layout

The fields of a class follow those of its superclass, in the order of their sizes. If the first
long or double needs to be aligned, smaller fields are put into the gap. The oop map blocks tell the
collector where the references are.

Static fields and the bookkeeping of `PrintCompactFieldsSavings` are left out.
-/

namespace Hotspot.FieldLayout

/-! ## Arithmetic -/

/-- What is left of a value when it is stored. -/
structure Arithmetic where
  int : Int → Int
  ushort : Int → Int

/-- The types `int` and `u2` of the code. -/
def Arithmetic.machine : Arithmetic := ⟨fun x => x.bmod (2 ^ 32), fun x => x % 2 ^ 16⟩

/-- Integers without bounds. -/
def Arithmetic.exact : Arithmetic := ⟨id, id⟩

/-- `align_size_up` for a power of two -/
def alignSizeUp (x : Int) (alignment : Nat) : Int := (x + (alignment - 1)) / alignment * alignment

/-! ## The configuration -/

inductive RefWidth where
  | word32
  | word64
  | compressed
deriving DecidableEq, Repr

namespace RefWidth

def heapOopSize : RefWidth → Nat
  | word32 => 4
  | word64 => 8
  | compressed => 4

def wordSize : RefWidth → Nat
  | word32 => 4
  | word64 => 8
  | compressed => 8

/-- `instanceOopDesc::base_offset_in_bytes` -/
def baseOffset : RefWidth → Nat
  | word32 => 8
  | word64 => 16
  | compressed => 12

/-- In words. -/
def minObjAlignment (width : RefWidth) : Nat := 8 / width.wordSize

end RefWidth

structure Flags where
  width : RefWidth
  fieldsAllocationStyle : Int
  compactFields : Bool
deriving DecidableEq, Repr

/-- The allocation types of instance fields. -/
inductive FieldKind where
  | oop
  | byte
  | short
  | word
  | double
deriving DecidableEq, Repr

def FieldKind.size (width : RefWidth) : FieldKind → Nat
  | oop => width.heapOopSize
  | byte => 1
  | short => 2
  | word => 4
  | double => 8

/-- The instance fields that a class file declares. -/
structure ClassFields where
  fields : List FieldKind
  /-- `java.lang.Class` has fake reference fields before the declared ones. -/
  isJavaLangClass : Bool
  /-- One of the other classes with hard-coded field offsets. -/
  hasHardCodedOffsets : Bool
  legal : fields.length < 2 ^ 16

namespace ClassFields

variable (cf : ClassFields)

def fakeOopFields : Nat := if cf.isJavaLangClass then 3 else 0

def usesDefaultOrder : Bool := cf.isJavaLangClass || cf.hasHardCodedOffsets

def allocationStyle (flags : Flags) : Nat :=
  let style :=
    if flags.fieldsAllocationStyle < 0 || 1 < flags.fieldsAllocationStyle then 1
    else flags.fieldsAllocationStyle.toNat
  if cf.usesDefaultOrder then 0 else style

def compactFields (flags : Flags) : Bool :=
  if cf.usesDefaultOrder then false else flags.compactFields

end ClassFields

section Layout

variable (ar : Arithmetic)

/-! ## The start offsets -/

/-- Where the next fields of a kind go: first into the gap, then into the section of the kind. -/
structure Cursor where
  spaceCount : Nat
  spaceOffset : Int
  nextOffset : Int
deriving DecidableEq, Repr

/-- The real offset of the next field. -/
def Cursor.take (size : Nat) (c : Cursor) : Int × Cursor :=
  if 0 < c.spaceCount then
    (c.spaceOffset,
      { c with spaceCount := c.spaceCount - 1, spaceOffset := ar.int (c.spaceOffset + size) })
  else (c.nextOffset, { c with nextOffset := ar.int (c.nextOffset + size) })

/-- The loops that put fields into the gap: how many fit. -/
def fillSpace (size : Nat) : Nat → Nat → Nat
  | _, 0 => 0
  | length, count + 1 => if size ≤ length then 1 + fillSpace size (length - size) count else 0

/-- The fields in the gap before the first long or double. -/
structure Gap where
  count : FieldKind → Nat
  offset : FieldKind → Int

def Gap.empty : Gap := ⟨fun _ => 0, fun _ => 0⟩

/-- A word, or shorts and bytes, or if there are none of them a reference. -/
def fillGap (heapOopSize style : Nat) (offset : Int) (length : Nat) (count : FieldKind → Nat) :
    Gap :=
  let words := if 0 < count .word then 1 else 0
  let shortLength := length - words * 4
  let shortOffset := ar.int (offset + words * 4)
  let shorts := fillSpace 2 shortLength (count .short)
  let byteLength := shortLength - shorts * 2
  let byteOffset := ar.int (shortOffset + shorts * 2)
  let bytes := fillSpace 1 byteLength (count .byte)
  -- the offset is not advanced over the bytes
  let oopLength := byteLength - bytes
  let oops := if heapOopSize ≤ oopLength && 0 < count .oop && style != 0 then 1 else 0
  { count := fun
      | .word => words
      | .short => shorts
      | .byte => bytes
      | .oop => oops
      | .double => 0
    offset := fun
      | .word => offset
      | .short => shortOffset
      | .byte => byteOffset
      | .oop => byteOffset
      | .double => 0 }

structure Starts where
  cursor : FieldKind → Cursor
  notalignedOffset : Int

/-! The sections of the kinds, with the references first or last, by the allocation style. -/

section Starts

variable (heapOopSize style : Nat) (compactFields : Bool) (nextFieldOffset : Int)
  (count : FieldKind → Nat)

/-- Where the longs and doubles go, if that is aligned. -/
def beforeDoubles : Int :=
  if style = 0 then ar.int (nextFieldOffset + count .oop * heapOopSize) else nextFieldOffset

def doubleOffset : Int :=
  let offset := beforeDoubles ar heapOopSize style nextFieldOffset count
  if 0 < count .double then ar.int (alignSizeUp offset 8) else offset

def gapBeforeDoubles : Gap :=
  let offset := beforeDoubles ar heapOopSize style nextFieldOffset count
  let doubles := doubleOffset ar heapOopSize style nextFieldOffset count
  if 0 < count .double && compactFields && offset != doubles then
    fillGap ar heapOopSize style offset (ar.int (doubles - offset)).toNat count
  else Gap.empty

/-- The fields of a kind that are not in the gap. -/
def left (kind : FieldKind) : Nat :=
  count kind - (gapBeforeDoubles ar heapOopSize style compactFields nextFieldOffset count).count
    kind

def wordOffset : Int :=
  ar.int (doubleOffset ar heapOopSize style nextFieldOffset count + count .double * 8)

def shortOffset : Int :=
  ar.int (wordOffset ar heapOopSize style nextFieldOffset count +
    left ar heapOopSize style compactFields nextFieldOffset count .word * 4)

def byteOffset : Int :=
  ar.int (shortOffset ar heapOopSize style compactFields nextFieldOffset count +
    left ar heapOopSize style compactFields nextFieldOffset count .short * 2)

def bytesEnd : Int :=
  ar.int (byteOffset ar heapOopSize style compactFields nextFieldOffset count +
    left ar heapOopSize style compactFields nextFieldOffset count .byte)

def oopOffset : Int :=
  let offset := bytesEnd ar heapOopSize style compactFields nextFieldOffset count
  if style = 0 then nextFieldOffset
  else if 0 < left ar heapOopSize style compactFields nextFieldOffset count .oop then
    ar.int (alignSizeUp offset heapOopSize)
  else offset

def nextOffset : FieldKind → Int
  | .oop => oopOffset ar heapOopSize style compactFields nextFieldOffset count
  | .double => doubleOffset ar heapOopSize style nextFieldOffset count
  | .word => wordOffset ar heapOopSize style nextFieldOffset count
  | .short => shortOffset ar heapOopSize style compactFields nextFieldOffset count
  | .byte => byteOffset ar heapOopSize style compactFields nextFieldOffset count

def computeStarts : Starts :=
  let gap := gapBeforeDoubles ar heapOopSize style compactFields nextFieldOffset count
  { cursor := fun kind =>
      ⟨gap.count kind, gap.offset kind,
        nextOffset ar heapOopSize style compactFields nextFieldOffset count kind⟩
    notalignedOffset :=
      if style = 0 then bytesEnd ar heapOopSize style compactFields nextFieldOffset count
      else
        ar.int (oopOffset ar heapOopSize style compactFields nextFieldOffset count +
          left ar heapOopSize style compactFields nextFieldOffset count .oop * heapOopSize) }

end Starts

/-! ## The oop maps -/

structure OopMapBlock where
  offset : Int
  length : Int
deriving DecidableEq, Repr

/-- The maps of the class itself, and the offset of its first reference (0 if there is none yet). -/
structure OopMaps where
  blocks : List OopMapBlock
  firstOopOffset : Int
deriving DecidableEq, Repr

/-- A reference at `realOffset` extends the last map, or begins a new one. -/
def OopMaps.add (heapOopSize : Nat) (maps : OopMaps) (realOffset : Int) : OopMaps :=
  match maps.blocks.getLast? with
  | some last =>
    if last.offset = ar.ushort (realOffset - last.length * heapOopSize) then
      { maps with blocks := maps.blocks.dropLast ++
        [{ last with length := ar.ushort (last.length + 1) }] }
    else
      { blocks := maps.blocks ++ [⟨ar.ushort realOffset, 1⟩]
        firstOopOffset := if maps.firstOopOffset = 0 then realOffset else maps.firstOopOffset }
  | none =>
    { blocks := maps.blocks ++ [⟨ar.ushort realOffset, 1⟩]
      firstOopOffset := if maps.firstOopOffset = 0 then realOffset else maps.firstOopOffset }

/-- The last map of the superclass ends where the first reference of the class is. -/
def mergesMaps (heapOopSize : Nat) (superMaps : List OopMapBlock) (maps : OopMaps) : Bool :=
  match superMaps.getLast?, maps.blocks with
  | some last, _ :: _ => last.offset + last.length * heapOopSize = maps.firstOopOffset
  | _, _ => false

def computeOopMapSize (heapOopSize : Nat) (superMaps : List OopMapBlock) (maps : OopMaps) : Nat :=
  superMaps.length + (if mergesMaps heapOopSize superMaps maps then maps.blocks.length - 1
    else maps.blocks.length)

/-- The maps of the superclass, then those of the class. If there are fewer than both together, the
last map of the superclass is extended by the first one. -/
def fillOopMaps (oopMapSize : Nat) (superMaps : List OopMapBlock) (maps : OopMaps) :
    List OopMapBlock :=
  match maps.blocks, superMaps.getLast? with
  | first :: rest, some last =>
    if oopMapSize < superMaps.length + maps.blocks.length then
      superMaps.dropLast ++ { last with length := ar.ushort (last.length + first.length) } :: rest
    else superMaps ++ maps.blocks
  | blocks, _ => superMaps ++ blocks

/-! ## The layout of a class -/

structure KlassLayout where
  /-- In units of `heapOopSize`. -/
  nonstaticFieldSize : Int
  /-- In words. -/
  instanceSize : Int
  /-- The inherited and the declared fields. -/
  fields : List (FieldKind × Int)
  oopMaps : List OopMapBlock
deriving DecidableEq, Repr

/-- The state of the loop over the declared fields. -/
structure Assignment where
  cursor : FieldKind → Cursor
  maps : OopMaps
  fields : List (FieldKind × Int)

def Assignment.place (width : RefWidth) (a : Assignment) (kind : FieldKind) : Assignment :=
  let (realOffset, c) := (a.cursor kind).take ar (kind.size width)
  { cursor := Function.update a.cursor kind c
    maps := if kind = .oop then a.maps.add ar width.heapOopSize realOffset else a.maps
    fields := a.fields ++ [(kind, realOffset)] }

/-- The fake references of `java.lang.Class`. -/
def fakeFields (cf : ClassFields) (heapOopSize : Nat) (firstFieldOffset : Int) :
    List (FieldKind × Int) :=
  (List.range cf.fakeOopFields).map fun i : Nat =>
    (.oop, ar.int (firstFieldOffset + i * heapOopSize))

def initialMaps (cf : ClassFields) (firstFieldOffset : Int) : OopMaps :=
  if cf.isJavaLangClass then
    ⟨[⟨ar.ushort firstFieldOffset, ar.ushort cf.fakeOopFields⟩], firstFieldOffset⟩ else ⟨[], 0⟩

section Klass

variable (flags : Flags) (super : Option KlassLayout) (cf : ClassFields)

def superFieldSize : Int := super.elim 0 KlassLayout.nonstaticFieldSize

def superMaps : List OopMapBlock := super.elim [] KlassLayout.oopMaps

def firstFieldOffset : Int :=
  ar.int (flags.width.baseOffset + ar.int (superFieldSize super * flags.width.heapOopSize))

def fieldStarts : Starts :=
  let nextFieldOffset :=
    ar.int (firstFieldOffset ar flags super + cf.fakeOopFields * flags.width.heapOopSize)
  computeStarts ar flags.width.heapOopSize (cf.allocationStyle flags)
    (cf.compactFields flags) nextFieldOffset cf.fields.count

/-- The loop over the declared fields. -/
def assignFields : Assignment :=
  let first := firstFieldOffset ar flags super
  cf.fields.foldl (Assignment.place ar flags.width)
    ⟨(fieldStarts ar flags super cf).cursor, initialMaps ar cf first,
      fakeFields ar cf flags.width.heapOopSize first⟩

/-- The end of the fields, in whole words. -/
def endOffset : Int :=
  ar.int (alignSizeUp (fieldStarts ar flags super cf).notalignedOffset flags.width.wordSize)

/-- The part of `parseClassFile` that lays out the fields, from the layout of the superclass if
there is one. -/
def layoutFields : KlassLayout :=
  let heapOopSize := flags.width.heapOopSize
  let assigned := assignFields ar flags super cf
  let typeOffset :=
    ar.int (alignSizeUp (fieldStarts ar flags super cf).notalignedOffset heapOopSize)
  let oopMapSize := computeOopMapSize heapOopSize (superMaps super) assigned.maps
  { nonstaticFieldSize :=
      ar.int (superFieldSize super + (ar.int (typeOffset - firstFieldOffset ar flags super)).tdiv
        heapOopSize)
    instanceSize :=
      ar.int (alignSizeUp ((endOffset ar flags super cf).tdiv flags.width.wordSize)
        flags.width.minObjAlignment)
    fields := super.elim [] KlassLayout.fields ++ assigned.fields
    oopMaps := fillOopMaps ar oopMapSize (superMaps super) assigned.maps }

end Klass

end Layout

/-- The layout of the last class of a chain, each the superclass of the next. -/
def layoutChain (ar : Arithmetic) (flags : Flags) : List ClassFields → Option KlassLayout :=
  List.foldl (fun super cf => some (layoutFields ar flags super cf)) none

end Hotspot.FieldLayout
