-- SUMMARY: The bitmap and chunks of parallel compaction: marking, summary, addresses.
import Hotspot.Base.Intervals
import Hotspot.Memory.BlockOffsetTable

/-!
# Parallel compaction: marking and summary

Marking an object sets a bit for its begin and one for its end, and adds its size to the chunks
it lies in. The summary gives each chunk the address to which its data will be moved; the new
address of an object is computed from its chunk and the bitmap.

A `HeapWord*` is the number of its word. Chunks are aligned, so the offset in a chunk is the
remainder of an address.
-/

namespace Hotspot.Gc

open Memory (HeapWordSize)

/-! ## ParMarkBitMap -/

/-- `HeapWordsPerLong`. -/
def minObjAlignment : HeapWordSize → Nat
  | .four => 2
  | .eight => 1

structure ParMarkBitMap where
  wordSize : HeapWordSize
  regionStart : Nat
  begBits : Nat → Bool
  endBits : Nat → Bool

namespace ParMarkBitMap

variable (this : ParMarkBitMap)

def objGranularity : Nat := minObjAlignment this.wordSize

def bitsToWords (bits : Nat) : Nat := bits * this.objGranularity

def wordsToBits (words : Nat) : Nat := words / this.objGranularity

def addrToBit (addr : Nat) : Nat := this.wordsToBits (addr - this.regionStart)

/-- `BitMap::word_align_up`. -/
def wordAlignUp (bit : Nat) : Nat :=
  let bitsPerWord := 8 * this.wordSize.bytes
  (bit + (bitsPerWord - 1)) / bitsPerWord * bitsPerWord

/-- `find_next_one_bit` on the begin bits. -/
def findObjBeg (beg stop : Nat) : Nat := findFrom this.begBits (stop - beg) beg

/-- `find_next_one_bit` on the end bits. -/
def findObjEnd (beg stop : Nat) : Nat := findFrom this.endBits (stop - beg) beg

/-- Whether the object was marked by this call, and the map. -/
def markObj (addr size : Nat) : Bool × ParMarkBitMap :=
  let begBit := this.addrToBit addr
  if this.begBits begBit then (false, this)
  else
    let endBit := this.addrToBit (addr + size - 1)
    (true, { this with
      begBits := fun b => b = begBit || this.begBits b
      endBits := fun b => b = endBit || this.endBits b })

/-- The loop of `live_words_in_range`. -/
def liveWordsLoop (endBit rangeEnd : Nat) : Nat → Nat → Nat → Option Nat
  | 0, _, _ => none
  | fuel + 1, begBit, liveBits =>
    if begBit < endBit then
      let tmpEnd := this.findObjEnd begBit rangeEnd
      -- the end bit of the object must be there
      if tmpEnd < endBit then
        liveWordsLoop endBit rangeEnd fuel (this.findObjBeg (tmpEnd + 1) rangeEnd)
          (liveBits + (tmpEnd - begBit + 1))
      else none
    else some liveBits

/-- The live words of the objects that start in a range that ends at a live object. -/
def liveWordsInRange (begAddr endObj : Nat) : Option Nat := do
  let endBit := this.addrToBit endObj
  let rangeEnd := this.wordAlignUp endBit
  let begBit := this.findObjBeg (this.addrToBit begAddr) rangeEnd
  let liveBits ← this.liveWordsLoop endBit rangeEnd (endBit + 1) begBit 0
  return this.bitsToWords liveBits

end ParMarkBitMap

/-! ## ChunkData -/

def Log2ChunkSize : Nat := 9

def ChunkSize : Nat := 1 <<< Log2ChunkSize

/-- The destination count and the size of the live objects share a word. -/
structure ChunkData where
  destination : Nat
  sourceChunk : Nat
  partialObjAddr : Nat
  partialObjSize : UInt
  dcAndLos : UInt

namespace ChunkData

variable (this : ChunkData)

def dcShift : Nat := 27

def dcMask : UInt := BitVec.allOnes 32 <<< dcShift

def losMask : UInt := ~~~dcMask

/-- The live data of the objects that start in the chunk. -/
def liveObjSize : Nat := (this.dcAndLos &&& losMask).toNat

/-- The live data of the chunk. -/
def dataSize : Nat := this.partialObjSize.toNat + this.liveObjSize

def setDestination (addr : Nat) : ChunkData := { this with destination := addr }

def setSourceChunk (chunk : Nat) : ChunkData := { this with sourceChunk := chunk }

/-- `set_partial_obj_size` and `set_partial_obj_addr`. -/
def setPartialObj (words addr : Nat) : ChunkData :=
  { this with partialObjSize := BitVec.ofNat 32 words, partialObjAddr := addr }

def setDestinationCount (count : UInt) : ChunkData :=
  { this with dcAndLos := (count <<< dcShift) ||| BitVec.ofNat 32 this.liveObjSize }

def addLiveObj (words : Nat) : ChunkData :=
  { this with dcAndLos := this.dcAndLos + BitVec.ofNat 32 words }

end ChunkData

/-! ## ParallelCompactData -/

structure ParallelCompactData where
  regionStart : Nat
  chunkData : Nat → ChunkData

namespace ParallelCompactData

variable (this : ParallelCompactData)

def chunkOffset (addr : Nat) : Nat := addr % ChunkSize

def addrToChunkIdx (addr : Nat) : Nat := (addr - this.regionStart) >>> Log2ChunkSize

def chunkToAddr (chunk : Nat) : Nat := this.regionStart + (chunk <<< Log2ChunkSize)

def chunkAlignDown (addr : Nat) : Nat := addr - addr % ChunkSize

def chunkAlignUp (addr : Nat) : Nat := chunkAlignDown (addr + (ChunkSize - 1))

/-- An update of the data of one chunk. -/
def update (chunk : Nat) (f : ChunkData → ChunkData) : ParallelCompactData :=
  { this with chunkData := fun c => if c = chunk then f (this.chunkData c) else this.chunkData c }

/-- The loop of `add_obj` over the chunks that an object spans. -/
def spanChunks (addr : Nat) : Nat → Nat → ParallelCompactData → ParallelCompactData
  | 0, _, this => this
  | n + 1, chunk, this =>
    spanChunks addr n (chunk + 1) (this.update chunk fun cd => cd.setPartialObj ChunkSize addr)

def addObj (addr len : Nat) : ParallelCompactData :=
  let objOfs := addr - this.regionStart
  let begChunk := objOfs >>> Log2ChunkSize
  let endChunk := (objOfs + len - 1) >>> Log2ChunkSize
  if begChunk = endChunk then this.update begChunk fun cd => cd.addLiveObj len
  else
    let begOfs := chunkOffset addr
    let this := this.update begChunk fun cd => cd.addLiveObj (ChunkSize - begOfs)
    let this := spanChunks addr (endChunk - (begChunk + 1)) (begChunk + 1) this
    let endOfs := chunkOffset (addr + len - 1)
    this.update endChunk fun cd => cd.setPartialObj (endOfs + 1) addr

/-- The loop of `partial_obj_end`, over `n` chunks. -/
def partialObjEndLoop : Nat → Nat → Nat → Nat
  | 0, _, result => result
  | n + 1, cur, result =>
    let result := result + (this.chunkData cur).partialObjSize.toNat
    if (this.chunkData cur).partialObjSize.toNat = ChunkSize then partialObjEndLoop n (cur + 1) result else result

/-- The loop ends before the last chunk. -/
def partialObjEnd (chunkCount chunkIdx : Nat) : Nat :=
  this.partialObjEndLoop (chunkCount - 1 - chunkIdx) chunkIdx (this.chunkToAddr chunkIdx)

/-- The number of other chunks to which data of `curChunk` is copied. -/
def destinationCountFor (curChunk destChunk1 destChunk2 : Nat) : UInt :=
  let destinationCount : UInt := if curChunk = destChunk2 then 1 else 2
  if destChunk1 ≠ destChunk2 then destinationCount else destinationCount - 1

/-- The destination count of a chunk that has data, and the source of a destination chunk whose
first data it is. -/
def setDestinations (curChunk destAddr words : Nat) : ParallelCompactData :=
  let lastAddr := destAddr + words - 1
  let destChunk1 := this.addrToChunkIdx destAddr
  let destChunk2 := this.addrToChunkIdx lastAddr
  let this :=
    if destChunk1 ≠ destChunk2 then this.update destChunk2 fun cd => cd.setSourceChunk curChunk
    else if chunkOffset destAddr = 0 then
      this.update destChunk1 fun cd => cd.setSourceChunk curChunk
    else this
  this.update curChunk fun cd =>
    cd.setDestinationCount (destinationCountFor curChunk destChunk1 destChunk2)

/-- The loop of `summarize` over `n` chunks. The data of a chunk must fit into the target. -/
def summarizeLoop (targetEnd : Nat) :
    Nat → Nat → Nat → ParallelCompactData → Option (ParallelCompactData × Nat)
  | 0, _, destAddr, this => some (this, destAddr)
  | n + 1, curChunk, destAddr, this =>
    let words := (this.chunkData curChunk).dataSize
    if targetEnd - destAddr < words then none
    else
      let this := this.update curChunk fun cd => cd.setDestination destAddr
      let this := if 0 < words then this.setDestinations curChunk destAddr words else this
      summarizeLoop targetEnd n (curChunk + 1) (destAddr + words) this

/-- The data with the destinations of the chunks of a source range, and `*target_next`. -/
def summarize (targetBeg targetEnd sourceBeg sourceEnd : Nat) :
    Option (ParallelCompactData × Nat) :=
  let curChunk := this.addrToChunkIdx sourceBeg
  let endChunk := this.addrToChunkIdx (chunkAlignUp sourceEnd)
  summarizeLoop targetEnd (endChunk - curChunk) curChunk targetBeg this

/-- The new address of a live object. -/
def chunkCalcNewPointer (bitmap : ParMarkBitMap) (addr : Nat) : Option Nat := do
  let chunk := this.chunkData (this.addrToChunkIdx addr)
  let chunkAddr := chunkAlignDown addr
  let result := chunk.destination
  if chunk.dataSize = ChunkSize then return result + (addr - chunkAddr)
  else
    let partialObjSize := chunk.partialObjSize.toNat
    let searchStart := chunkAddr + partialObjSize
    let liveToLeft ← bitmap.liveWordsInRange searchStart addr
    return result + (partialObjSize + liveToLeft)

end ParallelCompactData

/-! ## Marking -/

structure MarkState where
  bitmap : ParMarkBitMap
  summary : ParallelCompactData

namespace MarkState

/-- The state before marking: no bit is set, and the chunk data is cleared. -/
def clear (ws : HeapWordSize) (regionStart : Nat) : MarkState where
  bitmap := ⟨ws, regionStart, fun _ => false, fun _ => false⟩
  summary := ⟨regionStart, fun _ => ⟨0, 0, 0, 0, 0⟩⟩

/-- `PSParallelCompact::mark_obj`. -/
def markObj (s : MarkState) (obj : Interval) : MarkState :=
  match s.bitmap.markObj obj.start obj.size with
  | (true, bitmap) => ⟨bitmap, s.summary.addObj obj.start obj.size⟩
  | (false, bitmap) => ⟨bitmap, s.summary⟩

/-- Mark objects one after the other. -/
def markAll (s : MarkState) (objs : List Interval) : MarkState := objs.foldl markObj s

end MarkState

end Hotspot.Gc
