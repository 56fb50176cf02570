-- SUMMARY: The block offset table: its entries, their update, and the lookup.
import Hotspot.Base.JavaTypes

/-!
# The block offset table

The heap is divided into cards of 512 bytes. For each card the table has a byte that
tells how to get from the start of the card to the start of a block at or before it: an
entry below `N_words` is a number of words, and an entry `N_words + i` says to go back
`16 ^ i` cards and look again.

A `HeapWord*` is modelled as the number of its word, a `void*` as the number of its byte.
The array is a function from indices, because its initial contents are not defined.
-/

namespace Hotspot.Memory

/-- The size of a heap word, on the two kinds of machines. -/
inductive HeapWordSize where
  | four
  | eight
  deriving DecidableEq, Repr

namespace HeapWordSize

def log : HeapWordSize → Nat
  | .four => 2
  | .eight => 3

def bytes (ws : HeapWordSize) : Nat := 2 ^ ws.log

/-- The bytes of a machine's address space. -/
def addressSpace (ws : HeapWordSize) : Nat := 2 ^ (8 * ws.bytes)

end HeapWordSize

/-! ## BlockOffsetSharedArray -/

def LogN : Nat := 9

structure BlockOffsetSharedArray where
  wordSize : HeapWordSize
  reservedStart : Nat
  offsetArray : Nat → UChar

namespace BlockOffsetSharedArray

variable (this : BlockOffsetSharedArray)

def logNWords : Nat := LogN - this.wordSize.log

def nWords : Nat := 1 <<< this.logNWords

/-- The card of the byte at `pc`. -/
def indexFor (pc : Nat) : Nat := (pc - this.reservedStart * this.wordSize.bytes) >>> LogN

/-- The card of a word. -/
def indexForWord (p : Nat) : Nat := this.indexFor (p * this.wordSize.bytes)

def addressForIndex (index : Nat) : Nat := this.reservedStart + (index <<< this.logNWords)

def setOffsetArray (index : Nat) (offset : UChar) : BlockOffsetSharedArray :=
  { this with offsetArray := fun i => if i = index then offset else this.offsetArray i }

/-- `set_offset_array(index, high, low)`: the distance of two pointers as a byte. -/
def setOffsetArrayDelta (index high low : Nat) : BlockOffsetSharedArray :=
  this.setOffsetArray index (BitVec.ofNat 8 (high - low))

/-- `set_offset_array(left, right, offset)` for the cards of a closed interval. -/
def setOffsetArrayRange (left right : Nat) (offset : UChar) : BlockOffsetSharedArray :=
  { this with
    offsetArray := fun i => if left ≤ i ∧ i ≤ right then offset else this.offsetArray i }

end BlockOffsetSharedArray

/-! ## BlockOffsetArray -/

def LogBase : Nat := 4

def nPowers : Nat := 14

def powerToCardsBack (i : Nat) : Nat := 1 <<< (LogBase * i)

namespace BlockOffsetSharedArray

variable (this : BlockOffsetSharedArray)

def entryToCardsBack (entry : UChar) : Nat := powerToCardsBack (entry.toNat - this.nWords)

/-- The loop of `set_remainder_to_point_to_start_incl`, with `n` powers left of `N_powers`. -/
def remainderLoop (startCard endCard : Nat) :
    Nat → Nat → BlockOffsetSharedArray → BlockOffsetSharedArray
  | 0, _, this => this
  | n + 1, startCardForRegion, this =>
    let i := nPowers - (n + 1)
    -- the card with the actual offset counts, and the reach ends in this region
    let reach := startCard - 1 + (powerToCardsBack (i + 1) - 1)
    let offset : UChar := BitVec.ofNat 8 (this.nWords + i)
    if reach ≥ endCard then this.setOffsetArrayRange startCardForRegion endCard offset
    else
      remainderLoop startCard endCard n (reach + 1)
        (this.setOffsetArrayRange startCardForRegion reach offset)

/-- The cards of a closed interval are made to point back to the card before it. -/
def setRemainderToPointToStartIncl (startCard endCard : Nat) : BlockOffsetSharedArray :=
  if startCard > endCard then this
  else remainderLoop startCard endCard nPowers startCard this

/-- The same for an interval of words that is open on the right. -/
def setRemainderToPointToStart (start stop : Nat) : BlockOffsetSharedArray :=
  if start ≥ stop then this
  else this.setRemainderToPointToStartIncl (this.indexForWord start) (this.indexForWord (stop - 1))

end BlockOffsetSharedArray

/-! ## ContiguousSpace -/

/-- A space with its blocks, as their sizes in words from the bottom up. -/
structure ContiguousSpace where
  bottom : Nat
  limit : Nat
  blocks : List Nat

namespace ContiguousSpace

variable (this : ContiguousSpace)

def top : Nat := this.bottom + this.blocks.sum

/-- The size that is found at an address, if a block starts there. -/
def sizeAt : Nat → List Nat → Nat → Option Nat
  | _, [], _ => none
  | start, size :: rest, p => if p = start then some size else sizeAt (start + size) rest p

def blockSize (p : Nat) : Option Nat :=
  if p < this.top then sizeAt this.bottom this.blocks p
  else some (this.limit - p)

end ContiguousSpace

/-! ## BlockOffsetArrayContigSpace -/

structure BlockOffsetArrayContigSpace where
  array : BlockOffsetSharedArray
  bottom : Nat
  nextOffsetThreshold : Nat
  nextOffsetIndex : Nat

namespace BlockOffsetArrayContigSpace

variable (this : BlockOffsetArrayContigSpace)

def initializeThreshold : BlockOffsetArrayContigSpace :=
  let nextOffsetIndex := this.array.indexForWord this.bottom + 1
  { this with
    nextOffsetIndex := nextOffsetIndex
    nextOffsetThreshold := this.array.addressForIndex nextOffsetIndex }

def zeroBottomEntry : BlockOffsetArrayContigSpace :=
  let bottomIndex := this.array.indexForWord this.bottom
  { this with array := this.array.setOffsetArray bottomIndex 0 }

/-- The entries of the cards that a block covers, up to the card on which it ends. -/
def markBlock (blkStart endIndex : Nat) : BlockOffsetSharedArray :=
  -- the card that holds the offset into the block
  let array := this.array.setOffsetArrayDelta this.nextOffsetIndex this.nextOffsetThreshold blkStart
  if this.nextOffsetIndex + 1 ≤ endIndex then
    let remSt := array.addressForIndex (this.nextOffsetIndex + 1)
    let remEnd := array.addressForIndex endIndex + array.nWords
    array.setRemainderToPointToStart remSt remEnd
  else array

def allocBlockWork (blkStart blkEnd : Nat) : BlockOffsetArrayContigSpace :=
  let endIndex := this.array.indexForWord (blkEnd - 1)
  { this with
    array := this.markBlock blkStart endIndex
    nextOffsetIndex := endIndex + 1
    nextOffsetThreshold := this.array.addressForIndex endIndex + this.array.nWords }

def allocBlock (blkStart blkEnd : Nat) : BlockOffsetArrayContigSpace :=
  if blkEnd > this.nextOffsetThreshold then this.allocBlockWork blkStart blkEnd else this

/-! ## Lookup

The loops keep the list of the cards whose entries they have read. -/

/-- A position of the lookup in the table. -/
structure Cursor where
  index : Nat
  q : Nat
  offset : UChar
  visited : List Nat

/-- Go back a number of cards and read the entry there. Below the first card there is none. -/
def Cursor.back (array : BlockOffsetSharedArray) (c : Cursor) (nCardsBack : Nat) : Option Cursor :=
  if nCardsBack ≤ c.index then
    let index := c.index - nCardsBack
    some ⟨index, c.q - array.nWords * nCardsBack, array.offsetArray index, c.visited ++ [index]⟩
  else none

/-- `while (offset > N_words)`. -/
def skipPowers (array : BlockOffsetSharedArray) : Nat → Cursor → Option Cursor
  | 0, _ => none
  | fuel + 1, c =>
    if c.offset.toNat > array.nWords then do
      skipPowers array fuel (← c.back array (array.entryToCardsBack c.offset))
    else some c

/-- `while (offset == N_words)`. -/
def skipCards (array : BlockOffsetSharedArray) : Nat → Cursor → Option Cursor
  | 0, _ => none
  | fuel + 1, c =>
    if c.offset.toNat = array.nWords then do skipCards array fuel (← c.back array 1)
    else some c

/-- `while (n <= addr)`: go forward from block to block. -/
def walkForward (sp : ContiguousSpace) (ws : HeapWordSize) (addr : Nat) : Nat → Nat → Nat → Option Nat
  | 0, _, _ => none
  | fuel + 1, q, n =>
    if n * ws.bytes ≤ addr then do
      let size ← sp.blockSize n
      walkForward sp ws addr fuel n (n + size)
    else some q

/-- The start of the block of an address, and the cards whose entries were read. -/
def blockStartUnsafe (sp : ContiguousSpace) (addr : Nat) : Option (Nat × List Nat) := do
  let index := min (this.array.indexFor addr) (this.nextOffsetIndex - 1)
  let c : Cursor := ⟨index, this.array.addressForIndex index, this.array.offsetArray index, [index]⟩
  let c ← skipPowers this.array (index + 1) c
  let c ← skipCards this.array (c.index + 1) c
  let q := c.q - c.offset.toNat
  let start ← walkForward sp this.array.wordSize addr (addr + 2) q q
  return (start, c.visited)

end BlockOffsetArrayContigSpace

end Hotspot.Memory
