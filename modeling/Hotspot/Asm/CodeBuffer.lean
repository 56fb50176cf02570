-- SUMMARY: Code buffers: the relocation records of their sections, copied to a code blob.
import Hotspot.Code.RelocInfo

/-!
# Code buffers

A code buffer has sections for instructions, stubs and constants. Each of them collects code
and relocation records; at the end both are concatenated and copied to a code blob.

Addresses are numbers of bytes. The array of a section's records is a `Buffer`, whose memory
behind the records may hold anything.
-/

namespace Hotspot.Asm

/-- `align_size_up`, for an alignment that is a power of two. -/
def alignSizeUp (size alignment : Nat) : Nat := (size + (alignment - 1)) / alignment * alignment

/-- Bytes of a half-word, `sizeof(relocInfo)`. -/
def relocInfoSize : Nat := 2

/-! ## CodeSection -/

structure CodeSection where
  start : Nat
  stop : Nat
  locsPoint : Nat
  /-- The array of records, if the section has one. -/
  locs : Option (Buffer RelocInfo)

namespace CodeSection

variable (this : CodeSection) (p : Platform)

def size : Nat := this.stop - this.start

def isEmpty : Bool := this.start = this.stop

/-- Is an address in this section? The end is included. -/
def contains2 (pc : Nat) : Bool := pc ≥ this.start ∧ pc ≤ this.stop

def locsPointOff : Nat := this.locsPoint - this.start

/-- The half-words of the records. -/
def locsWords : List RelocInfo :=
  match this.locs with
  | none => []
  | some locs => locs.contents

end CodeSection

/-- `expand_locs`: the array at least doubles, and its contents are kept. -/
def expandLocs (locs : Buffer RelocInfo) (newCapacity : Nat) : Buffer RelocInfo :=
  { locs with
    capacity := if newCapacity < locs.capacity * 2 then locs.capacity * 2 else newCapacity
    fits := by
      have := locs.fits
      split <;> omega }

/-- The test for overflow in `relocate`, for a record at some offset from the last one. -/
def reserveLocs (p : Platform) (locs : Buffer RelocInfo) (offset : Nat) : Buffer RelocInfo :=
  let req := locs.count + p.lengthLimit
  if req ≥ locs.capacity ∨ offset ≥ p.offsetLimit then
    let req := req + offset / p.offsetLimit
    if req ≥ locs.capacity then expandLocs locs (locs.count + (req - locs.count)) else locs
  else locs

/-- The number of bytes that one filler skips. -/
def fillerOffset (p : Platform) : Nat := (fillerRelocInfo p).addrOffset p

theorem fillerOffset_pos (p : Platform) : 0 < fillerOffset p := by
  cases p <;> decide

theorem offsetLimit_pos (p : Platform) : 0 < p.offsetLimit := by
  cases p <;> decide

/-- Fillers for an offset that is too large for one record. What remains of it is returned. -/
def emitFillers (p : Platform) (offset : Nat) : BufferM RelocInfo Nat :=
  if offset ≥ p.offsetLimit then do
    BufferM.push (fillerRelocInfo p)
    emitFillers p (offset - fillerOffset p)
  else pure offset
termination_by offset
decreasing_by
  have := fillerOffset_pos p
  have := offsetLimit_pos p
  omega

/-- The half-words that `relocate` writes, for a record at some offset from the last one. -/
def writeRecord (p : Platform) (offset : Nat) (type : RelocType) (format : Nat)
    (data : RelocData) : BufferM RelocInfo Unit := do
  let offset ← emitFillers p offset
  let this ← BufferM.size
  BufferM.push (.ofOffset p type offset format)
  initializeReloc this data

/-- Add a record. There is no result if it is written past the end of the array. -/
def CodeSection.relocate {p : Platform} (this : CodeSection) (pc : Nat) (spec : Relocation p)
    (format : Nat) : Option CodeSection :=
  if spec.type = .none then some this
  else
    match this.locs with
    -- no space for relocation information was provided
    | none => some this
    | some locs => do
      let offset := pc - this.locsPoint
      let (_, locs) ← writeRecord p offset spec.type format spec.data (reserveLocs p locs offset)
      return { this with locsPoint := pc, locs := some locs }

/-! ## CodeBuffer -/

/-- The sections, in the order of ascending addresses. -/
inductive Sect where
  | insts
  | stubs
  | consts
  deriving DecidableEq, Repr

def Sect.all : List Sect := [.insts, .stubs, .consts]

structure CodeBuffer where
  codeSection : Sect → CodeSection
  /-- `CodeEntryAlignment` is a power of two. -/
  logCodeEntryAlignment : Nat

namespace CodeBuffer

variable (this : CodeBuffer) (p : Platform)

def alignment : Nat := max 8 (2 ^ this.logCodeEntryAlignment)

def alignAtStart (off : Nat) : Nat := alignSizeUp off this.alignment

/-- The offsets at which `compute_final_layout` starts these sections. -/
def finalLayout (bufOffset : Nat) : List Sect → List (Sect × Nat)
  | [] => []
  | n :: ns =>
    let cs := this.codeSection n
    let bufOffset := if cs.isEmpty then bufOffset else this.alignAtStart bufOffset
    (n, bufOffset) :: finalLayout (bufOffset + cs.size) ns

/-- The state of `copy_relocations_to`. There is no destination in the sizing pass. -/
structure CopyState where
  dest : Option (Buffer RelocInfo)
  bufOffset : Nat
  codeEndSoFar : Nat
  codePointSoFar : Nat

namespace CopyState

/-- Run a program on the destination, if there is one. -/
def onDest (this : CopyState) (m : BufferM RelocInfo Unit) (size : Nat) : Option CopyState :=
  match this.dest with
  | none => some { this with bufOffset := this.bufOffset + size }
  | some buf => do
    let (_, buf) ← m buf
    return { this with dest := some buf, bufOffset := this.bufOffset + size }

def store (this : CopyState) (info : RelocInfo) : Option CopyState :=
  this.onDest (BufferM.push info) relocInfoSize

end CopyState

/-- Fillers from one code point to another. -/
def fillGap (newCodePoint codePoint : Nat) (state : CopyState) : Option CopyState :=
  if codePoint < newCodePoint then
    let jump := newCodePoint - codePoint
    if jump ≥ fillerOffset p then do
      let state ← state.store (fillerRelocInfo p)
      fillGap newCodePoint (codePoint + fillerOffset p) state
    else do
      -- shrink the filler to fit
      let state ← state.store (.ofOffset p .none jump 0)
      fillGap newCodePoint (codePoint + jump) state
  else some state
termination_by newCodePoint - codePoint
decreasing_by
  all_goals
    have := fillerOffset_pos p
    omega

/-- The copy of a section's records, in whole words where the destination is aligned. -/
def copyLocs (locs : Buffer RelocInfo) (state : CopyState) : Option CopyState :=
  let lsize := relocInfoSize * locs.count
  let n :=
    if state.bufOffset % p.bytesPerWord = 0 then
      (lsize + p.bytesPerWord - 1) / p.bytesPerWord * (p.bytesPerWord / relocInfoSize)
    else locs.count
  state.onDest (BufferM.blit locs.mem n locs.count) lsize

/-- One round of the loop over the sections. -/
def copySection (cs : CodeSection) (state : CopyState) : Option CopyState :=
  if cs.isEmpty then some state
  else
    let codeEndSoFar := this.alignAtStart state.codeEndSoFar
    match cs.locs with
    | none => some { state with codeEndSoFar := codeEndSoFar + cs.size }
    | some locs => do
      if locs.count = 0 then
        return { state with codeEndSoFar := codeEndSoFar + cs.size }
      let state ← fillGap p codeEndSoFar state.codePointSoFar state
      -- advance past the records and the instructions of this section
      copyLocs p locs { state with
        codePointSoFar := codeEndSoFar + cs.locsPointOff
        codeEndSoFar := codeEndSoFar + cs.size }

def copySections : List CodeSection → CopyState → Option CopyState
  | [], state => some state
  | cs :: rest, state => do
    let state ← this.copySection p cs state
    copySections rest state

/-- Records of type `none`, to align the end. -/
def padToWord : Nat → CopyState → Option CopyState
  | 0, _ => none
  | fuel + 1, state =>
    if state.bufOffset % p.bytesPerWord ≠ 0 then do
      let state ← state.store (.ofOffset p .none 0 0)
      padToWord fuel state
    else some state

/-- `RelocIterator::create_index`: there is no index, and the rest of the space is zeroed. -/
def createIndex : BufferM RelocInfo Unit := fun buf =>
  BufferM.pushAll (List.replicate (buf.capacity - buf.count) 0) buf

def copyRelocationsTo (dest : Option (Buffer RelocInfo)) :
    Option (Nat × Option (Buffer RelocInfo)) := do
  let state ← this.copySections p (Sect.all.map this.codeSection) ⟨dest, 0, 0, 0⟩
  let state ← padToWord p p.bytesPerWord state
  match state.dest with
  | none => return (state.bufOffset, none)
  | some buf =>
    let (_, buf) ← createIndex buf
    return (state.bufOffset, some buf)

def totalRelocationSize : Option Nat := do
  let (lsize, _) ← this.copyRelocationsTo p none
  return alignSizeUp lsize p.bytesPerWord

/-- The relocation information of a new `CodeBlob`, whose memory may hold anything before. -/
def createRelocation (mem : Nat → RelocInfo) : Option (List RelocInfo) := do
  let total ← this.totalRelocationSize p
  let relocationSize := alignSizeUp total p.bytesPerWord
  let dest := Buffer.empty mem (relocationSize / relocInfoSize)
  let (_, dest) ← this.copyRelocationsTo p (some dest)
  let dest ← dest
  return (List.range dest.capacity).map dest.mem

end CodeBuffer

/-! ## Sequences of calls -/

/-- A call of `relocate` on a section. -/
structure RelocateCall (p : Platform) where
  sect : Sect
  pc : Nat
  spec : Relocation p
  format : Nat

def CodeBuffer.relocate {p : Platform} (this : CodeBuffer) (call : RelocateCall p) :
    Option CodeBuffer := do
  let cs ← (this.codeSection call.sect).relocate call.pc call.spec call.format
  return { this with codeSection := Function.update this.codeSection call.sect cs }

end Hotspot.Asm
