-- SUMMARY: The card table of the parallel scavenger: the scan of a stripe.
import Hotspot.Gc.ObjectStartArray

/-!
# Striped card scanning

Each stripe has every n-th slice of 128 cards. An object belongs to the slice in which it starts.

What `push_contents` and `drain_stacks_cond_depth` do to the graph is not modelled, but for the
cards that they mark: after each object that is scanned, any cards may be set to `youngergen_card`.
-/

namespace Hotspot.ParallelScavenge

open Memory (HeapWordSize)

abbrev CardValue := BitVec 8

def cleanCard : CardValue := -1

def youngergenCard : CardValue := 11

def cardIsClean (value : CardValue) : Bool := value = cleanCard

/-- The cards, and the objects that have been scanned so far. -/
structure ScanState where
  cards : Nat → CardValue
  scanned : List Nat

/-- The cards that are marked after the last of some objects has been scanned. -/
structure PSPromotionManager where
  marks : List Nat → Nat → Bool

def PSPromotionManager.pushContents (pm : PSPromotionManager) (p : Nat) (st : ScanState) :
    ScanState :=
  let scanned := st.scanned ++ [p]
  ⟨fun card => if pm.marks scanned card then youngergenCard else st.cards card, scanned⟩

/-- What a stripe reads but does not change. -/
structure StripeScan where
  wordSize : HeapWordSize
  startArray : ObjectStartArray
  /-- `oop(p)->size()` -/
  size : Nat → Nat
  spTop : Nat
  pm : PSPromotionManager

namespace StripeScan

variable (this : StripeScan)

def objectStart (addr : Nat) : Option Nat :=
  this.startArray.objectStart this.wordSize this.size addr

/-- One after the card of the last word. The word before an empty space is on the card before the
first. -/
def endCard : Nat :=
  match this.spTop with
  | 0 => 0
  | last + 1 => byteFor this.wordSize last + 1

/-! ## A run of unclean cards -/

/-- The first of `n` cards that fails the test, or the card after them. -/
def skipCards (test : CardValue → Bool) (cards : Nat → CardValue) : Nat → Nat → Nat
  | 0, card => card
  | n + 1, card => if test (cards card) then skipCards test cards n (card + 1) else card

/-- Find the end of a run of contiguous unclean cards. The cards that the last object of the run
covers belong to it. -/
def dirtyRun (cards : Nat → CardValue) (workerEndCard : Nat) : Nat → Nat → Option Nat
  | 0, _ => none
  | fuel + 1, currentCard =>
    if currentCard < workerEndCard ∧ cardIsClean (cards currentCard) = false then
      let currentCard :=
        skipCards (fun value => !cardIsClean value) cards (workerEndCard - currentCard) currentCard
      if currentCard < workerEndCard then do
        let lastObject ← this.objectStart (addrFor this.wordSize currentCard - 1)
        let endingCard := byteFor this.wordSize (lastObject + this.size lastObject)
        dirtyRun cards workerEndCard fuel
          (if currentCard < endingCard then endingCard else currentCard)
      else dirtyRun cards workerEndCard fuel currentCard
    else some currentCard

def cleanCards (cards : Nat → CardValue) (first last : Nat) : Nat → CardValue :=
  fun card => if first ≤ card ∧ card < last then cleanCard else cards card

/-- Scan all objects in the range. -/
def scanObjects (limit : Nat) : Nat → Nat → ScanState → Option (Nat × ScanState)
  | 0, _, _ => none
  | fuel + 1, p, st =>
    if p < limit then scanObjects limit fuel (p + this.size p) (this.pm.pushContents p st)
      else some (p, st)

/-! ## A slice -/

/-- The cards of a slice, adjusted to its objects. -/
structure Slice where
  workerStartCard : Nat
  workerEndCard : Nat
  sliceEnd : Nat

variable (slice : Slice)

/-- Clean the run from `firstUncleanCard` and scan its objects. The first and the last card of the
slice are not cleaned. -/
def scanRun (firstUncleanCard followingCleanCard lastScanned : Nat) (st : ScanState) :
    Option (Nat × ScanState) := do
  let p ← this.objectStart (addrFor this.wordSize firstUncleanCard)
  let p := if p < lastScanned then lastScanned else p
  let limit := addrFor this.wordSize followingCleanCard
  let limit :=
    if slice.sliceEnd < limit then slice.sliceEnd else if this.spTop < limit then this.spTop
    else limit
  let first :=
    if firstUncleanCard ≤ slice.workerStartCard + 1 then slice.workerStartCard + 1
    else firstUncleanCard
  let last :=
    if slice.workerEndCard - 1 ≤ followingCleanCard then slice.workerEndCard - 1
    else followingCleanCard
  this.scanObjects limit (limit - p + 1) p { st with cards := cleanCards st.cards first last }

/-- The loop over the cards of a slice. -/
def scanSlice : Nat → Nat → Nat → ScanState → Option (Nat × ScanState)
  | 0, _, _, _ => none
  | fuel + 1, currentCard, lastScanned, st =>
    if currentCard < slice.workerEndCard then do
      let firstUncleanCard :=
        skipCards cardIsClean st.cards (slice.workerEndCard - currentCard) currentCard
      let followingCleanCard ← this.dirtyRun st.cards slice.workerEndCard
        (slice.workerEndCard - firstUncleanCard + 1)
        firstUncleanCard
      let (lastScanned, st) ←
        if firstUncleanCard < slice.workerEndCard then
          this.scanRun slice firstUncleanCard followingCleanCard lastScanned st
        else some (lastScanned, st)
      -- the clean card may be marked by now; it is not looked at again
      scanSlice fuel (followingCleanCard + 1) lastScanned st
    else some (lastScanned, st)

def ssize : Nat := 128

/-- Update the beginning address: the object that reaches into the slice belongs to an earlier one.
The result is what counts as scanned, and the first card. -/
def adjustStart (firstObject workerStartCard lastScanned : Nat) : Nat × Nat :=
  if firstObject < addrFor this.wordSize workerStartCard then
    (firstObject + this.size firstObject,
      byteFor this.wordSize (firstObject + this.size firstObject))
  else (lastScanned, workerStartCard)

/-- Update the ending address to the end of the last object, and the ending card to the one
after. -/
def adjustEnd (sliceEnd workerEndCard : Nat) : Option (Nat × Nat) :=
  if sliceEnd < this.spTop then do
    let lastObject ← this.objectStart (sliceEnd - 1)
    let sliceEnd := lastObject + this.size lastObject
    let workerEndCard := byteFor this.wordSize sliceEnd + 1
    some (sliceEnd, if this.endCard < workerEndCard then this.endCard else workerEndCard)
  else some (sliceEnd, workerEndCard)

/-- The slice of 128 cards from `workerStartCard`. -/
def processSlice (workerStartCard lastScanned : Nat) (st : ScanState) : Option (Nat × ScanState) :=
  let workerEndCard :=
    if this.endCard < workerStartCard + ssize then this.endCard else workerStartCard + ssize
  let sliceStart := addrFor this.wordSize workerStartCard
  let sliceEnd := min this.spTop (addrFor this.wordSize workerEndCard)
  if !this.startArray.objectStartsInRange this.wordSize sliceStart sliceEnd
    then some (lastScanned, st)
  else do
    let firstObject ← this.objectStart sliceStart
    let (lastScanned, workerStartCard) := this.adjustStart firstObject workerStartCard lastScanned
    let (sliceEnd, workerEndCard) ← this.adjustEnd sliceEnd workerEndCard
    this.scanSlice ⟨workerStartCard, workerEndCard, sliceEnd⟩
      (workerEndCard - workerStartCard + 1) workerStartCard
      lastScanned st

/-! ## A stripe -/

variable (parallelGCThreads stripeNumber : Nat)

def stripeLoop : Nat → Nat → Nat → ScanState → Option ScanState
  | 0, _, _, _ => none
  | fuel + 1, slice, lastScanned, st =>
    if slice < this.endCard then
      let workerStartCard := slice + stripeNumber * ssize
      if this.endCard ≤ workerStartCard then some st
      else do
        let (lastScanned, st) ← this.processSlice workerStartCard lastScanned st
        stripeLoop fuel (slice + ssize * parallelGCThreads) lastScanned st
    else some st

def scavengeContentsParallel (st : ScanState) : Option ScanState :=
  this.stripeLoop parallelGCThreads stripeNumber (this.endCard + 1) 0 0 st

end StripeScan

end Hotspot.ParallelScavenge
