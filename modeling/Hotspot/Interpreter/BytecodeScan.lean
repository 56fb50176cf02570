-- SUMMARY: When the scan of untrusted bytecode stays inside the code.
import Hotspot.Interpreter.BytecodeStream

/-!
# Scanning untrusted bytecode

Which bytes the scan reads is decided by the instructions at which it arrives. `Inside` is
the condition on one of them: the bytecode is a defined one, the words of a switch that give
its length are in the code, and the end of the instruction is an `int`. If all instructions
at which the scan arrives satisfy it then the scan stays in bounds, ends, and marks the
starts of instructions whose lengths tile the code; at the first one that does not satisfy
it the scan leaves the code or a table.
-/

namespace Hotspot.BytecodeStream

open Bytecodes Traced MethodCode RawBytecodeStream

/-! ## The instructions of a code -/

def codeMemory (bytes : List UChar) : ByteMemory := fun i => bytes.getD i 0

variable (bytes : List UChar)

/-- The length of the instruction at a bci, as the scan determines it. -/
def scanLength (bci : Nat) : Int :=
  if codeMemory bytes bci = breakpoint then 1 else lengthAt (codeMemory bytes) bci

/-- The instruction at `bci` can be measured without leaving the code or the tables. -/
structure Inside (bci : Nat) : Prop where
  defined : (codeMemory bytes bci).toNat < numberOfCodes
  table : kind (codeMemory bytes bci) = .table → align (bci + 1) + 12 ≤ bytes.length
  lookup : kind (codeMemory bytes bci) = .lookup → align (bci + 1) + 8 ≤ bytes.length
  noOverflow : bci + scanLength bytes bci < 2 ^ 31

instance (bci : Nat) : Decidable (Inside bytes bci) :=
  decidable_of_iff
    ((codeMemory bytes bci).toNat < numberOfCodes ∧
      (kind (codeMemory bytes bci) = .table → align (bci + 1) + 12 ≤ bytes.length) ∧
      (kind (codeMemory bytes bci) = .lookup → align (bci + 1) + 8 ≤ bytes.length) ∧
      bci + scanLength bytes bci < 2 ^ 31)
    ⟨fun ⟨h1, h2, h3, h4⟩ => ⟨h1, h2, h3, h4⟩, fun ⟨h1, h2, h3, h4⟩ => ⟨h1, h2, h3, h4⟩⟩

/-- The instruction at `bci` has a length, and it ends in the code. -/
def Fits (bci : Nat) : Prop := 0 < scanLength bytes bci ∧ bci + scanLength bytes bci ≤ bytes.length

/-- The bcis at which the scan arrives. -/
inductive Reached : Nat → Prop where
  | start : Reached 0
  | next {bci : Nat} : Reached bci → Fits bytes bci → Reached (bci + (scanLength bytes bci).toNat)

/-- The lengths of the instructions from `bci` to the end of the code. -/
def Tiles : Nat → List Nat → Prop
  | bci, [] => bci = bytes.length
  | bci, l :: ls => bci < bytes.length ∧ 0 < l ∧ (l : Int) = scanLength bytes bci ∧ Tiles (bci + l) ls

/-- Where instructions of these lengths start. -/
def starts : Nat → List Nat → List Nat
  | _, [] => []
  | bci, l :: ls => bci :: starts (bci + l) ls

def markAt (bci : Nat) : CodeMark :=
  if codeMemory bytes bci = Bytecodes.new then .newOffset else .bytecodeOffset

/-- The code data that marks some bcis and leaves the others as they are. -/
def markAll (data : List CodeMark) (bcis : List Nat) : List CodeMark :=
  bcis.foldl (fun data bci => data.set bci (markAt bytes bci)) data

variable {bytes}

theorem getElem?_markAll {data : List CodeMark} {bcis : List Nat} {bci : Nat} (h : bci ∉ bcis) :
    (markAll bytes data bcis)[bci]? = data[bci]? := by
  induction bcis generalizing data with
  | nil => rfl
  | cons b bcis ih =>
    rw [List.mem_cons, not_or] at h
    exact (ih h.2).trans (List.getElem?_set_ne (Ne.symm h.1))

theorem intSum_eq {x y : Int} (hlo : -2 ^ 31 ≤ x + y) (hhi : x + y < 2 ^ 31) : intSum x y = x + y :=
  Int.bmod_eq_of_le hlo hhi

theorem positiveInt_lt (len : Int) : positiveInt len < 2 ^ 31 := by
  unfold positiveInt
  split <;> omega

/-- Codes with a length of their own are not measured specially. -/
theorem not_special : ∀ code : UChar, 0 < lengthFor code →
    code ≠ wide ∧ code ≠ breakpoint ∧ kind code ≠ .table ∧ kind code ≠ .lookup ∧ lengthFor code ≤ 5 := by
  decide +kernel

theorem breakpoint_not_switch : kind breakpoint = .other ∧ lengthFor breakpoint = 0 := by
  decide +kernel

theorem wide_length_zero : lengthFor wide = 0 ∧ wide ≠ breakpoint ∧ kind wide = .other := by
  decide +kernel

theorem wideLengthFor_cases (code : UChar) :
    wideLengthFor code = 0 ∨ wideLengthFor code = 4 ∨ wideLengthFor code = 6 := by
  unfold wideLengthFor
  split
  · decide
  · split <;> decide

theorem scanLength_of_lengthFor {bci : Nat} (h : 0 < lengthFor (codeMemory bytes bci)) :
    scanLength bytes bci = lengthFor (codeMemory bytes bci) := by
  unfold scanLength lengthAt
  rw [if_neg (not_special _ h).2.1, if_pos h]

theorem scanLength_of_special {bci : Nat} (h : lengthFor (codeMemory bytes bci) = 0)
    (hbp : codeMemory bytes bci ≠ breakpoint) :
    scanLength bytes bci = Bytecodes.specialLengthAt (codeMemory bytes) bci := by
  unfold scanLength lengthAt
  rw [if_neg hbp, if_neg (by omega)]

/-! ## Single reads -/

variable {m : MethodCode} {bci : Nat}

theorem byteAt_eq (h : bci < m.codeSize) : m.byteAt bci = codeMemory m.bytes bci := by
  unfold byteAt codeMemory
  rw [if_pos ⟨Int.natCast_nonneg _, by exact_mod_cast h⟩, Int.toNat_natCast]

theorem inBounds_byte : m.InBounds (.byte bci) ↔ bci < m.codeSize := by
  unfold MethodCode.InBounds
  omega

@[simp]
theorem value_codeOrBpAt (i : Int) : (m.codeOrBpAt i).value = m.byteAt i := rfl

@[simp]
theorem allTraced_codeOrBpAt (i : Int) {P : Access → Prop} : AllTraced P (m.codeOrBpAt i) ↔ P (.byte i) :=
  allTraced_access _ _

theorem allTraced_getJavaU4 (i : Nat) : AllTraced m.InBounds (m.getJavaU4 i) ↔ i + 4 ≤ m.codeSize := by
  simp only [getJavaU4, allTraced_bind, allTraced_codeOrBpAt, allTraced_pure, and_true,
    MethodCode.InBounds]
  omega

theorem value_getJavaU4 {i : Nat} (h : i + 4 ≤ m.codeSize) :
    (m.getJavaU4 i).value = (codeMemory m.bytes).getU4 i := by
  have h1 : m.byteAt (i + 1) = codeMemory m.bytes (i + 1) := by exact_mod_cast byteAt_eq (by omega)
  have h2 : m.byteAt (i + 2) = codeMemory m.bytes (i + 2) := by exact_mod_cast byteAt_eq (by omega)
  have h3 : m.byteAt (i + 3) = codeMemory m.bytes (i + 3) := by exact_mod_cast byteAt_eq (by omega)
  simp only [getJavaU4, value_bind, value_codeOrBpAt, value_pure,
    byteAt_eq (show i < m.codeSize by omega), h1, h2, h3]
  rfl

theorem allTraced_isDefined (code : UChar) : AllTraced m.InBounds (isDefined code) := by
  unfold isDefined
  split
  next h => exact (allTraced_access _ _).mpr h
  · exact allTraced_pure _

theorem wideLengthFor_undefined : ∀ code : UChar,
    ¬ (code.toNat < numberOfCodes ∧ code ≠ 186) → wideLengthFor code = 0 := by
  decide +kernel

theorem wideLengthForCode_spec (code : UChar) : AllTraced m.InBounds (wideLengthForCode code) ∧
      (wideLengthForCode code).value = wideLengthFor code := by
  have hzero := wideLengthFor_undefined code
  have hdef := allTraced_isDefined (m := m) code
  unfold wideLengthForCode
  by_cases hlt : code.toNat < numberOfCodes
  · have hvalue : (isDefined code).value = decide (code ≠ 186) := by
      unfold isDefined
      rw [if_pos hlt]
      rfl
    rw [allTraced_bind, value_bind, hvalue]
    by_cases hne : code ≠ 186
    · rw [if_pos (decide_eq_true hne)]
      exact ⟨⟨hdef, (allTraced_access _ _).mpr hlt⟩, rfl⟩
    · rw [if_neg (by simpa using hne), hzero fun h => hne h.2]
      exact ⟨⟨hdef, allTraced_pure _⟩, rfl⟩
  · have hvalue : (isDefined code).value = false := by
      unfold isDefined
      rw [if_neg hlt]
      rfl
    rw [allTraced_bind, value_bind, hvalue, if_neg Bool.false_ne_true, hzero fun h => hlt h.1]
    exact ⟨⟨hdef, allTraced_pure _⟩, rfl⟩

/-- The bytes that are read to measure an instruction specially are in the code. -/
structure SpecialInside (bytes : List UChar) (bci : Nat) : Prop where
  wide : codeMemory bytes bci = wide → bci + 1 < bytes.length
  table : kind (codeMemory bytes bci) = .table → align (bci + 1) + 12 ≤ bytes.length
  lookup : kind (codeMemory bytes bci) = .lookup → align (bci + 1) + 8 ≤ bytes.length

theorem align_cast (bci : Nat) : ((bci : Int) + 1 + 3) / 4 * 4 = (align (bci + 1) : Nat) := by
  unfold align
  omega

theorem specialLengthAt_spec (h : bci < m.codeSize) :
    (AllTraced m.InBounds (m.specialLengthAt bci) ↔ SpecialInside m.bytes bci) ∧
      (SpecialInside m.bytes bci →
        (m.specialLengthAt bci).value = Bytecodes.specialLengthAt (codeMemory m.bytes) bci) := by
  have hbyte := byteAt_eq h
  have haligned : ((align (bci + 1) : Nat) : Int) - bci = ((align (bci + 1) - bci : Nat) : Int) := by
    unfold align
    omega
  unfold MethodCode.specialLengthAt Bytecodes.specialLengthAt
  rw [allTraced_bind, value_bind, value_codeOrBpAt, hbyte, allTraced_codeOrBpAt, inBounds_byte,
    align_cast]
  by_cases hwide : codeMemory m.bytes bci = wide
  · have hkind : kind (codeMemory m.bytes bci) = .other := by rw [hwide]; exact wide_length_zero.2.2
    have hinside : SpecialInside m.bytes bci ↔ bci + 1 < m.codeSize :=
      ⟨fun hs => hs.wide hwide, fun hs => ⟨fun _ => hs, by simp [hkind], by simp [hkind]⟩⟩
    rw [if_pos hwide, if_pos hwide, hinside]
    constructor
    · have hnext : m.InBounds (.byte ((bci : Int) + 1)) ↔ bci + 1 < m.codeSize := inBounds_byte
      simp [h, hnext, wideLengthForCode_spec]
    · intro hlt
      have hnext : m.byteAt ((bci : Int) + 1) = codeMemory m.bytes (bci + 1) := byteAt_eq hlt
      simp [hnext, (wideLengthForCode_spec (m := m) _).2]
  · rw [if_neg hwide, if_neg hwide]
    cases hkind : kind (codeMemory m.bytes bci) with
    | table =>
      have hinside : SpecialInside m.bytes bci ↔ align (bci + 1) + 12 ≤ m.codeSize :=
        ⟨fun hs => hs.table hkind, fun hs => ⟨fun hw => absurd hw hwide, fun _ => hs, by simp [hkind]⟩⟩
      have hlo : (align (bci + 1) : Nat) + 1 * 4 = ((align (bci + 1) + 4 : Nat) : Int) := by push_cast; ring
      have hhi : (align (bci + 1) : Nat) + 2 * 4 = ((align (bci + 1) + 8 : Nat) : Int) := by push_cast; ring
      rw [hinside]
      dsimp only
      rw [hlo, hhi, haligned]
      constructor
      · simp only [h, true_and, allTraced_bind, allTraced_getJavaU4, allTraced_pure, and_true]
        omega
      · intro hlt
        rw [value_bind, value_bind, value_pure, value_getJavaU4 (by omega), value_getJavaU4 (by omega)]
    | lookup =>
      have hinside : SpecialInside m.bytes bci ↔ align (bci + 1) + 8 ≤ m.codeSize :=
        ⟨fun hs => hs.lookup hkind, fun hs => ⟨fun hw => absurd hw hwide, by simp [hkind], fun _ => hs⟩⟩
      have hword : (align (bci + 1) : Nat) + 4 = ((align (bci + 1) + 4 : Nat) : Int) := by push_cast; ring
      rw [hinside]
      rw [hword, haligned]
      constructor
      · simp only [h, true_and, allTraced_bind, allTraced_getJavaU4, allTraced_pure, and_true]
      · intro hlt
        rw [value_bind, value_pure, value_getJavaU4 (by omega)]
    | ifJump | jump | wideJump | other =>
      have hinside : SpecialInside m.bytes bci :=
        ⟨fun hw => absurd hw hwide, by simp [hkind], by simp [hkind]⟩
      exact ⟨iff_of_true ⟨h, allTraced_pure _⟩ hinside, fun _ => rfl⟩

/-! ## One step of the stream -/

/-- What the stream shows after an instruction that was accepted. -/
structure Advanced (m : MethodCode) (bci : Nat) (next : Int) (v : Option UChar × RawBytecodeStream) :
    Prop where
  legal : v.1 ≠ none
  bci_eq : v.2.bci = bci
  nextBci_eq : v.2.nextBci = next
  endBci_eq : v.2.endBci = m.codeSize
  code_eq : v.2.code = some Bytecodes.new ↔ codeMemory m.bytes bci = Bytecodes.new

variable {s : RawBytecodeStream}

theorem rawSpecialLengthAt_spec (hlt : bci < m.codeSize) (hzero : lengthFor (codeMemory m.bytes bci) = 0) :
    (AllTraced m.InBounds (m.rawSpecialLengthAt bci) ↔
      (codeMemory m.bytes bci ≠ breakpoint → SpecialInside m.bytes bci)) ∧
    ((codeMemory m.bytes bci ≠ breakpoint → SpecialInside m.bytes bci) →
      (m.rawSpecialLengthAt bci).value = scanLength m.bytes bci) := by
  unfold rawSpecialLengthAt
  rw [allTraced_bind, value_bind, value_codeOrBpAt, byteAt_eq hlt, allTraced_codeOrBpAt, inBounds_byte]
  by_cases hbp : codeMemory m.bytes bci = breakpoint
  · rw [if_pos hbp]
    refine ⟨iff_of_true ⟨hlt, allTraced_pure _⟩ fun h => absurd hbp h, fun _ => ?_⟩
    unfold scanLength
    rw [if_pos hbp]
    rfl
  · rw [if_neg hbp, scanLength_of_special hzero hbp]
    obtain ⟨hread, hvalue⟩ := specialLengthAt_spec hlt
    exact ⟨⟨fun h _ => hread.mp h.2, fun h => ⟨hlt, hread.mpr (h hbp)⟩⟩, fun h => hvalue (h hbp)⟩

theorem scanLength_of_wide (hwide : codeMemory bytes bci = wide) :
    scanLength bytes bci = wideLengthFor (codeMemory bytes (bci + 1)) := by
  rw [scanLength_of_special (by rw [hwide]; exact wide_length_zero.1)
    (by rw [hwide]; exact wide_length_zero.2.1)]
  unfold Bytecodes.specialLengthAt
  rw [if_pos hwide]

/-- After `wide` there is no `new`. -/
theorem wide_next_ne_new (hwide : codeMemory bytes bci = wide) (hpos : 0 < scanLength bytes bci) :
    codeMemory bytes (bci + 1) ≠ Bytecodes.new := by
  intro hnew
  rw [scanLength_of_wide hwide, hnew] at hpos
  exact absurd hpos (by decide)

/-- The part of a step after the codes with a length of their own. -/
theorem rawNextSpecial_spec (hlt : bci < m.codeSize) (hs : s.bci = bci) (hnext : s.nextBci = bci)
    (hend : s.endBci = m.codeSize) (hzero : lengthFor (codeMemory m.bytes bci) = 0)
    (hspecial : codeMemory m.bytes bci ≠ breakpoint → SpecialInside m.bytes bci) :
    AllTraced m.InBounds (s.rawNextSpecial m (codeMemory m.bytes bci)) ∧
      (0 < scanLength m.bytes bci ∧ intSum bci (scanLength m.bytes bci) ≤ m.codeSize →
        Advanced m bci (intSum bci (scanLength m.bytes bci))
          (s.rawNextSpecial m (codeMemory m.bytes bci)).value) ∧
      (¬ (0 < scanLength m.bytes bci ∧ intSum bci (scanLength m.bytes bci) ≤ m.codeSize) →
        (s.rawNextSpecial m (codeMemory m.bytes bci)).value.1 = none ∧
          (s.rawNextSpecial m (codeMemory m.bytes bci)).value.2.bci = bci) := by
  obtain ⟨hread, hvalue⟩ := rawSpecialLengthAt_spec hlt hzero
  unfold rawNextSpecial
  rw [allTraced_bind, value_bind, hs, hvalue hspecial, hend, hnext]
  by_cases hfits : 0 < scanLength m.bytes bci ∧ intSum bci (scanLength m.bytes bci) ≤ m.codeSize
  · rw [if_neg (by omega)]
    by_cases hwide : codeMemory m.bytes bci = wide
    · have hin := (hspecial (by rw [hwide]; exact wide_length_zero.2.1)).wide hwide
      have hbyte : m.byteAt ((bci : Int) + 1) = codeMemory m.bytes (bci + 1) := byteAt_eq hin
      have hbounds : m.InBounds (.byte ((bci : Int) + 1)) := inBounds_byte.mpr hin
      rw [if_pos hwide]
      have hnextTrace : AllTraced m.InBounds (m.codeOrBpAt ((bci : Int) + 1)) :=
        (allTraced_codeOrBpAt _).mpr hbounds
      refine ⟨⟨hread.mpr hspecial, (allTraced_bind _ _).mpr ⟨hnextTrace, allTraced_pure _⟩⟩, fun _ => ?_,
        fun h => absurd hfits h⟩
      refine ⟨by simp, rfl, rfl, rfl, ?_⟩
      refine iff_of_false (fun h => ?_) (by rw [hwide]; decide)
      exact wide_next_ne_new hwide hfits.1 (hbyte.symm.trans (Option.some.inj h))
    · rw [if_neg hwide]
      exact ⟨⟨hread.mpr hspecial, allTraced_pure _⟩,
        fun _ => ⟨by simp, rfl, rfl, rfl, Option.some_inj⟩, fun h => absurd hfits h⟩
  · rw [if_pos (by omega)]
    exact ⟨⟨hread.mpr hspecial, allTraced_pure _⟩, fun h => absurd h hfits, fun _ => ⟨rfl, rfl⟩⟩

/-- An instruction with a length of its own that is longer than the rest of the code. -/
theorem rawNextSpecial_plain (hlt : bci < m.codeSize) (hs : s.bci = bci)
    (hpos : 0 < lengthFor (codeMemory m.bytes bci)) :
    AllTraced m.InBounds (s.rawNextSpecial m (codeMemory m.bytes bci)) ∧
      (s.rawNextSpecial m (codeMemory m.bytes bci)).value.1 = none ∧
      (s.rawNextSpecial m (codeMemory m.bytes bci)).value.2.bci = bci := by
  obtain ⟨hwide, hbp, htable, hlookup, -⟩ := not_special _ hpos
  have hinside : SpecialInside m.bytes bci :=
    ⟨fun h => absurd h hwide, fun h => absurd h htable, fun h => absurd h hlookup⟩
  obtain ⟨hread, hvalue⟩ := specialLengthAt_spec hlt
  have hlength : (m.rawSpecialLengthAt bci).value = 0 := by
    unfold rawSpecialLengthAt
    rw [value_bind, value_codeOrBpAt, byteAt_eq hlt, if_neg hbp, hvalue hinside]
    unfold Bytecodes.specialLengthAt
    rw [if_neg hwide]
    cases hkind : kind (codeMemory m.bytes bci) with
    | table => exact absurd hkind htable
    | lookup => exact absurd hkind hlookup
    | _ => rfl
  have htrace : AllTraced m.InBounds (m.rawSpecialLengthAt bci) := by
    unfold rawSpecialLengthAt
    rw [allTraced_bind, value_codeOrBpAt, byteAt_eq hlt, if_neg hbp]
    exact ⟨(allTraced_codeOrBpAt _).mpr (inBounds_byte.mpr hlt), hread.mpr hinside⟩
  unfold rawNextSpecial
  rw [allTraced_bind, value_bind, hs, hlength, if_pos (Or.inl (Int.le_refl 0))]
  exact ⟨⟨htrace, allTraced_pure _⟩, rfl, rfl⟩

/-- What a step reads, and what it shows, at an instruction that can be measured. The sum is the
`int` that the stream compares with the end of the code. -/
theorem rawNext_spec (hlt : bci < m.codeSize) (hsize : m.codeSize ≤ 65535) (hnext : s.nextBci = bci)
    (hend : s.endBci = m.codeSize) (hdef : (codeMemory m.bytes bci).toNat < numberOfCodes)
    (htable : kind (codeMemory m.bytes bci) = .table → align (bci + 1) + 12 ≤ m.codeSize)
    (hlookup : kind (codeMemory m.bytes bci) = .lookup → align (bci + 1) + 8 ≤ m.codeSize) :
    AllTraced m.InBounds (s.rawNext m) ∧
      (0 < scanLength m.bytes bci ∧ intSum bci (scanLength m.bytes bci) ≤ m.codeSize →
        Advanced m bci (intSum bci (scanLength m.bytes bci)) (s.rawNext m).value) ∧
      (¬ (0 < scanLength m.bytes bci ∧ intSum bci (scanLength m.bytes bci) ≤ m.codeSize) →
        (s.rawNext m).value.1 = none ∧ (s.rawNext m).value.2.bci = bci) := by
  have hlen : (m.lengthForCode (codeMemory m.bytes bci)).value = lengthFor (codeMemory m.bytes bci) := by
    unfold lengthForCode
    rw [value_access, if_pos hdef]
  have htrace : AllTraced m.InBounds (m.lengthForCode (codeMemory m.bytes bci)) :=
    (allTraced_access _ _).mpr hdef
  have hbyte : AllTraced m.InBounds (m.codeOrBpAt bci) := (allTraced_codeOrBpAt _).mpr (inBounds_byte.mpr hlt)
  unfold rawNext
  rw [allTraced_bind, value_bind, allTraced_bind, value_bind, value_codeOrBpAt, hnext, byteAt_eq hlt,
    hlen, hend]
  by_cases hzero : lengthFor (codeMemory m.bytes bci) = 0
  · rw [if_neg (by omega)]
    by_cases hwide : codeMemory m.bytes bci = wide ∧ intSum bci 1 ≥ m.codeSize
    · -- `wide` is the last byte
      have hone : intSum bci 1 = bci + 1 := intSum_eq (by omega) (by omega)
      have hnot : ¬ (0 < scanLength m.bytes bci ∧ intSum bci (scanLength m.bytes bci) ≤ m.codeSize) := by
        rw [scanLength_of_wide hwide.1]
        have hcases := wideLengthFor_cases (codeMemory m.bytes (bci + 1))
        rw [intSum_eq (by omega) (by omega)]
        omega
      rw [if_pos hwide]
      exact ⟨⟨hbyte, htrace, allTraced_pure _⟩, fun h => absurd h hnot, fun _ => ⟨rfl, rfl⟩⟩
    · rw [if_neg hwide]
      have hspecial : SpecialInside m.bytes bci := by
        refine ⟨fun hw => ?_, htable, hlookup⟩
        have hone : intSum bci 1 = bci + 1 := intSum_eq (by omega) (by omega)
        have hsmall : ¬ intSum bci 1 ≥ m.codeSize := fun h => hwide ⟨hw, h⟩
        rw [hone] at hsmall
        exact_mod_cast not_le.mp hsmall
      obtain ⟨hrest, haccept, hreject⟩ :=
        rawNextSpecial_spec (s := ⟨bci, bci, m.codeSize, s.code, s.isWide⟩) hlt rfl rfl rfl hzero
          fun _ => hspecial
      exact ⟨⟨hbyte, htrace, hrest⟩, haccept, hreject⟩
  · have hpos := Nat.pos_of_ne_zero hzero
    rw [scanLength_of_lengthFor hpos]
    by_cases hfits : 0 < lengthFor (codeMemory m.bytes bci) ∧
        intSum bci (lengthFor (codeMemory m.bytes bci)) ≤ m.codeSize
    · rw [if_pos hfits]
      have hadvanced : ∀ l : Nat, Advanced m bci (intSum bci l)
          (some (codeMemory m.bytes bci),
            ⟨bci, intSum bci l, m.codeSize, some (codeMemory m.bytes bci), false⟩) :=
        fun l => ⟨by simp, rfl, by dsimp only, rfl, Option.some_inj⟩
      exact ⟨⟨hbyte, htrace, allTraced_pure _⟩, fun _ => hadvanced _,
        fun h => absurd ⟨by exact_mod_cast hpos, hfits.2⟩ h⟩
    · rw [if_neg hfits, if_neg fun h => (not_special _ hpos).1 h.1]
      obtain ⟨hrest, hreject⟩ :=
        rawNextSpecial_plain (s := ⟨bci, bci, m.codeSize, s.code, s.isWide⟩) hlt rfl hpos
      exact ⟨⟨hbyte, htrace, hrest⟩, fun h => absurd ⟨hpos, h.2⟩ hfits, fun _ => hreject⟩

theorem scanLength_lt (bytes : List UChar) (bci : Nat) : scanLength bytes bci < 2 ^ 31 := by
  by_cases hbp : codeMemory bytes bci = breakpoint
  · unfold scanLength
    rw [if_pos hbp]
    decide
  by_cases hzero : lengthFor (codeMemory bytes bci) = 0
  · rw [scanLength_of_special hzero hbp]
    unfold Bytecodes.specialLengthAt
    dsimp only
    split
    · have hcases := wideLengthFor_cases (codeMemory bytes (bci + 1))
      omega
    · split
      · exact positiveInt_lt _
      · exact positiveInt_lt _
      · decide
  · have hpos := Nat.pos_of_ne_zero hzero
    have hle := (not_special _ hpos).2.2.2.2
    rw [scanLength_of_lengthFor hpos]
    omega

/-- A step that stays in bounds has found what it needs to measure the instruction. -/
theorem of_allTraced_rawNext (hnext : s.nextBci = bci) (h : AllTraced m.InBounds (s.rawNext m)) :
    bci < m.codeSize ∧ (codeMemory m.bytes bci).toNat < numberOfCodes ∧
      (kind (codeMemory m.bytes bci) = .table → align (bci + 1) + 12 ≤ m.codeSize) ∧
      (kind (codeMemory m.bytes bci) = .lookup → align (bci + 1) + 8 ≤ m.codeSize) := by
  unfold rawNext at h
  rw [allTraced_bind, allTraced_bind, value_codeOrBpAt, hnext] at h
  obtain ⟨hbyte, hlength, hrest⟩ := h
  have hlt : bci < m.codeSize := inBounds_byte.mp ((allTraced_codeOrBpAt _).mp hbyte)
  rw [byteAt_eq hlt] at hlength hrest
  have hin : m.InBounds (.length (codeMemory m.bytes bci)) := (allTraced_access _ _).mp hlength
  have hdef : (codeMemory m.bytes bci).toNat < numberOfCodes := hin
  have hlen : (m.lengthForCode (codeMemory m.bytes bci)).value = lengthFor (codeMemory m.bytes bci) := by
    unfold lengthForCode
    rw [value_access, if_pos hdef]
  -- only switches are measured by words behind them
  have hswitch : kind (codeMemory m.bytes bci) = .table ∨ kind (codeMemory m.bytes bci) = .lookup →
      SpecialInside m.bytes bci := by
    intro hkind
    obtain ⟨hzero, hwide⟩ := (lengthFor_of_kind _).2.2 hkind
    have hbp : codeMemory m.bytes bci ≠ breakpoint := by
      intro hbp
      rw [hbp, breakpoint_not_switch.1] at hkind
      simp at hkind
    rw [if_neg (by omega), if_neg fun h => hwide h.1] at hrest
    unfold rawNextSpecial at hrest
    rw [allTraced_bind] at hrest
    exact (rawSpecialLengthAt_spec hlt hzero).1.mp hrest.1 hbp
  exact ⟨hlt, hdef, fun hk => (hswitch (Or.inl hk)).table hk, fun hk => (hswitch (Or.inr hk)).lookup hk⟩

/-! ## The scan -/

/-- The scan ends without an access out of bounds, with an illegal instruction or with the marks
of instructions that tile the code. -/
def ScansInBounds (m : MethodCode) : Prop :=
  ∃ fuel result, (generateCodeData m fuel).value = some result ∧
    AllTraced m.InBounds (generateCodeData m fuel) ∧
    ((∃ bci, result = .badInstruction bci) ∨ ∃ ls, Tiles m.bytes 0 ls ∧
        result = .marks (markAll m.bytes (List.replicate m.codeSize .unmarked) (starts 0 ls)))

theorem fits_iff (h : Inside m.bytes bci) :
    (0 < scanLength m.bytes bci ∧ intSum bci (scanLength m.bytes bci) ≤ m.codeSize) ↔ Fits m.bytes bci := by
  refine and_congr_right fun hpos => ?_
  rw [intSum_eq (by omega) h.noOverflow]
  rfl

variable {data : List CodeMark}

/-- One round of the loop at an instruction that can be measured. -/
theorem generateLoop_inside (hlt : bci < m.codeSize) (hsize : m.codeSize ≤ 65535) (hnext : s.nextBci = bci)
    (hend : s.endBci = m.codeSize) (h : Inside m.bytes bci) (fuel : Nat) (data : List CodeMark) :
    (Fits m.bytes bci → ∃ s' : RawBytecodeStream,
        s'.nextBci = bci + scanLength m.bytes bci ∧ s'.endBci = m.codeSize ∧
        (generateLoop m (fuel + 1) s data).value =
          (generateLoop m fuel s' (data.set bci (markAt m.bytes bci))).value ∧
        (AllTraced m.InBounds (generateLoop m (fuel + 1) s data) ↔
          AllTraced m.InBounds (generateLoop m fuel s' (data.set bci (markAt m.bytes bci))))) ∧
      (¬ Fits m.bytes bci → (generateLoop m (fuel + 1) s data).value = some (.badInstruction bci) ∧
        AllTraced m.InBounds (generateLoop m (fuel + 1) s data)) := by
  obtain ⟨htrace, haccept, hreject⟩ := rawNext_spec hlt hsize hnext hend h.defined h.table h.lookup
  rw [fits_iff h] at haccept hreject
  have hmore : s.isLastBytecode = false := by
    unfold isLastBytecode
    rw [hnext, hend]
    simpa using hlt
  rw [generateLoop, if_neg (by simp [hmore])]
  constructor
  · intro hfits
    have hadv := haccept hfits
    have hmark : (if (s.rawNext m).value.2.code = some Bytecodes.new then CodeMark.newOffset
        else .bytecodeOffset) = markAt m.bytes bci := by
      unfold markAt
      rw [if_congr hadv.code_eq rfl rfl]
    refine ⟨(s.rawNext m).value.2, ?_, hadv.endBci_eq, ?_, ?_⟩
    · rw [hadv.nextBci_eq]
      exact intSum_eq (by have := hfits.1; omega) h.noOverflow
    · rw [value_bind]
      dsimp only
      rw [if_neg hadv.legal, value_bind, value_access, hmark, hadv.bci_eq, Int.toNat_natCast]
    rw [allTraced_bind]
    dsimp only
    rw [if_neg hadv.legal, allTraced_bind, value_access, hmark, hadv.bci_eq, Int.toNat_natCast,
      allTraced_access]
    have hin : m.InBounds (.codeData bci) := (inBounds_byte (m := m)).mpr hlt
    simp [htrace, hin]
  · intro hfits
    obtain ⟨hnone, hbci⟩ := hreject hfits
    rw [value_bind, allTraced_bind]
    dsimp only
    rw [if_pos hnone, hbci]
    exact ⟨rfl, htrace, allTraced_pure _⟩

/-- From a bci at which the scan arrives it ends in bounds, if all instructions can be measured. -/
theorem generateLoop_spec (hsize : m.codeSize ≤ 65535)
    (hall : ∀ bci, Reached m.bytes bci → bci < m.codeSize → Inside m.bytes bci) (fuel : Nat)
    (data : List CodeMark) (hreached : Reached m.bytes bci) (hle : bci ≤ m.codeSize) (hfuel : m.codeSize - bci < fuel)
    (hnext : s.nextBci = bci) (hend : s.endBci = m.codeSize) :
    ∃ result, (generateLoop m fuel s data).value = some result ∧
      AllTraced m.InBounds (generateLoop m fuel s data) ∧ ((∃ bci, result = .badInstruction bci) ∨
        ∃ ls, Tiles m.bytes bci ls ∧ result = .marks (markAll m.bytes data (starts bci ls))) := by
  induction fuel generalizing bci s data with
  | zero => exact absurd hfuel (Nat.not_lt_zero _)
  | succ fuel ih =>
    rcases Nat.eq_or_lt_of_le hle with heq | hlt
    · -- the end of the code
      have hlast : s.isLastBytecode = true := by
        unfold isLastBytecode
        rw [hnext, hend, heq]
        simp
      rw [generateLoop, if_pos hlast]
      exact ⟨.marks data, rfl, allTraced_pure _, Or.inr ⟨[], heq, rfl⟩⟩
    · have hinside := hall bci hreached hlt
      obtain ⟨haccept, hreject⟩ := generateLoop_inside hlt hsize hnext hend hinside fuel data
      by_cases hfits : Fits m.bytes bci
      · obtain ⟨s', hnext', hend', hvalue, htrace⟩ := haccept hfits
        obtain ⟨l, hl⟩ := Int.eq_ofNat_of_zero_le (Int.le_of_lt hfits.1)
        have hpos : 0 < l := by have := hfits.1; omega
        have hbound : bci + l ≤ m.codeSize := by
          have hsum := hfits.2
          rw [hl] at hsum
          exact_mod_cast hsum
        have hreached' := hreached.next hfits
        rw [hl, Int.toNat_natCast] at hreached'
        rw [hvalue, htrace]
        obtain ⟨result, hresult, hbounds, hcase⟩ :=
          ih (data.set bci (markAt m.bytes bci)) hreached' hbound (by omega)
            (by rw [hnext', hl]; rfl) hend'
        refine ⟨result, hresult, hbounds, hcase.imp_right ?_⟩
        rintro ⟨ls, htiles, rfl⟩
        exact ⟨l :: ls, ⟨hlt, hpos, hl.symm, htiles⟩, rfl⟩
      · obtain ⟨hvalue, htrace⟩ := hreject hfits
        exact ⟨_, hvalue, htrace, Or.inl ⟨_, rfl⟩⟩

/-- A loop that ends in bounds has not been started before the code. -/
theorem not_negative {fuel : Nat} (hneg : s.nextBci < 0) (hend : s.endBci = m.codeSize)
    (hsome : (generateLoop m fuel s data).value ≠ none) :
    ¬ AllTraced m.InBounds (generateLoop m fuel s data) := by
  cases fuel with
  | zero => exact absurd rfl hsome
  | succ fuel =>
    have hmore : s.isLastBytecode = false := by
      unfold isLastBytecode
      simpa using by omega
    rw [generateLoop, if_neg (by simp [hmore]), allTraced_bind]
    rintro ⟨hstep, -⟩
    unfold rawNext at hstep
    rw [allTraced_bind] at hstep
    have hin : m.InBounds (.byte s.nextBci) := (allTraced_codeOrBpAt _).mp hstep.1
    exact absurd hin.1 (not_le.mpr hneg)

/-- A loop that ends in bounds has measured its first instruction. -/
theorem inside_of_generateLoop {fuel : Nat} (hlt : bci < m.codeSize) (hsize : m.codeSize ≤ 65535)
    (hnext : s.nextBci = bci) (hend : s.endBci = m.codeSize)
    (hsome : (generateLoop m fuel s data).value ≠ none)
    (h : AllTraced m.InBounds (generateLoop m fuel s data)) : Inside m.bytes bci := by
  cases fuel with
  | zero => exact absurd rfl hsome
  | succ fuel =>
    have hmore : s.isLastBytecode = false := by
      unfold isLastBytecode
      rw [hnext, hend]
      simpa using hlt
    rw [generateLoop, if_neg (by simp [hmore])] at h hsome
    rw [allTraced_bind] at h
    rw [value_bind] at hsome
    obtain ⟨-, hdef, htable, hlookup⟩ := of_allTraced_rawNext hnext h.1
    refine ⟨hdef, htable, hlookup, ?_⟩
    by_contra hover
    -- the sum wraps, and the next round starts before the code
    have hlen := scanLength_lt m.bytes bci
    have hsum : intSum bci (scanLength m.bytes bci) = bci + scanLength m.bytes bci - 2 ^ 32 := by
      unfold intSum
      rw [Int.bmod_def, Int.emod_eq_of_lt (by omega) (by omega), if_neg (by omega)]
      rfl
    have hadv := (rawNext_spec hlt hsize hnext hend hdef htable hlookup).2.1
      ⟨by omega, by rw [hsum]; omega⟩
    dsimp only at h hsome
    rw [if_neg hadv.legal] at h hsome
    rw [allTraced_bind] at h
    exact not_negative (by rw [hadv.nextBci_eq, hsum]; omega) hadv.endBci_eq hsome h.2.2

/-- A scan that ends in bounds has measured all instructions at which it arrived. -/
theorem exists_generateLoop {fuel : Nat} (hsize : m.codeSize ≤ 65535)
    (hsome : (generateCodeData m fuel).value ≠ none)
    (h : AllTraced m.InBounds (generateCodeData m fuel)) (hreached : Reached m.bytes bci) :
    ∃ fuel' data' s', (generateLoop m fuel' s' data').value ≠ none ∧
      AllTraced m.InBounds (generateLoop m fuel' s' data') ∧ s'.nextBci = bci ∧ s'.endBci = m.codeSize := by
  induction hreached with
  | start => exact ⟨fuel, _, .new m, hsome, h, rfl, rfl⟩
  | @next bci _ hfits ih =>
    obtain ⟨fuel', data', s', hsome', h', hnext', hend'⟩ := ih
    have hlt : bci < m.codeSize := by
      have hpos := hfits.1
      have hsum := hfits.2
      unfold codeSize
      omega
    have hinside := inside_of_generateLoop hlt hsize hnext' hend' hsome' h'
    cases fuel' with
    | zero => exact absurd rfl hsome'
    | succ fuel' =>
      obtain ⟨s'', hnext'', hend'', hvalue, htrace⟩ :=
        (generateLoop_inside hlt hsize hnext' hend' hinside fuel' data').1 hfits
      rw [hvalue] at hsome'
      refine ⟨fuel', _, s'', hsome', htrace.mp h', ?_, hend''⟩
      have hpos := hfits.1
      omega

theorem ScansInBounds.inside (hsize : m.codeSize ≤ 65535) (h : ScansInBounds m)
    (hreached : Reached m.bytes bci) (hlt : bci < m.codeSize) : Inside m.bytes bci := by
  obtain ⟨fuel, result, hvalue, htrace, -⟩ := h
  obtain ⟨fuel', data', s', hsome', h', hnext', hend'⟩ :=
    exists_generateLoop hsize (by rw [hvalue]; simp) htrace hreached
  exact inside_of_generateLoop hlt hsize hnext' hend' hsome' h'

/-- The scan of a method's code stays in bounds, ends, and finds the instructions or an illegal one,
exactly if each instruction at which it arrives can be measured. -/
theorem scansInBounds_iff (m : MethodCode) (hsize : m.codeSize ≤ 65535) :
    ScansInBounds m ↔ ∀ bci, Reached m.bytes bci → bci < m.codeSize → Inside m.bytes bci := by
  constructor
  · intro h bci hreached hlt
    exact h.inside hsize hreached hlt
  · intro hall
    obtain ⟨result, hvalue, htrace, hcase⟩ := generateLoop_spec (s := .new m) hsize hall
      (m.codeSize + 1) (List.replicate m.codeSize .unmarked) .start (Nat.zero_le _) (by omega) rfl rfl
    exact ⟨m.codeSize + 1, result, hvalue, htrace, hcase⟩

/-- A code with a `tableswitch` at bci 1, a `new` at bci 20 and a wide `iload` at bci 23. -/
def switchCode : List UChar :=
  [3, 170, 0, 0, 0, 0, 0, 19, 0, 0, 0, 0, 0, 0, 0, 0, 0, 0, 0, 22, 187, 0, 1, 196, 21, 1, 0, 177]

theorem scansInBounds_switchCode : ScansInBounds ⟨switchCode, fun _ => 0, fun _ => 0⟩ := by
  have hreached : ∀ bci, Reached switchCode bci → bci ∈ [0, 1, 20, 23, 27, 28] := by
    have hnext : ∀ bci ∈ [0, 1, 20, 23, 27, 28], Fits switchCode bci →
        bci + (scanLength switchCode bci).toNat ∈ [0, 1, 20, 23, 27, 28] := by
      unfold Fits
      decide
    intro bci h
    induction h with
    | start => decide
    | next _ hfits ih => exact hnext _ ih hfits
  have hinside : ∀ bci ∈ [0, 1, 20, 23, 27, 28], bci < switchCode.length →
    Inside switchCode bci := by decide
  exact (scansInBounds_iff _ (by decide)).mpr fun bci h hlt => hinside bci (hreached bci h) hlt

/-- A tableswitch at bci 1 with 2 ^ 29 - 4 arms: its length and its bci add up to 2 ^ 31. -/
def overflowingSwitch : List UChar :=
  [0, 170, 0, 0, 0, 0, 0, 0, 0, 0, 0, 0, 0x1F, 0xFF, 0xFF, 0xFB]

/-- An undefined bytecode, a switch whose words are behind the code, and a switch whose end is no
`int`. -/
theorem scan_leaves_bounds : ¬ ScansInBounds ⟨[0xFF], fun _ => 0, fun _ => 0⟩ ∧
      ¬ ScansInBounds ⟨[170], fun _ => 0, fun _ => 0⟩ ∧
      ¬ ScansInBounds ⟨overflowingSwitch, fun _ => 0, fun _ => 0⟩ := by
  refine ⟨fun h => ?_, fun h => ?_, fun h => ?_⟩
  · have hinside : Inside [0xFF] 0 := h.inside (by decide) .start (by decide)
    exact absurd hinside (by decide)
  · have hinside : Inside [170] 0 := h.inside (by decide) .start (by decide)
    exact absurd hinside (by decide)
  · have hreached : Reached overflowingSwitch 1 := Reached.start.next (by unfold Fits; decide)
    have hinside : Inside overflowingSwitch 1 := h.inside (by decide) hreached (by decide)
    exact absurd hinside (by decide)

end Hotspot.BytecodeStream
