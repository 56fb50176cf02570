-- SUMMARY: The records of a code section: what relocate appends, and when there is no room.
import Hotspot.Code.RelocPackets
import Hotspot.Asm.CodeBuffer

/-!
# Relocation records of a section

A call of `relocate` appends fillers for a large gap and then one record. Before it does, it
makes room for one filler per `offset_limit()` bytes of the gap, but each filler skips one unit
less than that. For a gap of many megabytes the difference is more than the spare room that
`length_limit` leaves, and the record is written past the end of the array.
-/

namespace Hotspot.Asm

/-- A relocation, at an address that may be relative to its section. -/
structure Entry where
  addr : Nat
  type : RelocType
  format : Nat
  data : RelocData
  deriving DecidableEq, Repr

/-- The entry in code that starts at `base`. -/
def Entry.shift (base : Nat) (e : Entry) : Entry := { e with addr := base + e.addr }

/-- What a client sees of the records that an iterator shows it: those of type `none` are
ignored, and the data are unpacked as the type says. -/
def observe (p : Platform) (rs : List Located) : List Entry :=
  (rs.filter fun r => r.type ≠ .none).map fun r =>
    ⟨r.addr, r.type, r.format, unpackData ((p.dataKind r.type).getD .noData) r.data⟩

section Observe

variable {p : Platform}

theorem observe_append (rs ss : List Located) :
    observe p (rs ++ ss) = observe p rs ++ observe p ss := by
  simp [observe]

theorem observe_filter_addr (f : Nat → Bool) (rs : List Located) :
    observe p (rs.filter fun r => f r.addr) = (observe p rs).filter fun e => f e.addr := by
  simp only [observe, List.filter_map, List.filter_filter]
  congr 2
  funext r
  exact Bool.and_comm _ _

end Observe

/-! ## Fillers -/

/-- How many fillers it takes until the rest of an offset fits into a record. -/
def fillerCount (p : Platform) (offset : Nat) : Nat :=
  (offset / p.offsetUnit - 1) / (2 ^ p.offsetWidth - 1)

/-- The largest filler. -/
def maxFiller (p : Platform) : Packet p :=
  .filler p (2 ^ p.offsetWidth - 1) (Nat.sub_lt (Nat.two_pow_pos _) Nat.one_pos)

section Fillers

variable {p : Platform}

theorem maxFiller_header (p : Platform) : (maxFiller p).header = fillerRelocInfo p := by
  cases p <;> rfl

theorem maxFiller_words (p : Platform) : (maxFiller p).words = [fillerRelocInfo p] := by
  rw [← maxFiller_header]
  rfl

theorem maxFiller_offset (p : Platform) : (maxFiller p).offset = fillerOffset p := by
  cases p <;> decide

theorem fillerOffset_mod (p : Platform) : fillerOffset p % p.offsetUnit = 0 := by
  cases p <;> decide

variable {off : Nat}

theorem fillerCount_eq_zero (h : off < p.offsetLimit) : fillerCount p off = 0 := by
  rw [offsetLimit_eq] at h
  have hdiv : off / p.offsetUnit < 2 ^ p.offsetWidth :=
    (Nat.div_lt_iff_lt_mul (offsetUnit_pos p)).mpr h
  have htwo : 2 ≤ 2 ^ p.offsetWidth := by cases p <;> decide
  apply Nat.div_eq_of_lt
  omega

theorem fillerCount_succ (h : p.offsetLimit ≤ off) :
    fillerCount p off = fillerCount p (off - fillerOffset p) + 1 := by
  -- in units, a filler skips the divisor of the count
  have harith : ∀ o d : Nat, 2 ≤ d → d ≤ o → (o - 1) / (d - 1) = (o - (d - 1) - 1) / (d - 1) + 1 := by
    intro o d hd ho
    rw [← Nat.add_div_right _ (by omega)]
    congr 1
    omega
  have hoff : fillerOffset p = p.offsetUnit * (2 ^ p.offsetWidth - 1) := by cases p <;> decide
  have htwo : 2 ≤ 2 ^ p.offsetWidth := by cases p <;> decide
  have hle : p.offsetUnit * (2 ^ p.offsetWidth - 1) ≤ off := by
    rw [← hoff]
    exact le_trans (by cases p <;> decide) h
  have hunits : 2 ^ p.offsetWidth ≤ off / p.offsetUnit := by
    rw [Nat.le_div_iff_mul_le (offsetUnit_pos p), ← offsetLimit_eq]
    exact h
  rw [fillerCount, fillerCount, hoff, Nat.sub_mul_div_of_le _ _ _ hle]
  exact harith _ _ htwo hunits

theorem fillerOffset_le_offsetLimit (p : Platform) : fillerOffset p ≤ p.offsetLimit := by
  cases p <;> decide

/-- What the fillers of a gap leave of it. -/
def restOffset (p : Platform) (offset : Nat) : Nat := offset - fillerCount p offset * fillerOffset p

theorem restOffset_succ (h : p.offsetLimit ≤ off) :
    restOffset p off = restOffset p (off - fillerOffset p) := by
  rw [restOffset, restOffset, fillerCount_succ h, Nat.add_mul, Nat.one_mul, Nat.sub_sub,
    Nat.add_comm]

theorem restOffset_spec (off : Nat) : restOffset p off < p.offsetLimit ∧
      off = fillerCount p off * fillerOffset p + restOffset p off := by
  induction off using Nat.strong_induction_on with
  | _ off ih =>
    by_cases hlarge : p.offsetLimit ≤ off
    · have hpos := fillerOffset_pos p
      have hle := (fillerOffset_le_offsetLimit p).trans hlarge
      obtain ⟨hlt, heq⟩ := ih (off - fillerOffset p) (by omega)
      rw [restOffset_succ hlarge]
      refine ⟨hlt, ?_⟩
      rw [fillerCount_succ hlarge, Nat.add_mul, Nat.one_mul]
      omega
    · have hsmall := Nat.lt_of_not_le hlarge
      rw [restOffset, fillerCount_eq_zero hsmall, Nat.zero_mul, Nat.sub_zero]
      exact ⟨hsmall, (Nat.zero_add _).symm⟩

theorem restOffset_mod (h : off % p.offsetUnit = 0) : restOffset p off % p.offsetUnit = 0 := by
  have hspec := (restOffset_spec (p := p) off).2
  have hdvd : p.offsetUnit ∣ fillerCount p off * fillerOffset p :=
    Dvd.dvd.mul_left (Nat.dvd_of_mod_eq_zero (fillerOffset_mod p)) _
  have hsum : p.offsetUnit ∣ fillerCount p off * fillerOffset p + restOffset p off := by
    rw [← hspec]
    exact Nat.dvd_of_mod_eq_zero h
  exact Nat.mod_eq_zero_of_dvd ((Nat.dvd_add_right hdvd).mp hsum)

theorem appends_emitFillers (off : Nat) (b : Buffer RelocInfo) : Appends (emitFillers p off) b
      (List.replicate (fillerCount p off) (fillerRelocInfo p)) (restOffset p off) := by
  induction off using Nat.strong_induction_on generalizing b with
  | _ off ih =>
    rw [emitFillers]
    by_cases hlarge : off ≥ p.offsetLimit
    · have hpos := fillerOffset_pos p
      have hlimit := offsetLimit_pos p
      rw [if_pos hlarge, restOffset_succ hlarge, fillerCount_succ hlarge, List.replicate_succ]
      exact (Appends.push b _).bind fun b' _ _ => ih (off - fillerOffset p) (by omega) b'
    · have hsmall := Nat.lt_of_not_le hlarge
      rw [if_neg hlarge, restOffset, fillerCount_eq_zero hsmall, Nat.zero_mul, Nat.sub_zero]
      exact Appends.pure b off

end Fillers

/-! ## One record -/

section Record

variable {p : Platform}

theorem type_ne_dataPrefixTag (sp : Relocation p) : sp.type ≠ .dataPrefixTag := by
  intro h
  have := sp.kind_eq
  rw [h] at this
  cases this

/-- The packet of a relocation, once the fillers of its gap are written. -/
def recordPacket (offset : Nat) (spec : Relocation p) (format : Nat)
    (hformat : format < 2 ^ p.formatWidth) : Packet p where
  type := spec.type
  units := restOffset p offset / p.offsetUnit
  format := format
  data := spec.data.shorts
  type_ne := type_ne_dataPrefixTag spec
  units_lt := by
    have h := (restOffset_spec (p := p) offset).1
    rw [offsetLimit_eq] at h
    exact (Nat.div_lt_iff_lt_mul (offsetUnit_pos p)).mpr h
  format_lt := hformat
  data_lt := Nat.lt_of_le_of_lt spec.data.shorts_length_le (by decide)

/-- All packets that a call of `relocate` writes. -/
def recordPackets (offset : Nat) (spec : Relocation p) (format : Nat)
    (hformat : format < 2 ^ p.formatWidth) : List (Packet p) :=
  List.replicate (fillerCount p offset) (maxFiller p) ++ [recordPacket offset spec format hformat]

/-- The length of a record with its prefix, in half-words. -/
def recordLength (data : RelocData) : Nat := (prefixWords data.shorts).length + 1

theorem flatMap_words_replicate (n : Nat) : (List.replicate n (maxFiller p)).flatMap Packet.words =
      List.replicate n (fillerRelocInfo p) := by
  induction n with
  | zero => rfl
  | succ n ih =>
    rw [List.replicate_succ, List.replicate_succ, List.flatMap_cons, ih, maxFiller_words]
    rfl

variable {off : Nat} {sp : Relocation p} {format : Nat} {hf : format < 2 ^ p.formatWidth}

theorem recordPackets_words_length :
    ((recordPackets off sp format hf).flatMap Packet.words).length =
      fillerCount p off + recordLength sp.data := by
  simp [recordPackets, flatMap_words_replicate, Packet.words, recordPacket, recordLength]

theorem appends_writeRecord (hunit : off % p.offsetUnit = 0) (b : Buffer RelocInfo) :
    Appends (writeRecord p off sp.type format sp.data) b
      ((recordPackets off sp format hf).flatMap Packet.words) () := by
  have hheader : (recordPacket off sp format hf).header =
      RelocInfo.ofOffset p sp.type (restOffset p off) format := by
    rw [Packet.header]
    simp only [recordPacket]
    rw [Nat.div_mul_cancel (Nat.dvd_of_mod_eq_zero (restOffset_mod hunit))]
  rw [recordPackets, List.flatMap_append, flatMap_words_replicate, List.flatMap_singleton,
    Packet.words, hheader]
  refine (appends_emitFillers off b).bind fun b' _ _ => ?_
  exact Appends.size_bind (appends_record b' _ sp.data)

theorem locateAll_replicate (n addr : Nat) :
    observe p (locateAll addr (List.replicate n (maxFiller p))) = [] ∧
      lastAddr addr (List.replicate n (maxFiller p)) = addr + n * fillerOffset p := by
  induction n generalizing addr with
  | zero => simp [locateAll, lastAddr, observe]
  | succ n ih =>
    obtain ⟨hobs, hlast⟩ := ih (addr + (maxFiller p).offset)
    rw [List.replicate_succ]
    constructor
    · rw [locateAll, ← List.singleton_append, observe_append, hobs]
      rfl
    · rw [lastAddr, hlast, maxFiller_offset, Nat.add_mul, Nat.one_mul]
      omega

/-- The packets of a call show its relocation, at the end of the gap. -/
theorem observe_recordPackets (hunit : off % p.offsetUnit = 0) (htype : sp.type ≠ .none)
    (addr : Nat) : observe p (locateAll addr (recordPackets off sp format hf)) =
        [⟨addr + off, sp.type, format, sp.data⟩] ∧
      lastAddr addr (recordPackets off sp format hf) = addr + off := by
  obtain ⟨hobs, hlast⟩ := locateAll_replicate (p := p) (fillerCount p off) addr
  have hrest : (recordPacket off sp format hf).offset = restOffset p off :=
    Nat.div_mul_cancel (Nat.dvd_of_mod_eq_zero (restOffset_mod hunit))
  have hsum := (restOffset_spec (p := p) off).2
  have haddr : addr + fillerCount p off * fillerOffset p +
      (recordPacket off sp format hf).offset = addr + off := by
    rw [hrest]
    omega
  have hdata : unpackData ((p.dataKind sp.type).getD .noData) sp.data.shorts = sp.data := by
    rw [sp.kind_eq]
    exact unpackData_shorts sp.data
  constructor
  · rw [recordPackets, locateAll_append, observe_append, hobs, hlast, List.nil_append, locateAll,
      locateAll, Packet.locate, haddr]
    simp [observe, recordPacket, htype, hdata]
  · rw [recordPackets, lastAddr_append, hlast, lastAddr, lastAddr, haddr]

end Record

/-! ## A section -/

/-- The array of a section holds these entries, whose addresses are relative to the section. -/
structure Recorded (p : Platform) (cs : CodeSection) (es : List Entry) : Prop where
  start_le : cs.start ≤ cs.locsPoint
  le_stop : cs.locsPoint ≤ cs.stop
  aligned : cs.locsPointOff % p.offsetUnit = 0
  empty : cs.isEmpty = true → es = []
  packets : ∃ ks : List (Packet p), cs.locsWords = ks.flatMap Packet.words ∧
    (∀ base, observe p (locateAll base ks) = es.map (Entry.shift base)) ∧
    ∀ base, lastAddr base ks = base + cs.locsPointOff

/-- A section whose array, if there is one, is still empty. -/
structure CodeSection.Fresh (cs : CodeSection) : Prop where
  start_le_stop : cs.start ≤ cs.stop
  locsPoint_eq : cs.locsPoint = cs.start
  count_eq : ∀ locs, cs.locs = some locs → locs.count = 0

theorem CodeSection.Fresh.recorded {p : Platform} {cs : CodeSection} (h : cs.Fresh) :
    Recorded p cs [] where
  start_le := h.locsPoint_eq.ge
  le_stop := h.locsPoint_eq.le.trans h.start_le_stop
  aligned := by rw [CodeSection.locsPointOff, h.locsPoint_eq, Nat.sub_self, Nat.zero_mod]
  empty := fun _ => rfl
  packets := by
    refine ⟨[], ?_, fun _ => rfl, fun base => ?_⟩
    · rw [CodeSection.locsWords]
      cases hlocs : cs.locs with
      | none => rfl
      | some locs => exact Buffer.contents_eq_nil (h.count_eq locs hlocs)
    · rw [CodeSection.locsPointOff, h.locsPoint_eq, Nat.sub_self]
      rfl

/-- What the iterator over a section shows. -/
theorem Recorded.records {p : Platform} {cs : CodeSection} {es : List Entry}
    (h : Recorded p cs es) (begin limit : Option Nat) :
    (RelocIterator.records p cs.locsWords cs.start begin limit).map (observe p) =
      some ((es.map (Entry.shift cs.start)).filter fun e =>
        RelocIterator.inRange begin limit e.addr) := by
  obtain ⟨ks, hwords, hobs, -⟩ := h.packets
  rw [hwords, RelocIterator.records_packets, Option.map_some, observe_filter_addr, hobs]

/-- Is there room for the record of a relocation, after the array has been expanded? -/
def HasRoom (p : Platform) (locs : Buffer RelocInfo) (offset : Nat) (data : RelocData) : Prop :=
  locs.count + fillerCount p offset + recordLength data ≤ (reserveLocs p locs offset).capacity

theorem reserveLocs_contents (p : Platform) (locs : Buffer RelocInfo) (off : Nat) :
    (reserveLocs p locs off).contents = locs.contents := by
  simp only [reserveLocs]
  split
  · split <;> rfl
  · rfl

instance (p : Platform) (locs : Buffer RelocInfo) (offset : Nat) (data : RelocData) :
    Decidable (HasRoom p locs offset data) :=
  inferInstanceAs (Decidable (_ ≤ _))

section Relocate

variable {p : Platform} {cs : CodeSection} {es : List Entry} {pc : Nat} {sp : Relocation p}
  {format : Nat} {locs : Buffer RelocInfo}

theorem relocate_eq (htype : sp.type ≠ .none) (hlocs : cs.locs = some locs) :
    cs.relocate pc sp format = (writeRecord p (pc - cs.locsPoint) sp.type format sp.data
        (reserveLocs p locs (pc - cs.locsPoint))).map fun r =>
          { cs with locsPoint := pc, locs := some r.2 } := by
  simp only [CodeSection.relocate, if_neg htype, hlocs]
  cases writeRecord p (pc - cs.locsPoint) sp.type format sp.data
    (reserveLocs p locs (pc - cs.locsPoint)) <;> rfl

/-- The offset of a record from the last one is a number of units. -/
theorem Recorded.offset_mod (h : Recorded p cs es) (hpc : cs.locsPoint ≤ pc)
    (hunit : (pc - cs.start) % p.offsetUnit = 0) : (pc - cs.locsPoint) % p.offsetUnit = 0 := by
  have hstart := h.start_le
  have hsum : pc - cs.start = cs.locsPointOff + (pc - cs.locsPoint) := by
    rw [CodeSection.locsPointOff]
    omega
  rw [hsum] at hunit
  exact Nat.mod_eq_zero_of_dvd ((Nat.dvd_add_right (Nat.dvd_of_mod_eq_zero h.aligned)).mp
    (Nat.dvd_of_mod_eq_zero hunit))

/-- Without room the record is written past the end of the array. -/
theorem Recorded.relocate_eq_none (h : Recorded p cs es) (htype : sp.type ≠ .none)
    (hlocs : cs.locs = some locs) (hpc : cs.locsPoint ≤ pc)
    (hunit : (pc - cs.start) % p.offsetUnit = 0) (hf : format < 2 ^ p.formatWidth)
    (hroom : ¬ HasRoom p locs (pc - cs.locsPoint) sp.data) : cs.relocate pc sp format = none := by
  have hwrite : Appends (writeRecord p (pc - cs.locsPoint) sp.type format sp.data)
      (reserveLocs p locs (pc - cs.locsPoint))
      ((recordPackets (pc - cs.locsPoint) sp format hf).flatMap Packet.words) () :=
    appends_writeRecord (h.offset_mod hpc hunit) _
  have hcount : (reserveLocs p locs (pc - cs.locsPoint)).count = locs.count := by
    rw [← Buffer.contents_length, reserveLocs_contents, Buffer.contents_length]
  rw [relocate_eq htype hlocs, hwrite.full, Option.map_none]
  rw [recordPackets_words_length, hcount]
  rw [HasRoom] at hroom
  omega

/-- With room a call of `relocate` adds one entry. -/
theorem Recorded.relocate (h : Recorded p cs es) (htype : sp.type ≠ .none)
    (hlocs : cs.locs = some locs) (hpc : cs.locsPoint ≤ pc) (hstop : pc ≤ cs.stop)
    (hempty : cs.isEmpty = false)
    (hunit : (pc - cs.start) % p.offsetUnit = 0) (hf : format < 2 ^ p.formatWidth)
    (hroom : HasRoom p locs (pc - cs.locsPoint) sp.data) :
    ∃ locs', cs.relocate pc sp format = some { cs with locsPoint := pc, locs := some locs' } ∧
      Recorded p { cs with locsPoint := pc, locs := some locs' }
        (es ++ [⟨pc - cs.start, sp.type, format, sp.data⟩]) := by
  have hoffset := h.offset_mod hpc hunit
  have hwrite : Appends (writeRecord p (pc - cs.locsPoint) sp.type format sp.data)
      (reserveLocs p locs (pc - cs.locsPoint))
      ((recordPackets (pc - cs.locsPoint) sp format hf).flatMap Packet.words) () :=
    appends_writeRecord hoffset _
  have hcount : (reserveLocs p locs (pc - cs.locsPoint)).count = locs.count := by
    rw [← Buffer.contents_length, reserveLocs_contents, Buffer.contents_length]
  obtain ⟨locs', hrun, hcontents, -⟩ := hwrite.room (by
    rw [recordPackets_words_length, hcount, ← Nat.add_assoc]
    exact hroom)
  obtain ⟨ks, hwords, hobs, hlast⟩ := h.packets
  have hstart := h.start_le
  have haddr : cs.locsPointOff + (pc - cs.locsPoint) = pc - cs.start := by
    rw [CodeSection.locsPointOff]
    omega
  have hrecord : ∀ addr,
      observe p (locateAll addr (recordPackets (pc - cs.locsPoint) sp format hf)) =
          [⟨addr + (pc - cs.locsPoint), sp.type, format, sp.data⟩] ∧
        lastAddr addr (recordPackets (pc - cs.locsPoint) sp format hf) =
          addr + (pc - cs.locsPoint) := observe_recordPackets hoffset htype
  refine ⟨locs', by rw [relocate_eq htype hlocs, hrun]; rfl, ?_⟩
  constructor
  · exact hstart.trans hpc
  · exact hstop
  · exact hunit
  · intro hnil
    exact absurd hnil (by rw [CodeSection.isEmpty] at hempty ⊢; simpa using hempty)
  · refine ⟨ks ++ recordPackets (pc - cs.locsPoint) sp format hf, ?_, fun base => ?_,
      fun base => ?_⟩
    · rw [List.flatMap_append, ← hwords]
      simp only [CodeSection.locsWords, hlocs]
      rw [hcontents, reserveLocs_contents]
    · rw [locateAll_append, observe_append, hobs, hlast, (hrecord _).1, Nat.add_assoc, haddr,
        List.map_append]
      rfl
    · rw [lastAddr_append, hlast, (hrecord _).2, Nat.add_assoc, haddr]
      rfl

end Relocate

end Hotspot.Asm
