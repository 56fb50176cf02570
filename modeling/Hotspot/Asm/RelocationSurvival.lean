-- SUMMARY: Runs of relocate calls: when every relocation survives the packing.
import Hotspot.Base.Run
import Hotspot.Asm.RelocationCopy

/-!
# Survival of relocations

The calls of a run record their relocations in the sections of a code buffer. If each of them
fits into the array of its section, the iterators over the sections and over the blob show what
was recorded, in every range. A call that does not fit is written past the end of an array.
-/

namespace Hotspot.Asm

open List

/-! ## Sequences of calls -/

section Calls

variable {p : Platform}

def CodeBuffer.relocateAll : CodeBuffer → List (RelocateCall p) → Option CodeBuffer
  | this, [] => some this
  | this, call :: calls => do
    let this ← this.relocate call
    relocateAll this calls

/-- The entry that a call makes, relative to its section. -/
def RelocateCall.entry (start : Nat) (call : RelocateCall p) : Entry :=
  ⟨call.pc - start, call.spec.type, call.format, call.spec.data⟩

/-- The entries that calls make in a section. Nothing is recorded for the type `none`. -/
def sectionEntries (cb : CodeBuffer) (calls : List (RelocateCall p)) (n : Sect) : List Entry :=
  (calls.filter fun call => call.sect = n ∧ call.spec.type ≠ .none).map
    (RelocateCall.entry (cb.codeSection n).start)

/-- Calls at addresses in the sections, which do not decrease, with formats that exist. -/
structure Placed (cb : CodeBuffer) (calls : List (RelocateCall p)) : Prop where
  contains : ∀ call ∈ calls, (cb.codeSection call.sect).contains2 call.pc = true
  nonempty : ∀ call ∈ calls, (cb.codeSection call.sect).isEmpty = false
  aligned : ∀ call ∈ calls, (call.pc - (cb.codeSection call.sect).start) % p.offsetUnit = 0
  format : ∀ call ∈ calls, call.format < 2 ^ p.formatWidth
  ordered : calls.Pairwise fun call later => call.sect = later.sect → call.pc ≤ later.pc

/-- The relocations of these calls are recorded within the arrays of the sections, and they are
what iterators over any range show of the sections and of the blob to which they are copied. -/
def Survive (cb : CodeBuffer) (calls : List (RelocateCall p)) : Prop :=
  ∃ cb', cb.relocateAll calls = some cb' ∧ (∀ n begin limit,
      (RelocIterator.records p (cb'.codeSection n).locsWords (cb'.codeSection n).start begin
          limit).map (observe p) =
        some (((sectionEntries cb calls n).map (Entry.shift (cb.codeSection n).start)).filter
          fun e => RelocIterator.inRange begin limit e.addr)) ∧
    ∀ mem, ∃ words, cb'.createRelocation p mem = some words ∧ ∀ blobStart begin limit,
        (RelocIterator.records p words blobStart begin limit).map (observe p) =
          some ((cb.layoutEntries (sectionEntries cb calls) 0 Sect.all blobStart).filter
            fun e => RelocIterator.inRange begin limit e.addr)

/-- The section of a call has an array, with room for what the call writes. -/
def Fits (cb : CodeBuffer) (call : RelocateCall p) : Prop :=
  call.spec.type = .none ∨ ∃ locs, (cb.codeSection call.sect).locs = some locs ∧
    HasRoom p locs (call.pc - (cb.codeSection call.sect).locsPoint) call.spec.data

/-- A call as a step of a run. -/
def relocateStep (cb : CodeBuffer) (call : RelocateCall p) : Option (Unit × CodeBuffer) :=
  (cb.relocate call).map fun cb' => ((), cb')

/-- Two buffers with the same code, up to their records. -/
structure SameCode (cb cb' : CodeBuffer) : Prop where
  start_eq : ∀ n, (cb'.codeSection n).start = (cb.codeSection n).start
  stop_eq : ∀ n, (cb'.codeSection n).stop = (cb.codeSection n).stop
  log_eq : cb'.logCodeEntryAlignment = cb.logCodeEntryAlignment

theorem SameCode.refl (cb : CodeBuffer) : SameCode cb cb := ⟨fun _ => rfl, fun _ => rfl, rfl⟩

variable {cb cb' : CodeBuffer}

theorem SameCode.trans {cb'' : CodeBuffer} (h : SameCode cb cb') (h' : SameCode cb' cb'') :
    SameCode cb cb'' :=
  ⟨fun n => (h'.start_eq n).trans (h.start_eq n), fun n => (h'.stop_eq n).trans (h.stop_eq n),
    h'.log_eq.trans h.log_eq⟩

theorem SameCode.finalLayout_eq (h : SameCode cb cb') (off : Nat)
    (ns : List Sect) : cb'.finalLayout off ns = cb.finalLayout off ns := by
  induction ns generalizing off with
  | nil => rfl
  | cons n ns ih =>
    have hempty : (cb'.codeSection n).isEmpty = (cb.codeSection n).isEmpty := by
      rw [CodeSection.isEmpty, CodeSection.isEmpty, h.start_eq, h.stop_eq]
    have hsize : (cb'.codeSection n).size = (cb.codeSection n).size := by
      rw [CodeSection.size, CodeSection.size, h.start_eq, h.stop_eq]
    have halign : cb'.alignAtStart off = cb.alignAtStart off := by
      rw [CodeBuffer.alignAtStart, CodeBuffer.alignAtStart, CodeBuffer.alignment,
        CodeBuffer.alignment, h.log_eq]
    rw [CodeBuffer.finalLayout, CodeBuffer.finalLayout]
    simp only [hempty, hsize, halign, ih]

theorem SameCode.sectionEntries_eq (h : SameCode cb cb')
    (cls : List (RelocateCall p)) : sectionEntries cb' cls = sectionEntries cb cls := by
  funext n
  simp only [sectionEntries, h.start_eq]

theorem SameCode.placed (h : SameCode cb cb')
    {cls : List (RelocateCall p)} (hp : Placed cb cls) : Placed cb' cls where
  contains := by
    intro cl hcall
    rw [CodeSection.contains2, h.start_eq, h.stop_eq]
    exact hp.contains cl hcall
  nonempty := by
    intro cl hcall
    rw [CodeSection.isEmpty, h.start_eq, h.stop_eq]
    exact hp.nonempty cl hcall
  aligned := by
    intro cl hcall
    rw [h.start_eq]
    exact hp.aligned cl hcall
  format := hp.format
  ordered := hp.ordered

theorem sectionEntries_cons (cb : CodeBuffer) (cl : RelocateCall p)
    (cls : List (RelocateCall p)) (n : Sect) : sectionEntries cb (cl :: cls) n =
      sectionEntries cb [cl] n ++ sectionEntries cb cls n := by
  rw [← singleton_append, sectionEntries, filter_append, map_append]
  rfl

/-- Calls that are still to be made. -/
structure Pending (cb : CodeBuffer) (calls : List (RelocateCall p)) : Prop extends
    Placed cb calls where
  reached : ∀ call ∈ calls, (cb.codeSection call.sect).locsPoint ≤ call.pc

section Step

variable {cb : CodeBuffer} {cl : RelocateCall p} {cls : List (RelocateCall p)}
  {es : Sect → List Entry}

theorem relocate_of_section {cs : CodeSection}
    (h : (cb.codeSection cl.sect).relocate cl.pc cl.spec cl.format = some cs) :
    cb.relocate cl = some { cb with codeSection := Function.update cb.codeSection cl.sect cs } := by
  rw [CodeBuffer.relocate, h]
  rfl

/-- Nothing changes where nothing can be recorded. -/
theorem relocate_unchanged (h : cl.spec.type = .none ∨ (cb.codeSection cl.sect).locs = none) :
    cb.relocate cl = some cb := by
  have hsection : (cb.codeSection cl.sect).relocate cl.pc cl.spec cl.format =
      some (cb.codeSection cl.sect) := by
    rw [CodeSection.relocate]
    by_cases htype : cl.spec.type = .none
    · rw [if_pos htype]
    · rw [if_neg htype]
      simp only [h.resolve_left htype]
  rw [relocate_of_section hsection, Function.update_eq_self]

theorem Pending.tail (h : Pending cb (cl :: cls)) : Pending cb cls where
  contains := fun c hc => h.contains c (mem_cons_of_mem _ hc)
  nonempty := fun c hc => h.nonempty c (mem_cons_of_mem _ hc)
  aligned := fun c hc => h.aligned c (mem_cons_of_mem _ hc)
  format := fun c hc => h.format c (mem_cons_of_mem _ hc)
  ordered := (pairwise_cons.mp h.ordered).2
  reached := fun c hc => h.reached c (mem_cons_of_mem _ hc)

/-- A call that fits is recorded. -/
theorem Pending.relocate (h : Pending cb (cl :: cls))
    (hrec : ∀ n, Recorded p (cb.codeSection n) (es n)) (hfits : Fits cb cl) :
    ∃ cb', cb.relocate cl = some cb' ∧ SameCode cb cb' ∧ Pending cb' cls ∧
      ∀ n, Recorded p (cb'.codeSection n) (es n ++ sectionEntries cb [cl] n) := by
  by_cases htype : cl.spec.type = .none
  · refine ⟨cb, relocate_unchanged (.inl htype), SameCode.refl cb, h.tail, fun n => ?_⟩
    have hnil : sectionEntries cb [cl] n = [] := by simp [sectionEntries, htype]
    rw [hnil, append_nil]
    exact hrec n
  · obtain ⟨locs, hlocs, hroom⟩ := hfits.resolve_left htype
    have hmem : cl ∈ cl :: cls := mem_cons_self
    have hcontains := h.contains cl hmem
    rw [CodeSection.contains2, decide_eq_true_eq] at hcontains
    obtain ⟨locs', hrun, hrec'⟩ := (hrec cl.sect).relocate htype hlocs (h.reached cl hmem)
      hcontains.2 (h.nonempty cl hmem) (h.aligned cl hmem) (h.format cl hmem) hroom
    -- only the array and the point of the section of the call change
    let cs' : CodeSection := { cb.codeSection cl.sect with
      locsPoint := cl.pc, locs := some locs' }
    have hother : ∀ n, n ≠ cl.sect →
        Function.update cb.codeSection cl.sect cs' n = cb.codeSection n :=
      fun n hn => Function.update_of_ne hn _ _
    have hself : Function.update cb.codeSection cl.sect cs' cl.sect = cs' :=
      Function.update_self _ _ _
    have hsame : SameCode cb { cb with
        codeSection := Function.update cb.codeSection cl.sect cs' } := by
      refine ⟨fun n => ?_, fun n => ?_, rfl⟩
      all_goals
        by_cases hn : n = cl.sect
        · subst hn
          simp only [hself]
          rfl
        · simp only [hother n hn]
    refine ⟨{ cb with codeSection := Function.update cb.codeSection cl.sect cs' },
      relocate_of_section hrun, hsame, ⟨hsame.placed h.tail.toPlaced, fun c hc => ?_⟩, fun n => ?_⟩
    · by_cases hn : c.sect = cl.sect
      · simp only [hn, hself]
        exact (pairwise_cons.mp h.ordered).1 c hc hn.symm
      · simp only [hother _ hn]
        exact h.reached c (mem_cons_of_mem _ hc)
    · by_cases hn : n = cl.sect
      · subst hn
        have hone : sectionEntries cb [cl] cl.sect =
            [cl.entry (cb.codeSection cl.sect).start] := by
          simp [sectionEntries, htype]
        simp only [hself]
        rw [hone]
        exact hrec'
      · have hnil : sectionEntries cb [cl] n = [] := by
          simp [sectionEntries, Ne.symm hn]
        simp only [hother n hn]
        rw [hnil, append_nil]
        exact hrec n

/-- A call that does not fit is written past the end of an array, or it is not recorded. -/
theorem Pending.relocate_eq_none (h : Pending cb (cl :: cls))
    (hrec : ∀ n, Recorded p (cb.codeSection n) (es n)) (hfits : ¬ Fits cb cl)
    (hlocs : (cb.codeSection cl.sect).locs ≠ none) : cb.relocate cl = none := by
  obtain ⟨locs, hsome⟩ := Option.ne_none_iff_exists'.mp hlocs
  have hmem : cl ∈ cl :: cls := mem_cons_self
  have htype : cl.spec.type ≠ .none := fun ht => hfits (.inl ht)
  have hroom : ¬ HasRoom p locs (cl.pc - (cb.codeSection cl.sect).locsPoint) cl.spec.data :=
    fun hroom => hfits (.inr ⟨locs, hsome, hroom⟩)
  rw [CodeBuffer.relocate, (hrec cl.sect).relocate_eq_none htype hsome (h.reached cl hmem)
    (h.aligned cl hmem) (h.format cl hmem) hroom]
  rfl

end Step

/-! ## Runs -/

section Runs

variable {cb cb' : CodeBuffer} {cls calls : List (RelocateCall p)} {es : Sect → List Entry}

/-- A run of calls that all fit records them all. -/
theorem Pending.relocateAll (h : Pending cb cls)
    (hrec : ∀ n, Recorded p (cb.codeSection n) (es n))
    (hfits : EachStep relocateStep Fits cb cls) :
    ∃ cb', cb.relocateAll cls = some cb' ∧ SameCode cb cb' ∧
      ∀ n, Recorded p (cb'.codeSection n) (es n ++ sectionEntries cb cls n) := by
  induction cls generalizing cb es with
  | nil =>
    refine ⟨cb, rfl, SameCode.refl cb, fun n => ?_⟩
    rw [show sectionEntries cb [] n = ([] : List Entry) from rfl, append_nil]
    exact hrec n
  | cons cl cls ih =>
    obtain ⟨hcall, hrest⟩ := hfits
    obtain ⟨cb1, hrun1, hsame1, hpending1, hrec1⟩ := h.relocate hrec hcall
    have hstep : relocateStep cb cl = some ((), cb1) := by rw [relocateStep, hrun1]; rfl
    obtain ⟨cb2, hrun2, hsame2, hrec2⟩ := ih hpending1 hrec1 (hrest () cb1 hstep)
    refine ⟨cb2, ?_, hsame1.trans hsame2, fun n => ?_⟩
    · rw [CodeBuffer.relocateAll, hrun1]
      exact hrun2
    · have := hrec2 n
      rw [hsame1.sectionEntries_eq, append_assoc, ← sectionEntries_cons] at this
      exact this

/-- A section without an array never gets one. -/
theorem relocateAll_locs_none {n : Sect} (h : (cb.codeSection n).locs = none)
    (hrun : cb.relocateAll cls = some cb') : (cb'.codeSection n).locs = none := by
  induction cls generalizing cb with
  | nil =>
    cases hrun
    exact h
  | cons cl cls ih =>
    obtain ⟨cb1, hrun1, hrun2⟩ := Option.bind_eq_some_iff.mp hrun
    refine ih ?_ hrun2
    by_cases hn : n = cl.sect
    · subst hn
      rw [relocate_unchanged (.inr h)] at hrun1
      cases hrun1
      exact h
    · obtain ⟨cs, -, hcb1⟩ := Option.bind_eq_some_iff.mp hrun1
      cases hcb1
      simp only [Function.update_of_ne hn]
      exact h

/-- The calls of a run that ends within the arrays all fit, if their sections have arrays. -/
theorem Pending.eachStep_fits (h : Pending cb cls)
    (hrec : ∀ n, Recorded p (cb.codeSection n) (es n)) (hrun : cb.relocateAll cls = some cb')
    (hlocs : ∀ cl ∈ cls, cl.spec.type ≠ .none → (cb'.codeSection cl.sect).locs ≠ none) :
    EachStep relocateStep Fits cb cls := by
  induction cls generalizing cb es with
  | nil => trivial
  | cons cl cls ih =>
    obtain ⟨cb1, hrun1, hrun2⟩ := Option.bind_eq_some_iff.mp hrun
    have hfits : Fits cb cl := by
      by_contra hnot
      have htype : cl.spec.type ≠ .none := fun ht => hnot (.inl ht)
      have hsome : (cb.codeSection cl.sect).locs ≠ none := fun hnone =>
        hlocs cl mem_cons_self htype (relocateAll_locs_none hnone hrun)
      rw [h.relocate_eq_none hrec hnot hsome] at hrun1
      cases hrun1
    obtain ⟨cb1', hrun1', -, hpending1, hrec1⟩ := h.relocate hrec hfits
    rw [hrun1] at hrun1'
    cases hrun1'
    refine ⟨hfits, fun reply cb2 hstep => ?_⟩
    rw [relocateStep, hrun1] at hstep
    cases hstep
    exact ih hpending1 hrec1 hrun2 fun c hc => hlocs c (mem_cons_of_mem _ hc)

/-- A buffer in which nothing has been recorded yet. -/
def CodeBuffer.Fresh (cb : CodeBuffer) : Prop := ∀ n, (cb.codeSection n).Fresh

theorem Placed.pending (hfresh : cb.Fresh) (h : Placed cb cls) : Pending cb cls where
  toPlaced := h
  reached := by
    intro cl hcall
    have hcontains := h.contains cl hcall
    rw [CodeSection.contains2, decide_eq_true_eq] at hcontains
    rw [(hfresh cl.sect).locsPoint_eq]
    exact hcontains.1

theorem survive_of_eachStep (hfresh : cb.Fresh) (hplaced : Placed cb cls)
    (hfits : EachStep relocateStep Fits cb cls) : Survive cb cls := by
  obtain ⟨cb', hrun, hsame, hrec⟩ :=
    (hplaced.pending hfresh).relocateAll (fun n => (hfresh n).recorded) hfits
  simp only [nil_append] at hrec
  refine ⟨cb', hrun, fun n begin limit => ?_, fun mem => ?_⟩
  · rw [(hrec n).records, hsame.start_eq]
  obtain ⟨ls, hobs, hcreate⟩ := cb'.createRelocation_eq hrec
  refine ⟨_, hcreate mem, fun blobStart begin limit => ?_⟩
  rw [RelocIterator.records_packets, Option.map_some, observe_filter_addr, hobs,
    CodeBuffer.layoutEntries, hsame.finalLayout_eq]
  rfl

theorem eachStep_of_survive (hfresh : cb.Fresh) (hplaced : Placed cb cls)
    (h : Survive cb cls) : EachStep relocateStep Fits cb cls := by
  obtain ⟨cb', hrun, hsections, -⟩ := h
  refine (hplaced.pending hfresh).eachStep_fits (fun n => (hfresh n).recorded) hrun ?_
  intro cl hcall htype hnone
  -- nothing is shown of a section without an array
  have hshown := hsections cl.sect none none
  have hentries : sectionEntries cb cls cl.sect ≠ [] := by
    simp only [sectionEntries, ne_eq, map_eq_nil_iff, filter_eq_nil_iff]
    intro hall
    exact hall cl hcall (by simp [htype])
  rw [CodeSection.locsWords, hnone] at hshown
  apply hentries
  simpa [RelocIterator.records, RelocIterator.setLimits, RelocIterator.toList, RelocIterator.next,
    observe, RelocIterator.inRange, RelocIterator.pastLimit] using hshown

/-- Relocations survive the packing just if each of them, when it is recorded, fits into the
array of its section, which has been expanded for it by then. -/
theorem survive_iff_fits (hfresh : cb.Fresh) (hplaced : Placed cb calls) :
    Survive cb calls ↔ EachStep relocateStep Fits cb calls :=
  ⟨eachStep_of_survive hfresh hplaced, survive_of_eachStep hfresh hplaced⟩

end Runs

/-- A buffer with sixteen megabytes of instructions and a small array. -/
def largeBuffer : CodeBuffer where
  codeSection
    | .insts => ⟨4096, 4096 + 2 ^ 24, 4096, some (Buffer.empty (fun _ => 0) 4)⟩
    | .stubs | .consts => ⟨4096 + 2 ^ 24, 4096 + 2 ^ 24, 4096 + 2 ^ 24, none⟩
  logCodeEntryAlignment := 5

/-- A relocation in the instructions, whose data take four half-words. -/
def oopCall (offset : Nat) : RelocateCall .amd64 :=
  ⟨.insts, 4096 + offset, ⟨.oop, .twoInts 70000 70000, rfl⟩, 0⟩

theorem largeBuffer_fresh : largeBuffer.Fresh := by
  intro n
  cases n with
  | insts =>
    refine ⟨by decide, rfl, fun locs hlocs => ?_⟩
    cases hlocs
    rfl
  | stubs => exact ⟨le_rfl, rfl, fun locs hlocs => by cases hlocs⟩
  | consts => exact ⟨le_rfl, rfl, fun locs hlocs => by cases hlocs⟩

theorem oopCalls_placed (offsets : List Nat) (h : ∀ o ∈ offsets, o ≤ 2 ^ 24)
    (hsorted : offsets.Pairwise (· ≤ ·)) : Placed largeBuffer (offsets.map oopCall) where
  contains := by
    intro cl hcall
    obtain ⟨o, ho, rfl⟩ := mem_map.mp hcall
    rw [CodeSection.contains2, decide_eq_true_eq]
    exact ⟨Nat.le_add_right _ _, Nat.add_le_add_left (h o ho) _⟩
  nonempty := by
    intro cl hcall
    obtain ⟨o, -, rfl⟩ := mem_map.mp hcall
    rfl
  aligned := fun _ _ => Nat.mod_one _
  format := by
    intro cl hcall
    obtain ⟨o, -, rfl⟩ := mem_map.mp hcall
    exact Nat.two_pow_pos _
  ordered := pairwise_map.mpr (hsorted.imp fun hle _ => Nat.add_le_add_left hle _)

/-- Nine thousand fillers are one too many for the room that was made. -/
theorem oopCall_past_end : largeBuffer.Fresh ∧ Placed largeBuffer [oopCall 9430015] ∧
    ¬ Survive largeBuffer [oopCall 9430015] := by
  have hplaced : Placed largeBuffer [oopCall 9430015] :=
    oopCalls_placed [9430015] (by decide) (pairwise_singleton _ _)
  refine ⟨largeBuffer_fresh, hplaced, fun h => ?_⟩
  have hfits := (eachStep_of_survive largeBuffer_fresh hplaced h).1
  rcases hfits with htype | ⟨locs, hlocs, hroom⟩
  · cases htype
  · cases hlocs
    revert hroom
    decide

/-- Gaps of less than nine megabytes leave room for these records. -/
theorem hasRoom_oopCall (locs : Buffer RelocInfo) {offset : Nat} (h : offset ≤ 9000000) :
    HasRoom .amd64 locs offset (.twoInts 70000 70000) := by
  have hcount : fillerCount .amd64 offset = (offset / 1 - 1) / 1023 := rfl
  have hlength : recordLength (.twoInts 70000 70000) = 6 := by decide
  have hlimits : Platform.amd64.offsetLimit = 1024 ∧ Platform.amd64.lengthLimit = 15 := ⟨rfl, rfl⟩
  have hfits := locs.fits
  rw [HasRoom, hcount, hlength]
  simp only [reserveLocs, hlimits]
  split
  · split
    · simp only [expandLocs]
      split <;> omega
    · omega
  · omega

theorem eachStep_fits_oopCalls {cb : CodeBuffer} {locs : Buffer RelocInfo} {offsets : List Nat}
    (hlocs : (cb.codeSection .insts).locs = some locs) (h : ∀ o ∈ offsets, 4096 + o ≤ 9000000) :
    EachStep relocateStep Fits cb (offsets.map oopCall) := by
  induction offsets generalizing cb locs with
  | nil => trivial
  | cons o offsets ih =>
    rw [forall_mem_cons] at h
    refine ⟨.inr ⟨locs, hlocs, hasRoom_oopCall locs ((Nat.sub_le _ _).trans h.1)⟩, ?_⟩
    intro _ cb' hstep
    obtain ⟨cb'', hrun, hcb⟩ := Option.map_eq_some_iff.mp hstep
    cases hcb
    obtain ⟨cs, hcs, hcb⟩ := Option.bind_eq_some_iff.mp hrun
    cases hcb
    have htype : (oopCall o).spec.type ≠ .none := nofun
    obtain ⟨r, -, rfl⟩ := Option.map_eq_some_iff.mp ((relocate_eq htype hlocs).symm.trans hcs)
    exact @ih _ r.2 rfl h.2

/-- The array grows for these calls, and the gap before the last one takes fillers. -/
theorem survive_oopCalls : Survive largeBuffer [oopCall 16, oopCall 40, oopCall 8000000] :=
  (survive_iff_fits largeBuffer_fresh (oopCalls_placed [16, 40, 8000000] (by decide)
    (by decide))).mpr (eachStep_fits_oopCalls rfl (by decide))

end Calls

end Hotspot.Asm
