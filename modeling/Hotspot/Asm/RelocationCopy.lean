-- SUMMARY: The records of a code buffer copied to a code blob: two passes, and the packets.
import Hotspot.Base.Except
import Hotspot.Asm.RelocationRecords

/-!
# Relocation records of a code blob

`copy_relocations_to` concatenates the records of the sections, with fillers over the gaps
between them. It runs twice, once only to find the size of the result. Both runs write the same
half-words, so that the result fits.
-/

namespace Hotspot.Asm

open List hiding isEmpty

/-! ## Writing to the blob -/

namespace CodeBuffer

namespace CopyState

/-- The destination, if there is one, has room for these half-words. -/
structure Ready (p : Platform) (st : CopyState) (ws : List RelocInfo) : Prop where
  offset_eq : ∀ b, st.dest = some b → relocInfoSize * b.count = st.bufOffset
  room : ∀ b, st.dest = some b → b.count + ws.length ≤ b.capacity
  aligned : ∀ b, st.dest = some b → relocInfoSize * b.capacity % p.bytesPerWord = 0

/-- These half-words were added to the destination, if there is one. -/
structure Wrote (ws : List RelocInfo) (st st' : CopyState) : Prop where
  bufOffset_eq : st'.bufOffset = st.bufOffset + relocInfoSize * ws.length
  dest_none : st.dest = none → st'.dest = none
  dest_some : ∀ b, st.dest = some b →
    ∃ b', st'.dest = some b' ∧ b'.contents = b.contents ++ ws ∧ b'.capacity = b.capacity

variable {p : Platform} {st st' st'' : CopyState} {ws vs : List RelocInfo}

theorem Ready.left (h : Ready p st (ws ++ vs)) : Ready p st ws where
  offset_eq := h.offset_eq
  room := fun b hb => by
    have := h.room b hb
    rw [length_append] at this
    omega
  aligned := h.aligned

theorem Wrote.ready (hw : Wrote ws st st') (h : Ready p st (ws ++ vs)) : Ready p st' vs := by
  -- a destination comes from the one before
  have hback : ∀ b', st'.dest = some b' → ∃ b, st.dest = some b ∧
      b'.contents = b.contents ++ ws ∧ b'.capacity = b.capacity := by
    intro b' hb'
    cases hdest : st.dest with
    | none =>
      rw [hw.dest_none hdest] at hb'
      cases hb'
    | some b =>
      obtain ⟨c, hc, hcontents, hcap⟩ := hw.dest_some b hdest
      rw [hc] at hb'
      cases hb'
      exact ⟨b, rfl, hcontents, hcap⟩
  constructor
  · intro b' hb'
    obtain ⟨b, hb, hcontents, -⟩ := hback b' hb'
    rw [hw.bufOffset_eq, ← h.offset_eq b hb, Appends.count_eq hcontents, Nat.mul_add]
  · intro b' hb'
    obtain ⟨b, hb, hcontents, hcap⟩ := hback b' hb'
    have := h.room b hb
    rw [length_append] at this
    rw [hcap, Appends.count_eq hcontents]
    omega
  · intro b' hb'
    obtain ⟨b, hb, -, hcap⟩ := hback b' hb'
    rw [hcap]
    exact h.aligned b hb

theorem Wrote.refl (st : CopyState) : Wrote [] st st where
  bufOffset_eq := rfl
  dest_none := id
  dest_some := fun b hb => ⟨b, hb, (append_nil _).symm, rfl⟩

theorem Wrote.trans (h : Wrote ws st st') (h' : Wrote vs st' st'') : Wrote (ws ++ vs) st st'' where
  bufOffset_eq := by
    rw [h'.bufOffset_eq, h.bufOffset_eq, length_append, Nat.mul_add, Nat.add_assoc]
  dest_none := fun hdest => h'.dest_none (h.dest_none hdest)
  dest_some := by
    intro b hb
    obtain ⟨b', hb', hc', hcap'⟩ := h.dest_some b hb
    obtain ⟨b'', hb'', hc'', hcap''⟩ := h'.dest_some b' hb'
    exact ⟨b'', hb'', by rw [hc'', hc', append_assoc], hcap''.trans hcap'⟩

/-- A program that adds half-words to any destination with room. -/
theorem onDest_eq {m : BufferM RelocInfo Unit}
    (hm : ∀ b, st.dest = some b → ∃ b', m b = some ((), b') ∧
      b'.contents = b.contents ++ ws ∧ b'.capacity = b.capacity) :
    ∃ st', st.onDest m (relocInfoSize * ws.length) = some st' ∧ Wrote ws st st' ∧
      st'.codeEndSoFar = st.codeEndSoFar ∧ st'.codePointSoFar = st.codePointSoFar := by
  cases hdest : st.dest with
  | none =>
    refine ⟨{ st with bufOffset := st.bufOffset + relocInfoSize * ws.length }, ?_, ?_, rfl, rfl⟩
    · simp [onDest, hdest]
    · exact ⟨rfl, id, fun b hb => absurd (hdest.symm.trans hb) (by simp)⟩
  | some b =>
    obtain ⟨b', hrun, hcontents, hcap⟩ := hm b hdest
    refine ⟨{ st with dest := some b', bufOffset := st.bufOffset + relocInfoSize * ws.length },
      ?_, ?_, rfl, rfl⟩
    · simp only [onDest, hdest, hrun]
      rfl
    refine ⟨rfl, fun h => absurd (hdest.symm.trans h) (by simp), ?_⟩
    intro c hc
    rw [hdest] at hc
    cases hc
    exact ⟨b', rfl, hcontents, hcap⟩

theorem store_eq {info : RelocInfo} (h : Ready p st [info]) :
    ∃ st', st.store info = some st' ∧ Wrote [info] st st' := by
  have hpush : ∀ b, st.dest = some b → ∃ b', BufferM.push info b = some ((), b') ∧
      b'.contents = b.contents ++ [info] ∧ b'.capacity = b.capacity :=
    fun b hb => (Appends.push b info).room (h.room b hb)
  obtain ⟨st', hrun, hw, -⟩ := onDest_eq hpush
  exact ⟨st', hrun, hw⟩

end CopyState

open CopyState Packet CodeSection

variable {p : Platform}

/-! ## One section -/

/-- Packets that `copy_relocations_to` adds, and that no client sees, between two code points. -/
structure Gap (ls : List (Packet p)) (codePoint newCodePoint : Nat) : Prop where
  observe_eq : ∀ base, observe p (locateAll base ls) = []
  lastAddr_eq : ∀ base, lastAddr (base + codePoint) ls = base + newCodePoint

variable {cp : Nat}

theorem Gap.cons {k : Packet p} {ls : List (Packet p)} {np : Nat}
    (htype : k.type = .none) (h : Gap ls (cp + k.offset) np) :
    Gap (k :: ls) cp np where
  observe_eq := by
    intro base
    rw [locateAll, ← singleton_append, observe_append, h.observe_eq]
    simp [observe, locate, htype]
  lastAddr_eq := by
    intro base
    rw [lastAddr, Nat.add_assoc, h.lastAddr_eq]

theorem fillGap_eq (np cp : Nat) (hle : cp ≤ np) (hunit : (np - cp) % p.offsetUnit = 0) :
    ∃ ls : List (Packet p), Gap ls cp np ∧ ∀ st, Ready p st (ls.flatMap words) →
        ∃ st', fillGap p np cp st = some st' ∧ Wrote (ls.flatMap words) st st' := by
  induction hn : np - cp using Nat.strong_induction_on generalizing cp with
  | _ n ih =>
    by_cases hlt : cp < np
    · -- the next filler is the largest one, or one that fills the gap
      obtain ⟨k, hstep, hpos, hfit, hmod, htype, hdata⟩ : ∃ k : Packet p,
          (∀ st, fillGap p np cp st =
            (st.store k.header).bind (fillGap p np (cp + k.offset))) ∧
          0 < k.offset ∧ cp + k.offset ≤ np ∧
          (np - (cp + k.offset)) % p.offsetUnit = 0 ∧
          k.type = .none ∧ k.data = [] := by
        by_cases hjump : np - cp ≥ fillerOffset p
        · refine ⟨maxFiller p, fun st => ?_, ?_, ?_, ?_, rfl, rfl⟩
          · rw [fillGap, if_pos hlt]
            simp only [if_pos hjump, maxFiller_offset, maxFiller_header]
            rfl
          · rw [maxFiller_offset]
            exact fillerOffset_pos p
          · rw [maxFiller_offset]
            omega
          · rw [maxFiller_offset, ← Nat.sub_sub]
            exact Nat.mod_eq_zero_of_dvd (Nat.dvd_sub (Nat.dvd_of_mod_eq_zero hunit)
              (Nat.dvd_of_mod_eq_zero (fillerOffset_mod p)))
        · have hunits : (np - cp) / p.offsetUnit < 2 ^ p.offsetWidth := by
            rw [Nat.div_lt_iff_lt_mul (offsetUnit_pos p), ← offsetLimit_eq]
            exact (Nat.lt_of_not_le hjump).trans_le (fillerOffset_le_offsetLimit p)
          have hoffset : (filler p _ hunits).offset = np - cp :=
            Nat.div_mul_cancel (Nat.dvd_of_mod_eq_zero hunit)
          refine ⟨filler p _ hunits, fun st => ?_, by omega, by omega, ?_, rfl, rfl⟩
          · have hheader : (filler p _ hunits).header =
                RelocInfo.ofOffset p .none (np - cp) 0 :=
              congrArg (fun offset => RelocInfo.ofOffset p .none offset 0) hoffset
            rw [fillGap, if_pos hlt, hheader, hoffset]
            simp only [if_neg hjump]
            rfl
          · have : np - (cp + (filler p _ hunits).offset) = 0 := by omega
            rw [this, Nat.zero_mod]
      obtain ⟨ls, hgap, hrun⟩ := ih (np - (cp + k.offset)) (by omega)
        (cp + k.offset) hfit hmod rfl
      have hwords : (k :: ls).flatMap words = [k.header] ++ ls.flatMap words := by
        rw [flatMap_cons, words, hdata]
        rfl
      refine ⟨k :: ls, hgap.cons htype, fun st hready => ?_⟩
      rw [hwords] at hready ⊢
      obtain ⟨st1, hstore, hw1⟩ := store_eq hready.left
      obtain ⟨st2, hfill, hw2⟩ := hrun st1 (hw1.ready hready)
      refine ⟨st2, ?_, hw1.trans hw2⟩
      rw [hstep, hstore]
      exact hfill
    · have heq : cp = np := by omega
      subst heq
      refine ⟨[], ⟨fun _ => rfl, fun _ => rfl⟩, fun st _ => ⟨st, ?_, Wrote.refl st⟩⟩
      rw [fillGap, if_neg hlt]

/-- The copy by whole words may write some more half-words, but not past the end. -/
theorem copyLocs_eq {locs : Buffer RelocInfo} {st : CopyState} (h : Ready p st locs.contents) :
    ∃ st', copyLocs p locs st = some st' ∧ Wrote locs.contents st st' ∧
      st'.codeEndSoFar = st.codeEndSoFar ∧ st'.codePointSoFar = st.codePointSoFar := by
  have hsize : relocInfoSize * locs.count = relocInfoSize * locs.contents.length := by
    rw [locs.contents_length]
  simp only [copyLocs]
  rw [hsize]
  apply onDest_eq
  intro b hb
  have hoffset := h.offset_eq b hb
  have hroom := h.room b hb
  have haligned := h.aligned b hb
  rw [locs.contents_length] at hroom
  have hblit : ∀ n, locs.count ≤ n → b.count + n ≤ b.capacity →
      ∃ b', BufferM.blit locs.mem n locs.count b = some ((), b') ∧
        b'.contents = b.contents ++ locs.contents ∧ b'.capacity = b.capacity :=
    fun n hle hfit => Buffer.contents_blit hfit hle
  split
  · next hword =>
    rw [← hoffset] at hword
    rw [← hsize]
    apply hblit
    · cases p <;> simp [Platform.bytesPerWord, relocInfoSize] <;> omega
    · cases p <;> simp only [Platform.bytesPerWord, relocInfoSize] at hword haligned ⊢ <;> omega
  · exact hblit _ le_rfl hroom

theorem eq_nil_of_flatMap_words {ks : List (Packet p)} (h : ks.flatMap words = []) : ks = [] := by
  have := length_le_flatMap_words ks
  rw [h] at this
  exact length_eq_zero_iff.mp (Nat.le_zero.mp this)

theorem recorded_eq_nil {cs : CodeSection} {es : List Entry} (h : Recorded p cs es)
    (hwords : cs.locsWords = []) : es = [] := by
  obtain ⟨ks, hks, hobs, -⟩ := h.packets
  have hnil := eq_nil_of_flatMap_words (hks.symm.trans hwords)
  have := hobs 0
  rw [hnil] at this
  exact map_eq_nil_iff.mp this.symm

variable (this : CodeBuffer)

theorem le_alignAtStart (off : Nat) : off ≤ this.alignAtStart off := by
  have hpos : 0 < this.alignment := Nat.lt_of_lt_of_le (by decide) (Nat.le_max_left 8 _)
  have hmod := Nat.mod_add_div (off + (this.alignment - 1)) this.alignment
  have hlt := Nat.mod_lt (off + (this.alignment - 1)) hpos
  rw [alignAtStart, alignSizeUp, Nat.mul_comm]
  omega

theorem offsetUnit_dvd_alignment (p : Platform) : p.offsetUnit ∣ this.alignment := by
  have height : p.offsetUnit ∣ 8 := by cases p <;> decide
  rw [alignment]
  rcases Nat.le_total 8 (2 ^ this.logCodeEntryAlignment) with hle | hle
  · rw [Nat.max_eq_right hle]
    have hlog : 3 ≤ this.logCodeEntryAlignment := 
      (Nat.pow_le_pow_iff_right Nat.one_lt_two).mp (show 2 ^ 3 ≤ _ from hle)
    exact height.trans (Nat.pow_dvd_pow 2 hlog)
  · rw [Nat.max_eq_left hle]
    exact height

theorem offsetUnit_dvd_alignAtStart (p : Platform) (off : Nat) :
    p.offsetUnit ∣ this.alignAtStart off :=
  (offsetUnit_dvd_alignment this p).trans (Nat.dvd_mul_left _ _)

/-- Packets that are copied for sections between two code points, and what they show. -/
structure Copied (ls : List (Packet p)) (codePoint newCodePoint : Nat)
    (entries : Nat → List Entry) : Prop where
  observe_eq : ∀ base, observe p (locateAll (base + codePoint) ls) = entries base
  lastAddr_eq : ∀ base, lastAddr (base + codePoint) ls = base + newCodePoint

theorem copySection_eq {cs : CodeSection} {es : List Entry} (h : Recorded p cs es)
    {ce : Nat} (hle : cp ≤ ce) (hunit : p.offsetUnit ∣ cp) :
    ∃ (ls : List (Packet p)) (np : Nat),
      let codeEnd' := if cs.isEmpty then ce else this.alignAtStart ce
      np ≤ codeEnd' + cs.size ∧ p.offsetUnit ∣ np ∧
      Copied ls cp np (fun base => es.map (Entry.shift (base + codeEnd'))) ∧
      ∀ st : CopyState, st.codeEndSoFar = ce → st.codePointSoFar = cp →
        Ready p st (ls.flatMap words) →
        ∃ st', this.copySection p cs st = some st' ∧ st'.codeEndSoFar = codeEnd' + cs.size ∧
          st'.codePointSoFar = np ∧
          Wrote (ls.flatMap words) st st' := by
  by_cases hempty : cs.isEmpty = true
  · have hes := h.empty hempty
    have hsize : cs.size = 0 := by
      rw [isEmpty, decide_eq_true_eq] at hempty
      rw [size, hempty, Nat.sub_self]
    refine ⟨[], cp, ?_⟩
    simp only [hempty, if_true, hsize, Nat.add_zero]
    refine ⟨hle, hunit, ⟨fun _ => by rw [hes]; rfl, fun _ => rfl⟩, fun st hend hpoint _ => ?_⟩
    exact ⟨st, by rw [copySection, if_pos hempty], hend, hpoint, Wrote.refl st⟩
  · have halign := le_alignAtStart this ce
    by_cases hwords : cs.locsWords = []
    · -- a section without records only takes its place in the code
      refine ⟨[], cp, ?_⟩
      simp only [hempty, Bool.false_eq_true, if_false]
      refine ⟨by omega, hunit, ⟨fun _ => by rw [recorded_eq_nil h hwords]; rfl, fun _ => rfl⟩,
        fun st hend hpoint _ => ?_⟩
      refine ⟨{ st with codeEndSoFar := this.alignAtStart ce + cs.size }, ?_, rfl, hpoint,
        ⟨rfl, id, fun b hb => ⟨b, hb, (append_nil _).symm, rfl⟩⟩⟩
      rw [copySection, if_neg hempty, hend]
      cases hlocs : cs.locs with
      | none => rfl
      | some locs =>
        have hcount : locs.count = 0 := by
          rw [locsWords, hlocs] at hwords
          rw [← locs.contents_length]
          exact length_eq_zero_iff.mpr hwords
        simp [hcount]
    · obtain ⟨locs, hlocs⟩ : ∃ locs, cs.locs = some locs := by
        cases hlocs : cs.locs with
        | none => exact absurd (by rw [locsWords, hlocs]) hwords
        | some locs => exact ⟨locs, rfl⟩
      have hcontents : cs.locsWords = locs.contents := by rw [locsWords, hlocs]
      have hcount : locs.count ≠ 0 := fun h0 => hwords (hcontents.trans (Buffer.contents_eq_nil h0))
      have hoff : cs.locsPointOff ≤ cs.size := by
        have := h.le_stop
        rw [locsPointOff, size]
        omega
      obtain ⟨ks, hks, hobs, hlast⟩ := h.packets
      have hgapUnit : (this.alignAtStart ce - cp) % p.offsetUnit = 0 :=
        Nat.mod_eq_zero_of_dvd (Nat.dvd_sub (offsetUnit_dvd_alignAtStart this p ce) hunit)
      obtain ⟨gap, hgap, hfill⟩ := fillGap_eq (p := p) (this.alignAtStart ce) cp
        (hle.trans halign) hgapUnit
      refine ⟨gap ++ ks, this.alignAtStart ce + cs.locsPointOff, ?_⟩
      simp only [hempty, Bool.false_eq_true, if_false]
      refine ⟨by omega, ?_, ⟨fun base => ?_, fun base => ?_⟩, fun st hend hpoint hready => ?_⟩
      · exact Nat.dvd_add (offsetUnit_dvd_alignAtStart this p ce)
          (Nat.dvd_of_mod_eq_zero h.aligned)
      · rw [locateAll_append, observe_append, hgap.observe_eq, hgap.lastAddr_eq, hobs]
        rfl
      · rw [lastAddr_append, hgap.lastAddr_eq, hlast, Nat.add_assoc]
      · rw [flatMap_append, ← hks, hcontents] at hready ⊢
        obtain ⟨st1, hrun1, hw1⟩ := hfill st hready.left
        -- the code points are not part of what has been written
        have hready1 := hw1.ready hready
        let st2 : CopyState := { st1 with
          codePointSoFar := this.alignAtStart ce + cs.locsPointOff
          codeEndSoFar := this.alignAtStart ce + cs.size }
        have hready2 : Ready p st2 locs.contents :=
          ⟨hready1.offset_eq, hready1.room, hready1.aligned⟩
        have hw2 : Wrote (gap.flatMap words) st st2 :=
          ⟨hw1.bufOffset_eq, hw1.dest_none, hw1.dest_some⟩
        obtain ⟨st3, hrun3, hw3, hend3, hpoint3⟩ := copyLocs_eq hready2
        refine ⟨st3, ?_, hend3, hpoint3, hw2.trans hw3⟩
        rw [copySection, if_neg hempty, hend, hpoint]
        simp only [hlocs, hcount, if_false, hrun1, some_bind]
        exact hrun3

/-- What a blob shows of the sections that are laid out from `codeEnd` on. -/
def layoutEntries (es : Sect → List Entry) (codeEnd : Nat) (ns : List Sect) (base : Nat) :
    List Entry :=
  (this.finalLayout codeEnd ns).flatMap fun x => (es x.1).map (Entry.shift (base + x.2))

theorem copySections_eq {es : Sect → List Entry}
    (h : ∀ n, Recorded p (this.codeSection n) (es n)) (ns : List Sect)
    {ce : Nat} (hle : cp ≤ ce) (hunit : p.offsetUnit ∣ cp) :
    ∃ ls : List (Packet p), (∀ base, observe p (locateAll (base + cp) ls) =
        this.layoutEntries es ce ns base) ∧
      ∀ st : CopyState, st.codeEndSoFar = ce → st.codePointSoFar = cp →
        Ready p st (ls.flatMap words) →
        ∃ st', this.copySections p (ns.map this.codeSection) st = some st' ∧
          Wrote (ls.flatMap words) st st' := by
  induction ns generalizing ce cp with
  | nil => exact ⟨[], fun _ => rfl, fun st _ _ _ => ⟨st, rfl, Wrote.refl st⟩⟩
  | cons n ns ih =>
    obtain ⟨ks, np, hle', hunit', hcopied, hrun⟩ :=
      copySection_eq this (h n) hle hunit
    obtain ⟨ls, hobs, hrest⟩ := ih hle' hunit'
    refine ⟨ks ++ ls, fun base => ?_, fun st hend hpoint hready => ?_⟩
    · rw [locateAll_append, observe_append, hcopied.observe_eq, hcopied.lastAddr_eq, hobs]
      rfl
    rw [flatMap_append] at hready ⊢
    obtain ⟨st1, hrun1, hend1, hpoint1, hw1⟩ := hrun st hend hpoint hready.left
    obtain ⟨st2, hrun2, hw2⟩ := hrest st1 hend1 hpoint1 (hw1.ready hready)
    refine ⟨st2, ?_, hw1.trans hw2⟩
    rw [map_cons, copySections, hrun1]
    exact hrun2

/-! ## The whole blob -/

/-- A filler that skips nothing. -/
def padding (p : Platform) : Packet p := .filler p 0 (Nat.two_pow_pos _)

theorem padding_words (p : Platform) : (padding p).words = [0] := by
  cases p <;> rfl

theorem padding_gap (n addr : Nat) : Gap (List.replicate n (padding p)) addr addr := by
  induction n with
  | zero => exact ⟨fun _ => rfl, fun _ => rfl⟩
  | succ n ih =>
    refine Gap.cons rfl ?_
    have : (padding p).offset = 0 := Nat.zero_mul _
    rw [this]
    exact ih

theorem flatMap_words_padding (n : Nat) :
    (List.replicate n (padding p)).flatMap words = List.replicate n 0 := by
  induction n with
  | zero => rfl
  | succ n ih =>
    rw [replicate_succ, replicate_succ, flatMap_cons, ih, padding_words]
    rfl

/-- The number of half-words up to the next word. -/
def paddingCount (p : Platform) (bufOffset : Nat) : Nat :=
  (p.bytesPerWord - bufOffset % p.bytesPerWord) % p.bytesPerWord / relocInfoSize

theorem paddingCount_eq_zero {off : Nat} (h : off % p.bytesPerWord = 0) :
    paddingCount p off = 0 := by
  rw [paddingCount, h, Nat.sub_zero, Nat.mod_self, Nat.zero_div]

theorem paddingCount_succ {off : Nat} (heven : off % relocInfoSize = 0)
    (h : off % p.bytesPerWord ≠ 0) :
    paddingCount p off = paddingCount p (off + relocInfoSize) + 1 := by
  cases p <;> simp only [paddingCount, Platform.bytesPerWord, relocInfoSize] at * <;> omega

theorem padToWord_eq (fuel : Nat) {st : CopyState} (heven : st.bufOffset % relocInfoSize = 0)
    (hfuel : paddingCount p st.bufOffset < fuel)
    (h : Ready p st (List.replicate (paddingCount p st.bufOffset) 0)) :
    ∃ st', padToWord p fuel st = some st' ∧
      Wrote (List.replicate (paddingCount p st.bufOffset) 0) st st' := by
  induction fuel generalizing st with
  | zero => exact absurd hfuel (Nat.not_lt_zero _)
  | succ fuel ih =>
    rw [padToWord]
    by_cases hword : st.bufOffset % p.bytesPerWord = 0
    · rw [paddingCount_eq_zero hword]
      exact ⟨st, if_neg (not_not_intro hword), Wrote.refl st⟩
    have hzero : RelocInfo.ofOffset p .none 0 0 = 0 := by cases p <;> rfl
    rw [paddingCount_succ heven hword] at hfuel h ⊢
    obtain ⟨st1, hstore, hw1⟩ := store_eq h.left
    have hoffset : st1.bufOffset = st.bufOffset + relocInfoSize := hw1.bufOffset_eq
    have hready := hw1.ready h
    rw [← hoffset] at hready hfuel ⊢
    have heven1 : st1.bufOffset % relocInfoSize = 0 := by
      rw [hoffset, Nat.add_mod_right, heven]
    obtain ⟨st2, hrun2, hw2⟩ := ih heven1 (Nat.lt_of_succ_lt_succ hfuel) hready
    refine ⟨st2, ?_, hw1.trans hw2⟩
    rw [if_pos hword, hzero, hstore]
    exact hrun2

theorem alignSizeUp_eq {size : Nat} (h : size % p.bytesPerWord = 0) :
    alignSizeUp size p.bytesPerWord = size := by
  cases p <;> simp only [alignSizeUp, Platform.bytesPerWord] at * <;> omega

theorem padded_mod {off : Nat} (heven : off % relocInfoSize = 0) :
    (off + relocInfoSize * paddingCount p off) % p.bytesPerWord = 0 := by
  cases p <;> simp only [paddingCount, Platform.bytesPerWord, relocInfoSize] at * <;> omega

section Pass

variable {dest : Option (Buffer RelocInfo)} {st : CopyState}

theorem copyRelocationsTo_none
    (h : (this.copySections p (Sect.all.map this.codeSection) ⟨dest, 0, 0, 0⟩).bind
      (padToWord p p.bytesPerWord) = some st) (hdest : st.dest = none) :
    this.copyRelocationsTo p dest = some (st.bufOffset, none) := by
  obtain ⟨st1, hcopy, hpad⟩ := Option.bind_eq_some_iff.mp h
  simp only [copyRelocationsTo, hcopy, hpad, hdest, some_bind]
  rfl

/-- There is nothing left to fill when the records take all the space. -/
theorem copyRelocationsTo_some {buf : Buffer RelocInfo}
    (h : (this.copySections p (Sect.all.map this.codeSection) ⟨dest, 0, 0, 0⟩).bind
      (padToWord p p.bytesPerWord) = some st) (hdest : st.dest = some buf)
    (hfull : buf.count = buf.capacity) :
    this.copyRelocationsTo p dest = some (st.bufOffset, some buf) := by
  obtain ⟨st1, hcopy, hpad⟩ := Option.bind_eq_some_iff.mp h
  have hindex : createIndex buf = some ((), buf) := by
    rw [createIndex, hfull, Nat.sub_self]
    rfl
  simp only [copyRelocationsTo, hcopy, hpad, hdest, hindex, some_bind]
  rfl

end Pass

/-- The relocation information of a blob is a list of packets that show the entries of all
sections, each section at its place in the code. -/
theorem createRelocation_eq {es : Sect → List Entry}
    (h : ∀ n, Recorded p (this.codeSection n) (es n)) : ∃ ls : List (Packet p),
      (∀ base, observe p (locateAll base ls) = this.layoutEntries es 0 Sect.all base) ∧
      ∀ mem, this.createRelocation p mem = some (ls.flatMap words) := by
  obtain ⟨ks, hobs, hcopy⟩ := copySections_eq this h Sect.all (Nat.le_refl 0) (Nat.dvd_zero _)
  let off := relocInfoSize * (ks.flatMap words).length
  have heven : off % relocInfoSize = 0 := Nat.mul_mod_right _ _
  let n := paddingCount p off
  have hn : n < p.bytesPerWord := by
    have hpos : 0 < p.bytesPerWord := by cases p <;> decide
    exact Nat.lt_of_le_of_lt (Nat.div_le_self _ _) (Nat.mod_lt _ hpos)
  have hwords : (ks ++ List.replicate n (padding p)).flatMap words =
      ks.flatMap words ++ List.replicate n 0 := by
    rw [flatMap_append, flatMap_words_padding]
  -- both passes go through the same states
  have hpass : ∀ dest : Option (Buffer RelocInfo), Ready p ⟨dest, 0, 0, 0⟩
        (ks.flatMap words ++ List.replicate n 0) →
      ∃ st', (this.copySections p (Sect.all.map this.codeSection) ⟨dest, 0, 0, 0⟩).bind
          (padToWord p p.bytesPerWord) = some st' ∧
        Wrote (ks.flatMap words ++ List.replicate n 0) ⟨dest, 0, 0, 0⟩ st' := by
    intro dest hready
    obtain ⟨st1, hrun1, hw1⟩ := hcopy ⟨dest, 0, 0, 0⟩ rfl rfl hready.left
    have hoff : st1.bufOffset = off := by rw [hw1.bufOffset_eq]; exact Nat.zero_add _
    have hready1 := hw1.ready hready
    obtain ⟨st2, hrun2, hw2⟩ := @padToWord_eq p p.bytesPerWord st1
      (by rw [hoff]; exact heven) (by rw [hoff]; exact hn) (by rw [hoff]; exact hready1)
    rw [hoff] at hw2
    exact ⟨st2, by rw [hrun1]; exact hrun2, hw1.trans hw2⟩
  refine ⟨ks ++ List.replicate n (padding p), fun base => ?_, fun mem => ?_⟩
  · rw [locateAll_append, observe_append, (padding_gap n 0).observe_eq, append_nil]
    exact hobs base
  have hready : ∀ dest : Option (Buffer RelocInfo), (∀ b, dest = some b → b.count = 0 ∧
        b.capacity = (ks.flatMap words).length + n) →
      Ready p ⟨dest, 0, 0, 0⟩ (ks.flatMap words ++ List.replicate n 0) := by
    intro dest hdest
    constructor
    · intro b hb
      rw [(hdest b hb).1]
      rfl
    · intro b hb
      rw [(hdest b hb).1, (hdest b hb).2, length_append, length_replicate]
      omega
    · intro b hb
      rw [(hdest b hb).2, Nat.mul_add]
      exact padded_mod heven
  obtain ⟨st, hrun, hw⟩ := hpass none (hready none (by simp))
  have htotal : st.bufOffset = off + relocInfoSize * n := by
    rw [hw.bufOffset_eq, length_append, length_replicate, Nat.mul_add]
    exact Nat.zero_add _
  have hsize : this.totalRelocationSize p = some (off + relocInfoSize * n) := by
    rw [totalRelocationSize, copyRelocationsTo_none this hrun (hw.dest_none rfl), htotal]
    exact congrArg some (alignSizeUp_eq (padded_mod heven))
  have hcapacity : alignSizeUp (off + relocInfoSize * n) p.bytesPerWord / relocInfoSize =
      (ks.flatMap words).length + n := by
    rw [alignSizeUp_eq (padded_mod heven), ← Nat.mul_add, Nat.mul_div_cancel_left _ (by decide)]
  let dest := Buffer.empty mem ((ks.flatMap words).length + n)
  obtain ⟨st', hrun', hw'⟩ := hpass (some dest) (hready (some dest) (by
    intro b hb
    cases hb
    exact ⟨rfl, rfl⟩))
  obtain ⟨buf, hdest, hcontents, hcap⟩ := hw'.dest_some dest rfl
  rw [Buffer.contents_empty, nil_append] at hcontents
  have hfull : buf.count = buf.capacity := by
    rw [← buf.contents_length, hcontents, length_append, length_replicate, hcap]
    rfl
  have hcopied := copyRelocationsTo_some this hrun' hdest hfull
  rw [createRelocation, hsize]
  simp only [Option.bind_eq_bind, Option.bind_some, hcapacity]
  have hall : (List.range buf.capacity).map buf.mem = ks.flatMap words ++ List.replicate n 0 := by
    rw [← hfull]
    exact hcontents
  rw [hcopied, Option.bind_some, hwords, ← hall]
  rfl

end CodeBuffer

end Hotspot.Asm
