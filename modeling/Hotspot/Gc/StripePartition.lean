-- SUMMARY: Over all stripes every object on an unclean card is scanned exactly once.
import Hotspot.Base.Except
import Hotspot.Gc.CardTableExtension

/-!
# Stripes partition the work

A slice scans objects that start in it, each at most once, and cleans only cards that lie inside its
own objects. So the cards that the other slices look at are as they were, or marked.
-/

namespace Hotspot.ParallelScavenge

open List StripeScan

open Nat

open Memory (HeapWordSize)

/-- The scan is of a space with these objects. -/
structure StripeScan.Scans (scan : StripeScan) (objects : Cut) : Prop where
  valid : scan.startArray.Valid scan.wordSize objects
  size : scan.size = objects.size
  top : scan.spTop = objects.top

/-- Some word of the object is on the card. -/
def Overlaps (ws : HeapWordSize) (objects : Cut) (m card : Nat) : Prop :=
  objects.IsStart m ∧ m < addrFor ws (card + 1) ∧ addrFor ws card < objects.stop m

/-- Unclean cards stay unclean. -/
def OnlyMarks (cards cards' : Nat → CardValue) : Prop :=
  ∀ card, cardIsClean (cards card) = false → cardIsClean (cards' card) = false

namespace StripeScan

/-! ## Runs of cards -/

theorem skipCards_spec (test : CardValue → Bool) (cds : Nat → CardValue) (n cd : Nat) :
    cd ≤ skipCards test cds n cd ∧ skipCards test cds n cd ≤ cd + n ∧
      (∀ i, cd ≤ i → i < skipCards test cds n cd → test (cds i) = true) ∧
      (skipCards test cds n cd < cd + n → test (cds (skipCards test cds n cd)) = false) := by
  induction n generalizing cd with
  | zero => exact ⟨le_rfl, le_rfl, fun i h h' => absurd h' (not_lt.mpr h),
      fun h => absurd h (lt_irrefl _)⟩
  | succ n ih =>
    unfold skipCards
    split
    next htest =>
      obtain ⟨h1, h2, h3, h4⟩ := ih (cd + 1)
      refine ⟨by omega, by omega, fun i hlo hhi => ?_, fun hlt => h4 (by omega)⟩
      rcases eq_or_lt_of_le hlo with rfl | hlt
      · exact htest
      · exact h3 i hlt hhi
    next htest =>
      exact ⟨le_rfl, by omega, fun i h h' => absurd h' (not_lt.mpr h),
        fun _ => (Bool.not_eq_true _).mp htest⟩

section Scan

variable {sc : StripeScan} {os : Cut} (hsc : sc.Scans os)

include hsc

theorem objectStart_spec {addr : Nat} (haddr : addr < os.top) :
    ∃ p, sc.objectStart addr = some p ∧ os.Covers p addr := by
  unfold objectStart
  rw [hsc.size]
  exact hsc.valid.objectStart haddr

theorem lt_endCard_iff {cd : Nat} : cd < sc.endCard ↔ addrFor sc.wordSize cd < os.top := by
  unfold endCard
  rw [← hsc.top]
  cases sc.spTop with
  | zero => exact ⟨fun h => absurd h (Nat.not_lt_zero _), fun h => absurd h (Nat.not_lt_zero _)⟩
  | succ last => exact Nat.lt_succ_iff.trans (le_byteFor_iff.trans Nat.lt_succ_iff.symm)

/-- The end of a run is a clean card, or the end of the slice. -/
theorem dirtyRun_spec (cds : Nat → CardValue) {wend : Nat} (hend : wend ≤ sc.endCard)
    {fuel cd : Nat} (hpos : 0 < fuel) (hfuel : wend < fuel + cd) :
    ∃ nxt, sc.dirtyRun cds wend fuel cd = some nxt ∧ cd ≤ nxt ∧
      (nxt < wend → cardIsClean (cds nxt) = true) ∧
      (cd < wend → cardIsClean (cds cd) = false → cd < nxt) := by
  induction fuel generalizing cd with
  | zero => omega
  | succ fuel ih =>
    unfold dirtyRun
    dsimp only
    split
    next hcond =>
      obtain ⟨hlt, hun⟩ := hcond
      obtain ⟨h1, h2, -, h4⟩ := skipCards_spec (fun value => !cardIsClean value) cds (wend - cd) cd
      generalize skipCards (fun value => !cardIsClean value) cds (wend - cd) cd = r at *
      have hr : cd < r := by
        refine lt_of_le_of_ne h1 fun heq => ?_
        subst heq
        have := h4 (by omega)
        rw [hun] at this
        cases this
      -- the next card is behind this one either way
      have hnext : ∀ next, r ≤ next → ∃ nxt, sc.dirtyRun cds wend fuel next = some nxt ∧
          cd ≤ nxt ∧ (nxt < wend → cardIsClean (cds nxt) = true) ∧
          (cd < wend → cardIsClean (cds cd) = false → cd < nxt) := by
        intro next hle
        obtain ⟨nxt, heq, hge, hclean, -⟩ := @ih next (by omega) (by omega)
        exact ⟨nxt, heq, by omega, hclean, fun _ _ => by omega⟩
      split
      next hlt' =>
        have haddr := (lt_endCard_iff hsc).mp (hlt'.trans_le hend)
        obtain ⟨p, hp, -⟩ := objectStart_spec hsc (show addrFor sc.wordSize r - 1 < os.top by omega)
        rw [hp]
        refine hnext _ ?_
        split <;> omega
      · exact hnext r le_rfl
    next hcond =>
      refine ⟨cd, rfl, le_rfl, fun hlt => ?_, fun hlt hun => absurd ⟨hlt, hun⟩ hcond⟩
      by_contra hclean
      exact hcond ⟨hlt, (Bool.not_eq_true _).mp hclean⟩

/-! ## Scanning objects -/

omit hsc in
theorem pushContents_onlyMarks (pm : PSPromotionManager) (p : Nat) (st : ScanState) :
    OnlyMarks st.cards (pm.pushContents p st).cards := by
  intro cd hcard
  unfold PSPromotionManager.pushContents
  dsimp only
  split
  · rfl
  · exact hcard

/-- From `p` to `p'` the objects that start before the limit were scanned, once each. -/
structure ScannedTo (objects : Cut) (limit p : Nat) (st : ScanState) (p' : Nat) (st' : ScanState)
    (l : List Nat) :
    Prop where
  le : p ≤ p'
  limit_le : limit ≤ p'
  boundary : objects.IsBoundary p'
  scanned : st'.scanned = st.scanned ++ l
  nodup : l.Nodup
  mem_iff : ∀ m, m ∈ l ↔ objects.IsStart m ∧ p ≤ m ∧ m < limit
  below : ∀ m, objects.IsStart m → p ≤ m → m < p' → m < limit
  onlyMarks : OnlyMarks st.cards st'.cards

theorem scanObjects_spec {limit fuel p : Nat} (st : ScanState) (hp : os.IsBoundary p)
    (hlimit : limit ≤ os.top)
    (hpos : 0 < fuel) (hfuel : limit < fuel + p) :
    ∃ p' st' l, sc.scanObjects limit fuel p st = some (p', st') ∧
      ScannedTo os limit p st p' st' l := by
  induction fuel generalizing p st with
  | zero => omega
  | succ fuel ih =>
    unfold scanObjects
    split
    next hlt =>
      have hstart := hp.isStart (hlt.trans_le hlimit)
      have hstop := hstart.lt_stop
      rw [hsc.size]
      obtain ⟨p', st', l, heq, hle, hge, hbound, hscanned, hnodup, hmem, hbelow, hmarks⟩ :=
        ih (sc.pm.pushContents p st) hstart.stop_boundary (by omega) (by omega)
      refine ⟨p', st', p :: l, heq, by omega, hge, hbound, ?_, ?_, ?_, ?_, ?_⟩
      · rw [hscanned]
        show st.scanned ++ [p] ++ l = _
        rw [append_assoc]
        rfl
      · refine nodup_cons.mpr ⟨fun hin => ?_, hnodup⟩
        have := ((hmem p).mp hin).2.1
        omega
      · intro m
        rw [mem_cons, hmem]
        constructor
        · rintro (rfl | ⟨hm, hle', hlt'⟩)
          · exact ⟨hstart, le_rfl, hlt⟩
          · exact ⟨hm, by omega, hlt'⟩
        · rintro ⟨hm, hle', hlt'⟩
          rcases eq_or_lt_of_le hle' with heq' | hgt
          · exact .inl heq'.symm
          · exact .inr ⟨hm, hstart.stop_le hm.boundary hgt, hlt'⟩
      · intro m hm hle' hlt'
        rcases eq_or_lt_of_le hle' with heq' | hgt
        · omega
        · exact hbelow m hm (hstart.stop_le hm.boundary hgt) hlt'
      · exact fun cd hcard => hmarks cd (pushContents_onlyMarks sc.pm p st cd hcard)
    next hge =>
      refine ⟨p, st, [], rfl, le_rfl, by omega, hp, (append_nil _).symm, nodup_nil, ?_, ?_, ?_⟩
      · intro m
        constructor
        · nofun
        · rintro ⟨-, hle, hlt⟩
          omega
      · intro m _ hle hlt
        omega
      · exact fun _ hcard => hcard

end Scan

/-! ## A slice -/

/-- The objects of the slice start from `first` on and end at its end. The first and the last card
may hold parts of other objects. -/
structure Owns (scan : StripeScan) (objects : Cut) (slice : Slice) (first : Nat) : Prop where
  firstBoundary : objects.IsBoundary first
  endBoundary : objects.IsBoundary slice.sliceEnd
  le : first ≤ slice.sliceEnd
  startCard : addrFor scan.wordSize slice.workerStartCard ≤ first
  cleanStart : first < addrFor scan.wordSize (slice.workerStartCard + 1)
  endCard : slice.workerEndCard ≤ scan.endCard
  endAddr : slice.sliceEnd ≤ addrFor scan.wordSize slice.workerEndCard
  cleanEnd : addrFor scan.wordSize (slice.workerEndCard - 1) ≤ slice.sliceEnd

/-- What holds in a slice that started with `st₀`, when the cards before `card` have been looked at
and the objects `l` were scanned. -/
structure SliceInv (scan : StripeScan) (objects : Cut) (slice : Slice) (first : Nat)
    (st₀ : ScanState)
    (card lastScanned : Nat) (st : ScanState) (l : List Nat) : Prop where
  boundary : objects.IsBoundary lastScanned
  le : lastScanned ≤ slice.sliceEnd
  low : first ≤ lastScanned ∨ first = addrFor scan.wordSize slice.workerStartCard
  startLe : slice.workerStartCard ≤ card
  scanned : st.scanned = st₀.scanned ++ l
  nodup : l.Nodup
  own : ∀ m ∈ l, objects.IsStart m ∧ first ≤ m ∧ m < lastScanned
  reached : ∀ m, objects.IsStart m → first ≤ m → m < lastScanned →
    addrFor scan.wordSize card < objects.stop m → m ∈ l
  done : ∀ m c, Overlaps scan.wordSize objects m c → first ≤ m → m < slice.sliceEnd → c < card →
    cardIsClean (st₀.cards c) = false → m ∈ l
  ahead : ∀ c, card ≤ c → cardIsClean (st₀.cards c) = false → cardIsClean (st.cards c) = false
  cleaned : ∀ c, cardIsClean (st₀.cards c) = false → cardIsClean (st.cards c) = true →
    slice.workerStartCard < c ∧ c + 1 < slice.workerEndCard

/-- Where the scan of a run of unclean cards starts: the objects before it have been dealt with. -/
structure RunStart (scan : StripeScan) (objects : Cut) (slice : Slice)
    (first card lastScanned : Nat) (l : List Nat)
    (p : Nat) : Prop where
  boundary : objects.IsBoundary p
  last : lastScanned ≤ p
  le : p ≤ slice.sliceEnd
  first_le : first ≤ p
  before : ∀ m, objects.IsStart m → first ≤ m → m < p →
    addrFor scan.wordSize card < objects.stop m → m ∈ l

section Slice

variable {sc : StripeScan} {os : Cut} {sl : Slice} {first : Nat} {st₀ st : ScanState} {cd ls : Nat}
  {l : List Nat}

/-- The cards of an object of the slice come before its end. -/
theorem Owns.overlaps_lt (h : sc.Owns os sl first) {m c : Nat} (hm : Overlaps sc.wordSize os m c)
    (hlt : m < sl.sliceEnd) : c < sl.workerEndCard := by
  obtain ⟨hstart, -, hstop⟩ := hm
  have hend := hstart.stop_le h.endBoundary hlt
  have haddr := h.endAddr
  by_contra hge
  have := addrFor_mono sc.wordSize (not_lt.mp hge)
  omega

section

variable (inv : sc.SliceInv os sl first st₀ cd ls st l)

include inv

/-- Cards without anything to scan are passed over. -/
theorem SliceInv.skip (hown : sc.Owns os sl first) {next : Nat} (hnext : cd ≤ next)
    (hclean : ∀ c, cd ≤ c → c < next → c < sl.workerEndCard → cardIsClean (st.cards c) = true) :
    sc.SliceInv os sl first st₀ next ls st l := by
  refine ⟨inv.boundary, inv.le, inv.low, inv.startLe.trans hnext, inv.scanned, inv.nodup, inv.own,
    ?_, ?_, ?_,
    inv.cleaned⟩
  · intro m hm hfirst hlt hstop
    have := addrFor_mono sc.wordSize hnext
    exact inv.reached m hm hfirst hlt (by omega)
  · intro m c hm hfirst hlt hc hun
    rcases lt_or_ge c cd with hbefore | hafter
    · exact inv.done m c hm hfirst hlt hbefore hun
    · have hstill := inv.ahead c hafter hun
      rw [hclean c hafter hc (hown.overlaps_lt hm hlt)] at hstill
      cases hstill
  · exact fun c hc => inv.ahead c (hnext.trans hc)

/-- A run of unclean cards is scanned from the object on its first card, or from the end of the last
scan. -/
theorem SliceInv.runStart (hown : sc.Owns os sl first) {p : Nat}
    (hcovers : os.Covers p (addrFor sc.wordSize cd))
    (hend : addrFor sc.wordSize cd ≤ sl.sliceEnd) :
      RunStart sc os sl first cd ls l (if p < ls then ls else p) := by
  have hmono := addrFor_mono sc.wordSize inv.startLe
  split
  next hlt =>
    refine ⟨inv.boundary, le_rfl, inv.le, ?_, inv.reached⟩
    rcases inv.low with h | h
    · exact h
    · have hstop := hcovers.stop_le inv.boundary hlt
      omega
  next hge =>
    refine ⟨hcovers.1.boundary, by omega, hcovers.2.1.trans hend, ?_, ?_⟩
    · rcases inv.low with h | h
      · omega
      · by_contra hgt
        have hstop := hcovers.stop_le hown.firstBoundary (not_le.mp hgt)
        omega
    · intro m hm _ hlt hstop
      have := hcovers.le_of_lt_stop hm hstop
      omega

/-- The invariant after the scan of a run. -/
theorem SliceInv.scannedTo (hown : sc.Owns os sl first) {nxt q limit cleanFrom cleanTo : Nat}
    (hfollowing : cd < nxt)
    (hclean : nxt < sl.workerEndCard → cardIsClean (st.cards nxt) = true)
    (hq : RunStart sc os sl first cd ls l q)
    (hlimit : limit = sl.sliceEnd ∨ limit = addrFor sc.wordSize nxt)
    (hend : limit ≤ sl.sliceEnd) (hfrom : sl.workerStartCard < cleanFrom)
    (hto : cleanTo ≤ nxt ∧ cleanTo ≤ sl.workerEndCard - 1) {last' : Nat} {st' : ScanState}
    {l' : List Nat}
    (h : ScannedTo os limit q ⟨cleanCards st.cards cleanFrom cleanTo, st.scanned⟩ last' st' l') :
    sc.SliceInv os sl first st₀ (nxt + 1) last' st' (l ++ l') := by
  have hqLast := hq.last
  have hqFirst := hq.first_le
  have hle := h.le
  refine ⟨h.boundary, ?_, .inl (hqFirst.trans hle), by have := inv.startLe; omega, ?_, ?_, ?_, ?_,
    ?_, ?_, ?_⟩
  · -- an object at the end of the slice would have been past the limit
    by_contra hgt
    have hstart := hown.endBoundary.isStart (by have := h.boundary.le_top; omega)
    have := h.below _ hstart hq.le (by omega)
    omega
  · rw [h.scanned, ← append_assoc, ← inv.scanned]
  · refine nodup_append.mpr ⟨inv.nodup, h.nodup, ?_⟩
    intro a ha b hb hab
    have := (inv.own a ha).2.2
    have := ((h.mem_iff b).mp hb).2.1
    omega
  · intro m hm
    rcases mem_append.mp hm with hm | hm
    · obtain ⟨h1, h2, h3⟩ := inv.own m hm
      exact ⟨h1, h2, by omega⟩
    · obtain ⟨h1, h2, h3⟩ := (h.mem_iff m).mp hm
      exact ⟨h1, by omega, h3.trans_le h.limit_le⟩
  · intro m hm hfirst hlt hstop
    rw [mem_append]
    rcases lt_or_ge m q with hmq | hmq
    · have := addrFor_mono sc.wordSize (show cd ≤ nxt + 1 by omega)
      exact .inl (hq.before m hm hfirst hmq (by omega))
    · exact .inr ((h.mem_iff m).mpr ⟨hm, hmq, h.below m hm hmq hlt⟩)
  · intro m c hoverlaps hfirst hlt hc hun
    rw [mem_append]
    rcases lt_or_ge c cd with hcard' | hcard'
    · exact .inl (inv.done m c hoverlaps hfirst hlt hcard' hun)
    have hne : c ≠ nxt := by
      rintro rfl
      have hstill := inv.ahead c hcard' hun
      rw [hclean (hown.overlaps_lt hoverlaps hlt)] at hstill
      cases hstill
    obtain ⟨hm, hmlow, hmhigh⟩ := hoverlaps
    have h1 := addrFor_mono sc.wordSize (show c + 1 ≤ nxt by omega)
    have h2 := addrFor_mono sc.wordSize hcard'
    rcases lt_or_ge m q with hmq | hmq
    · exact .inl (hq.before m hm hfirst hmq (by omega))
    · exact .inr ((h.mem_iff m).mpr ⟨hm, hmq, by omega⟩)
  · intro c hc hun
    apply h.onlyMarks
    dsimp only
    unfold cleanCards
    rw [if_neg (by omega)]
    exact inv.ahead c (by omega) hun
  · intro c hun hcleaned
    by_cases hrange : cleanFrom ≤ c ∧ c < cleanTo
    · omega
    refine inv.cleaned c hun ?_
    by_contra hstill
    have hmarked := h.onlyMarks c (by
      dsimp only
      unfold cleanCards
      rw [if_neg hrange]
      exact (Bool.not_eq_true _).mp hstill)
    rw [hcleaned] at hmarked
    cases hmarked

/-- One run of unclean cards. -/
theorem SliceInv.scanRun (hsc : sc.Scans os) (hown : sc.Owns os sl first)
    (hcard : cd < sl.workerEndCard)
    {nxt : Nat} (hfollowing : cd < nxt)
    (hclean : nxt < sl.workerEndCard → cardIsClean (st.cards nxt) = true) :
    ∃ last' st' l', sc.scanRun sl cd nxt ls st = some (last', st') ∧
      sc.SliceInv os sl first st₀ (nxt + 1) last' st' (l ++ l') := by
  have haddr := (lt_endCard_iff hsc).mp (hcard.trans_le hown.endCard)
  obtain ⟨p, hp, hcovers⟩ := objectStart_spec hsc haddr
  have hendTop := hown.endBoundary.le_top
  have hq := inv.runStart hown hcovers ((addrFor_mono _ (by omega)).trans hown.cleanEnd)
  unfold StripeScan.scanRun
  rw [hp, some_bind]
  dsimp only
  generalize (if p < ls then ls else p) = q at hq ⊢
  -- the limit is the end of the run or of the slice
  generalize hlimit : (if sl.sliceEnd < addrFor sc.wordSize nxt then sl.sliceEnd
    else if sc.spTop < addrFor sc.wordSize nxt then sc.spTop else addrFor sc.wordSize nxt) = limit
  have hlimit' : limit ≤ sl.sliceEnd ∧ (limit = sl.sliceEnd ∨ limit = addrFor sc.wordSize nxt) := by
    have htop := hsc.top
    rw [← hlimit]
    split
    · omega
    · rw [if_neg (by omega)]
      omega
  generalize hfrom : (if cd ≤ sl.workerStartCard + 1 then sl.workerStartCard + 1 else cd) =
    cleanFrom
  generalize hto : (if sl.workerEndCard - 1 ≤ nxt then sl.workerEndCard - 1 else nxt) = cleanTo
  obtain ⟨last', st', l', heq, hscanned⟩ :=
    scanObjects_spec hsc ⟨cleanCards st.cards cleanFrom cleanTo, st.scanned⟩
    hq.boundary (hlimit'.1.trans hendTop) (show 0 < limit - q + 1 by omega) (by omega)
  exact ⟨last', st', l', heq, inv.scannedTo hown hfollowing hclean hq hlimit'.2 hlimit'.1
    (by split at hfrom <;> omega) (by split at hto <;> omega) hscanned⟩

/-- The loop over the cards of a slice gets to its end. -/
theorem SliceInv.scanSlice (hsc : sc.Scans os) (hown : sc.Owns os sl first) {fuel : Nat}
    (hpos : 0 < fuel)
    (hfuel : sl.workerEndCard < fuel + cd) :
    ∃ last' st' l' card', sc.scanSlice sl fuel cd ls st = some (last', st') ∧
      sl.workerEndCard ≤ card' ∧ sc.SliceInv os sl first st₀ card' last' st' l' := by
  induction fuel generalizing cd ls st l with
  | zero => omega
  | succ fuel ih =>
    unfold scanSlice
    split
    next hlt =>
      obtain ⟨h1, h2, h3, h4⟩ := skipCards_spec cardIsClean st.cards (sl.workerEndCard - cd) cd
      dsimp only
      generalize skipCards cardIsClean st.cards (sl.workerEndCard - cd) cd = unclean at *
      have inv' := inv.skip hown h1 fun c hlo hhi _ => h3 c hlo hhi
      obtain ⟨nxt, hrun, hle, hclean, hmore⟩ :=
        dirtyRun_spec hsc st.cards hown.endCard (show 0 < sl.workerEndCard - unclean + 1 by omega)
          (show sl.workerEndCard < sl.workerEndCard - unclean + 1 + unclean by omega)
      rw [hrun, some_bind]
      split
      next hun =>
        have hgt := hmore hun (h4 (by omega))
        obtain ⟨last', st', l', heq, inv''⟩ := inv'.scanRun hsc hown hun hgt hclean
        rw [heq]
        exact ih inv'' (by omega) (by omega)
      next hend =>
        have inv'' := inv'.skip hown (show unclean ≤ nxt + 1 by omega) fun c hlo _ hend' => by omega
        exact ih inv'' (by omega) (by omega)
    next hge => exact ⟨ls, st, l, cd, rfl, by omega, inv⟩

end

end Slice

end StripeScan

/-! ## Shares of the work -/

/-- Going from `st` to `st'` the objects `l` are scanned. They are among the objects `mine`, and all
of those that are on an unclean card are scanned. Only cards inside these objects are cleaned. -/
structure ScansShare (ws : HeapWordSize) (objects : Cut) (mine : Nat → Prop) (st st' : ScanState)
    (l : List Nat) :
    Prop where
  scanned : st'.scanned = st.scanned ++ l
  nodup : l.Nodup
  own : ∀ m ∈ l, objects.IsStart m ∧ mine m
  complete : ∀ m c, Overlaps ws objects m c → mine m → cardIsClean (st.cards c) = false → m ∈ l
  cleaned : ∀ m c, Overlaps ws objects m c → cardIsClean (st.cards c) = false →
    cardIsClean (st'.cards c) = true → mine m

section Share

variable {ws : HeapWordSize} {os : Cut} {mine mine' : Nat → Prop} {st st' st'' : ScanState}
  {l l' : List Nat}

theorem ScansShare.refl (st : ScanState) (hnone : ∀ m, os.IsStart m → ¬ mine m) :
    ScansShare ws os mine st st [] := by
  refine ⟨(append_nil _).symm, nodup_nil, nofun,
    fun m c hm hmine => absurd hmine (hnone m hm.1), ?_⟩
  intro m c _ hun hclean
  rw [hun] at hclean
  cases hclean

section

variable (h : ScansShare ws os mine st st' l)

include h

/-- The next share finds the cards of its objects as they were. -/
theorem ScansShare.unclean {m c : Nat} (hm : Overlaps ws os m c)
    (hnot : ¬ mine m) (hun : cardIsClean (st.cards c) = false) :
      cardIsClean (st'.cards c) = false := by
  by_contra hclean
  exact hnot (h.cleaned m c hm hun ((Bool.not_eq_false _).mp hclean))

/-- Two shares without a common object, one after the other. -/
theorem ScansShare.trans (h' : ScansShare ws os mine' st' st'' l')
    (hdisjoint : ∀ m, os.IsStart m → mine m → ¬ mine' m) :
    ScansShare ws os (fun m => mine m ∨ mine' m) st st'' (l ++ l') := by
  refine ⟨?_, ?_, ?_, ?_, ?_⟩
  · rw [h'.scanned, h.scanned, append_assoc]
  · refine nodup_append.mpr ⟨h.nodup, h'.nodup, ?_⟩
    rintro a ha b hb rfl
    obtain ⟨hstart, hmine⟩ := h.own a ha
    exact hdisjoint a hstart hmine (h'.own a hb).2
  · intro m hm
    rcases mem_append.mp hm with hm | hm
    · exact ⟨(h.own m hm).1, .inl (h.own m hm).2⟩
    · exact ⟨(h'.own m hm).1, .inr (h'.own m hm).2⟩
  · intro m c hm hmine hun
    rw [mem_append]
    by_cases hfirst : mine m
    · exact .inl (h.complete m c hm hfirst hun)
    · exact .inr (h'.complete m c hm (hmine.resolve_left hfirst) (h.unclean hm hfirst hun))
  · intro m c hm hun hclean
    by_cases hmid : cardIsClean (st'.cards c) = true
    · exact .inl (h.cleaned m c hm hun hmid)
    · exact .inr (h'.cleaned m c hm ((Bool.not_eq_true _).mp hmid) hclean)

theorem ScansShare.congr (heq : ∀ m, os.IsStart m → (mine m ↔ mine' m)) :
    ScansShare ws os mine' st st' l := by
  refine ⟨h.scanned, h.nodup, fun m hm => ?_, fun m c hm hmine => ?_, fun m c hm hun hclean => ?_⟩
  · obtain ⟨hstart, hmine⟩ := h.own m hm
    exact ⟨hstart, (heq m hstart).mp hmine⟩
  · exact h.complete m c hm ((heq m hm.1).mpr hmine)
  · exact (heq m hm.1).mp (h.cleaned m c hm hun hclean)

end

end Share

/-! ## Slices and stripes -/

namespace StripeScan

section Stripe

variable {sc : StripeScan} {os : Cut} (hsc : sc.Scans os)

include hsc

theorem top_le_endCard : os.top ≤ addrFor sc.wordSize sc.endCard := by
  by_contra hlt
  exact lt_irrefl _ ((lt_endCard_iff hsc).mpr (not_le.mp hlt))

variable {ls : Nat}

/-- The objects that start in the slice, once its bounds have been adjusted. -/
theorem scanSlice_share {sl : Slice} {first : Nat} (hown : sc.Owns os sl first)
    (hlast : os.IsBoundary ls) (hlow : first = ls ∨
      ls ≤ first ∧ first = addrFor sc.wordSize sl.workerStartCard) (st : ScanState) :
    ∃ last' st' l, sc.scanSlice sl (sl.workerEndCard - sl.workerStartCard + 1) sl.workerStartCard
        ls st = some (last', st') ∧ os.IsBoundary last' ∧ last' ≤ sl.sliceEnd ∧
      ScansShare sc.wordSize os (fun m => first ≤ m ∧ m < sl.sliceEnd) st st' l := by
  have hle : ls ≤ first := by omega
  have inv : sc.SliceInv os sl first st sl.workerStartCard ls st [] := by
    refine ⟨hlast, hle.trans hown.le, by omega, le_rfl, (append_nil _).symm, nodup_nil, nofun, ?_,
      ?_,
      fun _ _ h => h, ?_⟩
    · intro m _ hfirst hlt
      omega
    · intro m c hm hfirst _ hc
      have := addrFor_mono sc.wordSize (show c + 1 ≤ sl.workerStartCard by omega)
      have := hown.startCard
      have := hm.2.1
      omega
    · intro c hun hclean
      rw [hun] at hclean
      cases hclean
  obtain ⟨last', st', l, card', heq, hcard, inv'⟩ := inv.scanSlice hsc hown
    (show 0 < sl.workerEndCard - sl.workerStartCard + 1 by omega) (by omega)
  refine ⟨last', st', l, heq, inv'.boundary, inv'.le, inv'.scanned, inv'.nodup, ?_, ?_, ?_⟩
  · intro m hm
    obtain ⟨h1, h2, h3⟩ := inv'.own m hm
    exact ⟨h1, h2, h3.trans_le inv'.le⟩
  · intro m c hm hmine hun
    exact inv'.done m c hm hmine.1 hmine.2 ((hown.overlaps_lt hm hmine.2).trans_le hcard) hun
  intro m c hm hun hclean
  -- the card lies strictly between the first and the last of the slice
  obtain ⟨hlo, hhi⟩ := inv'.cleaned c hun hclean
  have hstart := hown.cleanStart
  have hend := hown.cleanEnd
  have h1 := addrFor_mono sc.wordSize (show sl.workerStartCard + 1 ≤ c by omega)
  have h2 := addrFor_mono sc.wordSize (show c + 1 ≤ sl.workerEndCard - 1 by omega)
  obtain ⟨hm1, hm2, hm3⟩ := hm
  refine ⟨?_, by omega⟩
  by_contra hlt
  have := hm1.stop_le hown.firstBoundary (not_le.mp hlt)
  omega

/-- The objects that start in the slice are those from the adjusted beginning on. -/
theorem adjustStart_spec {f wst : Nat}
    (hf : os.Covers f (addrFor sc.wordSize wst)) (hlast : os.IsBoundary ls)
    (hbefore : ∀ q, os.IsStart q → addrFor sc.wordSize wst ≤ q → ls ≤ q) :
    ∃ first last₁ start₁, sc.adjustStart f wst ls = (last₁, start₁) ∧ os.IsBoundary first ∧
      addrFor sc.wordSize wst ≤ first ∧
      (∀ m, os.IsStart m → addrFor sc.wordSize wst ≤ m → first ≤ m) ∧
      (∀ q, os.IsBoundary q → addrFor sc.wordSize wst < q → first ≤ q) ∧
      (addrFor sc.wordSize start₁ ≤ first ∧ first < addrFor sc.wordSize (start₁ + 1)) ∧
        os.IsBoundary last₁ ∧
      (first = last₁ ∨ last₁ ≤ first ∧ first = addrFor sc.wordSize start₁) := by
  unfold adjustStart
  rw [hsc.size]
  split
  next hlt =>
    exact ⟨os.stop f, _, _, rfl, hf.1.stop_boundary, hf.2.2.le,
      fun m hm hle => hf.1.stop_le hm.boundary (by omega),
        fun q hq hlt' => hf.1.stop_le hq (by omega),
      ⟨addrFor_byteFor_le _, lt_addrFor_succ _⟩, hf.1.stop_boundary, .inl rfl⟩
  next hge =>
    have heq : f = addrFor sc.wordSize wst := le_antisymm hf.2.1 (by omega)
    have hstart : os.IsStart (addrFor sc.wordSize wst) := heq ▸ hf.1
    exact ⟨addrFor sc.wordSize wst, _, _, rfl, hstart.boundary, le_rfl, fun m _ hle => hle,
      fun q _ hlt => hlt.le, ⟨le_rfl, addrFor_lt _ (lt_succ_self _)⟩, hlast,
      .inr ⟨hbefore _ hstart le_rfl, rfl⟩⟩

/-- The adjusted end is where the last object of the slice ends. -/
theorem adjustEnd_spec {se wend : Nat} (hpos : 0 < se) (htop : se ≤ os.top)
    (hcard : wend ≤ sc.endCard) (hcardPos : 0 < wend)
    (haddr : se ≤ addrFor sc.wordSize wend) :
    ∃ stop stopCard, sc.adjustEnd se wend = some (stop, stopCard) ∧ os.IsBoundary stop ∧
      se ≤ stop ∧ (∀ m, os.IsStart m → (m < stop ↔ m < se)) ∧ stopCard ≤ sc.endCard ∧
      stop ≤ addrFor sc.wordSize stopCard ∧ addrFor sc.wordSize (stopCard - 1) ≤ stop := by
  have htopCard := top_le_endCard hsc
  unfold adjustEnd
  rw [hsc.top, hsc.size]
  split
  next hlt =>
    obtain ⟨lastObject, hlo, hcovers⟩ := objectStart_spec hsc (show se - 1 < os.top by omega)
    have hstopLe := hcovers.1.stop_le_top
    have hge := hcovers.2.2
    rw [hlo, some_bind]
    rw [show lastObject + os.size lastObject = os.stop lastObject from rfl]
    refine ⟨os.stop lastObject, _, rfl, hcovers.1.stop_boundary, by omega, ?_, ?_⟩
    · intro m hm
      refine ⟨fun hlt' => ?_, fun hlt' => by omega⟩
      by_contra hge'
      have := hcovers.1.stop_le hm.boundary (by have := hcovers.2.1; omega)
      omega
    · by_cases hclip : sc.endCard < byteFor sc.wordSize (os.stop lastObject) + 1
      · rw [if_pos hclip]
        exact ⟨le_rfl, by omega, (addrFor_mono _ (by omega)).trans (addrFor_byteFor_le _)⟩
      · rw [if_neg hclip]
        exact ⟨by omega, (lt_addrFor_succ _).le, addrFor_byteFor_le _⟩
  next hge =>
    have heq : se = os.top := by omega
    have hlastCard := (lt_endCard_iff hsc).mp (show wend - 1 < sc.endCard by omega)
    exact ⟨se, wend, rfl, .inr heq, le_rfl, fun m _ => Iff.rfl, hcard, haddr, by omega⟩

theorem processSlice_share {wst : Nat} (hcard : wst < sc.endCard) (hlast : os.IsBoundary ls)
    (hbefore : ∀ q, os.IsStart q → addrFor sc.wordSize wst ≤ q → ls ≤ q) (st : ScanState) :
    ∃ last' st' l, sc.processSlice wst ls st = some (last', st') ∧ os.IsBoundary last' ∧
      (∀ q, os.IsStart q → addrFor sc.wordSize (wst + ssize) ≤ q → last' ≤ q) ∧
      ScansShare sc.wordSize os (fun m => addrFor sc.wordSize wst ≤ m ∧
        m < addrFor sc.wordSize (wst + ssize)) st st' l := by
  have htop := top_le_endCard hsc
  have hstartTop := (lt_endCard_iff hsc).mp hcard
  unfold processSlice
  dsimp only
  obtain ⟨wend, hend, hendLe, hendSize, hendOr⟩ : ∃ wend,
      (if sc.endCard < wst + ssize then sc.endCard else wst + ssize) = wend ∧
      wend ≤ sc.endCard ∧ wend ≤ wst + ssize ∧
      (wend = sc.endCard ∨ wend = wst + ssize) := by
    refine ⟨_, rfl, ?_⟩
    split <;> omega
  have hssize : 0 < ssize := by decide
  have hless : wst < wend := by omega
  have hlessAddr := addrFor_lt sc.wordSize hless
  have hendAddr := addrFor_mono sc.wordSize hendSize
  rw [hend, hsc.top]
  generalize hsliceEnd : min os.top (addrFor sc.wordSize wend) = se
  -- an object starts in the slice if it starts before its end
  have hmine : ∀ m, os.IsStart m → (m < se ↔ m < addrFor sc.wordSize (wst + ssize)) := by
    intro m hm
    have := hm.lt_top
    rcases hendOr with h | h
    · rw [h] at hsliceEnd hendAddr
      omega
    · rw [h] at hsliceEnd
      omega
  split
  next hnone =>
    have hrange := (Bool.not_eq_true' _).mp hnone
    refine ⟨ls, st, [], rfl, hlast, ?_, ScansShare.refl st ?_⟩
    · intro q hq hle
      exact hbefore q hq (by omega)
    · rintro m hm ⟨hlo, hhi⟩
      exact hsc.valid.not_isStart hrange (by omega) hlo ((hmine m hm).mpr hhi).le hm
  · obtain ⟨f, hf, hfcovers⟩ := objectStart_spec hsc hstartTop
    obtain ⟨first, last₁, start₁, hstart, hfirstBoundary, hfirstLe, hfirstStart, hfirstBefore,
      hcards, hlast₁, hlow⟩ :=
      adjustStart_spec hsc hfcovers hlast hbefore
    obtain ⟨stop, stopCard, hstop, hstopBoundary, hstopGe, hstopMine, hstopCard, hstopAddr,
      hstopClean⟩ :=
      adjustEnd_spec hsc (show 0 < se by omega) (by omega) hendLe (by omega) (by omega)
    rw [hf, some_bind, hstart, hstop, some_bind]
    have hown : sc.Owns os ⟨start₁, stopCard, stop⟩ first :=
      ⟨hfirstBoundary, hstopBoundary, hfirstBefore stop hstopBoundary (by omega), hcards.1,
        hcards.2, hstopCard, hstopAddr,
        hstopClean⟩
    obtain ⟨last', st', l, heq, hboundary, hle, hshare⟩ := scanSlice_share hsc hown hlast₁ hlow st
    refine ⟨last', st', l, heq, hboundary, ?_, hshare.congr ?_⟩
    · intro q hq hge
      have hnot := (hmine q hq).not.mpr (not_lt.mpr hge)
      have hnot' := (hstopMine q hq).not.mpr hnot
      exact hle.trans (not_lt.mp hnot')
    · intro m hm
      rw [← hmine m hm, ← hstopMine m hm]
      exact ⟨fun h => ⟨hfirstLe.trans h.1, h.2⟩, fun h => ⟨hfirstStart m hm h.1, h.2⟩⟩

end Stripe

end StripeScan

/-- The slice in which an object starts. -/
def sliceOf (ws : HeapWordSize) (m : Nat) : Nat := byteFor ws m / StripeScan.ssize

/-- The stripe to which an object belongs. -/
def stripeOf (ws : HeapWordSize) (parallelGCThreads m : Nat) : Nat :=
  sliceOf ws m % parallelGCThreads

theorem sliceOf_eq_iff {ws : HeapWordSize} {i m : Nat} :
    addrFor ws (i * ssize) ≤ m ∧ m < addrFor ws (i * ssize + ssize) ↔ sliceOf ws m = i := by
  unfold sliceOf
  rw [← le_byteFor_iff, ← byteFor_lt_iff, Nat.div_eq_iff (by decide)]
  have : 0 < ssize := by decide
  omega

namespace StripeScan

variable {sc : StripeScan} {os : Cut}

/-- No object starts after the last card. -/
theorem sliceOf_lt_of_isStart (hsc : sc.Scans os) {i m : Nat} (hend : sc.endCard ≤ i * ssize)
    (hm : os.IsStart m) : sliceOf sc.wordSize m < i := by
  by_contra hge
  have hlow := (sliceOf_eq_iff.mpr (rfl : sliceOf sc.wordSize m = _)).1
  have hmono := addrFor_mono sc.wordSize (hend.trans (mul_le_mul_right ssize (not_lt.mp hge)))
  have := top_le_endCard hsc
  have := hm.lt_top
  omega

/-- The slices of a stripe from the `j`-th on. -/
theorem stripeLoop_share (hsc : sc.Scans os) {n sp : Nat} (hstripe : sp < n)
    {fuel j ls : Nat} (hpos : 0 < fuel) (hfuel : sc.endCard < fuel + j * (ssize * n))
    (hlast : os.IsBoundary ls)
    (hbefore : ∀ q, os.IsStart q → addrFor sc.wordSize ((j * n + sp) * ssize) ≤ q → ls ≤ q)
    (st : ScanState) : ∃ st' l, sc.stripeLoop n sp fuel (j * (ssize * n)) ls st = some st' ∧
      ScansShare sc.wordSize os (fun m => ∃ i, j ≤ i ∧ sliceOf sc.wordSize m = i * n + sp) st st'
        l := by
  have hssize : 0 < ssize := by decide
  induction fuel generalizing j ls st with
  | zero => omega
  | succ fuel ih =>
    have hworker : j * (ssize * n) + sp * ssize = (j * n + sp) * ssize := by ring
    have hnone : sc.endCard ≤ (j * n + sp) * ssize → ∀ m, os.IsStart m →
        ¬ ∃ i, j ≤ i ∧ sliceOf sc.wordSize m = i * n + sp := by
      rintro hend m hm ⟨i, hij, hslice⟩
      have := sliceOf_lt_of_isStart hsc hend hm
      have := mul_le_mul_right n hij
      omega
    unfold stripeLoop
    dsimp only
    rw [hworker]
    split
    next hslice =>
      split
      next hend => exact ⟨st, [], rfl, ScansShare.refl st (hnone hend)⟩
      next hend =>
        obtain ⟨last', st', l, heq, hlast', hbefore', hshare⟩ :=
          processSlice_share hsc (not_le.mp hend) hlast hbefore st
        have hnext : j * (ssize * n) + ssize * n = (j + 1) * (ssize * n) := by ring
        have hgrow : 0 < ssize * n := mul_pos hssize (by omega)
        have hmono : (j * n + sp) * ssize + ssize ≤ ((j + 1) * n + sp) * ssize := by
          have hle : j * n + sp + 1 ≤ (j + 1) * n + sp := by
            rw [add_mul, one_mul]
            omega
          have := mul_le_mul_right ssize hle
          rwa [add_mul (j * n + sp), one_mul] at this
        rw [heq, some_bind, hnext]
        obtain ⟨st'', l', heq', hshare'⟩ := ih (j := j + 1) (by omega) (by omega) hlast'
          (fun q hq hle => hbefore' q hq ((addrFor_mono _ hmono).trans hle)) st'
        refine ⟨st'', l ++ l', heq', (hshare.trans hshare' ?_).congr ?_⟩
        · rintro m - hm ⟨i, hi, hslice'⟩
          rw [sliceOf_eq_iff.mp hm] at hslice'
          have := mul_lt_mul_of_pos_right (show j < i by omega) (show 0 < n by omega)
          omega
        · intro m _
          rw [sliceOf_eq_iff]
          constructor
          · rintro (hm | ⟨i, hi, hm⟩)
            · exact ⟨j, le_rfl, hm⟩
            · exact ⟨i, by omega, hm⟩
          · rintro ⟨i, hi, hm⟩
            rcases eq_or_lt_of_le hi with rfl | hlt
            · exact .inl hm
            · exact .inr ⟨i, hlt, hm⟩
    next hslice => exact ⟨st, [], rfl, ScansShare.refl st (hnone (by rw [← hworker]; omega))⟩

/-- A stripe scans its objects. -/
theorem scavengeContentsParallel_share (hsc : sc.Scans os) {n sp : Nat} (hstripe : sp < n)
    (st : ScanState) : ∃ st' l, sc.scavengeContentsParallel n sp st = some st' ∧
      ScansShare sc.wordSize os (fun m => stripeOf sc.wordSize n m = sp) st st' l := by
  have hloop := stripeLoop_share (j := 0) hsc hstripe (succ_pos sc.endCard) (by omega)
    os.zero_boundary (fun q _ _ => zero_le q) st
  rw [zero_mul] at hloop
  obtain ⟨st', l, heq, hshare⟩ := hloop
  refine ⟨st', l, heq, hshare.congr fun m _ => ?_⟩
  unfold stripeOf
  constructor
  · rintro ⟨i, -, hm⟩
    rw [hm, add_comm, add_mul_mod_self_right, mod_eq_of_lt hstripe]
  · intro hm
    refine ⟨sliceOf sc.wordSize m / n, zero_le _, ?_⟩
    rw [← hm, mul_comm, div_add_mod]

end StripeScan

/-! ## All stripes -/

/-- The stripes one after another, in the given order. Each has its own promotion manager and finds
the start array as it is by then. -/
def runStripes (scans : Nat → StripeScan) (threads : Nat) : List Nat → ScanState → Option ScanState
  | [], st => some st
  | stripe :: rest, st => do
    let st ← (scans stripe).scavengeContentsParallel threads stripe st
    runStripes scans threads rest st

section Stripes

variable {ws : HeapWordSize} {os objects : Cut} {scans : Nat → StripeScan} {n threads : Nat}

theorem runStripes_share (hscans : ∀ sp, (scans sp).Scans os ∧ (scans sp).wordSize = ws)
    {order : List Nat} (hlt : ∀ sp ∈ order, sp < n) (hnodup : order.Nodup) (st : ScanState) :
    ∃ st' l, runStripes scans n order st = some st' ∧
      ScansShare ws os (fun m => stripeOf ws n m ∈ order) st st' l := by
  induction order generalizing st with
  | nil => exact ⟨st, [], rfl, ScansShare.refl st fun _ _ => not_mem_nil⟩
  | cons sp rest ih =>
    obtain ⟨hsc, hws⟩ := hscans sp
    obtain ⟨st', l, heq, hshare⟩ :=
      scavengeContentsParallel_share hsc (hlt sp mem_cons_self) st
    obtain ⟨hnot, hrest⟩ := nodup_cons.mp hnodup
    obtain ⟨st'', l', heq', hshare'⟩ := ih (fun s hs => hlt s (mem_cons_of_mem _ hs)) hrest st'
    rw [hws] at hshare
    refine ⟨st'', l ++ l', ?_, (hshare.trans hshare' ?_).congr fun m _ => mem_cons.symm⟩
    · unfold runStripes
      rw [heq, some_bind]
      exact heq'
    · intro m _ hm hm'
      rw [hm] at hm'
      exact hnot hm'

/-- Every object on an initially unclean card is scanned exactly once over all stripes, and before a
stripe is run the cards of its objects are not cleaned. -/
theorem stripes_partition
    (hscans : ∀ stripe, (scans stripe).Scans objects ∧ (scans stripe).wordSize = ws)
    (hthreads : 0 < threads) {order : List Nat} (horder : order.Perm (List.range threads))
    (cards : Nat → CardValue) :
    (∃ st, runStripes scans threads order ⟨cards, []⟩ = some st ∧ st.scanned.Nodup ∧
      (∀ m ∈ st.scanned, objects.IsStart m) ∧
      ∀ m c, Overlaps ws objects m c → cardIsClean (cards c) = false → st.scanned.count m = 1) ∧
    ∀ done rest, order = done ++ rest → ∃ st, runStripes scans threads done ⟨cards, []⟩ = some st ∧
      ∀ m c, Overlaps ws objects m c → stripeOf ws threads m ∈ rest →
        cardIsClean (cards c) = false →
        cardIsClean (st.cards c) = false := by
  have hnodup : order.Nodup := horder.nodup_iff.mpr nodup_range
  have hlt : ∀ stripe ∈ order, stripe < threads := fun s hs => mem_range.mp (horder.mem_iff.mp hs)
  constructor
  · obtain ⟨st, l, heq, hshare⟩ := runStripes_share hscans hlt hnodup ⟨cards, []⟩
    have hscanned : st.scanned = l := hshare.scanned
    rw [← hscanned] at hshare
    refine ⟨st, heq, hshare.nodup, fun m hm => (hshare.own m hm).1, fun m c hm hunclean => ?_⟩
    have hmine : stripeOf ws threads m ∈ order :=
      horder.mem_iff.mpr (mem_range.mpr (mod_lt _ hthreads))
    exact count_eq_one_of_mem hshare.nodup (hshare.complete m c hm hmine hunclean)
  · rintro done rest rfl
    obtain ⟨hdone, -, hdisjoint⟩ := nodup_append.mp hnodup
    obtain ⟨st, l, heq, hshare⟩ :=
      runStripes_share hscans (fun s hs => hlt s (mem_append_left _ hs)) hdone ⟨cards, []⟩
    exact ⟨st, heq, fun m c hm hrest hunclean =>
      hshare.unclean hm (fun hmem => hdisjoint _ hmem _ hrest rfl) hunclean⟩

end Stripes

/-- A large object that reaches into the second stripe, and a small one. -/
def twoObjects : Cut := ⟨[9000, 5], by decide⟩

def twoObjectsScan : StripeScan where
  wordSize := .eight
  startArray :=
    twoObjects.starts.foldl (fun (array : ObjectStartArray) p => array.allocateBlock .eight p)
    ⟨20000, fun _ => none⟩
  size := twoObjects.size
  spTop := 9005
  pm := ⟨fun _ _ => false⟩

/-- The second stripe is run first. -/
theorem stripes_partition_twoObjects :
    ∃ st, runStripes (fun _ => twoObjectsScan) 2 [1, 0] ⟨fun _ => 0, []⟩ = some st ∧
      st.scanned.count 0 = 1 ∧
      st.scanned.count 9000 = 1 := by
  have hscan : twoObjectsScan.Scans twoObjects :=
    ⟨ObjectStartArray.valid_of_allocations (fun _ h => h) (fun _ => .inl) (by decide), rfl, rfl⟩
  have hscans : ∀ stripe, ((fun _ => twoObjectsScan) stripe).Scans twoObjects ∧
      ((fun _ => twoObjectsScan) stripe).wordSize = HeapWordSize.eight :=
        fun (_ : Nat) => ⟨hscan, rfl⟩
  obtain ⟨⟨st, heq, -, -, hcount⟩, -⟩ := stripes_partition hscans (by decide : 0 < 2)
    (by decide : [1, 0].Perm (List.range 2)) fun _ => 0
  refine ⟨st, heq, hcount 0 0 ⟨?_, ?_, ?_⟩ rfl, hcount 9000 140 ⟨?_, ?_, ?_⟩ rfl⟩ <;> decide

end Hotspot.ParallelScavenge
