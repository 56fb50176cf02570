-- SUMMARY: When a counted loop runs like the loop it was made from.
import Hotspot.Opto.CountedLoop

/-!
# Runs of counted loops

The match is exact: it only renames the parts of the loop. The truncation is idle if the
filtered type of the counter leaves room for one more increment. What remains is the new
limit. In integers without bounds it is the value that ends the loop, and the loops run alike
if it is still that value, or one between the last two increments, after it has wrapped.
-/

namespace Hotspot.Opto

open BoolTest TripCounter Int

open BitVec (ofInt slt ofInt_toInt ofInt_add toInt_ofInt intMin)

/-! ## The match -/

theorem LoopGraph.holds_findLimit (g : LoopGraph) (c : JInt) :
    g.findLimit.2.2.holds (g.findLimit.1.eval c) (g.findLimit.2.1.eval c) =
      (g.test.holds (g.cmp1.eval c) (g.cmp2.eval c) ^^ g.backOnFalse) := by
  unfold findLimit
  cases g.cmp1.isMember <;> cases g.backOnFalse <;> simp

/-- The test reads the counter if the increment or the limit was found to be the counter. -/
theorem LoopGraph.onCounter_findLimit (g : LoopGraph) :
    (g.cmp1 = .phi ∨ g.cmp2 = .phi) ↔ (g.findLimit.1 = .phi ∨ g.findLimit.2.1 = .phi) := by
  unfold findLimit
  cases g.cmp1.isMember <;> simp [or_comm]

theorem eval_of_matchIncr {n in1 in2 : LoopNode} {trunc : Truncation}
    (h : matchIncrWithOptionalTruncation n = some ((in1, in2), trunc)) (c : JInt) :
    n.eval c = trunc.apply (in1.eval c + in2.eval c) := by
  unfold matchIncrWithOptionalTruncation at h
  split at h
  · next a b t heq =>
    obtain ⟨⟨rfl, rfl⟩, rfl⟩ : (a = in1 ∧ b = in2) ∧ t = trunc := by simpa using h
    rw [eval_stripTruncation, heq]
    rfl
  · cases h

/-- The sum of the inputs, whichever side the constant stands on. -/
theorem eval_incr {in1 in2 stride : LoopNode} {strideCon : JInt}
    (h : (if in2.con?.isSome then (in1, in2) else (in2, in1)) = (LoopNode.phi, stride))
    (hcon : stride.con? = some strideCon) (c : JInt) : in1.eval c + in2.eval c = c + strideCon := by
  have hstride := LoopNode.eval_of_con? hcon c
  split at h
  · obtain ⟨rfl, rfl⟩ := Prod.mk.inj h
    rw [hstride, LoopNode.eval]
  · obtain ⟨rfl, rfl⟩ := Prod.mk.inj h
    rw [hstride, LoopNode.eval, BitVec.add_comm]

variable {t : TripCounter}

/-- What a successful match says. -/
theorem LoopGraph.matchLoop_cases {g : LoopGraph} (h : g.matchLoop = some t) :
    t.init = g.init ∧ t.stride ≠ 0#32 ∧ g.findLimit.2.1.isMember = false ∧
      t.limit = g.findLimit.2.1.eval g.init ∧ t.test = g.findLimit.2.2 ∧
      (t.onCounter = true ↔ g.findLimit.1 = .phi) ∧
      (g.findLimit.1 ≠ .phi → g.findLimit.1 = g.back) ∧
      ∀ c, g.back.eval c = t.trunc.apply (c + t.stride) := by
  simp only [matchLoop, Option.bind_eq_bind, Option.bind_eq_some_iff, Option.guard_eq_some',
    exists_const, Prod.exists, Option.pure_def, Option.some.injEq] at h
  obtain ⟨hlimit, in1, in2, trunc, hmatch, strideCon, hcon, hphi, hzero, hback, rfl⟩ := h
  have hlimit : g.findLimit.2.1.isMember = false := by simpa using hlimit
  have hnot : g.findLimit.2.1 ≠ .phi := by
    intro heq
    simp [heq, LoopNode.isMember] at hlimit
  refine ⟨rfl, hzero, hlimit, rfl, rfl, ?_, ?_, ?_⟩
  · simp [g.onCounter_findLimit, hnot]
  · intro hne
    rw [if_neg hne] at hback
    exact hback.symm
  · intro c
    rw [hback, eval_of_matchIncr hmatch, eval_incr (Prod.ext hphi rfl) hcon]

/-- The match keeps the meaning of the loop. -/
theorem LoopGraph.run_eq_of_match {g : LoopGraph} (h : g.matchLoop = some t) : g.run = t.run := by
  obtain ⟨hinit, -, hmember, hlimit, htest, hcounter, hincr, hback⟩ := matchLoop_cases h
  have htests : ∀ c, g.findLimit.1.eval c = if t.onCounter then c else t.trunc.apply (c + t.stride) := by
    intro c
    by_cases hphi : g.findLimit.1 = .phi
    · rw [if_pos (hcounter.mpr hphi), hphi, LoopNode.eval]
    · rw [if_neg (fun hc => hphi (hcounter.mp hc)), hincr hphi, hback]
  unfold run TripCounter.run
  congr 1
  · exact hinit.symm
  · funext c
    exact hback c
  · funext c
    rw [← holds_findLimit, htests, htest, hlimit, LoopNode.eval_of_not_isMember hmember c g.init]

/-! ## The truncation -/

variable {x : JInt}

theorem toInt_add_of_mem {y : JInt} (hlo : -2 ^ 31 ≤ x.toInt + y.toInt) (hhi : x.toInt + y.toInt < 2 ^ 31) :
    (x + y).toInt = x.toInt + y.toInt := by
  rw [BitVec.toInt_add]
  apply bmod_eq_of_le <;> omega

theorem toInt_sub_of_mem {y : JInt} (hlo : -2 ^ 31 ≤ x.toInt - y.toInt) (hhi : x.toInt - y.toInt < 2 ^ 31) :
    (x - y).toInt = x.toInt - y.toInt := by
  rw [BitVec.toInt_sub]
  apply bmod_eq_of_le <;> omega

/-- A shift to the left and back changes no value that fits in the bits that are left. -/
theorem sshiftRight_shiftLeft_of_mem {n : Nat} (hlo : -2 ^ 31 ≤ x.toInt * 2 ^ n)
    (hhi : x.toInt * 2 ^ n < 2 ^ 31) : (x <<< n).sshiftRight n = x := by
  apply BitVec.eq_of_toInt_eq
  have hleft : (x <<< n).toInt = x.toInt * 2 ^ n := by
    have hmod : (x <<< n).toInt = (x.toInt * 2 ^ n).bmod (2 ^ 32) := by
      rw [BitVec.toInt_shiftLeft, BitVec.toInt_eq_toNat_bmod, bmod_mul_bmod, Nat.shiftLeft_eq]
      rfl
    rw [hmod]
    apply bmod_eq_of_le <;> omega
  rw [BitVec.toInt_sshiftRight, hleft, shiftRight_eq_div_pow]
  exact_mod_cast mul_ediv_cancel _ (by positivity)

theorem and_mask_of_mem (hlo : 0 ≤ x.toInt) (hhi : x.toInt ≤ 0x7fff) : x &&& 0x7fff#32 = x := by
  apply BitVec.eq_of_toNat_eq
  have hnat : x.toNat < 2 ^ 15 := by
    have := BitVec.toInt_eq_toNat_cond x
    split at this <;> omega
  exact (Nat.and_two_pow_sub_one_eq_mod x.toNat 15).trans (Nat.mod_eq_of_lt hnat)

/-- The mask of a `char` has only fifteen bits, and its check can wrap around: what the check
leaves open is that the increment stays in fifteen bits. -/
def TripCounter.MaskIdle (t : TripCounter) (phiLo phiHi : JInt) : Prop :=
  t.trunc = .char → 0 ≤ phiLo.toInt + t.stride.toInt ∧ phiHi.toInt + t.stride.toInt ≤ 0x7fff

instance (t : TripCounter) (phiLo phiHi : JInt) : Decidable (t.MaskIdle phiLo phiHi) := by
  unfold TripCounter.MaskIdle
  infer_instance

variable {phiLo phiHi : JInt}

/-- The check of a truncation by shifts leaves room for one more increment. -/
theorem TripCounter.incr_mem_of_not_mayTruncate {c : JInt}
    (htrunc : t.trunc = .short ∨ t.trunc = .byte) (h : t.mayTruncate phiLo phiHi = false)
    (hlo : phiLo.toInt ≤ c.toInt) (hhi : c.toInt ≤ phiHi.toInt) :
    t.trunc.lo.toInt ≤ (c + t.stride).toInt ∧ (c + t.stride).toInt ≤ t.trunc.hi.toInt := by
  have hphiLo := BitVec.le_toInt phiLo
  have hphiHi := BitVec.toInt_lt (x := phiHi)
  have hzero : (0#32).toInt = 0 := rfl
  obtain ⟨hmin, hneg, hpos, hmax⟩ : -32768 ≤ t.trunc.lo.toInt ∧ t.trunc.lo.toInt < 0 ∧
      0 ≤ t.trunc.hi.toInt ∧ t.trunc.hi.toInt ≤ 32767 := by
    rcases htrunc with htrunc | htrunc <;> rw [htrunc] <;> decide
  have hbounds : t.trunc.lo.toInt ≤ c.toInt + t.stride.toInt ∧
      c.toInt + t.stride.toInt ≤ t.trunc.hi.toInt := by
    unfold mayTruncate at h
    split at h
    all_goals
      obtain ⟨hroom, hother⟩ := Bool.or_eq_false_iff.mp h
      simp only [slt, decide_eq_false_iff_not, decide_eq_true_eq, not_lt] at *
      rw [toInt_sub_of_mem (by omega) (by omega)] at hroom
      omega
  rwa [toInt_add_of_mem (by omega) (by omega)]

/-- The truncation of a loop that passes the check is idle. -/
theorem TripCounter.apply_incr {c : JInt}
    (hcheck : t.trunc = .int ∨ t.mayTruncate phiLo phiHi = false) (hidle : t.MaskIdle phiLo phiHi)
    (hlo : phiLo.toInt ≤ c.toInt) (hhi : c.toInt ≤ phiHi.toInt) :
    t.trunc.apply (c + t.stride) = c + t.stride := by
  cases htrunc : t.trunc with
  | int => rfl
  | char =>
    obtain ⟨hlow, hhigh⟩ := hidle htrunc
    have hsum : (c + t.stride).toInt = c.toInt + t.stride.toInt := toInt_add_of_mem (by omega) (by omega)
    exact and_mask_of_mem (by omega) (by omega)
  | short =>
    have hno : t.mayTruncate phiLo phiHi = false := by simpa [htrunc] using hcheck
    have hmem := incr_mem_of_not_mayTruncate (by simp [htrunc]) hno hlo hhi
    rw [htrunc] at hmem
    obtain ⟨hlow : (-32768 : Int) ≤ _, hhigh : _ ≤ (32767 : Int)⟩ := hmem
    exact sshiftRight_shiftLeft_of_mem (by omega) (by omega)
  | byte =>
    have hno : t.mayTruncate phiLo phiHi = false := by simpa [htrunc] using hcheck
    have hmem := incr_mem_of_not_mayTruncate (by simp [htrunc]) hno hlo hhi
    rw [htrunc] at hmem
    obtain ⟨hlow : (-128 : Int) ≤ _, hhigh : _ ≤ (127 : Int)⟩ := hmem
    exact sshiftRight_shiftLeft_of_mem (by omega) (by omega)

/-- The loop without its truncation. -/
def TripCounter.untruncated (t : TripCounter) : TripCounter := { t with trunc := .int }

theorem TripCounter.runsAlike_untruncated
    (hcheck : t.trunc = .int ∨ t.mayTruncate phiLo phiHi = false) (hidle : t.MaskIdle phiLo phiHi)
    (hmem : ∀ n, t.run.Executes n →
      phiLo.toInt ≤ (t.run.value n).toInt ∧ (t.run.value n).toInt ≤ phiHi.toInt) :
    t.run.RunsAlike t.untruncated.run := by
  have hstart : t.run.start = t.untruncated.run.start := rfl
  apply BottomTested.runsAlike_of_step hstart
  intro n hn
  have hincr := apply_incr hcheck hidle (hmem n hn).1 (hmem n hn).2
  constructor
  · show (t.test.holds (if t.onCounter then _ else t.trunc.apply _) t.limit = true) ↔ _
    rw [hincr]
    rfl
  · intro _
    exact hincr

/-! ## The exit value in integers without bounds -/

/-- The number is the value of an `int`. -/
def IsInt (x : Int) : Prop := -2 ^ 31 ≤ x ∧ x < 2 ^ 31

instance (x : Int) : Decidable (IsInt x) := inferInstanceAs (Decidable (_ ∧ _))

theorem isInt_toInt (x : JInt) : IsInt x.toInt := ⟨BitVec.le_toInt x, BitVec.toInt_lt⟩

theorem toInt_ofInt_of_isInt {x j : Int} (h : IsInt (x + 2 ^ 32 * j)) :
    (ofInt 32 x).toInt = x + 2 ^ 32 * j := by
  obtain ⟨hlo, hhi⟩ := h
  rw [toInt_ofInt, bmod_def]
  omega

section TripCounter

variable (t : TripCounter)

/-- The direction of the loop: positions grow from iteration to iteration. -/
def TripCounter.toward (x : Int) : Int := if 0 < t.stride.toInt then x else -x

/-- What `le` and `ge` add to the limit. -/
def BoolTest.slack : BoolTest → Int
  | .le => 1
  | .ge => -1
  | _ => 0

/-- The limit of a test of the increment by `lt` or `gt`. -/
def TripCounter.exitBound : Int :=
  t.limit.toInt + (if t.onCounter then t.stride.toInt else 0) + t.test.slack

def TripCounter.distance : Int := t.toward (t.exitBound - t.init.toInt)

/-- The exit bound as the nodes compute it, and how far it lies ahead. -/
def TripCounter.exitLimit : JInt := ofInt 32 t.exitBound

def TripCounter.ahead : Int := t.toward (t.exitLimit.toInt - t.init.toInt)

def TripCounter.pace : Int := t.toward t.stride.toInt

/-- The number of iterations. -/
def TripCounter.trips : Nat := tripsTo t.distance t.pace

/-- The counter of iteration `n`. -/
def TripCounter.counter (n : Nat) : Int := t.init.toInt + t.stride.toInt * n

/-- The increment of the last iteration is an `int`, so that no increment wraps around. -/
def TripCounter.NonWrapping : Prop :=
  t.test ≠ .ne ∧ -2 ^ 31 ≤ t.counter t.trips ∧ t.counter t.trips < 2 ^ 31

/-- A limit that ends the loop after the last iteration and not before it. -/
def TripCounter.EndsAt (limit : JInt) : Prop :=
  t.toward limit.toInt ≤ t.toward (t.counter t.trips) ∧
    (1 < t.trips → t.toward (t.counter (t.trips - 1)) < t.toward limit.toInt)

namespace TripCounter

variable {t}

theorem toward_add (x y : Int) : t.toward (x + y) = t.toward x + t.toward y := by
  unfold toward
  split <;> omega

theorem toward_sub (x y : Int) : t.toward (x - y) = t.toward x - t.toward y := by
  unfold toward
  split <;> omega

theorem toward_mul (x y : Int) : t.toward (x * y) = t.toward x * y := by
  unfold toward
  split
  · rfl
  · exact (neg_mul x y).symm

theorem pace_pos (h : t.stride ≠ 0#32) : 0 < t.pace := by
  have hne : t.stride.toInt ≠ 0 := fun heq => h (BitVec.eq_of_toInt_eq heq)
  unfold pace toward
  split <;> omega

theorem counter_succ (n : Nat) : t.counter (n + 1) = t.counter n + t.stride.toInt := by
  simp only [counter, Nat.cast_succ]
  ring

theorem toward_counter (n : Nat) : t.toward (t.counter n) = t.toward t.init.toInt + t.pace * n := by
  rw [counter, toward_add, toward_mul, pace]

theorem succ_lt_trips_iff (h : t.stride ≠ 0#32) (n : Nat) :
    n + 1 < t.trips ↔ t.toward (t.counter (n + 1)) < t.toward t.exitBound := by
  rw [trips, succ_lt_tripsTo_iff (pace_pos h), toward_counter, distance, toward_sub, Nat.cast_succ]
  omega

variable {c : CountedLoop}

/-- What the canonical form of an ordered test looks like. -/
theorem canonical_cases (h : t.canonical = some c) (hne : t.test ≠ .ne)
    (hstride : t.stride ≠ 0#32) : c.init = t.init ∧ c.stride = t.stride ∧
      (0 < t.stride.toInt ∧ c.test = .lt ∧ (t.test = .lt ∨ t.test = .le) ∧
          c.limit = t.finalValue (t.tripCount (ofInt 32 t.exitBound) (-1#32)) ∨
        t.stride.toInt < 0 ∧ c.test = .gt ∧ (t.test = .gt ∨ t.test = .ge) ∧
          c.limit = t.finalValue (t.tripCount (ofInt 32 t.exitBound) 1#32)) := by
  have hzero : t.stride.toInt ≠ 0 := fun heq => hstride (BitVec.eq_of_toInt_eq heq)
  have hbound : ofInt 32 t.exitBound =
      (if t.onCounter then t.limit + t.stride else t.limit) + ofInt 32 t.test.slack := by
    unfold exitBound
    split <;> simp [ofInt_add]
  have hcon : (0#32).toInt = 0 := rfl
  unfold canonical at h
  cases htest : t.test with
  | eq => simp [htest] at h
  | ne => exact absurd htest hne
  | le | lt =>
    simp only [htest, slt, decide_eq_true_eq] at h
    split at h
    · cases h
    · cases h
      refine ⟨rfl, rfl, .inl ⟨by omega, rfl, by simp, ?_⟩⟩
      rw [hbound, htest]
      simp [slack]
  | ge | gt =>
    simp only [htest, slt, decide_eq_true_eq] at h
    split at h
    · cases h
    · cases h
      refine ⟨rfl, rfl, .inr ⟨by omega, rfl, by simp, ?_⟩⟩
      rw [hbound, htest]
      simp [slack]

/-- A loop with the same steps runs alike if it decides alike. -/
theorem runsAlike_iff_goesOn {c : CountedLoop} (hinit : c.init = t.init) (hstride : c.stride = t.stride) :
    t.untruncated.run.RunsAlike c.run ↔ ∀ n, t.untruncated.run.Executes n →
      (t.untruncated.run.goesOn (t.untruncated.run.value n) ↔ c.run.goesOn (t.untruncated.run.value n)) := by
  have hnext : t.untruncated.run.next = c.run.next := by
    funext x
    show x + t.stride = x + c.stride
    rw [hstride]
  exact BottomTested.runsAlike_iff_of_next hinit.symm hnext

section Ordered

variable {c : CountedLoop} (hcanonical : t.canonical = some c) (hne : t.test ≠ .ne)
  (hstride : t.stride ≠ 0#32)

include hcanonical hne hstride

theorem holds_iff_toward (x : JInt) :
    t.test.holds x t.limit = true ↔ t.toward x.toInt < t.toward (t.limit.toInt + t.test.slack) := by
  obtain ⟨-, -, hcase⟩ := canonical_cases hcanonical hne hstride
  rcases hcase with ⟨hup, -, htest, -⟩ | ⟨hdown, -, htest, -⟩
  · simp only [toward, if_pos hup]
    rcases htest with htest | htest <;>
      simp [htest, holds, slack, slt, BitVec.sle, decide_eq_true_eq]
  · simp only [toward, if_neg (show ¬ 0 < t.stride.toInt by omega)]
    rcases htest with htest | htest <;>
      simp [htest, holds, slack, slt, BitVec.sle, decide_eq_true_eq]

theorem canonical_holds_iff_toward (x : JInt) :
    c.test.holds x c.limit = true ↔ t.toward x.toInt < t.toward c.limit.toInt := by
  obtain ⟨-, -, hcase⟩ := canonical_cases hcanonical hne hstride
  rcases hcase with ⟨hup, htest, -⟩ | ⟨hdown, htest, -⟩
  · simp [toward, if_pos hup, htest, holds, slt, decide_eq_true_eq]
  · simp only [toward, if_neg (show ¬ 0 < t.stride.toInt by omega), htest, holds, slt,
      decide_eq_true_eq]
    omega

end Ordered

theorem value_untruncated (n : Nat) : t.untruncated.run.value n = ofInt 32 (t.counter n) := by
  induction n with
  | zero => simp [BottomTested.value, counter, run, untruncated]
  | succ n ih =>
    rw [BottomTested.value, ih, counter_succ, ofInt_add, ofInt_toInt]
    rfl

/-- No counter wraps around before the last increment. -/
theorem counter_mem (h : t.NonWrapping) {n : Nat} (hn : n ≤ t.trips) :
    -2 ^ 31 ≤ t.counter n ∧ t.counter n < 2 ^ 31 := by
  exact progression_mem hn (isInt_toInt t.init) h.2

theorem toInt_value (h : t.NonWrapping) {n : Nat} (hn : n ≤ t.trips) :
    (t.untruncated.run.value n).toInt = t.counter n := by
  obtain ⟨hlo, hhi⟩ := counter_mem h hn
  rw [value_untruncated]
  exact BitVec.toInt_ofInt_eq_self (by decide) hlo hhi

section Ordered

variable {c : CountedLoop} (hcanonical : t.canonical = some c) (hstride : t.stride ≠ 0#32)
  (hwrap : t.NonWrapping)

include hcanonical hstride hwrap

theorem goesOn_iff {n : Nat} (hn : n < t.trips) :
    t.untruncated.run.goesOn (t.untruncated.run.value n) ↔ n + 1 < t.trips := by
  have hincr : (t.untruncated.run.value n + t.stride).toInt = t.counter (n + 1) := toInt_value hwrap hn
  have hvalue := toInt_value hwrap hn.le
  rw [succ_lt_trips_iff hstride, exitBound]
  show t.test.holds (if t.onCounter then _ else t.untruncated.run.value n + t.stride) t.limit = true ↔ _
  rw [holds_iff_toward hcanonical hwrap.1 hstride]
  cases t.onCounter with
  | true =>
    simp only [if_true, hvalue, counter_succ, toward_add]
    omega
  | false =>
    simp [hincr, add_zero]

theorem canonical_goesOn_iff {n : Nat} (hn : n < t.trips) :
    c.run.goesOn (t.untruncated.run.value n) ↔ t.toward (t.counter (n + 1)) < t.toward c.limit.toInt := by
  have hincr : (t.untruncated.run.value n + t.stride).toInt = t.counter (n + 1) := toInt_value hwrap hn
  obtain ⟨-, hsame, -⟩ := canonical_cases hcanonical hwrap.1 hstride
  show c.test.holds (t.untruncated.run.value n + c.stride) c.limit = true ↔ _
  rw [hsame, canonical_holds_iff_toward hcanonical hwrap.1 hstride, hincr]

/-- The loops run alike just when the new limit ends the loop where the old one does. -/
theorem runsAlike_iff_endsAt : t.untruncated.run.RunsAlike c.run ↔ t.EndsAt c.limit := by
  obtain ⟨hinit, hsame, -⟩ := canonical_cases hcanonical hwrap.1 hstride
  have hpos : 0 < t.trips := tripsTo_pos _ _
  rw [runsAlike_iff_goesOn hinit hsame]
  have hexec := BottomTested.executes_iff_lt hpos fun n hn => goesOn_iff hcanonical hstride hwrap hn
  have hdecide : ∀ n < t.trips, (t.untruncated.run.goesOn (t.untruncated.run.value n) ↔
      c.run.goesOn (t.untruncated.run.value n)) ↔
      (n + 1 < t.trips ↔ t.toward (t.counter (n + 1)) < t.toward c.limit.toInt) := by
    intro n hn
    rw [goesOn_iff hcanonical hstride hwrap hn, canonical_goesOn_iff hcanonical hstride hwrap hn]
  constructor
  · intro h
    constructor
    · have hlast := (hdecide (t.trips - 1) (by omega)).mp (h _ ((hexec _).mpr (by omega)))
      rw [Nat.sub_add_cancel hpos] at hlast
      exact not_lt.mp fun hlt => lt_irrefl _ (hlast.mpr hlt)
    · intro hmore
      have hlast := (hdecide (t.trips - 2) (by omega)).mp (h _ ((hexec _).mpr (by omega)))
      rw [show t.trips - 2 + 1 = t.trips - 1 by omega] at hlast
      exact hlast.mp (by omega)
  · rintro ⟨hend, hbefore⟩ n hn
    have hn := (hexec n).mp hn
    rw [hdecide n hn]
    have hpace := pace_pos hstride
    constructor
    · intro hlt
      have hle : t.toward (t.counter (n + 1)) ≤ t.toward (t.counter (t.trips - 1)) := by
        rw [toward_counter, toward_counter]
        gcongr
        omega
      exact hle.trans_lt (hbefore (by omega))
    · intro hlt
      by_contra hge
      rw [show n + 1 = t.trips by omega] at hlt
      exact absurd hend (not_le.mpr hlt)

end Ordered

/-! ## The new limit -/

/-- What lies between two `int` positions is an `int` position. -/
theorem mem_of_between {x y z : Int} (hx : -2 ^ 31 ≤ x ∧ x < 2 ^ 31) (hy : -2 ^ 31 ≤ y ∧ y < 2 ^ 31)
    (hlo : t.toward x ≤ t.toward z) (hhi : t.toward z ≤ t.toward y) : -2 ^ 31 ≤ z ∧ z < 2 ^ 31 := by
  unfold toward at hlo hhi
  split at hlo <;> split at hhi <;> omega

@[simp] theorem toward_toward (x : Int) : t.toward (t.toward x) = x := by
  unfold toward
  split <;> omega

theorem counter_eq (n : Nat) : t.counter n = t.init.toInt + t.toward (t.pace * n) := by
  rw [counter, toward_mul, pace, toward_toward]

theorem toward_word_mem (x : JInt) : -2 ^ 31 ≤ t.toward x.toInt ∧ t.toward x.toInt ≤ 2 ^ 31 := by
  have hlo := BitVec.le_toInt x
  have hhi := BitVec.toInt_lt (x := x)
  unfold toward
  split <;> omega

theorem toward_tdiv (x : Int) : x.tdiv t.stride.toInt = (t.toward x).tdiv t.pace := by
  unfold pace toward
  split
  · rfl
  · rw [Int.neg_tdiv, Int.tdiv_neg, neg_neg]

/-- A word is the one number between two `int` positions that agrees with it modulo the size
of an `int`. -/
theorem toInt_eq_of_between {w : JInt} {x z lo hi j : Int} (hw : w = ofInt 32 x)
    (hz : z = x + 2 ^ 32 * j) (hlo : -2 ^ 31 ≤ lo ∧ lo < 2 ^ 31) (hhi : -2 ^ 31 ≤ hi ∧ hi < 2 ^ 31)
    (hloz : t.toward lo ≤ t.toward z) (hzhi : t.toward z ≤ t.toward hi) : w.toInt = z := by
  have hmem := mem_of_between hlo hhi hloz hzhi
  rw [hz] at hmem ⊢
  rw [hw, toInt_ofInt_of_isInt hmem]

/-- The new limit before it wraps around: the quotient is taken of the wrapped numerator. -/
theorem finalValue_tripCount (bound one : Int) :
    t.finalValue (t.tripCount (ofInt 32 bound) (ofInt 32 one)) =
      ofInt 32 (t.init.toInt +
        t.stride.toInt * ((bound - t.init.toInt + t.stride.toInt + one).bmod (2 ^ 32)).tdiv t.stride.toInt) := by
  have hbias : (ofInt 32 bound - t.init + t.stride + ofInt 32 one).toInt =
      (bound - t.init.toInt + t.stride.toInt + one).bmod (2 ^ 32) := by
    rw [← toInt_ofInt, ofInt_add, ofInt_add, Int.sub_eq_add_neg, ofInt_add,
      BitVec.ofInt_neg, ofInt_toInt, ofInt_toInt, BitVec.sub_eq_add_neg]
  have hdiv : ∀ a b : JInt, a.sdiv b = ofInt 32 (a.toInt.tdiv b.toInt) := by
    intro a b
    apply BitVec.eq_of_toInt_eq
    rw [BitVec.toInt_sdiv, toInt_ofInt]
  rw [finalValue, tripCount, hdiv, hbias, ofInt_add, BitVec.ofInt_mul, ofInt_toInt,
    ofInt_toInt, BitVec.add_comm, BitVec.mul_comm]

section Ordered

variable {c : CountedLoop} (hcanonical : t.canonical = some c) (hne : t.test ≠ .ne)
  (hstride : t.stride ≠ 0#32)

include hcanonical hne hstride

theorem canonical_limit : ∃ one : Int, t.toward one = -1 ∧ c.limit = ofInt 32 (t.init.toInt +
    t.stride.toInt *
      ((t.exitLimit.toInt - t.init.toInt + t.stride.toInt + one).bmod (2 ^ 32)).tdiv t.stride.toInt) := by
  obtain ⟨-, -, hcase⟩ := canonical_cases hcanonical hne hstride
  rcases hcase with ⟨hup, -, -, hlimit⟩ | ⟨hdown, -, -, hlimit⟩
  · refine ⟨-1, by rw [toward, if_pos hup], ?_⟩
    rw [hlimit, ← finalValue_tripCount, ofInt_toInt]
    rfl
  · refine ⟨1, by rw [toward, if_neg (by omega)], ?_⟩
    rw [hlimit, ← finalValue_tripCount, ofInt_toInt]
    rfl

/-- The trip count in positions: the quotient of a numerator that has wrapped `k` times. -/
theorem exists_quotient : ∃ numer k : Int, numer = t.ahead + t.pace - 1 + 2 ^ 32 * k ∧
    -2 ^ 31 ≤ numer ∧ numer ≤ 2 ^ 31 ∧
    c.limit = ofInt 32 (t.init.toInt + t.stride.toInt * numer.tdiv t.pace) := by
  obtain ⟨one, hone, hlimit⟩ := canonical_limit hcanonical hne hstride
  have hnumer : t.toward (t.exitLimit.toInt - t.init.toInt + t.stride.toInt + one) = t.ahead + t.pace - 1 := by
    rw [toward_add, toward_add, hone, ahead, pace]
    omega
  obtain ⟨k, hk⟩ : ∃ k, (t.exitLimit.toInt - t.init.toInt + t.stride.toInt + one).bmod (2 ^ 32) =
      t.exitLimit.toInt - t.init.toInt + t.stride.toInt + one + 2 ^ 32 * k :=
    ⟨_, (Int.bmod_eq_self_sub_mul_bdiv _ _).trans ((Int.sub_eq_add_neg).trans (by rw [← Int.mul_neg]; rfl))⟩
  have hwrapped : t.toward ((t.exitLimit.toInt - t.init.toInt + t.stride.toInt + one).bmod (2 ^ 32)) =
      t.ahead + t.pace - 1 + 2 ^ 32 * t.toward k := by
    rw [hk, toward_add, hnumer, mul_comm, toward_mul, mul_comm]
  have hmem := t.toward_word_mem (ofInt 32 (t.exitLimit.toInt - t.init.toInt + t.stride.toInt + one))
  rw [toInt_ofInt] at hmem
  exact ⟨_, t.toward k, hwrapped, hmem.1, hmem.2, by rw [hlimit, toward_tdiv]⟩

theorem toward_limit_le : t.toward t.limit.toInt ≤ t.toward t.exitBound := by
  have hpace := pace_pos hstride
  have hslack : 0 ≤ t.toward t.test.slack := by
    obtain ⟨-, -, hcase⟩ := canonical_cases hcanonical hne hstride
    rcases hcase with ⟨hup, -, htest, -⟩ | ⟨hdown, -, htest, -⟩
    · rw [toward, if_pos hup]
      rcases htest with htest | htest <;> rw [htest] <;> decide
    · rw [toward, if_neg (by omega)]
      rcases htest with htest | htest <;> rw [htest] <;> decide
  rw [exitBound, toward_add, toward_add]
  cases t.onCounter with
  | true =>
    have hstep : 0 ≤ t.toward t.stride.toInt := hpace.le
    simp only [if_true]
    omega
  | false => simpa [toward] using hslack

/-- A limit that the counter has passed at the start gives a new limit that it has passed. The
numerator may wrap around, which does no harm. -/
theorem toward_newLimit_le_init (hahead : t.ahead ≤ 0) :
    t.toward c.limit.toInt ≤ t.toward t.init.toInt := by
  have hpace := pace_pos hstride
  have hbound : t.toward t.exitLimit.toInt = t.toward t.init.toInt + t.ahead := by
    rw [ahead, toward_sub]
    omega
  have hmem := isInt_toInt t.exitLimit
  have hinit := isInt_toInt t.init
  have hinitMem := t.toward_word_mem t.init
  have hpaceMem : -2 ^ 31 ≤ t.pace ∧ t.pace ≤ 2 ^ 31 := t.toward_word_mem t.stride
  have hboundMem := t.toward_word_mem t.exitLimit
  obtain ⟨numer, k, hk, hlo, hhi, hlimit⟩ := exists_quotient hcanonical hne hstride
  have hformula : t.toward (t.init.toInt + t.stride.toInt * numer.tdiv t.pace) =
      t.toward t.init.toInt + t.pace * numer.tdiv t.pace := by
    rw [toward_add, toward_mul, pace]
  -- the numerator wraps at most once, from below
  obtain rfl | rfl : k = 0 ∨ k = 1 := by omega
  · have hround : t.ahead ≤ t.pace * numer.tdiv t.pace ∧ t.pace * numer.tdiv t.pace ≤ 0 := by
      rcases lt_or_ge numer 0 with hneg | hnonneg
      · have := mul_tdiv_mem_of_neg hpace hneg
        omega
      · rw [tdiv_eq_zero_of_lt hnonneg (by omega), mul_zero]
        omega
    have hexact : c.limit.toInt = t.init.toInt + t.stride.toInt * numer.tdiv t.pace :=
      toInt_eq_of_between (t := t) hlimit (by ring : _ = _ + 2 ^ 32 * (0 : Int)) hmem hinit (by omega) (by omega)
    rw [hexact]
    omega
  · have hz : t.toward (t.init.toInt + t.stride.toInt * numer.tdiv t.pace + 2 ^ 32 * t.toward (-1)) =
        t.toward t.init.toInt + t.pace * numer.tdiv t.pace - 2 ^ 32 := by
      rw [toward_add, hformula, mul_comm (2 ^ 32), toward_mul, toward_toward]
      omega
    have hround := mul_tdiv_mem_of_nonneg hpace (show 0 ≤ numer by omega)
    have hexact := toInt_eq_of_between (t := t) hlimit rfl hmem hinit
      (show t.toward t.exitLimit.toInt ≤ t.toward (_ + 2 ^ 32 * t.toward (-1)) by omega) (by omega)
    rw [hexact]
    omega

end Ordered

section NonWrapping

variable {c : CountedLoop} (hcanonical : t.canonical = some c) (hstride : t.stride ≠ 0#32)
  (hwrap : t.NonWrapping)

include hstride in
theorem toward_exitBound_le : t.toward t.exitBound ≤ t.toward (t.counter t.trips) := by
  have hpos : 0 < t.trips := tripsTo_pos _ _
  have hlast := succ_lt_trips_iff hstride (t.trips - 1)
  rw [Nat.sub_add_cancel hpos] at hlast
  exact not_lt.mp fun hlt => lt_irrefl _ (hlast.mpr hlt)

include hcanonical hstride hwrap

theorem exitBound_mem : -2 ^ 31 ≤ t.exitBound ∧ t.exitBound < 2 ^ 31 :=
  mem_of_between (isInt_toInt t.limit) hwrap.2
    (toward_limit_le hcanonical hwrap.1 hstride) (toward_exitBound_le hstride)

theorem ahead_eq : t.ahead = t.distance := by
  obtain ⟨hlo, hhi⟩ := exitBound_mem hcanonical hstride hwrap
  rw [ahead, exitLimit, BitVec.toInt_ofInt_eq_self (by decide) hlo hhi, distance]

/-- A loop that exits at once. -/
theorem endsAt_of_distance_nonpos (hdist : t.distance ≤ 0) : t.EndsAt c.limit := by
  have hpace := pace_pos hstride
  have htrips : t.trips = 1 := tripsTo_of_nonpos hpace hdist
  have hle := toward_newLimit_le_init hcanonical hwrap.1 hstride
    ((ahead_eq hcanonical hstride hwrap).trans_le hdist)
  refine ⟨?_, by omega⟩
  rw [toward_counter, htrips]
  omega

/-- If the numerator of the trip count does not overflow, the new limit is the last increment. -/
theorem toInt_limit_of_range (hrange : t.distance + t.pace - 1 < 2 ^ 31) (hdist : 0 < t.distance) :
    c.limit.toInt = t.counter t.trips := by
  have hpace := pace_pos hstride
  obtain ⟨numer, k, hk, hlo, hhi, hlimit⟩ := exists_quotient hcanonical hwrap.1 hstride
  rw [ahead_eq hcanonical hstride hwrap] at hk
  obtain rfl : k = 0 := by omega
  have htrips : numer.tdiv t.pace = t.trips := by
    rw [tdiv_eq_ediv_of_nonneg (by omega), trips, tripsTo_of_pos hpace (by omega), hk, mul_zero, add_zero]
  rw [htrips] at hlimit
  exact toInt_eq_of_between (t := t) hlimit (by rw [counter]; ring : _ = _ + 2 ^ 32 * (0 : Int))
    (exitBound_mem hcanonical hstride hwrap) hwrap.2 (toward_exitBound_le hstride) le_rfl

omit hcanonical hwrap in
theorem endsAt_of_toInt_limit (hexact : c.limit.toInt = t.counter t.trips) : t.EndsAt c.limit := by
  have hpace := pace_pos hstride
  rw [EndsAt, hexact]
  refine ⟨le_rfl, fun hmore => ?_⟩
  rw [toward_counter, toward_counter]
  gcongr
  omega

/-- If the numerator of the trip count does not overflow, the new limit is right. -/
theorem endsAt_of_range (hrange : t.distance + t.pace - 1 < 2 ^ 31) : t.EndsAt c.limit := by
  by_cases hdist : t.distance ≤ 0
  · exact endsAt_of_distance_nonpos hcanonical hstride hwrap hdist
  · exact endsAt_of_toInt_limit hstride
      (toInt_limit_of_range hcanonical hstride hwrap hrange (not_le.mp hdist))

end NonWrapping

/-! ## Loops that need no room -/

/-- A stride of one and a test of the increment: the new limit is the old one. -/
def UnitSteps (t : TripCounter) : Prop :=
  t.test ≠ .ne ∧ t.onCounter = false ∧ t.pace = 1 ∧ -2 ^ 31 ≤ t.exitBound ∧ t.exitBound < 2 ^ 31

theorem limit_of_pace_eq_one (hcanonical : t.canonical = some c) (hne : t.test ≠ .ne)
    (hstride : t.stride ≠ 0#32) (hpace : t.pace = 1) : c.limit = t.exitLimit := by
  obtain ⟨one, hone, hlimit⟩ := canonical_limit hcanonical hne hstride
  have hsign : t.stride.toInt = 1 ∧ one = -1 ∨ t.stride.toInt = -1 ∧ one = 1 := by
    unfold pace toward at hpace
    unfold toward at hone
    split at hpace <;> omega
  have hback : ∀ x : Int, t.stride.toInt * x.tdiv t.stride.toInt = x := by
    intro x
    rcases hsign with ⟨hs, -⟩ | ⟨hs, -⟩ <;> simp [hs]
  rw [hlimit, hback, ← BitVec.toInt_inj, toInt_ofInt, add_bmod_bmod]
  rw [show t.init.toInt + (t.exitLimit.toInt - t.init.toInt + t.stride.toInt + one) = t.exitLimit.toInt by omega,
    ← toInt_ofInt, ofInt_toInt]

theorem runsAlike_of_unitSteps (hcanonical : t.canonical = some c)
    (hstride : t.stride ≠ 0#32) (hunit : t.UnitSteps) : t.untruncated.run.RunsAlike c.run := by
  obtain ⟨hne, hcounter, hpace, hlo, hhi⟩ := hunit
  have hexact : c.limit.toInt = t.exitBound := by
    rw [limit_of_pace_eq_one hcanonical hne hstride hpace]
    exact BitVec.toInt_ofInt_eq_self (by decide) hlo hhi
  obtain ⟨hinit, hsame, -⟩ := canonical_cases hcanonical hne hstride
  rw [runsAlike_iff_goesOn hinit hsame]
  intro n _
  show (t.test.holds (if t.onCounter then _ else _ + t.stride) t.limit = true) ↔
    c.test.holds (_ + c.stride) c.limit = true
  rw [holds_iff_toward hcanonical hne hstride, canonical_holds_iff_toward hcanonical hne hstride, hexact,
    exitBound, hcounter, hsame]
  simp

/-- The test `ne`: the trip count is exact modulo the size of an `int`. -/
theorem runsAlike_of_ne (hcanonical : t.canonical = some c) (hne : t.test = .ne) :
    t.untruncated.run.RunsAlike c.run := by
  have hcase : c.init = t.init ∧ c.stride = t.stride ∧ c.test = .ne ∧
      c.limit = if t.onCounter then t.limit + t.stride else t.limit := by
    simp only [canonical, hne] at hcanonical
    split at hcanonical
    · next hone =>
      cases hcanonical
      refine ⟨rfl, rfl, rfl, ?_⟩
      simp [finalValue, hone, sub_add_cancel]
    · split at hcanonical
      · next hminus =>
        cases hcanonical
        refine ⟨rfl, rfl, rfl, ?_⟩
        simp only [finalValue, hminus, mul_neg, BitVec.mul_one, neg_sub, sub_add_cancel]
      · cases hcanonical
  obtain ⟨hinit, hsame, htest, hlimit⟩ := hcase
  rw [runsAlike_iff_goesOn hinit hsame]
  intro n _
  show (t.test.holds (if t.onCounter then _ else _ + t.stride) t.limit = true) ↔
    c.test.holds (_ + c.stride) c.limit = true
  rw [hne, htest, hlimit, hsame]
  cases t.onCounter <;> simp [holds]

end TripCounter

end TripCounter

/-! ## The conversion -/

/-- What a successful conversion says. -/
theorem TypedLoop.isCountedLoop_cases {l : TypedLoop} {c : CountedLoop} (h : l.isCountedLoop = some c) :
    ∃ t, l.matchLoop = some t ∧ (t.trunc = .int ∨ t.mayTruncate l.phiLo l.phiHi = false) ∧
      t.canonical = some c := by
  simp only [isCountedLoop, Option.bind_eq_bind, Option.bind_eq_some_iff, Option.guard_eq_some',
    exists_const] at h
  obtain ⟨t, hmatch, hcheck, hcanonical⟩ := h
  exact ⟨t, hmatch, by simpa using hcheck, hcanonical⟩

/-- A converted loop runs like the loop before it with its truncation left out. -/
theorem TypedLoop.runsAlike_untruncated {l : TypedLoop} (hmatch : l.matchLoop = some t)
    (hcheck : t.trunc = .int ∨ t.mayTruncate l.phiLo l.phiHi = false)
    (hidle : t.MaskIdle l.phiLo l.phiHi) : l.run.RunsAlike t.untruncated.run := by
  rw [LoopGraph.run_eq_of_match hmatch]
  apply TripCounter.runsAlike_untruncated hcheck hidle
  intro n hn
  rw [← LoopGraph.run_eq_of_match hmatch] at hn ⊢
  have hmem := l.counter_mem n hn
  rwa [BitVec.sle_iff_toInt_le, BitVec.sle_iff_toInt_le] at hmem

/-- A converted loop takes the same counters as the loop it was made from and exits after the
same iteration, if its test is `ne`, if it counts by one up to a limit that the test of the
increment can reach, or if neither an increment nor the numerator of the trip count leaves
the `int` range. If no increment does, the loops run alike just when the new limit still
lies between the last two increments. -/
theorem TypedLoop.runsAlike_isCountedLoop {l : TypedLoop} {t : TripCounter} {c : CountedLoop}
    (hmatch : l.matchLoop = some t) (hconvert : l.isCountedLoop = some c)
    (hidle : t.MaskIdle l.phiLo l.phiHi) : (t.test = .ne ∨ t.UnitSteps → l.run.RunsAlike c.run) ∧
      (t.NonWrapping → (l.run.RunsAlike c.run ↔ t.EndsAt c.limit)) ∧
      (t.NonWrapping → t.distance + t.pace - 1 < 2 ^ 31 → l.run.RunsAlike c.run) := by
  obtain ⟨t', hmatch', hcheck, hcanonical⟩ := isCountedLoop_cases hconvert
  obtain rfl : t' = t := Option.some.inj (hmatch'.symm.trans hmatch)
  obtain ⟨-, hstride, -⟩ := LoopGraph.matchLoop_cases hmatch
  have hplain := runsAlike_untruncated hmatch hcheck hidle
  have hiff : l.run.RunsAlike c.run ↔ t'.untruncated.run.RunsAlike c.run :=
    ⟨fun h => hplain.symm.trans h, fun h => hplain.trans h⟩
  rw [hiff]
  refine ⟨?_, ?_, ?_⟩
  · rintro (hne | hunit)
    · exact runsAlike_of_ne hcanonical hne
    · exact runsAlike_of_unitSteps hcanonical hstride hunit
  · intro hwrap
    exact runsAlike_iff_endsAt hcanonical hstride hwrap
  · intro hwrap hrange
    exact (runsAlike_iff_endsAt hcanonical hstride hwrap).mpr
      (endsAt_of_range hcanonical hstride hwrap hrange)

/-- `for (i = 0; ...; ) { ...; i += 3; if (i >= 10) break; }` -/
def byThreeToTen : LoopGraph where
  init := 0#32
  back := .addI .phi (.con 3#32)
  cmp1 := .addI .phi (.con 3#32)
  cmp2 := .invariant 0 10#32
  test := .lt
  backOnFalse := false

theorem runsAlike_byThreeToTen : byThreeToTen.typed.run.RunsAlike (CountedLoop.mk 0#32 3#32 12#32 .lt).run :=
  (TypedLoop.runsAlike_isCountedLoop (l := byThreeToTen.typed)
    (t := ⟨0#32, 3#32, 10#32, .lt, false, .int⟩) (by decide) (by decide) (by decide)).2.2
    (by unfold TripCounter.NonWrapping; decide) (by decide)

/-- `do { ...; i += 2; } while (i < Integer.MAX_VALUE)` -/
def byTwoToMax : LoopGraph where
  init := 0#32
  back := .addI .phi (.con 2#32)
  cmp1 := .addI .phi (.con 2#32)
  cmp2 := .con (BitVec.intMax 32)
  test := .lt
  backOnFalse := false

/-- The numerator of the trip count overflows, the new limit is the least `int`, and the loop
exits after its first iteration. The loop it was made from goes on. -/
theorem isCountedLoop_exits_early : ∃ c, byTwoToMax.typed.isCountedLoop = some c ∧
    c.limit = intMin 32 ∧ ¬ byTwoToMax.typed.run.RunsAlike c.run := by
  refine ⟨⟨0#32, 2#32, intMin 32, .lt⟩, by decide, rfl, ?_⟩
  intro h
  have hfirst := (h 0 (fun k hk => absurd hk (Nat.not_lt_zero k))).2.mp
  exact absurd (hfirst (show BoolTest.lt.holds (0#32 + 2#32) (BitVec.intMax 32) ^^ false = true by decide))
    (show ¬ BoolTest.lt.holds (0#32 + 2#32) (intMin 32) = true by decide)

end Hotspot.Opto
