-- SUMMARY: Widening and narrowing at phis: one step, and how often a type can change.
import Hotspot.Opto.IntegerRange

/-!
# Saturation

While types are iterated to a fixed point, a phi must not run through the integers one by one. The
pessimistic pass keeps an old type unless the new one is much narrower, the optimistic pass widens a
new type that keeps growing. The number of changes is counted with a rank that every change lowers.
-/

namespace Hotspot.Opto

open BitVec

/-! ## Changes -/

section Changes

variable {α : Type*} [DecidableEq α]

/-- How many of the first `m` steps of a sequence change it. -/
def changes (t : ℕ → α) : ℕ → ℕ
  | 0 => 0
  | m + 1 => changes t m + if t (m + 1) = t m then 0 else 1

/-- A change lowers the rank, but for the changes that are counted by `p`. -/
theorem changes_le_count (t : ℕ → α) (rank : ℕ → ℕ) (p : ℕ → Prop) [DecidablePred p]
    (h : ∀ i, t (i + 1) = t i ∧ rank (i + 1) ≤ rank i ∨ rank (i + 1) < rank i ∨
      p i ∧ rank (i + 1) ≤ rank i) (m : ℕ) : changes t m + rank m ≤ rank 0 + Nat.count p m := by
  induction m with
  | zero => exact (Nat.zero_add _).le
  | succ m ih =>
    unfold changes
    rw [Nat.count_succ]
    rcases h m with ⟨heq, hle⟩ | hlt | ⟨hp, hle⟩
    · rw [if_pos heq]
      omega
    · split <;> omega
    · rw [if_pos hp]
      split <;> omega

theorem changes_le (t : ℕ → α) (rank : ℕ → ℕ)
    (h : ∀ i, t (i + 1) = t i ∧ rank (i + 1) ≤ rank i ∨ rank (i + 1) < rank i) (m : ℕ) :
    changes t m + rank m ≤ rank 0 := by
  have hcount := changes_le_count t rank (fun _ => False) (fun i => (h i).imp_right .inl) m
  rwa [Nat.count_false, Nat.add_zero] at hcount

theorem count_le_changes (t : ℕ → α) (p : ℕ → Prop) [DecidablePred p]
    (h : ∀ i, p i → t (i + 1) ≠ t i) (m : ℕ) : Nat.count p m ≤ changes t m := by
  induction m with
  | zero => exact le_rfl
  | succ m ih =>
    unfold changes
    rw [Nat.count_succ]
    by_cases hp : p m
    · rw [if_pos hp, if_neg (h m hp)]
      omega
    · rw [if_neg hp]
      omega

end Changes

variable {k : Kind}

namespace IntegerType

variable {w : Nat}

/-! ## The model -/

/-- `narrow` of a new type. There is no old one if it is `NULL` or of another base. -/
def narrow (n : IntegerType w) (old : Option (IntegerType w)) : IntegerType w :=
  if n.hi.sle n.lo then n
  else
    match old with
    | none => n
    | some ot =>
      if n.lo = ot.lo ∧ n.hi = ot.hi then ot
      else if ot.lo = BitVec.intMin w ∧ ot.hi = BitVec.intMax w then n
      else if n.lo.slt ot.lo ∨ ot.hi.slt n.hi then n
      else
        let nrange := n.hi - n.lo
        let orange := ot.hi - ot.lo
        -- Use the new type only if the range shrinks a lot.
        if nrange < BitVec.allOnes w - 1 ∧ (orange >>> 1) + 6 < nrange then ot else n

/-- The end that is tried above `hi`. Longs stop at the largest unsigned int. -/
def pushHi : {k : Kind} → BitVec k.width → BitVec k.width
  | .int, _ => BitVec.intMax 32
  | .long, hi => if hi.slt 0xFFFFFFFF#64 then 0xFFFFFFFF#64 else BitVec.intMax 64

/-- `widen` of a new type over an old one, which is not an integer if it is missing. -/
def widenOver (n : IntegerType k.width) : Option (IntegerType k.width) → IntegerType k.width
  | none => n
  | some ot =>
    if n.lo = ot.lo ∧ n.hi = ot.hi then ot
    else if n.lo.sle ot.lo ∧ ot.hi.sle n.hi then
      if ot.widen < n.widen then n
      else if ot.lo = ot.hi then n
      else if n.widen = WidenMax then
        if (BitVec.intMin k.width).slt n.lo ∧ n.hi.slt (BitVec.intMax k.width) then
          -- push out the endpoint which is closer to its respective limit
          if (0#k.width).sle n.lo ∨ BitVec.intMax k.width - n.hi ≤ n.lo - BitVec.intMin k.width then
            make n.lo (pushHi n.hi) WidenMax
          else make (BitVec.intMin k.width) n.hi WidenMax
        else full k.width
      else make n.lo n.hi (Widen.next n.widen)
    else if ot.lo.sle n.lo ∧ n.hi.sle ot.hi then ot
    else full k.width

def join (r0 r1 : IntegerType w) : IntegerType w := (r0.xdual.meet r1.xdual).xdual

/-- An empty range becomes `TOP`. -/
def filter (r kills : IntegerType w) : Option (IntegerType w) :=
  let ft := r.join kills
  if ft.hi.slt ft.lo then none
  else some (if ft.widen < r.widen then make ft.lo ft.hi r.widen else ft)

/-- `PhaseCCP::saturate`. The old type is missing if it is `TOP`. -/
def saturate (n : IntegerType k.width) (old : Option (IntegerType k.width))
    (limit : IntegerType k.width) :
    Option (IntegerType k.width) :=
  let wide := n.widenOver old
  if wide ≠ n then wide.filter limit else some n

/-- The types of a phi when it is given the new types `n` one after another. -/
def narrowRun (start : IntegerType w) (n : ℕ → IntegerType w) : ℕ → IntegerType w
  | 0 => start
  | i + 1 => (n i).narrow (some (narrowRun start n i))

def saturateRun (limit : IntegerType k.width) (start : Option (IntegerType k.width))
    (n : ℕ → IntegerType k.width) :
    ℕ → Option (IntegerType k.width)
  | 0 => start
  | i + 1 => (n i).saturate (saturateRun limit start n i) limit

/-! ## Narrowing -/

/-- The number of values less one. -/
def size (r : IntegerType w) : ℕ := (r.hi.toInt - r.lo.toInt).toNat

def range (r : IntegerType w) : BitVec w × BitVec w := (r.lo, r.hi)

/-- The values of `r` are values of `s`. -/
def Inside (r s : IntegerType w) : Prop := s.lo.toInt ≤ r.lo.toInt ∧ r.hi.toInt ≤ s.hi.toInt

variable {r s : IntegerType w}

theorem range_eq_iff : r.range = s.range ↔ r.lo.toInt = s.lo.toInt ∧ r.hi.toInt = s.hi.toInt := by
  rw [toInt_inj, toInt_inj]
  exact Prod.mk_inj

theorem Inside.eq_range (h : r.Inside s) (hr : r.Nonempty) (hsize : s.size ≤ r.size) :
    r.range = s.range := by
  rw [range_eq_iff]
  unfold Inside Nonempty size at *
  omega

theorem size_of_range_eq (h : r.range = s.range) : r.size = s.size := by
  obtain ⟨hlo, hhi⟩ := Prod.mk.inj h
  unfold size
  rw [hlo, hhi]

theorem size_eq_toNat {r : IntegerType k.width} (hr : r.Nonempty) :
    (r.hi - r.lo).toNat = r.size := by
  have := toNat_hi_sub_lo hr
  unfold size
  omega

theorem size_lt (r : IntegerType k.width) : r.size < 2 ^ k.width := by
  have hlo := toInt_bounds r.lo
  have hhi := toInt_bounds r.hi
  have hpow := k.cast_two_pow_width
  unfold size
  omega

variable {n t : IntegerType k.width}

/-- The test for a narrower range, on sizes. -/
theorem keeps_iff (hn : n.Nonempty) (ht : t.Nonempty) :
    (n.hi - n.lo < BitVec.allOnes k.width - 1 ∧ (t.hi - t.lo) >>> 1 + 6 < n.hi - n.lo) ↔
      n.size < 2 ^ k.width - 2 ∧ t.size / 2 + 6 < n.size := by
  have hlt := t.size_lt
  have hones : (allOnes k.width - 1).toNat = 2 ^ k.width - 2 := by cases k <;> rfl
  have hsix : (6 : BitVec k.width).toNat = 6 := by cases k <;> rfl
  have hpow : 2 ^ 32 ≤ 2 ^ k.width := by cases k <;> decide
  have hhalf : ((t.hi - t.lo) >>> 1 + 6).toNat = t.size / 2 + 6 := by
    rw [toNat_add, toNat_ushiftRight, size_eq_toNat ht, Nat.shiftRight_eq_div_pow, hsix]
    exact Nat.mod_eq_of_lt (by omega)
  rw [lt_def, lt_def, size_eq_toNat hn, hhalf, hones]

/-- The new type is taken if it is a constant, or much narrower, or the old one was everything. -/
theorem narrow_cases (hn : n.Nonempty) (hin : n.Inside t) : n.narrow (some t) = t ∨
      n.narrow (some t) = n ∧
        (n.size < t.size ∧ (n.size ≤ t.size / 2 + 6 ∨ t.size = 2 ^ k.width - 1) ∨
          n.range = t.range ∧ n.size = 0) := by
  have ht : t.Nonempty := hin.1.trans (hn.trans hin.2)
  have hlt := t.size_lt
  have hkeeps := keeps_iff hn ht
  unfold narrow
  split
  next hcon =>
    rw [sle_iff_toInt_le] at hcon
    have hzero : n.size = 0 := by
      unfold size
      omega
    rcases Nat.eq_zero_or_pos t.size with hsize | hsize
    · exact .inr ⟨rfl, .inr ⟨hin.eq_range hn (by omega), hzero⟩⟩
    · exact .inr ⟨rfl, .inl ⟨by omega, .inl (by omega)⟩⟩
  next hcon =>
    dsimp only
    split
    · exact .inl rfl
    next hrange =>
      have hsize : n.size < t.size := by
        by_contra hle
        exact hrange (Prod.mk.inj (hin.eq_range hn (by omega)))
      split
      next hfull =>
        refine .inr ⟨rfl, .inl ⟨hsize, .inr ?_⟩⟩
        have hpow := k.cast_two_pow_width
        unfold size
        rw [hfull.1, hfull.2, toInt_intMin, toInt_intMax]
        omega
      · split
        next hout =>
          rw [slt_iff_toInt_lt, slt_iff_toInt_lt] at hout
          have := hin.1
          have := hin.2
          omega
        · split
          · exact .inl rfl
          next hmuch =>
            rw [hkeeps] at hmuch
            exact .inr ⟨rfl, .inl ⟨hsize, by omega⟩⟩

/-- How often a range of this size can still shrink. A range above 12 is halved, but for a remainder
of 6, and everything may shrink to anything. -/
def narrowings (k : Kind) (size : ℕ) : ℕ :=
  if size ≤ 12 then size
  else if size = 2 ^ k.width - 1 then 13 + k.width
  else 13 + Nat.log 2 (size - 12)

theorem narrowings_lt {s t : ℕ} (hlt : s < t) (hbound : t < 2 ^ k.width)
    (h : s ≤ t / 2 + 6 ∨ t = 2 ^ k.width - 1) :
    narrowings k s < narrowings k t := by
  unfold narrowings
  by_cases hs : s ≤ 12
  · split_ifs <;> omega
  rw [if_neg hs, if_neg (by omega), if_neg (by omega)]
  split
  · have : Nat.log 2 (s - 12) < k.width := Nat.log_lt_of_lt_pow (by omega) (by omega)
    omega
  next hfull =>
    -- 12 is the fixed point of the halving
    have hhalf : s - 12 ≤ (t - 12) / 2 := by omega
    have hlog : Nat.log 2 (s - 12) ≤ Nat.log 2 (t - 12) - 1 := by
      rw [← Nat.log_div_base]
      exact Nat.log_mono_right hhalf
    have hpos : 0 < Nat.log 2 (t - 12) := Nat.log_pos one_lt_two (by omega)
    omega

theorem narrowings_le (r : IntegerType k.width) : narrowings k r.size ≤ k.width + 13 := by
  have hlt := r.size_lt
  have hlog : Nat.log 2 (r.size - 12) ≤ k.width := by
    rcases Nat.eq_zero_or_pos (r.size - 12) with h | h
    · rw [h, Nat.log_zero_right]
      exact Nat.zero_le _
    · exact (Nat.log_lt_of_lt_pow h.ne' (by omega)).le
  unfold narrowings
  split_ifs <;> omega

theorem narrow_inside (hn : n.Nonempty) (hin : n.Inside t) : n.Inside (n.narrow (some t)) := by
  rcases narrow_cases hn hin with h | ⟨h, -⟩
  · rw [h]
    exact hin
  · rw [h]
    exact ⟨le_rfl, le_rfl⟩

theorem Inside.contains (h : r.Inside s) {x : BitVec w} (hx : r.Contains x) : s.Contains x :=
  ⟨h.1.trans hx.1, hx.2.trans h.2⟩

theorem narrowings_narrow (hn : n.Nonempty) (hin : n.Inside t) :
    (n.narrow (some t)).range = t.range ∧
      narrowings k (n.narrow (some t)).size ≤ narrowings k t.size ∨
      narrowings k (n.narrow (some t)).size < narrowings k t.size := by
  rcases narrow_cases hn hin with h | ⟨h, ⟨hlt, hmuch⟩ | ⟨hrange, -⟩⟩
  · rw [h]
    exact .inl ⟨rfl, le_rfl⟩
  · rw [h]
    exact .inr (narrowings_lt hlt t.size_lt hmuch)
  · rw [h, size_of_range_eq hrange]
    exact .inl ⟨hrange, le_rfl⟩

/-- The rank of a type with its widen bits, which change only in constants. -/
def narrowRank (t : IntegerType k.width) : ℕ :=
  if t.size = 0 then t.widen.val else narrowings k t.size + 3

theorem narrowRank_narrow (hn : n.Nonempty) (hin : n.Inside t) (hwiden : n.widen ≤ t.widen) :
    n.narrow (some t) = t ∧ (n.narrow (some t)).narrowRank ≤ t.narrowRank ∨
      (n.narrow (some t)).narrowRank < t.narrowRank := by
  rcases narrow_cases hn hin with h | ⟨h, ⟨hlt, hmuch⟩ | ⟨hrange, hzero⟩⟩
  · rw [h]
    exact .inl ⟨rfl, le_rfl⟩
  · rw [h]
    have := narrowings_lt hlt t.size_lt hmuch
    have := n.widen.isLt
    unfold narrowRank
    rw [if_neg (show t.size ≠ 0 by omega)]
    split <;> omega
  · rw [h]
    unfold narrowRank
    rw [← size_of_range_eq hrange, if_pos hzero, if_pos hzero]
    rcases eq_or_lt_of_le hwiden with heq | hlt
    · obtain ⟨hlo, hhi⟩ := Prod.mk.inj hrange
      exact .inl ⟨IntegerType.ext hlo hhi heq, hwiden⟩
    · exact .inr hlt

/-- Narrowing is sound, and short: the range of a phi shrinks at most `width + 13` times. Its widen
bits can only change while it is a constant, if they are bounded by the old ones. -/
theorem narrowRun_short {start : IntegerType k.width} {n : ℕ → IntegerType k.width}
    (hn : ∀ i, (n i).Nonempty)
    (hin : ∀ i, (n i).Inside (narrowRun start n i)) :
    (∀ i x, (n i).Contains x → (narrowRun start n (i + 1)).Contains x) ∧
      (∀ m, changes (fun i => (narrowRun start n i).range) m ≤ k.width + 13) ∧
      ((∀ i, (n i).widen ≤ (narrowRun start n i).widen) →
        ∀ m, changes (narrowRun start n) m ≤ k.width + 16) := by
  have hstart := narrowings_le start
  refine ⟨fun i x hx => (narrow_inside (hn i) (hin i)).contains hx, ?_, ?_⟩
  · intro m
    have hcount := changes_le (fun i => (narrowRun start n i).range)
      (fun i => narrowings k (narrowRun start n i).size)
        (fun i => narrowings_narrow (hn i) (hin i)) m
    dsimp only [narrowRun] at hcount
    omega
  · intro hwiden m
    have hcount := changes_le (narrowRun start n) (fun i => (narrowRun start n i).narrowRank)
      (fun i => narrowRank_narrow (hn i) (hin i) (hwiden i)) m
    have hrank : start.narrowRank ≤ k.width + 16 := by
      have := start.widen.isLt
      unfold narrowRank
      split <;> omega
    dsimp only [narrowRun] at hcount
    omega

/-- An index turns out to be no less than 0, then to be a byte, then a little less, and then it is
known. -/
def indexTypes : ℕ → TypeInt
  | 0 => pos 32
  | 1 => ⟨0#32, 255#32, WidenMin⟩
  | 2 => ⟨1#32, 250#32, WidenMin⟩
  | _ + 3 => con 5

theorem narrowRun_short_index : changes (narrowRun (full 32) indexTypes) 4 = 3 ∧
    ∀ m, changes (narrowRun (full 32) indexTypes) m ≤ 48 := by
  have hstep : ∀ i, (indexTypes i).Within (narrowRun (full 32) indexTypes i) := by
    rintro (_ | _ | _ | _ | i)
    · exact within_full (k := .int) _
    · exact ⟨by decide, by decide, by decide⟩
    · exact ⟨by decide, by decide, by decide⟩
    · exact ⟨by decide, by decide, by decide⟩
    · exact .refl (con 5)
  have hnonempty : ∀ i, (indexTypes i).Nonempty := by
    rintro (_ | _ | _ | i)
    · unfold Nonempty; decide
    · unfold Nonempty; decide
    · unfold Nonempty; decide
    · exact le_rfl
  exact ⟨by decide, (narrowRun_short (k := .int) hnonempty fun i =>
    ⟨(hstep i).lo, (hstep i).hi⟩).2.2
    fun i => (hstep i).widen⟩

/-! ## Widening -/

theorem join_widen (r0 r1 : IntegerType w) : (r0.join r1).widen = min r0.widen r1.widen := by
  have h : ∀ a b : Widen, WidenMax - max (WidenMax - a) (WidenMax - b) = min a b := by decide
  exact h _ _

theorem Inside.trans {t : IntegerType w} (hrs : r.Inside s) (hst : s.Inside t) : r.Inside t :=
  ⟨hst.1.trans hrs.1, hrs.2.trans hst.2⟩

theorem Inside.size_le (h : r.Inside s) : r.size ≤ s.size := by
  unfold Inside size at *
  omega

/-- `make` of a range that is not small keeps the widen bits, or sets them. -/
theorem le_make_widen_of_size {r : IntegerType k.width} (hr : 3 < r.size) (v : Widen) :
    v ≤ (make r.lo r.hi v).widen := by
  unfold size at hr
  exact le_make_widen (by omega) (by omega)

/-- The new type is within the result, and the result is the widened type clipped to the limit. -/
theorem saturate_spec {l : IntegerType k.width} {old : Option (IntegerType k.width)}
    (hn : n.Nonempty)
    (hwide : n.Inside (n.widenOver old)) (hlimit : n.Inside l) :
    ∃ t, n.saturate old l = some t ∧ t.lo.toInt = max (n.widenOver old).lo.toInt l.lo.toInt ∧
      t.hi.toInt = min (n.widenOver old).hi.toInt l.hi.toInt ∧
        (t.widen = (n.widenOver old).widen ∨
          t.widen = (make t.lo t.hi (n.widenOver old).widen).widen) := by
  unfold saturate
  generalize n.widenOver old = wide at *
  obtain ⟨hwlo, hwhi⟩ := hwide
  obtain ⟨hllo, hlhi⟩ := hlimit
  unfold Nonempty at hn
  by_cases heq : wide = n
  · subst heq
    rw [if_neg (not_not.mpr rfl)]
    exact ⟨wide, rfl, by omega, by omega, .inl rfl⟩
  rw [if_pos heq]
  have hlo : (wide.join l).lo.toInt = max wide.lo.toInt l.lo.toInt := toInt_max2 _ _
  have hhi : (wide.join l).hi.toInt = min wide.hi.toInt l.hi.toInt := toInt_min2 _ _
  unfold filter
  dsimp only
  rw [if_neg (by rw [slt_iff_toInt_lt]; omega)]
  split
  · exact ⟨_, rfl, hlo, hhi, .inr rfl⟩
  next hle =>
    refine ⟨_, rfl, hlo, hhi, .inl ?_⟩
    rw [join_widen] at hle ⊢
    exact le_antisymm (min_le_left _ _) (not_lt.mp hle)

/-- Both ends can still be pushed. -/
abbrev Inner (n : IntegerType k.width) : Prop :=
  (BitVec.intMin k.width).slt n.lo ∧ n.hi.slt (BitVec.intMax k.width)

/-- The high end is the one to push. -/
abbrev PushesUp (n : IntegerType k.width) : Prop :=
  (0#k.width).sle n.lo ∨ BitVec.intMax k.width - n.hi ≤ n.lo - BitVec.intMin k.width

/-- A push moves the end that is closer to its limit. Both go as far as they can once one cannot. -/
structure Pushed (t n wide : IntegerType k.width) : Prop where
  inside : n.Inside wide
  old : t.lo ≠ t.hi ∧ t.widen = WidenMax ∧ n.widen = WidenMax
  widen : wide.widen = WidenMax ∨ wide.size ≤ 3
  ends : Inner n ∧ PushesUp n ∧ wide.lo = n.lo ∧ n.hi.toInt < wide.hi.toInt ∧
        (wide.hi = BitVec.intMax k.width ∨ wide.hi.toInt = 2 ^ 32 - 1) ∨
      Inner n ∧ ¬ PushesUp n ∧ wide.lo = BitVec.intMin k.width ∧ wide.hi = n.hi ∨
    wide.lo = BitVec.intMin k.width ∧ wide.hi = BitVec.intMax k.width

theorem pushHi_spec {hi : BitVec k.width} (h : hi.slt (BitVec.intMax k.width) = true) :
    hi.toInt < (pushHi hi).toInt ∧
      (pushHi hi = BitVec.intMax k.width ∨ (pushHi hi).toInt = 2 ^ 32 - 1) := by
  rw [slt_iff_toInt_lt] at h
  cases k with
  | int => exact ⟨h, .inl rfl⟩
  | long =>
    by_cases hstop : BitVec.slt hi 0xFFFFFFFF#64 = true
    · rw [show pushHi hi = 0xFFFFFFFF#64 from if_pos hstop]
      rw [slt_iff_toInt_lt] at hstop
      exact ⟨hstop, .inr rfl⟩
    · rw [show pushHi hi = intMax 64 from if_neg hstop]
      exact ⟨h, .inl rfl⟩

theorem make_max_widen {lo hi : BitVec k.width} (h : lo.toInt ≤ hi.toInt) :
    (make lo hi WidenMax).widen = WidenMax ∨ (make lo hi WidenMax).size ≤ 3 := by
  have hsize : (make lo hi WidenMax).size = (hi.toInt - lo.toInt).toNat := rfl
  rw [make_widen h, hsize]
  split_ifs
  · exact .inl rfl
  · exact .inr (by omega)
  · exact .inl rfl

/-- What widening does when a range has grown. -/
theorem widenOver_cases (ht : t.Nonempty) (hin : t.Inside n) (hwiden : t.widen ≤ n.widen) :
    n.widenOver (some t) = t ∧ n.range = t.range ∨ t.size < n.size ∧
        (n.widenOver (some t) = n ∧ (t.widen < n.widen ∨ t.size = 0) ∨
          n.widenOver (some t) = make n.lo n.hi (n.widen + 1) ∧ t.widen < n.widen + 1 ∨
            Pushed t n (n.widenOver (some t))) := by
  have hn : n.Nonempty := hin.1.trans (ht.trans hin.2)
  have hlo := contains_full n.lo
  have hhi := contains_full n.hi
  unfold widenOver
  dsimp only
  split
  next hrange => exact .inl ⟨rfl, Prod.ext hrange.1 hrange.2⟩
  next hrange =>
    have hsize : t.size < n.size := by
      by_contra hle
      have := Prod.mk.inj (hin.eq_range ht (by omega))
      exact hrange ⟨this.1.symm, this.2.symm⟩
    refine .inr ⟨hsize, ?_⟩
    rw [if_pos ⟨sle_iff_toInt_le.mpr hin.1, sle_iff_toInt_le.mpr hin.2⟩]
    split
    next hlt => exact .inl ⟨rfl, .inl hlt⟩
    next hge =>
      have hsame : t.widen = n.widen := le_antisymm hwiden (not_lt.mp hge)
      split
      next hcon =>
        refine .inl ⟨rfl, .inr ?_⟩
        unfold size
        rw [hcon]
        omega
      next hcon =>
        split
        next hmax =>
          have hold : t.lo ≠ t.hi ∧ t.widen = WidenMax ∧ n.widen = WidenMax :=
            ⟨hcon, hsame.trans hmax, hmax⟩
          right; right
          split
          next hinner =>
            obtain ⟨hpush, hend⟩ := pushHi_spec hinner.2
            split
            next hup =>
              exact ⟨⟨le_rfl, hpush.le⟩, hold, make_max_widen (hn.trans hpush.le),
                .inl ⟨hinner, hup, rfl, hpush, hend⟩⟩
            next hup =>
              exact ⟨⟨hlo.1, le_rfl⟩, hold, make_max_widen (hlo.1.trans hn),
                .inr (.inl ⟨hinner, hup, rfl, rfl⟩)⟩
          · exact ⟨⟨hlo.1, hhi.2⟩, hold, .inl rfl, .inr (.inr ⟨rfl, rfl⟩)⟩
        next hmax =>
          have hnext : ∀ u : Widen, u ≠ WidenMax → u < u + 1 := by decide
          rw [hsame]
          exact .inr (.inl ⟨rfl, hnext _ hmax⟩)

theorem widenOver_inside (ht : t.Nonempty) (hin : t.Inside n) (hwiden : t.widen ≤ n.widen) :
    n.Inside (n.widenOver (some t)) := by
  rcases widenOver_cases ht hin hwiden with ⟨h, hrange⟩ | ⟨-, ⟨h, -⟩ | ⟨h, -⟩ | h⟩
  · obtain ⟨hlo, hhi⟩ := Prod.mk.inj hrange
    rw [h]
    unfold Inside
    rw [hlo, hhi]
    exact ⟨le_rfl, le_rfl⟩
  · rw [h]
    exact ⟨le_rfl, le_rfl⟩
  · rw [h]
    exact ⟨le_rfl, le_rfl⟩
  · exact h.inside

/-! ## The rank of a phi -/

/-- The ends that have not reached the limit, and the stop of longs. -/
def stages (limit t : IntegerType k.width) : ℕ :=
  (if t.lo = limit.lo then 0 else 1) + (if t.hi = limit.hi then 0 else 1) +
    (if t.hi.toInt < 2 ^ 32 - 1 then 1 else 0)

/-- The widen bits count up in a large range. A small range resets them, but grows. -/
def slack (t : IntegerType k.width) : ℕ :=
  if 3 < t.size then 3 - t.widen.val else 4 * (3 - t.size) + 4 + t.widen.val

def widenRank (limit t : IntegerType k.width) : ℕ := stages limit t + slack t

theorem widenRank_le (l t : IntegerType k.width) : widenRank l t ≤ 22 := by
  have := t.widen.isLt
  have hstages : stages l t ≤ 3 := by
    unfold stages
    split_ifs <;> omega
  unfold widenRank slack
  split <;> omega

section Rank

variable {l t t' : IntegerType k.width}

theorem stages_le (hin : t.Inside t') (hlimit : t'.Inside l) : stages l t' ≤ stages l t := by
  unfold stages Inside at *
  simp only [← toInt_inj]
  split_ifs <;> omega

theorem stages_lt (hin : t.Inside t') (hlimit : t'.Inside l)
    (h : t.lo.toInt ≠ l.lo.toInt ∧ t'.lo.toInt = l.lo.toInt ∨ t.hi.toInt ≠ l.hi.toInt ∧
      t'.hi.toInt = l.hi.toInt ∨
      t.hi.toInt < 2 ^ 32 - 1 ∧ 2 ^ 32 - 1 ≤ t'.hi.toInt) : stages l t' < stages l t := by
  unfold stages Inside at *
  simp only [← toInt_inj]
  split_ifs <;> omega

theorem slack_lt (hsize : t.size < t'.size) (h : t.size ≤ 3 ∨ t.widen < t'.widen) :
    slack t' < slack t := by
  have := t.widen.isLt
  have := t'.widen.isLt
  unfold slack
  rw [Fin.lt_def] at h
  split_ifs <;> omega

theorem slack_le (hsize : t.size < t'.size) (h : t'.widen = WidenMax ∨ t'.size ≤ 3) :
    slack t' ≤ slack t := by
  rcases Nat.lt_or_ge 3 t.size with hlarge | hsmall
  · rcases h with h | h
    · unfold slack
      rw [if_pos (by omega), h]
      exact Nat.zero_le _
    · omega
  · exact (slack_lt hsize (.inl hsmall)).le

end Rank

/-- The new type has grown beyond the old one and all widen bits are used up, but the end that is
to be pushed out is at the limit already. The other end stays where it is, short of the limit. -/
def ClippedBack (limit : IntegerType k.width) (old : Option (IntegerType k.width))
    (n : IntegerType k.width) : Prop :=
  ∃ t ∈ old, t.range ≠ n.range ∧ (t.lo ≠ t.hi ∧ t.widen = WidenMax ∧ n.widen = WidenMax) ∧ Inner n ∧
    if PushesUp n then n.hi = limit.hi ∧ n.lo ≠ limit.lo else n.lo = limit.lo ∧ n.hi ≠ limit.hi

instance (limit n : IntegerType k.width) (old : Option (IntegerType k.width)) :
    Decidable (ClippedBack limit old n) :=
  inferInstanceAs (Decidable (∃ t ∈ old, _))

section Step

variable {l n t t' : IntegerType k.width}

/-- The same range with normalised widen bits. -/
theorem slack_make (ht : t.Nonempty) (hrange : t'.range = t.range)
    (hw : t'.widen = (make t.lo t.hi t.widen).widen) :
    t' = t ∨ slack t' < slack t := by
  obtain ⟨hlo, hhi⟩ := Prod.mk.inj hrange
  have hsize := size_of_range_eq hrange
  have hmin : WidenMin.val = 0 := rfl
  have hmax : WidenMax.val = 3 := rfl
  have := t.widen.isLt
  have := k.bound_ge
  by_cases hsame : t'.widen = t.widen
  · exact .inl (IntegerType.ext hlo hhi hsame)
  right
  have hval : t'.widen.val ≠ t.widen.val := fun h => hsame (Fin.ext h)
  have hlarge : 3 < t.size ↔ 3 < t.hi.toInt - t.lo.toInt := by
    unfold size
    omega
  rw [make_widen ht] at hw
  unfold slack
  split_ifs at hw with hfull hsmall
  · rw [if_pos (by omega), if_pos (by omega)]
    rw [hw] at hval ⊢
    omega
  · rw [if_neg (by omega), if_neg (by omega)]
    rw [hw] at hval ⊢
    omega
  · exact absurd hw hsame

/-- A push that is not taken back moves an end to a stage it had not reached. -/
theorem Pushed.stages_saturate_lt {wide : IntegerType k.width} (hpush : Pushed t n wide)
    (hin : t.Inside n) (hsize : t.size < n.size) (hlimit : n.Inside l)
    (hlo : t'.lo.toInt = max wide.lo.toInt l.lo.toInt)
    (hhi : t'.hi.toInt = min wide.hi.toInt l.hi.toInt) (hclip : ¬ ClippedBack l (some t) n) :
    stages l t' < stages l t := by
  have hmin := toInt_intMin (k := k)
  have hmax := toInt_intMax (k := k)
  have hllo := toInt_bounds l.lo
  have hlhi := toInt_bounds l.hi
  obtain ⟨⟨hwlo, hwhi⟩, hold, -, hends⟩ := hpush
  have hrange : t.range ≠ n.range := fun h => hsize.ne (size_of_range_eq h)
  have hsmaller := mt range_eq_iff.mpr hrange
  unfold Inside at hin hlimit
  apply stages_lt
  · unfold Inside
    omega
  · unfold Inside
    omega
  -- the pushed end is not at the limit, unless the other one is there too
  rcases hends with ⟨hinner, hup, h1, h2, h3⟩ | ⟨hinner, hup, h1, h2⟩ | ⟨h1, h2⟩
  · have hboth : ¬ (n.hi = l.hi ∧ n.lo ≠ l.lo) := fun h =>
      hclip ⟨t, rfl, hrange, hold, hinner, by rwa [if_pos hup]⟩
    rw [← toInt_inj, Ne, ← toInt_inj] at hboth
    have := congrArg BitVec.toInt h1
    have := h3.imp_left (congrArg BitVec.toInt)
    omega
  · have hboth : ¬ (n.lo = l.lo ∧ n.hi ≠ l.hi) := fun h =>
      hclip ⟨t, rfl, hrange, hold, hinner, by rwa [if_neg hup]⟩
    rw [← toInt_inj, Ne, ← toInt_inj] at hboth
    have := congrArg BitVec.toInt h1
    have := congrArg BitVec.toInt h2
    omega
  · have := congrArg BitVec.toInt h1
    have := congrArg BitVec.toInt h2
    omega

theorem saturate_widenRank (ht : t.Nonempty) (hin : t.Inside n) (hwiden : t.widen ≤ n.widen)
    (hlimit : n.Inside l) :
    ∃ t', n.saturate (some t) l = some t' ∧ (t' = t ∨ widenRank l t' < widenRank l t ∨
      ClippedBack l (some t) n ∧ widenRank l t' ≤ widenRank l t) := by
  have hn : n.Nonempty := hin.1.trans (ht.trans hin.2)
  have hwide := widenOver_inside ht hin hwiden
  obtain ⟨t', heq, hlo, hhi, hw⟩ := saturate_spec hn hwide hlimit
  have hcases := widenOver_cases ht hin hwiden
  have hin' : n.Inside t' := by
    unfold Inside at *
    omega
  have hlimit' : t'.Inside l := by
    unfold Inside at *
    omega
  have hstages := stages_le (hin.trans hin') hlimit'
  have hsizes := hin'.size_le
  have hkeep : 3 < t'.size → (n.widenOver (some t)).widen ≤ t'.widen := by
    intro hlarge
    rcases hw with h | h
    · exact h.ge
    · exact (le_make_widen_of_size hlarge _).trans h.ge
  refine ⟨t', heq, ?_⟩
  unfold widenRank
  generalize n.widenOver (some t) = wide at *
  -- a range that grows and keeps its ends needs more widen bits, unless it is small
  have hgrows : t.size < n.size → (3 < t.size → t.widen < wide.widen) →
      stages l t' + slack t' < stages l t + slack t := by
    intro hsize hmore
    have hslack : slack t' < slack t := by
      refine slack_lt (by omega) ?_
      rcases Nat.lt_or_ge 3 t.size with hlarge | hsmall
      · exact .inr ((hmore hlarge).trans_le (hkeep (by omega)))
      · exact .inl hsmall
    omega
  rcases hcases with ⟨rfl, hrange⟩ | ⟨hsize, ⟨rfl, hmore⟩ | ⟨rfl, hmore⟩ | hpush⟩
  · have hrange' : t'.range = wide.range := by
      obtain ⟨h1, h2⟩ := Prod.mk.inj hrange
      rw [← hrange]
      refine (hin'.eq_range hn ?_).symm
      unfold Inside size at *
      omega
    obtain ⟨h1, h2⟩ := Prod.mk.inj hrange'
    rcases hw with hw | hw
    · exact .inl (IntegerType.ext h1 h2 hw)
    rw [h1, h2] at hw
    rcases slack_make ht hrange' hw with h | h
    · exact .inl h
    · exact .inr (.inl (by omega))
  · exact .inr (.inl (hgrows hsize fun hlarge => hmore.resolve_right (by omega)))
  · exact .inr (.inl (hgrows hsize fun hlarge =>
      hmore.trans_le (le_make_widen_of_size (by omega) _)))
  · right
    have hslack : slack t' ≤ slack t := by
      refine slack_le (by omega) ?_
      rcases Nat.lt_or_ge 3 t'.size with hlarge | hsmall
      · have hwsize : t'.size ≤ wide.size := by
          unfold size
          omega
        exact .inl (eq_widenMax ((hpush.widen.resolve_right (by omega)).ge.trans (hkeep hlarge)))
      · exact .inr hsmall
    by_cases hclip : ClippedBack l (some t) n
    · exact .inr ⟨hclip, by omega⟩
    · have hless := hpush.stages_saturate_lt hin hsize hlimit hlo hhi hclip
      exact .inl (by omega)

end Step

/-- The new types that the optimistic pass computes for a phi. -/
structure IsRun (limit : IntegerType k.width) (start : Option (IntegerType k.width))
    (n : ℕ → IntegerType k.width) :
    Prop where
  start_nonempty : ∀ t, start = some t → t.Nonempty
  nonempty : ∀ i, (n i).Nonempty
  meet : ∀ i t, saturateRun limit start n i = some t → (n i).meet t = n i
  inside : ∀ i, (n i).Inside limit

theorem inside_of_meet {n t : IntegerType w} (h : n.meet t = n) :
    t.Inside n ∧ t.widen ≤ n.widen := by
  have hlo := toInt_min2 n.lo t.lo
  have hhi := toInt_max2 n.hi t.hi
  rw [show min2 n.lo t.lo = n.lo from congrArg lo h] at hlo
  rw [show max2 n.hi t.hi = n.hi from congrArg hi h] at hhi
  refine ⟨⟨by omega, by omega⟩, ?_⟩
  calc t.widen ≤ max n.widen t.widen := le_max_right _ _
    _ = n.widen := congrArg widen h

section Run

variable {l limit : IntegerType k.width} {start : Option (IntegerType k.width)}
  {n : ℕ → IntegerType k.width}

/-- Each type of a run is there and contains the new type. -/
theorem IsRun.succ (h : IsRun l start n) (i : ℕ)
    (hne : ∀ t, saturateRun l start n i = some t → t.Nonempty) :
    ∃ t, saturateRun l start n (i + 1) = some t ∧ (n i).Inside t := by
  have hwide : (n i).Inside ((n i).widenOver (saturateRun l start n i)) := by
    cases hold : saturateRun l start n i with
    | none => exact ⟨le_rfl, le_rfl⟩
    | some t =>
      obtain ⟨hin, hwiden⟩ := inside_of_meet (h.meet i t hold)
      exact widenOver_inside (hne t hold) hin hwiden
  have hlimit := h.inside i
  obtain ⟨t, heq, hlo, hhi, -⟩ := saturate_spec (h.nonempty i) hwide hlimit
  refine ⟨t, heq, ?_⟩
  unfold Inside at *
  omega

theorem IsRun.types_nonempty (h : IsRun l start n) (i : ℕ) (t : IntegerType k.width)
    (ht : saturateRun l start n i = some t) : t.Nonempty := by
  induction i generalizing t with
  | zero => exact h.start_nonempty t ht
  | succ i ih =>
    obtain ⟨t', heq, hin⟩ := h.succ i ih
    rw [heq] at ht
    cases ht
    exact hin.1.trans ((h.nonempty i).trans hin.2)

/-- The rank of a phi whose type may be `TOP`. -/
def phiRank (limit : IntegerType k.width) (t : Option (IntegerType k.width)) : ℕ :=
  t.elim 23 (widenRank limit)

/-- A step leaves the type alone, lowers its rank, or is clipped back. -/
theorem IsRun.phiRank_succ (h : IsRun l start n) (i : ℕ) :
    saturateRun l start n (i + 1) = saturateRun l start n i ∧
        phiRank l (saturateRun l start n (i + 1)) ≤ phiRank l (saturateRun l start n i) ∨
      phiRank l (saturateRun l start n (i + 1)) < phiRank l (saturateRun l start n i) ∨
      ClippedBack l (saturateRun l start n i) (n i) ∧
        phiRank l (saturateRun l start n (i + 1)) ≤ phiRank l (saturateRun l start n i) := by
  have hne := h.types_nonempty i
  obtain ⟨t', hsome, -⟩ := h.succ i hne
  have hle := widenRank_le l t'
  cases hold : saturateRun l start n i with
  | none =>
    rw [hsome]
    exact .inr (.inl (Nat.lt_succ_of_le hle))
  | some t =>
    obtain ⟨hin, hwiden⟩ := inside_of_meet (h.meet i t hold)
    obtain ⟨t'', heq, hrank⟩ := saturate_widenRank (hne t hold) hin hwiden (h.inside i)
    have hnext : saturateRun l start n (i + 1) = some t'' := by
      rw [← heq, ← hold]
      rfl
    rw [hnext]
    rcases hrank with rfl | hrank
    · exact .inl ⟨rfl, le_rfl⟩
    · exact .inr hrank

theorem IsRun.changes_of_clippedBack (h : IsRun l start n) {i : ℕ}
    (hclip : ClippedBack l (saturateRun l start n i) (n i)) :
    saturateRun l start n (i + 1) ≠ saturateRun l start n i := by
  obtain ⟨t, hold, hrange, -⟩ := hclip
  obtain ⟨t', heq, hin'⟩ := h.succ i (h.types_nonempty i)
  have hin := (inside_of_meet (h.meet i t hold)).1
  rw [heq, hold]
  rintro ⟨⟩
  exact hrange (hin.eq_range (h.types_nonempty i t hold) hin'.size_le)

/-- The type of a phi contains every new type. A step that is clipped back always changes it, and
apart from those steps it changes at most 23 times. -/
theorem saturateRun_short (h : IsRun limit start n) :
    (∀ i x, (n i).Contains x → ∃ t, saturateRun limit start n (i + 1) = some t ∧ t.Contains x) ∧
      ∀ m, Nat.count (fun i => ClippedBack limit (saturateRun limit start n i) (n i)) m ≤
          changes (saturateRun limit start n) m ∧
        changes (saturateRun limit start n) m ≤
          Nat.count (fun i => ClippedBack limit (saturateRun limit start n i) (n i)) m + 23 := by
  constructor
  · intro i x hx
    obtain ⟨t, heq, hin⟩ := h.succ i (h.types_nonempty i)
    exact ⟨t, heq, hin.contains hx⟩
  refine fun m => ⟨count_le_changes _ _ (fun i => h.changes_of_clippedBack) m, ?_⟩
  have hcount := changes_le_count (saturateRun limit start n)
    (fun i => phiRank limit (saturateRun limit start n i)) _ h.phiRank_succ m
  have hstart : phiRank limit start ≤ 23 := by
    cases start with
    | none => exact le_rfl
    | some t => exact Nat.le_succ_of_le (widenRank_le limit t)
  dsimp only [saturateRun] at hcount
  omega

end Run

/-- A loop counter grows upwards, is pushed to the largest int, wraps around and becomes
everything. -/
def counterTypes : ℕ → TypeInt
  | 0 => ⟨0#32, 20#32, WidenMax⟩
  | 1 => ⟨-1#32, 2147483647#32, WidenMax⟩
  | _ + 2 => full 32

def counterRun : ℕ → Option TypeInt :=
  saturateRun (k := .int) (full 32) (some ⟨0#32, 10#32, WidenMax⟩) counterTypes

theorem saturateRun_short_counter : changes counterRun 2 = 2 ∧ ∀ m, changes counterRun m ≤ 23 := by
  have hrun : ∀ i, counterRun (i + 2) = some (full 32) := by
    intro i
    induction i with
    | zero => decide
    | succ i ih =>
      show saturate (k := .int) (full 32) (counterRun (i + 2)) (full 32) = _
      rw [ih]
      decide
  have hclip : ∀ i, ¬ ClippedBack (k := .int) (full 32) (counterRun i) (counterTypes i) := by
    rintro (_ | _ | i)
    · decide
    · decide
    · rw [hrun, counterTypes]
      decide
  have hlimit : ∀ i, Inside (counterTypes i) (full 32) := fun i =>
    ⟨(within_full (k := .int) _).lo, (within_full (k := .int) _).hi⟩
  have hmeet : ∀ i t, counterRun i = some t → (counterTypes i).meet t = counterTypes i := by
    rintro (_ | _ | i) t ht
    · cases ht
      decide
    · cases ht
      decide
    · rw [hrun] at ht
      cases ht
      exact meet_self _
  have hnonempty : ∀ i, (counterTypes i).lo.toInt ≤ (counterTypes i).hi.toInt := by
    rintro (_ | _ | i)
    · decide
    · decide
    · rw [counterTypes]
      decide
  refine ⟨by decide, fun m => ?_⟩
  have hstart : ∀ t : TypeInt, counterRun 0 = some t → t.lo.toInt ≤ t.hi.toInt := by
    rintro t ⟨⟩
    decide
  obtain ⟨-, hshort⟩ := (saturateRun_short (k := .int) ⟨hstart, hnonempty, hmeet, hlimit⟩).2 m
  have hzero := @Nat.count_of_forall_not _ (fun _ => inferInstance) m fun i _ => hclip i
  exact hshort.trans (Nat.add_le_add_right hzero.le 23)

/-! ## A death march -/

/-- The limit of an index below an array's length, say. -/
def marchLimit : TypeInt := ⟨0, 2147483646#32, WidenMax⟩

@[irreducible]
def marchLo (i : ℕ) : JInt := BitVec.ofNat 32 (1073741824 - i)

/-- Types that grow downwards one by one, up to the limit. -/
def march (i : ℕ) : TypeInt := ⟨marchLo i, 2147483646#32, WidenMax⟩

theorem toInt_march_lo (i : ℕ) : (march i).lo.toInt = (1073741824 - i : ℕ) := by
  have h : (march i).lo.toNat = 1073741824 - i := by
    show (marchLo i).toNat = _
    unfold marchLo
    rw [toNat_ofNat]
    omega
  rw [toInt_eq_toNat_of_lt (by omega), h]

theorem march_inside (i : ℕ) : (march i).Inside marchLimit := by
  refine ⟨?_, le_rfl⟩
  rw [toInt_march_lo]
  exact Int.natCast_nonneg _

theorem march_nonempty (i : ℕ) : (march i).Nonempty := by
  have hhi : (march i).hi.toInt = 2147483646 := rfl
  unfold Nonempty
  rw [toInt_march_lo, hhi]
  omega

theorem march_meet (i : ℕ) : (march (i + 1)).meet (march i) = march (i + 1) := by
  have hlo := toInt_march_lo i
  have hlo' := toInt_march_lo (i + 1)
  have hmin : min2 (march (i + 1)).lo (march i).lo = (march (i + 1)).lo := by
    apply eq_of_toInt_eq
    rw [toInt_min2]
    omega
  have hmax : max2 (march (i + 1)).hi (march i).hi = (march (i + 1)).hi := by
    apply eq_of_toInt_eq
    rw [toInt_max2]
    exact max_self _
  unfold meet
  rw [hmin, hmax]
  rfl

theorem march_ne {i : ℕ} (hi : i < 1073741824) : (march (i + 1)).lo ≠ (march i).lo := by
  intro h
  have hlo := toInt_march_lo i
  have hlo' := toInt_march_lo (i + 1)
  rw [h] at hlo'
  omega

theorem widenOver_march {i : ℕ} (hi : i < 1073741824) :
    widenOver (k := .int) (march (i + 1)) (some (march i)) = make (march (i + 1)).lo
      (BitVec.intMax 32) WidenMax := by
  have hlo := toInt_march_lo i
  have hlo' := toInt_march_lo (i + 1)
  have hhi : (march i).hi.toInt = 2147483646 := rfl
  have hmin : (intMin Kind.int.width).toInt = -2147483648 := rfl
  have hcon : (march i).lo ≠ (march i).hi := by
    intro h
    rw [h] at hlo
    omega
  have hpos : (0#(Kind.int.width)).sle (march (i + 1)).lo = true := by
    rw [sle_iff_toInt_le, hlo']
    exact Int.natCast_nonneg _
  have hinner : (intMin Kind.int.width).slt (march (i + 1)).lo = true := by
    rw [slt_iff_toInt_lt, hmin, hlo']
    omega
  have hbelow : (march (i + 1)).hi.slt (intMax Kind.int.width) = true := by
    show (2147483646#32).slt (intMax 32) = true
    decide
  unfold widenOver
  dsimp only
  rw [if_neg fun h => march_ne hi h.1,
    if_pos ⟨sle_iff_toInt_le.mpr (by omega), sle_iff_toInt_le.mpr le_rfl⟩]
  rw [if_neg (show ¬ (march i).widen < (march (i + 1)).widen from lt_irrefl WidenMax), if_neg hcon,
    if_pos (show (march (i + 1)).widen = WidenMax from rfl)]
  rw [if_pos ⟨hinner, hbelow⟩, if_pos (.inl hpos)]
  rfl

/-- The push to the largest int is clipped back to the limit. -/
theorem saturate_march (i : ℕ) :
    saturate (k := .int) (march (i + 1)) (some (march i)) marchLimit = some (march (i + 1)) := by
  have hlo' := toInt_march_lo (i + 1)
  rcases Nat.lt_or_ge i 1073741824 with hi | hi
  · have hwide := widenOver_march hi
    obtain ⟨t, heq, hlo, hhi, hw⟩ := saturate_spec (k := .int) (march_nonempty (i + 1))
      (widenOver_inside (k := .int) (march_nonempty i) (inside_of_meet (march_meet i)).1 le_rfl)
      (march_inside (i + 1))
    rw [hwide] at hlo hhi hw
    have hmax : (intMax 32).toInt = 2147483647 := rfl
    have hlimit : marchLimit.lo.toInt = 0 ∧ marchLimit.hi.toInt = 2147483646 := ⟨rfl, rfl⟩
    rw [make_lo] at hlo
    rw [make_hi] at hhi
    have hsize : 3 < t.size := by
      unfold size
      omega
    have hwideMax : (make (march (i + 1)).lo (intMax 32) WidenMax).widen = WidenMax :=
      eq_widenMax (le_make_widen (k := .int) (by omega) (by omega))
    rw [hwideMax] at hw
    have hwiden : t.widen = WidenMax := by
      rcases hw with h | h
      · exact h
      · exact eq_widenMax ((le_make_widen_of_size (k := .int) hsize _).trans h.ge)
    rw [heq, IntegerType.ext (eq_of_toInt_eq (show t.lo.toInt = (march (i + 1)).lo.toInt by omega))
      (eq_of_toInt_eq (show t.hi.toInt = (march (i + 1)).hi.toInt from hhi)) hwiden]
  · have hsame : march (i + 1) = march i := by
      unfold march marchLo
      rw [Nat.sub_eq_zero_of_le hi, Nat.sub_eq_zero_of_le (by omega)]
    rw [hsame]
    have hwide : widenOver (k := .int) (march i) (some (march i)) = march i := if_pos ⟨rfl, rfl⟩
    unfold saturate
    rw [hwide, if_neg (not_not.mpr rfl)]

theorem saturateRun_march (i : ℕ) :
    saturateRun (k := .int) marchLimit (some (march 0)) (fun i => march (i + 1)) i = some
      (march i) := by
  induction i with
  | zero => rfl
  | succ i ih =>
    unfold saturateRun
    rw [ih]
    exact saturate_march i

/-- A phi whose type changes a billion times, below a limit that is not the largest int. -/
theorem saturateRun_marches : ∃ (limit : TypeInt) (start : Option TypeInt) (n : ℕ → TypeInt),
      IsRun (k := .int) limit start n ∧ changes (saturateRun (k := .int) limit start n) 1073741824 =
        1073741824 := by
  refine ⟨marchLimit, some (march 0), fun i => march (i + 1),
    ⟨?_, fun i => march_nonempty _, ?_, fun i => march_inside _⟩, ?_⟩
  · rintro t ⟨⟩
    exact march_nonempty 0
  · intro i t ht
    rw [saturateRun_march] at ht
    cases ht
    exact march_meet i
  · have hcount : ∀ m ≤ 1073741824,
        changes (saturateRun (k := .int) marchLimit (some (march 0)) fun i => march (i + 1)) m =
          m := by
      intro m
      induction m with
      | zero => exact fun _ => rfl
      | succ m ih =>
        intro hm
        unfold changes
        rw [ih (by omega), saturateRun_march, saturateRun_march, if_neg]
        intro h
        exact march_ne hm (congrArg lo (Option.some.inj h))
    exact hcount _ le_rfl

end IntegerType

end Hotspot.Opto
