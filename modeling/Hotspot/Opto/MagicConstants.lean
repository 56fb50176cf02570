-- SUMMARY: The loop for the magic constants ends with an exponent that is exact, without overflow.
import Hotspot.Base.MagicDivision
import Hotspot.Opto.DivNode

/-!
# Magic constants

The variables of the loop are the quotients and remainders of `2^p` by `nc` and by the divisor. None
of them overflows before the loop ends.
-/

namespace Hotspot.DivNode

open BitVec MagicDivision

/-! ## Doubling -/

theorem double_div_mod (a x : Nat) (ha : 0 < a) :
    2 * x / a = 2 * (x / a) + (if a ≤ 2 * (x % a) then 1 else 0) ∧
      2 * x % a = 2 * (x % a) - (if a ≤ 2 * (x % a) then a else 0) := by
  have hmod := Nat.mod_lt x ha
  have hdiv := Nat.div_add_mod x a
  have hassoc : a * (2 * (x / a)) = 2 * (a * (x / a)) := by ring
  rw [Nat.div_mod_unique ha]
  split
  · rw [Nat.mul_add, Nat.mul_one]
    omega
  · rw [Nat.add_zero]
    omega

section Width

variable {w : Nat}

/-- The quotient and the remainder of `x` by `a`. -/
structure QuoRem (q r a : BitVec w) (x : Nat) : Prop where
  quo : q.toNat = x / a.toNat
  rem : r.toNat = x % a.toNat

theorem toNat_two_mul {x : BitVec w} (h : 2 * x.toNat < 2 ^ w) : (2 * x).toNat = 2 * x.toNat := by
  rw [show (2 : BitVec w) = 2#w from rfl, two_mul, toNat_add_of_lt (by omega)]
  omega

theorem QuoRem.double {q r a : BitVec w} {x : Nat} (h : QuoRem q r a x) (ha : 0 < a.toNat)
    (ha' : 2 * a.toNat ≤ 2 ^ w)
    (hx : 2 * (x / a.toNat) + 1 < 2 ^ w) : QuoRem (double q r a).1 (double q r a).2 a (2 * x) := by
  obtain ⟨hquo, hrem⟩ := double_div_mod a.toNat x ha
  have hlt := Nat.mod_lt x ha
  have hr : (2 * r).toNat = 2 * (x % a.toNat) := by
    rw [toNat_two_mul (by rw [h.rem]; omega), h.rem]
  have hq : (2 * q).toNat = 2 * (x / a.toNat) := by
    rw [toNat_two_mul (by rw [h.quo]; omega), h.quo]
  have hpos : 0 < w := by
    by_contra hzero
    obtain rfl : w = 0 := by omega
    rw [Nat.pow_zero] at hx
    omega
  have hone : (1 : BitVec w).toNat = 1 := toNat_one hpos
  unfold DivNode.double
  by_cases hle : a ≤ 2 * r
  · have hle' : a.toNat ≤ 2 * (x % a.toNat) := hr ▸ le_def.mp hle
    rw [if_pos hle'] at hquo hrem
    rw [if_pos hle]
    constructor
    · show (2 * q + 1).toNat = _
      rw [toNat_add_of_lt (by rw [hq, hone]; omega), hq, hone, hquo]
    · show (2 * r - a).toNat = _
      rw [toNat_sub_of_le hle, hr, hrem]
  · have hle' : ¬ a.toNat ≤ 2 * (x % a.toNat) := by
      rw [← hr]
      exact fun h' => hle (le_def.mpr h')
    rw [if_neg hle'] at hquo hrem
    rw [if_neg hle]
    constructor
    · rw [hquo]
      exact hq
    · rw [hrem]
      exact hr

end Width

/-! ## The loop -/

variable {n : Nat} {ad anc : BitVec (n + 1)}

/-- The state when the exponent is `p`. -/
structure MagicState.At (ad anc : BitVec (n + 1)) (p : Nat) (st : MagicState (n + 1)) : Prop where
  exponent : st.p = p
  byNc : QuoRem st.q1 st.r1 anc (2 ^ p)
  byDivisor : QuoRem st.q2 st.r2 ad (2 ^ p)

theorem le_mul_iff {a b x : Nat} (ha : 0 < a) : x ≤ a * b ↔ x / a < b ∨ x / a = b ∧ x % a = 0 := by
  have hdiv := Nat.div_add_mod x a
  have hmod := Nat.mod_lt x ha
  rcases Nat.lt_trichotomy (x / a) b with hlt | rfl | hgt
  · have hmul : a * (x / a + 1) ≤ a * b := Nat.mul_le_mul_left a hlt
    rw [Nat.mul_add, Nat.mul_one] at hmul
    exact ⟨fun _ => .inl hlt, fun _ => by omega⟩
  · constructor
    · intro hle
      exact .inr ⟨rfl, by omega⟩
    · rintro (hlt | ⟨-, hzero⟩)
      · omega
      · omega
  · have hmul : a * (b + 1) ≤ a * (x / a) := Nat.mul_le_mul_left a hgt
    rw [Nat.mul_add, Nat.mul_one] at hmul
    constructor
    · intro hle
      omega
    · rintro (hlt | ⟨heq, -⟩)
      · omega
      · omega

variable {st : MagicState (n + 1)}

/-- The loop goes on while the power of two is too small. -/
theorem goesOn_iff (hpos : 0 < anc.toNat) (had : 0 < ad.toNat) {p : Nat} (h : st.At ad anc p) :
    st.goesOn ad = true ↔ 2 ^ p ≤ anc.toNat * delta ad.toNat p := by
  have hrem := Nat.mod_lt (2 ^ p) had
  have hdelta : (ad - st.r2).toNat = delta ad.toNat p := by
    have hle : st.r2 ≤ ad := le_def.mpr (by rw [h.byDivisor.rem]; omega)
    rw [toNat_sub_of_le hle, h.byDivisor.rem]
    rfl
  have hiff := le_mul_iff (b := delta ad.toNat p) (x := 2 ^ p) hpos
  unfold MagicState.goesOn
  dsimp only
  rw [Bool.or_eq_true, Bool.and_eq_true, decide_eq_true_eq, decide_eq_true_eq, decide_eq_true_eq,
    lt_def,
    toNat_eq, toNat_eq, hdelta, h.byNc.quo, h.byNc.rem]
  rw [show (0 : BitVec (n + 1)).toNat = 0 from toNat_zero, ← hiff]

theorem MagicState.At.step {p : Nat} (h : st.At ad anc p) (had : 1 < ad.toNat)
    (hle : ad.toNat < 2 ^ n) (hpos : 0 < anc.toNat) (hanc : anc.toNat ≤ 2 ^ n)
    (hp : p + 1 ≤ n + Nat.clog 2 ad.toNat)
    (hq : 2 * (2 ^ p / anc.toNat) + 1 < 2 ^ (n + 1)) : (st.step ad anc).At ad anc (p + 1) := by
  have hdouble : 2 ^ (p + 1) = 2 * 2 ^ p := by rw [Nat.pow_succ, Nat.mul_comm]
  refine ⟨?_, ?_, ?_⟩
  · show st.p + 1 = p + 1
    rw [h.exponent]
  · rw [hdouble]
    exact h.byNc.double hpos (by omega) hq
  rw [hdouble]
  refine h.byDivisor.double (by omega) (by omega) ?_
  have hfits := multiplier_lt had hle.le hp
  unfold multiplier at hfits
  have hquo := (double_div_mod ad.toNat (2 ^ p) (by omega)).1
  rw [← hdouble] at hquo
  omega

/-- The loop ends after `clog 2 d` rounds at most. -/
theorem magicLoop_spec (had : 1 < ad.toNat) (hle : ad.toNat < 2 ^ n) (hpos : 0 < anc.toNat)
    (hanc : anc.toNat ≤ 2 ^ n)
    (hclog : anc.toNat * delta ad.toNat (n + Nat.clog 2 ad.toNat) < 2 ^ (n + Nat.clog 2 ad.toNat))
    {fuel p : Nat}
    (hst : st.At ad anc p) (hmore : p < n + Nat.clog 2 ad.toNat)
    (hq : 2 * (2 ^ p / anc.toNat) + 1 < 2 ^ (n + 1)) (hfuel : n + Nat.clog 2 ad.toNat ≤ p + fuel) :
    ∃ p' st', magicLoop ad anc fuel st = some st' ∧ st'.At ad anc p' ∧
      anc.toNat * delta ad.toNat p' < 2 ^ p' ∧ p < p' ∧
      p' ≤ n + Nat.clog 2 ad.toNat := by
  induction fuel generalizing p st with
  | zero => omega
  | succ fuel ih =>
    have hstep := hst.step had hle hpos hanc hmore hq
    have hiff := goesOn_iff hpos (by omega) hstep
    unfold magicLoop
    dsimp only
    split
    next hgoes =>
      have hbound := hiff.mp hgoes
      have hmore' : p + 1 < n + Nat.clog 2 ad.toNat := by
        refine lt_of_le_of_ne hmore fun heq => ?_
        rw [heq] at hbound
        omega
      have hq' : 2 * (2 ^ (p + 1) / anc.toNat) + 1 < 2 ^ (n + 1) := by
        have hdelta := delta_le ad.toNat (p + 1)
        have hquo : 2 ^ (p + 1) / anc.toNat ≤ delta ad.toNat (p + 1) := by
          rcases (le_mul_iff hpos).mp hbound with h | h
          · exact h.le
          · exact h.1.le
        omega
      obtain ⟨p', st', heq, hat, hexact, hlt', hle'⟩ := ih hstep hmore' hq' (by omega)
      exact ⟨p', st', heq, hat, hexact, by omega, hle'⟩
    next hstop =>
      have hexact : anc.toNat * delta ad.toNat (p + 1) < 2 ^ (p + 1) := by
        by_contra hnot
        exact hstop (hiff.mpr (not_lt.mp hnot))
      exact ⟨p + 1, _, rfl, hstep, hexact, by omega, hmore⟩

/-! ## The constants -/

/-- `nc` is at least half of the largest word. -/
theorem two_pow_div_nc_le {d : Nat} (hd : 1 < d) (hle : d < 2 ^ n) (hbig : 4 ≤ 2 ^ n) :
    0 < nc n d ∧ 2 ^ n / nc n d ≤ 2 := by
  obtain ⟨-, hrem, hnc⟩ := mod_of_nc_lt hd hle.le (nc_lt n d) le_rfl
  have hmod := Nat.mod_lt (2 ^ n) (by omega : 0 < d)
  have hpos : 0 < nc n d := by omega
  refine ⟨hpos, ?_⟩
  rw [← Nat.lt_succ_iff, Nat.div_lt_iff_lt_mul hpos]
  omega

theorem quoRem_start {a two : BitVec (n + 1)} {x : Nat} (htwo : two.toNat = x) :
    QuoRem (two / a) (two - two / a * a) a x := by
  have hdiv := Nat.div_mul_le_self x a.toNat
  have hmul : (two / a * a).toNat = x / a.toNat * a.toNat := by
    rw [toNat_mul_of_lt, toNat_udiv, htwo]
    rw [toNat_udiv, htwo]
    omega
  refine ⟨by rw [toNat_udiv, htwo], ?_⟩
  rw [toNat_sub_of_le (le_def.mpr (by omega)), hmul, htwo]
  have hmod := Nat.mod_add_div x a.toNat
  rw [Nat.mul_comm] at hmod
  omega

/-- The loop as it is started, for both signs of the divisor. -/
theorem magicLoop_start (hn : 2 ≤ n) {two t : BitVec (n + 1)} (htwo : two.toNat = 2 ^ n)
    (ht : t.toNat = 2 ^ n ∨ t.toNat = 2 ^ n + 1) (hd : 1 < ad.toNat) (hlt : ad.toNat < 2 ^ n)
    (hanc : anc = t - 1 - t % ad) :
    ∃ p st, magicLoop ad anc (n + 1)
      ⟨n, two / anc, two - two / anc * anc, two / ad, two - two / ad * ad⟩ = some st ∧
      st.p = p ∧ (st.q2 + 1).toNat = multiplier ad.toNat p ∧ n < p ∧ p ≤ n + Nat.clog 2 ad.toNat ∧
        Exact n ad.toNat p := by
  have hone : (1 : BitVec (n + 1)).toNat = 1 := toNat_one (by omega)
  have hbig : 4 ≤ 2 ^ n := by
    calc 4 = 2 ^ 2 := rfl
      _ ≤ 2 ^ n := Nat.pow_le_pow_right (by omega) hn
  have hbound : anc.toNat = searchBound t.toNat ad.toNat := by
    have hrem := Nat.mod_lt t.toNat (by omega : 0 < ad.toNat)
    have hsub : (t - 1).toNat = t.toNat - 1 := by
      rw [toNat_sub_of_le (le_def.mpr (by rw [hone]; omega)), hone]
    rw [hanc, toNat_sub_of_le (le_def.mpr (by rw [hsub, toNat_umod]; omega)), hsub,
      toNat_umod]
    rfl
  obtain ⟨hncpos, hncle⟩ := two_pow_div_nc_le hd hlt hbig
  have hnc : nc n ad.toNat ≤ anc.toNat := hbound ▸ nc_le_searchBound hd ht
  have hquo : 2 ^ n / anc.toNat ≤ 2 ^ n / nc n ad.toNat := Nat.div_le_div_left hnc hncpos
  have hclog : 0 < Nat.clog 2 ad.toNat := Nat.clog_pos one_lt_two hd
  have hclog' : Nat.clog 2 ad.toNat ≤ n := Nat.clog_le_of_le_pow hlt.le
  have hfuel : n + Nat.clog 2 ad.toNat ≤ n + (n + 1) := by omega
  have hstart :
    MagicState.At ad anc n ⟨n, two / anc, two - two / anc * anc, two / ad, two - two / ad * ad⟩ :=
    ⟨rfl, quoRem_start htwo, quoRem_start htwo⟩
  obtain ⟨p, st, heq, hat, hexact, hlow, hhigh⟩ :=
    magicLoop_spec hd hlt (by omega) (hbound ▸ searchBound_le hd ht)
    (hbound ▸ searchBound_clog (by omega) hd ht) hstart (by omega) (by omega) hfuel
  refine ⟨p, st, heq, hat.exponent, ?_, hlow, hhigh,
    .of_searchBound hd ht hlow.le (hbound ▸ hexact)⟩
  have hfits := multiplier_lt hd hlt.le hhigh
  unfold multiplier at hfits ⊢
  rw [toNat_add_of_lt (by rw [hat.byDivisor.quo, hone]; exact hfits), hat.byDivisor.quo, hone]

/-- The constants for a divisor other than 0, 1, -1 and the smallest word. The loop needs no more
rounds than there are bits. -/
theorem magicDivideConstants_spec (hn : 2 ≤ n) {d : BitVec (n + 1)} (hd : 1 < d.toInt.natAbs)
    (hmin : d.toInt ≠ -2 ^ n) :
    ∃ p, ∃ m : BitVec (n + 1), n < p ∧ p ≤ n + Nat.clog 2 d.toInt.natAbs ∧
      Exact n d.toInt.natAbs p ∧
      m.toNat = multiplier d.toInt.natAbs p ∧
        magicDivideConstants (n + 1) d = some (some (if d.slt 0 then -m else m, p - (n + 1))) := by
  have hword : 2 ^ (n + 1) = 2 * 2 ^ n := by rw [Nat.pow_succ, Nat.mul_comm]
  have hbig := Nat.two_pow_pos n
  have hlt := d.isLt
  have htwo : (BitVec.twoPow (n + 1) n).toNat = 2 ^ n := by
    rw [toNat_twoPow, Nat.mod_eq_of_lt (by omega)]
  have hcast : ((2 ^ n : Nat) : Int) = 2 ^ n := by push_cast; rfl
  have htoInt := toInt_eq_toNat_cond d
  have hnot : ¬ (d = 0 ∨ d = 1) := by
    rintro (rfl | rfl)
    · rw [show (0 : BitVec (n + 1)).toInt = 0 from toInt_zero] at hd
      exact absurd hd (by decide)
    · rw [show (1 : BitVec (n + 1)).toInt = 1 from toInt_one (by omega)] at hd
      exact absurd hd (by decide)
  unfold magicDivideConstants
  dsimp only
  rw [if_neg hnot, Nat.add_sub_cancel]
  have hshift :
      (d >>> n).toNat = d.toNat / 2 ^ n := by rw [toNat_ushiftRight, Nat.shiftRight_eq_div_pow]
  by_cases hpositive : (0#(n + 1)).slt d = true
  · have hpos := slt_iff_toInt_lt.mp hpositive
    rw [toInt_zero] at hpos
    have hnat : 2 * d.toNat < 2 ^ (n + 1) := by
      by_contra hge
      rw [if_neg hge] at htoInt
      omega
    rw [if_pos hnat] at htoInt
    have habs : d.toInt.natAbs = d.toNat := by omega
    have ht : (BitVec.twoPow (n + 1) n + d >>> n).toNat = 2 ^ n := by
      rw [Nat.div_eq_of_lt (by omega)] at hshift
      rw [toNat_add_of_lt (by omega), htwo, hshift, Nat.add_zero]
    rw [habs] at hd ⊢
    rw [if_pos hpositive]
    obtain ⟨p, st, heq, hexp, hm, hlow, hhigh, hexact⟩ :=
      magicLoop_start hn htwo (.inl ht) hd (by omega) rfl
    exact ⟨p, st.q2 + 1, hlow, hhigh, hexact, hm, by rw [heq, Option.map_some, hexp]⟩
  · have hneg : d.toInt < 0 := by
      rw [slt_iff_toInt_lt, toInt_zero] at hpositive
      omega
    have hnat : ¬ 2 * d.toNat < 2 ^ (n + 1) := by
      intro hlt'
      rw [if_pos hlt'] at htoInt
      omega
    rw [if_neg hnat] at htoInt
    have habs : d.toInt.natAbs = (-d).toNat := by
      rw [toNat_neg, Nat.mod_eq_of_lt (by omega)]
      omega
    have ht : (BitVec.twoPow (n + 1) n + d >>> n).toNat = 2 ^ n + 1 := by
      have hquo : d.toNat / 2 ^ n = 1 := by rw [Nat.div_eq_iff (by omega)]; omega
      rw [hquo] at hshift
      have hsmall : 4 ≤ 2 ^ n := by
        calc 4 = 2 ^ 2 := rfl
          _ ≤ 2 ^ n := Nat.pow_le_pow_right (by omega) hn
      rw [toNat_add_of_lt (by omega), htwo, hshift]
    rw [habs] at hd ⊢
    rw [if_neg hpositive]
    have hsmall : (-d).toNat < 2 ^ n := by
      rw [← habs]
      omega
    obtain ⟨p, st, heq, hexp, hm, hlow, hhigh, hexact⟩ :=
      magicLoop_start hn htwo (.inr ht) hd hsmall rfl
    exact ⟨p, st.q2 + 1, hlow, hhigh, hexact, hm, by rw [heq, Option.map_some, hexp]⟩

end Hotspot.DivNode
