-- SUMMARY: Fingerprints of signatures: their iteration makes the calls of the text's.
import Hotspot.Runtime.SignatureAgreement

/-!
# Fingerprints

A fingerprint packs a signature into 64 bits: a bit for `static`, four bits for the result, and four
bits for each parameter up to an end mark. Behind the first five bits it is a numeral in base 16,
and the iteration over a fingerprint reads its digits. -/

namespace Hotspot

open List SignatureIterator

/-- The values of `BasicType`. -/
def BasicType.value : BasicType → Nat
  | .boolean => 4
  | .char => 5
  | .float => 6
  | .double => 7
  | .byte => 8
  | .short => 9
  | .int => 10
  | .long => 11
  | .object => 12
  | .array => 13
  | .void => 14

/-! ## Fingerprinter -/

namespace Fingerprinter

/-- The size of a parameter feature. -/
def parameterFeatureSize : Nat := 4

def maxSizeOfParameters : Nat := (64 - 1 - 4 - parameterFeatureSize - 1) / parameterFeatureSize

/-- `bool_parm` to `obj_parm`. A parameter is not `void`. -/
def parm : BasicType → Nat
  | .boolean => 1
  | .byte => 2
  | .char => 3
  | .short => 4
  | .int => 5
  | .long => 6
  | .float => 7
  | .double => 8
  | .object | .array => 9
  | .void => 0

def doneParm : Nat := 10

/-- `fingerprint |= parm << shift_count`. -/
def put (fingerprint : BitVec 64) (parm shiftCount : Nat) : BitVec 64 :=
  fingerprint ||| (BitVec.ofNat 64 parm <<< shiftCount)

/-- One of the calls `do_bool` to `do_array`. -/
def visit (this : BitVec 64 × Nat) (t : BasicType) : Except Fault (BitVec 64 × Nat) :=
  if t = .void then throw .shouldNotReachHere
  else return (put this.1 (parm t) this.2, this.2 + parameterFeatureSize)

/-- `cached` is the fingerprint at the method, zero as long as there is none. -/
def fingerprint (sig : List UChar) (isStatic : Bool) (resultType : BasicType)
    (sizeOfParameters : Nat)
    (cached : BitVec 64) : Except Fault (BitVec 64) := do
  if cached ≠ 0 then return cached
  if sizeOfParameters > maxSizeOfParameters then return -1
  let start := (BitVec.ofNat 64 resultType.value <<< 1) ||| if isStatic then 1 else 0
  let it ← iterateParameters sig
  let this ← (it.calls.map fun c => c.2.type).foldlM visit (start, 5)
  return put this.1 doneParm this.2

end Fingerprinter

open Fingerprinter

namespace SignatureIterator

/-- The call for a feature. Objects have no place in the text. -/
def featureCall : Nat → Option Call
  | 1 => some (.basic .boolean)
  | 2 => some (.basic .byte)
  | 3 => some (.basic .char)
  | 4 => some (.basic .short)
  | 5 => some (.basic .int)
  | 6 => some (.basic .long)
  | 7 => some (.basic .float)
  | 8 => some (.basic .double)
  | 9 => some (.object 0 0)
  | _ => none

/-- `while (1)`. A fingerprint has no more than sixteen features that are not zero. -/
def featureLoop : Nat → BitVec 64 → SignatureIterator → Except Fault SignatureIterator
  | 0, _, _ => throw .diverges
  | fuel + 1, fingerprint, this => do
    let feature := (fingerprint &&& 0xF#64).toNat
    if feature = doneParm then return this
    match featureCall feature with
    | none => throw .shouldNotReachHere
    | some c =>
      featureLoop fuel (fingerprint >>> parameterFeatureSize)
        { this with
          parameterIndex := this.parameterIndex + c.type.size
          calls := this.calls ++ [(this.parameterIndex, c)] }

/-- `iterate_parameters` of a fingerprint. -/
def iterateFingerprint (sig : List UChar) (fingerprint : BitVec 64) :
    Except Fault SignatureIterator :=
  if fingerprint = -1 then iterateParameters sig else featureLoop 17 (fingerprint >>> 5) init

end SignatureIterator

/-! ## Packing -/

namespace Fingerprinter

/-- A fingerprint behind its first five bits. -/
def digits : List BasicType → Nat
  | [] => doneParm
  | t :: ts => parm t + 16 * digits ts

theorem parm_lt (t : BasicType) : parm t < 16 := by
  cases t <;> decide

theorem digits_pos (ts : List BasicType) : 0 < digits ts := by
  induction ts with
  | nil => decide
  | cons t ts ih => exact (Nat.mul_pos (by decide) ih).trans_le (Nat.le_add_left _ _)

theorem digits_lt (ts : List BasicType) : digits ts < 16 ^ (ts.length + 1) := by
  induction ts with
  | nil => decide
  | cons t ts ih =>
    have hparm := parm_lt t
    rw [digits, length_cons, Nat.pow_succ]
    omega

theorem toNat_put {x : BitVec 64} {p s : Nat} (hx : x.toNat < 2 ^ s) (hp : p < 16)
    (hs : s + 4 ≤ 64) :
    (put x p s).toNat = x.toNat + 2 ^ s * p := by
  have hfit : p * 2 ^ s < 2 ^ 64 := by
    calc p * 2 ^ s < 16 * 2 ^ s := Nat.mul_lt_mul_of_pos_right hp (Nat.two_pow_pos s)
      _ = 2 ^ (s + 4) := by rw [Nat.pow_add, Nat.mul_comm]
      _ ≤ 2 ^ 64 := Nat.pow_le_pow_right (by decide) hs
  rw [put, BitVec.toNat_or, BitVec.toNat_shiftLeft, BitVec.toNat_ofNat,
    Nat.mod_eq_of_lt (show p < 2 ^ 64 by omega),
    Nat.shiftLeft_eq, Nat.mod_eq_of_lt hfit, Nat.or_comm, ← Nat.shiftLeft_eq,
      ← Nat.shiftLeft_add_eq_or_of_lt hx,
    Nat.shiftLeft_eq, Nat.add_comm, Nat.mul_comm]

/-- The run of the packing: the digits of the parameters are put in front of what there is. -/
theorem foldlM_visit {ts : List BasicType} {x : BitVec 64} {s : Nat} (hts : BasicType.void ∉ ts)
    (hx : x.toNat < 2 ^ s) (hs : s + 4 * (ts.length + 1) ≤ 64) :
    ∃ this, ts.foldlM visit (x, s) = .ok this ∧
      (put this.1 doneParm this.2).toNat = x.toNat + 2 ^ s * digits ts := by
  induction ts generalizing x s with
  | nil => exact ⟨_, rfl, toNat_put hx (by decide) hs⟩
  | cons t ts ih =>
    rw [mem_cons, not_or] at hts
    rw [length_cons] at hs
    have hput := toNat_put hx (parm_lt t) (by omega)
    have hlt : (put x (parm t) s).toNat < 2 ^ (s + 4) := by
      have hparm := Nat.mul_le_mul_left (2 ^ s) (Nat.le_of_lt_succ (parm_lt t))
      rw [hput, Nat.pow_add]
      omega
    obtain ⟨this, hrun, hsum⟩ := ih hts.2 hlt (by omega)
    refine ⟨this, ?_, ?_⟩
    · rw [foldlM_cons, visit, if_neg (Ne.symm hts.1)]
      exact hrun
    · rw [hsum, hput, digits, Nat.pow_add]
      ring

end Fingerprinter

/-! ## Unpacking -/

namespace SignatureIterator

/-- A fingerprint does not tell arrays from objects. -/
def asObject (c : Int × BasicType) : Int × BasicType := (c.1, if c.2 = .array then .object else c.2)

/-- A call, as both iterations make it. -/
def typed (c : Int × Call) : Int × BasicType := asObject (c.1, c.2.type)

theorem featureCall_parm {t : BasicType} (ht : t ≠ .void) :
    ∃ c, featureCall (parm t) = some c ∧ c.type.size = t.size ∧ parm t ≠ doneParm ∧
      ∀ i, typed (i, c) = asObject (i, t) := by
  cases t with
  | void => exact absurd rfl ht
  | _ => exact ⟨_, rfl, rfl, by decide, fun _ => rfl⟩

theorem toNat_feature (fp : BitVec 64) : (fp &&& 0xF#64).toNat = fp.toNat % 16 := by
  exact Nat.and_two_pow_sub_one_eq_mod _ 4

/-- The run of the unpacking: it reads one digit after the other. -/
theorem featureLoop_digits {ts : List BasicType} {fuel : Nat} {fp : BitVec 64}
    (this : SignatureIterator)
    (hts : BasicType.void ∉ ts) (hfuel : ts.length < fuel) (hdigits : fp.toNat = digits ts) :
    ∃ it, featureLoop fuel fp this = .ok it ∧ it.calls.map typed = this.calls.map typed ++
      (indexed this.parameterIndex ts).map asObject := by
  induction ts generalizing fuel fp this with
  | nil =>
    obtain ⟨fuel, rfl⟩ := Nat.exists_eq_succ_of_ne_zero hfuel.ne'
    rw [featureLoop, toNat_feature, hdigits]
    exact ⟨this, rfl, (append_nil _).symm⟩
  | cons t ts ih =>
    obtain ⟨fuel, rfl⟩ := Nat.exists_eq_succ_of_ne_zero (Nat.ne_of_gt (Nat.zero_lt_of_lt hfuel))
    rw [mem_cons, not_or] at hts
    obtain ⟨c, hcall, hsize, hdone, htyped⟩ := featureCall_parm (Ne.symm hts.1)
    have hparm := parm_lt t
    have hhead : digits (t :: ts) % 16 = parm t := by
      rw [digits]
      omega
    have htail : (fp >>> parameterFeatureSize).toNat = digits ts := by
      rw [BitVec.toNat_ushiftRight, hdigits, digits, Nat.shiftRight_eq_div_pow,
        parameterFeatureSize]
      omega
    obtain ⟨it, hrun, hcalls⟩ := ih { this with
      parameterIndex := this.parameterIndex + c.type.size
      calls := this.calls ++ [(this.parameterIndex, c)] } hts.2 (Nat.lt_of_succ_lt_succ hfuel) htail
    refine ⟨it, ?_, ?_⟩
    · rw [featureLoop, toNat_feature, hdigits, hhead, if_neg hdone, hcall]
      exact hrun
    · rw [hcalls, map_append, map_singleton, htyped, hsize, indexed, map_cons, append_assoc]
      rfl

end SignatureIterator

/-! ## Agreement -/

theorem BasicType.size_pos {t : BasicType} (ht : t ≠ .void) : 0 < t.size := by
  cases t with
  | void => exact absurd rfl ht
  | _ => decide

theorem length_le_paramSize (m : MethodType) : m.params.length ≤ m.paramSize := by
  rw [MethodType.paramSize, ← length_map (f := fun f : FieldType => f.type.size)]
  refine length_le_sum_of_one_le _ fun n hn => ?_
  obtain ⟨f, -, rfl⟩ := mem_map.mp hn
  exact BasicType.size_pos f.type_ne_void

/-- For each signature, the fingerprint is not zero, it is all ones exactly if there are too many
arguments, and the iteration over it makes the calls of the iteration over the text at the same
parameter indices. -/
theorem iterateFingerprint_eq (m : MethodType) (isStatic : Bool) (resultType : BasicType) :
    let sizeOfParameters := m.paramSize + if isStatic then 0 else 1
    ∃ fp it it', fingerprint m.text isStatic resultType sizeOfParameters 0 = .ok fp ∧
      iterateParameters m.text = .ok it ∧ iterateFingerprint m.text fp = .ok it' ∧
      it'.calls.map typed = it.calls.map typed ∧ fp ≠ 0 ∧
        (fp = -1 ↔ maxSizeOfParameters < sizeOfParameters) ∧
      fingerprint m.text isStatic resultType sizeOfParameters fp = .ok fp := by
  intro sizeOfParameters
  obtain ⟨it, hit, htypes, hcalls⟩ := iterateParameters_text m
  have hcached : ∀ fp : BitVec 64, fp ≠ 0 →
    fingerprint m.text isStatic resultType sizeOfParameters fp = .ok fp :=
    fun fp hfp => if_pos hfp
  by_cases hmany : maxSizeOfParameters < sizeOfParameters
  · exact ⟨-1, it, it, if_pos hmany, hit, hit, rfl, by decide, iff_of_true rfl hmany,
      hcached _ (by decide)⟩
  have hvoid : BasicType.void ∉ m.params.map FieldType.type := by
    rw [mem_map]
    rintro ⟨f, -, hf⟩
    exact f.type_ne_void hf
  have hlength : (m.params.map FieldType.type).length ≤ 13 := by
    have hle := length_le_paramSize m
    have hmax : maxSizeOfParameters = 13 := rfl
    rw [length_map]
    omega
  have hstart : ((BitVec.ofNat 64 resultType.value <<< 1) ||| if isStatic then 1 else 0).toNat <
      2 ^ 5 := by
    cases resultType <;> cases isStatic <;> decide
  obtain ⟨this, hrun, hsum⟩ := foldlM_visit hvoid hstart (by omega)
  generalize hfp : put this.1 doneParm this.2 = fp at hsum
  have hpos := digits_pos (m.params.map FieldType.type)
  have hlt : digits (m.params.map FieldType.type) < 16 ^ 14 :=
    (digits_lt _).trans_le (Nat.pow_le_pow_right (by decide) (by omega))
  have hdigits : (fp >>> 5).toNat = digits (m.params.map FieldType.type) := by
    rw [BitVec.toNat_ushiftRight, Nat.shiftRight_eq_div_pow]
    omega
  have hzero : fp ≠ 0 := by
    rintro rfl
    rw [show (0 : BitVec 64).toNat = 0 from rfl] at hsum
    omega
  have hones : fp ≠ -1 := by
    rintro rfl
    rw [show (-1 : BitVec 64).toNat = 2 ^ 64 - 1 from rfl] at hsum
    omega
  obtain ⟨it', hrun', hcalls'⟩ := featureLoop_digits init hvoid (show _ < 17 by omega) hdigits
  refine ⟨fp, it, it', ?_, hit, (if_neg hones).trans hrun', ?_, hzero, iff_of_false hones hmany,
    hcached fp hzero⟩
  · simp only [fingerprint, ne_eq, not_true_eq_false, if_false, if_neg hmany, hit, ok_bind, htypes,
      hrun, hfp]
    rfl
  · rw [hcalls', show it.calls.map typed = (it.calls.map fun c => (c.1, c.2.type)).map asObject by
      rw [map_map]; rfl, hcalls]
    rfl

end Hotspot
