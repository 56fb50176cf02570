-- SUMMARY: Relocation records as packets: their half-words, the writer and the iterator.
import Hotspot.Base.Except
import Hotspot.Code.RelocInfo

/-!
# Packets

A packet is one record with its prefix. What the iterator gets from the half-words of a list
of packets is the list of the packets themselves, each at the sum of the offsets so far.
-/

namespace Hotspot.Asm

open List

open BitVec hiding and_self append_assoc cons_append

/-! ## Bit fields -/

theorem offsetUnit_pos (p : Platform) : 0 < p.offsetUnit := by
  cases p <;> decide

theorem offsetLimit_eq (p : Platform) : p.offsetLimit = 2 ^ p.offsetWidth * p.offsetUnit := by
  rw [Platform.offsetLimit, Nat.one_shiftLeft]

namespace RelocInfo

variable {p : Platform} {t : RelocType} {units format : Nat} (t : RelocType)

theorem toNat_ofBits {bits : Nat} (h : bits < 2 ^ nontypeWidth) :
    (ofBits t bits).toNat = t.code * 2 ^ nontypeWidth + bits := by
  have := t.code_lt
  simp only [nontypeWidth] at h
  rw [ofBits, toNat_ofNat, nontypeWidth, Nat.shiftLeft_eq]
  omega

section

variable (hu : units < 2 ^ p.offsetWidth) (hf : format < 2 ^ p.formatWidth)

include hu hf

theorem toNat_ofOffset : (ofOffset p t (units * p.offsetUnit) format).toNat =
      t.code * 2 ^ nontypeWidth + format * 2 ^ p.offsetWidth + units := by
  have := t.code_lt
  rw [ofOffset, toNat_ofNat, Nat.mul_div_cancel _ (offsetUnit_pos p), Nat.shiftLeft_eq, Nat.shiftLeft_eq]
  cases p <;> simp only [Platform.offsetWidth, Platform.formatWidth, nontypeWidth] at * <;> omega

theorem type_ofOffset : (ofOffset p t (units * p.offsetUnit) format).type = t := by
  have hdiv : (t.code * 2 ^ nontypeWidth + format * 2 ^ p.offsetWidth + units) /
      2 ^ nontypeWidth = t.code := by
    cases p <;> simp only [Platform.offsetWidth, Platform.formatWidth, nontypeWidth] at * <;> omega
  rw [type, toNat_ofOffset t hu hf, Nat.shiftRight_eq_div_pow, hdiv, RelocType.ofCode_code]

theorem format_ofOffset : (ofOffset p t (units * p.offsetUnit) format).format p = format := by
  rw [RelocInfo.format, toNat_ofOffset t hu hf, Nat.shiftRight_eq_div_pow, Platform.formatMask,
    Nat.one_shiftLeft, Nat.and_comm, Nat.and_two_pow_sub_one_eq_mod]
  cases p <;> simp only [Platform.offsetWidth, Platform.formatWidth, nontypeWidth] at * <;>
    simp <;> omega

theorem addrOffset_ofOffset : (ofOffset p t (units * p.offsetUnit) format).addrOffset p = units * p.offsetUnit := by
  rw [addrOffset, toNat_ofOffset t hu hf, Platform.offsetMask, Nat.one_shiftLeft,
    Nat.and_two_pow_sub_one_eq_mod]
  congr 1
  cases p <;> simp only [Platform.offsetWidth, Platform.formatWidth, nontypeWidth] at * <;> omega

end

theorem isPrefix_ofOffset {t : RelocType} (ht : t ≠ .dataPrefixTag)
    (hu : units < 2 ^ p.offsetWidth) (hf : format < 2 ^ p.formatWidth) :
    (ofOffset p t (units * p.offsetUnit) format).isPrefix = false := by
  rw [isPrefix, type_ofOffset t hu hf]
  exact decide_eq_false ht

theorem isDatalen_eq (v : RelocInfo) : v.isDatalen = decide (v.toNat / 2048 % 2 = 1) := by
  have htag : datalenTag = 2 ^ 11 := by decide
  rw [isDatalen, htag, Nat.and_comm, Nat.two_pow_and, Nat.testBit_eq_decide_div_mod_eq]
  by_cases h : v.toNat / 2048 % 2 = 1 <;> simp [h]

theorem datalen_eq (v : RelocInfo) : v.datalen = v.toNat % 2048 := by
  have hmask : datalenMask = 2 ^ 11 - 1 := by decide
  rw [datalen, hmask, Nat.and_two_pow_sub_one_eq_mod]

end RelocInfo

open RelocInfo BufferM

section Prefixes

theorem toNat_prefixRelocInfo {n : Nat} (h : n < datalenLimit) :
    (prefixRelocInfo n).toNat = 15 * 4096 + 2048 + n := by
  have hlimit : datalenLimit = 2 ^ 11 := by decide
  have hor : datalenTag ||| n = 2048 + n := by
    have := Nat.two_pow_add_eq_or_of_lt (i := 11) (hlimit ▸ h) 1
    simpa [datalenTag, datalenWidth, nontypeWidth] using this.symm
  rw [prefixRelocInfo, hor, toNat_ofBits _ (by rw [hlimit] at h; simp [nontypeWidth]; omega)]
  simp [RelocType.code, nontypeWidth]
  omega

theorem fitsIntoImmediate_iff (d : JShort) : fitsIntoImmediate d = true ↔ d.toNat < 2048 := by
  have hlimit : datalenLimit = 2048 := by decide
  have := d.isLt
  simp only [fitsIntoImmediate, hlimit, decide_eq_true_eq, toInt_eq_toNat_cond]
  split <;> omega

theorem toNat_immediateRelocInfo {d : JShort} (h : fitsIntoImmediate d = true) :
    (immediateRelocInfo d).toNat = 15 * 4096 + d.toNat := by
  have hd := (fitsIntoImmediate_iff d).mp h
  rw [immediateRelocInfo, toNat_ofBits _ (by simp [nontypeWidth]; omega)]
  simp [RelocType.code, nontypeWidth]

theorem isPrefix_of_toNat {v : RelocInfo} (h : 15 * 4096 ≤ v.toNat) : v.isPrefix = true := by
  have := v.isLt
  have hshift : v.toNat >>> nontypeWidth = 15 := by
    rw [Nat.shiftRight_eq_div_pow, nontypeWidth]
    omega
  simp [isPrefix, RelocInfo.type, hshift, RelocType.ofCode]

end Prefixes

/-! ## The writer -/

def varIntShorts (x : JInt) : List JShort :=
  if isShort x then [x.setWidth 16] else [data0FromInt x, data1FromInt x]

/-- The half-words into which the data of a relocation are packed. -/
def RelocData.shorts : RelocData → List JShort
  | .noData => []
  | .oneInt x0 => if x0 ≠ 0 then varIntShorts x0 else []
  | .twoInts x0 x1 =>
    if x0 = 0 ∧ x1 = 0 then []
    else if isShort x0 ∧ isShort x1 then
      [x0.setWidth 16] ++ if x1 ≠ 0 then [x1.setWidth 16] else []
    else [data0FromInt x0, data1FromInt x0] ++ varIntShorts x1

theorem varIntShorts_length_le (x : JInt) : (varIntShorts x).length ≤ 2 := by
  rw [varIntShorts]
  split <;> simp

theorem RelocData.shorts_length_le (d : RelocData) : d.shorts.length ≤ 4 := by
  cases d with
  | noData => simp [shorts]
  | oneInt x0 =>
    have := varIntShorts_length_le x0
    simp only [shorts]
    split <;> simp; omega
  | twoInts x0 x1 =>
    have := varIntShorts_length_le x1
    simp only [shorts]
    split
    · simp
    · split
      · rw [singleton_append, length_cons]
        split <;> simp
      · simp only [cons_append, nil_append, length_cons]
        omega

/-- The half-words of a prefix. -/
def prefixWords (data : List JShort) : List RelocInfo :=
  match data with
  | [] => []
  | [d] => if fitsIntoImmediate d then [immediateRelocInfo d] else [prefixRelocInfo 1, d]
  | data => prefixRelocInfo data.length :: data

/-- Is a prefix with these data more than a count or an immediate value? -/
def Counted (data : List JShort) : Prop :=
  ∃ d ds, data = d :: ds ∧ ¬ (data.length = 1 ∧ fitsIntoImmediate d = true)

theorem counted_cases (dt : List JShort) :
    dt = [] ∨ (∃ d, dt = [d] ∧ fitsIntoImmediate d = true) ∨ Counted dt := by
  match dt with
  | [] => exact .inl rfl
  | [d] =>
    by_cases hfits : fitsIntoImmediate d = true
    · exact .inr (.inl ⟨d, rfl, hfits⟩)
    · exact .inr (.inr ⟨d, [], rfl, fun h => hfits h.2⟩)
  | d :: d' :: ds => exact .inr (.inr ⟨d, d' :: ds, rfl, fun h => by simp at h⟩)

theorem prefixWords_counted {dt : List JShort} (h : Counted dt) :
    prefixWords dt = prefixRelocInfo dt.length :: dt := by
  obtain ⟨d, ds, rfl, hfits⟩ := h
  match ds with
  | [] =>
    have : ¬ fitsIntoImmediate d = true := fun h => hfits ⟨rfl, h⟩
    simp [prefixWords, this]
  | d' :: ds => rfl

section Finish

variable {b : Buffer RelocInfo} {c : List RelocInfo} {hdr : RelocInfo}

theorem finishReloc_nil (h : b.contents = c ++ [hdr]) : finishReloc c.length b = some ((), b) := by
  have hcount : b.count = c.length + 1 := by rw [← b.contents_length, h]; simp
  simp [finishReloc, size, hcount]

/-- A small number moves into the prefix, and the record takes its place. -/
theorem finishReloc_immediate {d : JShort} (h : b.contents = c ++ [hdr, d])
    (hfits : fitsIntoImmediate d = true) : ∃ b', finishReloc c.length b = some ((), b') ∧
      b'.contents = c ++ [immediateRelocInfo d, hdr] ∧ b'.capacity = b.capacity := by
  have hcount : b.count = c.length + 2 := by rw [← b.contents_length, h]; simp
  have hread : read c.length b = some (hdr, b) := Buffer.read_eq h
  have hread' : read (c.length + 1) b = some (d, b) := by
    have h' : b.contents = (c ++ [hdr]) ++ d :: [] := by simpa using h
    simpa using Buffer.read_eq h'
  obtain ⟨b1, hrewrite, h1, hcap1⟩ := Buffer.rewrite_eq (immediateRelocInfo d) h
  have h1' : b1.contents = (c ++ [immediateRelocInfo d]) ++ [d] := by simpa using h1
  obtain ⟨b2, htruncate, h2, hcap2⟩ := Buffer.truncate_eq h1'
  have hcount2 : b2.count = c.length + 1 := by rw [← b2.contents_length, h2]; simp
  have hfit := b.fits
  obtain ⟨b3, hpush, h3, hcap3⟩ := (Appends.push b2 hdr).room (by
    simp only [length_cons, length_nil]
    omega)
  refine ⟨b3, ?_, by rw [h3, h2]; simp, by rw [hcap3, hcap2, hcap1]⟩
  rw [length_append, length_singleton] at htruncate
  have hplen : c.length + 2 - (c.length + 1) = 1 := by omega
  have hmore : c.length + 2 > c.length + 1 := by omega
  simp only [finishReloc, finishPrefix, size, bind_apply, Option.bind_some, hcount,
    hmore, if_true, hread, hplen, one_ne_zero, if_false, hread', hfits, and_self, hrewrite,
    pure_apply, htruncate, hpush]

/-- Other data stay where they are, and the record is added after them. -/
theorem finishReloc_counted {dt : List JShort} (h : b.contents = c ++ hdr :: dt)
    (hdata : Counted dt) : (b.count < b.capacity → ∃ b', finishReloc c.length b = some ((), b') ∧
      b'.contents = c ++ prefixRelocInfo dt.length :: dt ++ [hdr] ∧
      b'.capacity = b.capacity) ∧ (b.count = b.capacity → finishReloc c.length b = none) := by
  obtain ⟨d, ds, rfl, hfits⟩ := hdata
  have hcount : b.count = c.length + 1 + (ds.length + 1) := by
    rw [← b.contents_length, h]
    simp only [length_append, length_cons]
    omega
  have hread : read c.length b = some (hdr, b) := Buffer.read_eq h
  have hread' : read (c.length + 1) b = some (d, b) := by
    have h' : b.contents = (c ++ [hdr]) ++ d :: ds := by simpa using h
    simpa using Buffer.read_eq h'
  obtain ⟨b1, hrewrite, h1, hcap1⟩ := Buffer.rewrite_eq (prefixRelocInfo (ds.length + 1)) h
  obtain ⟨b2, htruncate, h2, hcap2⟩ := Buffer.truncate_eq b1.contents.append_nil.symm
  have hcount1 : b1.count = b.count := by
    rw [← b1.contents_length, h1, hcount]
    simp only [length_append, length_cons]
    omega
  have hcount2 : b2.count = b.count := by rw [← b2.contents_length, h2, b1.contents_length, hcount1]
  rw [b1.contents_length, hcount1] at htruncate
  have hrun : finishReloc c.length b = push hdr b2 := by
    have hplen : c.length + 1 + (ds.length + 1) - (c.length + 1) = ds.length + 1 := by omega
    have hmore : c.length + 1 + (ds.length + 1) > c.length + 1 := by omega
    have hno : ¬ (ds.length + 1 = 1 ∧ fitsIntoImmediate d = true) := by simpa using hfits
    rw [hcount] at htruncate
    simp only [finishReloc, finishPrefix, size, bind_apply, Option.bind_some,
      hcount, hmore, if_true, hread, hplen, Nat.succ_ne_zero, if_false, hread', hno, hrewrite,
      pure_apply, htruncate]
  constructor
  · intro hlt
    obtain ⟨b3, hpush, h3, hcap3⟩ := (Appends.push b2 hdr).room (by
      rw [hcount2, hcap2, hcap1]
      exact hlt)
    exact ⟨b3, hrun.trans hpush, by rw [h3, h2, h1]; simp, by rw [hcap3, hcap2, hcap1]⟩
  · intro heq
    rw [hrun]
    apply (Appends.push b2 hdr).full
    rw [hcount2, hcap2, hcap1, heq]
    exact Nat.lt_succ_self _

end Finish

section Writer

variable (b : Buffer RelocInfo)

theorem appends_addJint (x : JInt) : Appends (addJint x) b [data0FromInt x, data1FromInt x] () :=
  (Appends.push b _).bind fun b' _ _ => Appends.push b' _

theorem appends_addVarInt (x : JInt) : Appends (addVarInt x) b (varIntShorts x) () := by
  rw [addVarInt, varIntShorts]
  split
  · exact Appends.push b _
  · exact appends_addJint b x

theorem appends_packDataTo (d : RelocData) : Appends (packDataTo d) b d.shorts () := by
  cases d with
  | noData => exact Appends.pure b ()
  | oneInt x0 =>
    simp only [packDataTo, pack1IntTo, RelocData.shorts]
    split
    · exact appends_addVarInt b x0
    · exact Appends.pure b ()
  | twoInts x0 x1 =>
    simp only [packDataTo, pack2IntsTo, RelocData.shorts]
    split
    · exact Appends.pure b ()
    split
    · refine (Appends.push b _).bind fun b' _ _ => ?_
      split
      · exact Appends.push b' _
      · exact Appends.pure b' ()
    · exact (appends_addJint b x0).bind fun b' _ _ => appends_addVarInt b' x1

/-- A record is written with its prefix in front. -/
theorem appends_record (hdr : RelocInfo) (d : RelocData) :
    Appends (push hdr >>= fun _ => initializeReloc b.count d) b
      (prefixWords d.shorts ++ [hdr]) () := by
  have hpack : Appends (push hdr >>= fun _ => packDataTo d) b
      ([hdr] ++ d.shorts) () :=
    (Appends.push b hdr).bind fun b' _ _ => appends_packDataTo b' d
  have hsplit : (push hdr >>= fun _ => initializeReloc b.count d) b =
      ((push hdr >>= fun _ => packDataTo d) b).bind fun r => finishReloc b.count r.2 := by
    simp [bind_apply, initializeReloc, Option.bind_assoc]
  rcases hpack.eq_none_or with ⟨hroom, b1, hrun, h1, hcap1⟩ | ⟨hfull, hrun⟩
  · have hcount1 := Appends.count_eq h1
    rw [length_append, length_singleton] at hcount1 hroom
    rw [hrun, Option.bind_some] at hsplit
    rcases counted_cases d.shorts with hdata | ⟨x, hdata, hfits⟩ | hdata
    · rw [hdata] at h1 hroom ⊢
      have hfinish := finishReloc_nil h1
      rw [b.contents_length] at hfinish
      exact ⟨fun _ => ⟨b1, hsplit.trans hfinish, h1, hcap1⟩, fun h => absurd hroom (Nat.not_le.mpr h)⟩
    · rw [hdata] at h1 hroom ⊢
      obtain ⟨b', hb', hc', hcap'⟩ := finishReloc_immediate h1 hfits
      rw [b.contents_length] at hb'
      have hwords : prefixWords [x] ++ [hdr] = [immediateRelocInfo x, hdr] := by
        simp [prefixWords, hfits]
      rw [hwords]
      exact ⟨fun _ => ⟨b', hsplit.trans hb', hc', hcap'.trans hcap1⟩,
        fun h => absurd hroom (Nat.not_le.mpr h)⟩
    · -- the record itself needs one more half-word
      have hfinish := finishReloc_counted h1 hdata
      rw [b.contents_length, hcap1] at hfinish
      rw [prefixWords_counted hdata]
      constructor
      · intro h
        simp only [length_append, length_cons, length_nil] at h
        obtain ⟨b', hb', hc', hcap'⟩ := hfinish.1 (by omega)
        exact ⟨b', hsplit.trans hb', by rw [hc']; simp, hcap'⟩
      · intro h
        simp only [length_append, length_cons, length_nil] at h
        exact hsplit.trans (hfinish.2 (by omega))
  · have hlong : ([hdr] ++ d.shorts).length ≤ (prefixWords d.shorts ++ [hdr]).length := by
      rcases counted_cases d.shorts with hdata | ⟨x, hdata, hfits⟩ | hdata
      · simp [hdata, prefixWords]
      · simp [hdata, prefixWords, hfits]
      · simp [prefixWords_counted hdata]
    rw [hrun, Option.bind_none] at hsplit
    exact ⟨fun h => absurd hfull (by omega), fun _ => hsplit⟩

end Writer

/-! ## Unpacking -/

theorem signExtend_setWidth {x : JInt} (h : isShort x = true) :
    (x.setWidth 16).signExtend 32 = x := by
  simpa [isShort, eq_comm] using h

theorem jintFromData_fromInt (x : JInt) : jintFromData (data0FromInt x) (data1FromInt x) = x := by
  -- the two halves have no bits in common
  have hor : jintFromData (data0FromInt x) (data1FromInt x) =
      ((data0FromInt x).signExtend 32 <<< 16) ||| (data1FromInt x).setWidth 32 := by
    apply add_eq_or_of_and_eq_zero
    apply eq_of_getLsbD_eq
    intro i hi
    simp only [data1FromInt, getLsbD_and, getLsbD_shiftLeft, getLsbD_setWidth,
      getLsbD_zero]
    by_cases hlow : i < 16 <;> simp [hlow]
  rw [hor]
  apply eq_of_getLsbD_eq
  intro i hi
  simp only [data0FromInt, data1FromInt, getLsbD_or, getLsbD_shiftLeft,
    getLsbD_signExtend, getLsbD_setWidth, getLsbD_sshiftRight]
  by_cases hlow : i < 16
  · simp [hlow, hi]
  · have hhalf : i - 16 < 16 := by omega
    simp [hlow, hi, hhalf, show i - 16 < 32 by omega, show 16 + (i - 16) = i by omega]

/-- The data that are read are those that were written. -/
theorem unpackData_shorts (d : RelocData) : unpackData d.kind d.shorts = d := by
  cases d with
  | noData => rfl
  | oneInt x0 =>
    simp only [RelocData.kind, unpackData, unpack1Int, RelocData.shorts, varIntShorts]
    by_cases h0 : x0 = 0
    · simp [h0, jintDataAt, shortDataAt]
    · rw [if_pos h0]
      by_cases hs : isShort x0 = true
      · simp [hs, jintDataAt, shortDataAt, signExtend_setWidth hs]
      · simp [hs, jintDataAt, jintFromData_fromInt]
  | twoInts x0 x1 =>
    simp only [RelocData.kind, unpackData, unpack2Ints, RelocData.shorts, varIntShorts]
    by_cases h0 : x0 = 0 ∧ x1 = 0
    · simp [h0.1, h0.2, shortDataAt]
    rw [if_neg h0]
    by_cases hs : isShort x0 = true ∧ isShort x1 = true
    · rw [if_pos hs]
      by_cases h1 : x1 = 0
      · simp [h1, shortDataAt, signExtend_setWidth hs.1]
      · rw [if_pos h1]
        simp [shortDataAt, signExtend_setWidth hs.1, signExtend_setWidth hs.2]
    · rw [if_neg hs]
      by_cases hs1 : isShort x1 = true
      · simp [hs1, jintDataAt, shortDataAt, jintFromData_fromInt, signExtend_setWidth hs1]
      · simp [hs1, jintDataAt, jintFromData_fromInt]

/-! ## Packets -/

/-- One record, with its offset in units and the data of its prefix. -/
structure Packet (p : Platform) where
  type : RelocType
  units : Nat
  format : Nat
  data : List JShort
  type_ne : type ≠ .dataPrefixTag
  units_lt : units < 2 ^ p.offsetWidth
  format_lt : format < 2 ^ p.formatWidth
  data_lt : data.length < datalenLimit

namespace Packet

variable {p : Platform}

def header (k : Packet p) : RelocInfo := .ofOffset p k.type (k.units * p.offsetUnit) k.format

def words (k : Packet p) : List RelocInfo := prefixWords k.data ++ [k.header]

/-- The distance from the record before. -/
def offset (k : Packet p) : Nat := k.units * p.offsetUnit

/-- What the iterator shows of the packet after a record at `addr`. -/
def locate (k : Packet p) (addr : Nat) : Located := ⟨addr + k.offset, k.type, k.format, k.data⟩

/-- A packet without data. -/
def filler (p : Platform) (units : Nat) (h : units < 2 ^ p.offsetWidth) : Packet p :=
  ⟨.none, units, 0, [], by decide, h, Nat.two_pow_pos _, by decide⟩

end Packet

open Packet

/-- What the iterator shows of a list of packets. -/
def locateAll {p : Platform} (addr : Nat) : List (Packet p) → List Located
  | [] => []
  | k :: ks => k.locate addr :: locateAll (addr + k.offset) ks

/-- The address of the last packet. -/
def lastAddr {p : Platform} (addr : Nat) : List (Packet p) → Nat
  | [] => addr
  | k :: ks => lastAddr (addr + k.offset) ks

section Packets

variable {p : Platform}

theorem locateAll_append (addr : Nat) (ks ls : List (Packet p)) :
    locateAll addr (ks ++ ls) = locateAll addr ks ++ locateAll (lastAddr addr ks) ls := by
  induction ks generalizing addr with
  | nil => rfl
  | cons k ks ih => simp [locateAll, lastAddr, ih]

theorem lastAddr_append (addr : Nat) (ks ls : List (Packet p)) :
    lastAddr addr (ks ++ ls) = lastAddr (lastAddr addr ks) ls := by
  induction ks generalizing addr with
  | nil => rfl
  | cons k ks ih => simp [lastAddr, ih]

theorem le_of_mem_locateAll {addr : Nat} {ks : List (Packet p)} {r : Located}
    (h : r ∈ locateAll addr ks) : addr ≤ r.addr := by
  induction ks generalizing addr with
  | nil => cases h
  | cons k ks ih =>
    rcases mem_cons.mp h with rfl | h
    · exact Nat.le_add_right _ _
    · exact (Nat.le_add_right _ _).trans (ih h)

theorem le_of_mem_locateAll_cons {addr : Nat} {k : Packet p} {ks : List (Packet p)} {r : Located}
    (h : r ∈ locateAll addr (k :: ks)) : addr + k.offset ≤ r.addr := by
  rcases mem_cons.mp h with rfl | h
  · exact le_rfl
  · exact le_of_mem_locateAll h

theorem words_ne_nil (k : Packet p) : k.words ≠ [] := by
  simp [words]

theorem length_le_flatMap_words (ks : List (Packet p)) : ks.length ≤ (ks.flatMap words).length := by
  induction ks with
  | nil => simp
  | cons k ks ih =>
    have := length_pos_of_ne_nil (words_ne_nil k)
    simp only [flatMap_cons, length_append, length_cons]
    omega

end Packets

/-! ## The iterator on packets -/

namespace RelocIterator

variable {p : Platform}

/-- A prefix gives back its data. -/
theorem next_prefixed {dt : List JShort} (hne : dt ≠ []) (hlt : dt.length < datalenLimit)
    (hdr : RelocInfo) (tail : List RelocInfo) (addr : Nat) (l : Option Nat) :
    next p ⟨prefixWords dt ++ hdr :: tail, addr, l⟩ =
      some (settle p ⟨prefixWords dt ++ hdr :: tail, addr, l⟩ dt hdr tail) := by
  -- a prefix with a count is read by its count, whatever the data
  have hcount : prefixWords dt = prefixRelocInfo dt.length :: dt →
      next p ⟨prefixWords dt ++ hdr :: tail, addr, l⟩ =
        some (settle p ⟨prefixWords dt ++ hdr :: tail, addr, l⟩ dt hdr tail) := by
    intro heq
    have hnat := toNat_prefixRelocInfo hlt
    have hpre : (prefixRelocInfo dt.length).isPrefix = true :=
      isPrefix_of_toNat (by rw [hnat]; omega)
    have hdatalen : (prefixRelocInfo dt.length).isDatalen = true := by
      rw [isDatalen_eq, hnat, decide_eq_true_eq]
      omega
    have hlen : (prefixRelocInfo dt.length).datalen = dt.length := by
      rw [datalen_eq, hnat]
      omega
    rw [heq]
    simp [next, hpre, advanceOverPrefix, hdatalen, hlen]
  match dt, hne with
  | [d], _ =>
    by_cases hfits : fitsIntoImmediate d = true
    · have hd := (fitsIntoImmediate_iff d).mp hfits
      have hnat := toNat_immediateRelocInfo hfits
      have hpre : (immediateRelocInfo d).isPrefix = true :=
        isPrefix_of_toNat (by rw [hnat]; omega)
      have hdatalen : (immediateRelocInfo d).isDatalen = false := by
        rw [isDatalen_eq, hnat, decide_eq_false_iff_not]
        omega
      have himm : (immediateRelocInfo d).immediate = d := by
        have hlow : (immediateRelocInfo d).toNat &&& datalenMask = d.toNat := by
          have := datalen_eq (immediateRelocInfo d)
          rw [datalen, hnat] at this
          rw [hnat, this]
          omega
        rw [immediate, hlow, ofNat_toNat, setWidth_eq]
      simp [prefixWords, hfits, next, hpre, advanceOverPrefix, hdatalen, himm]
    · exact hcount (by simp [prefixWords, hfits])
  | d :: d' :: ds, _ => exact hcount rfl

/-- The iterator goes over a packet in one step. -/
theorem next_packet (k : Packet p) (tail : List RelocInfo) (addr : Nat) (l : Option Nat) :
    next p ⟨k.words ++ tail, addr, l⟩ =
      some (if pastLimit l (addr + k.offset) then none else some (k.locate addr),
        ⟨tail, addr + k.offset, l⟩) := by
  have hsettle : ∀ it : RelocIterator, it.addr = addr → it.limit = l →
      settle p it k.data k.header tail =
        (if pastLimit l (addr + k.offset) then none else some (k.locate addr),
          ⟨tail, addr + k.offset, l⟩) := by
    rintro ⟨rest, addr, l⟩ rfl rfl
    have haddr : k.header.addrOffset p = k.offset :=
      addrOffset_ofOffset k.type k.units_lt k.format_lt
    have htype : k.header.type = k.type := type_ofOffset k.type k.units_lt k.format_lt
    have hformat : k.header.format p = k.format := format_ofOffset k.type k.units_lt k.format_lt
    simp only [settle, haddr, htype, hformat]
    by_cases h : pastLimit l (addr + k.offset) = true
    · rw [if_pos h, if_pos h]
    · rw [if_neg h, if_neg h]
      rfl
  rw [words, append_assoc, singleton_append]
  by_cases hdata : k.data = []
  · have hpre : k.header.isPrefix = false := isPrefix_ofOffset k.type_ne k.units_lt k.format_lt
    have hnil : prefixWords k.data = [] := by rw [hdata]; rfl
    rw [hnil, nil_append]
    have hnext : next p ⟨k.header :: tail, addr, l⟩ =
        some (settle p ⟨k.header :: tail, addr, l⟩ [] k.header tail) := by
      simp [next, hpre]
    rw [hnext, ← hdata, hsettle _ rfl rfl]
  · rw [next_prefixed hdata k.data_lt, hsettle _ rfl rfl]

/-- Behind a record past the limit all are past it. -/
theorem pastLimit_of_mem {addr : Nat} {l : Option Nat} {k : Packet p} {ks : List (Packet p)} {r : Located}
    (h : r ∈ locateAll addr (k :: ks)) (hpast : pastLimit l (addr + k.offset) = true) :
    pastLimit l r.addr = true := by
  have hle := le_of_mem_locateAll_cons h
  cases l with
  | none => simp [pastLimit] at hpast
  | some l =>
    simp only [pastLimit, decide_eq_true_eq] at *
    omega

/-- The iterator runs until its limit. -/
theorem toList_packets (ks : List (Packet p)) (addr : Nat) (l : Option Nat) (fuel : Nat)
    (hfuel : ks.length < fuel) : toList p fuel ⟨ks.flatMap words, addr, l⟩ =
      some ((locateAll addr ks).filter fun r => !pastLimit l r.addr) := by
  induction ks generalizing addr fuel with
  | nil =>
    obtain ⟨fuel, rfl⟩ : ∃ n, fuel = n + 1 := ⟨fuel - 1, by simp at hfuel; omega⟩
    rfl
  | cons k ks ih =>
    obtain ⟨fuel, rfl⟩ : ∃ n, fuel = n + 1 := ⟨fuel - 1, by simp at hfuel; omega⟩
    rw [flatMap_cons, toList, next_packet]
    by_cases hpast : pastLimit l (addr + k.offset) = true
    · rw [filter_eq_nil_iff.mpr fun r hr => by simp [pastLimit_of_mem hr hpast]]
      simp [hpast]
    have hlen : ks.length < fuel := by simpa using hfuel
    simp only [hpast, Bool.false_eq_true, if_false, some_bind, ih _ _ hlen, locateAll]
    rw [filter_cons_of_pos (by simpa [locate] using hpast)]
    rfl

/-- Skipping stops before the first record at `begin`, and nothing before the limit is lost. -/
theorem skipTo_packets (begin : Nat) (ks : List (Packet p)) (addr : Nat) (l : Option Nat)
    (fuel : Nat) (hfuel : ks.length < fuel) : ∃ (ls : List (Packet p)) (addr' : Nat),
      skipTo p begin fuel ⟨ks.flatMap words, addr, l⟩ =
        some ⟨ls.flatMap words, addr', l⟩ ∧ ls.length ≤ ks.length ∧
      (locateAll addr' ls).filter (fun r => !pastLimit l r.addr) =
        (locateAll addr ks).filter fun r => begin ≤ r.addr && !pastLimit l r.addr := by
  induction ks generalizing addr fuel with
  | nil =>
    obtain ⟨fuel, rfl⟩ : ∃ n, fuel = n + 1 := ⟨fuel - 1, by simp at hfuel; omega⟩
    exact ⟨[], addr, rfl, le_rfl, rfl⟩
  | cons k ks ih =>
    obtain ⟨fuel, rfl⟩ : ∃ n, fuel = n + 1 := ⟨fuel - 1, by simp at hfuel; omega⟩
    rw [flatMap_cons, skipTo, next_packet]
    by_cases hpast : pastLimit l (addr + k.offset) = true
    · refine ⟨k :: ks, addr, by simp [hpast], le_rfl, ?_⟩
      rw [filter_eq_nil_iff.mpr fun r hr => by simp [pastLimit_of_mem hr hpast],
        filter_eq_nil_iff.mpr fun r hr => by simp [pastLimit_of_mem hr hpast]]
    by_cases hbegin : begin ≤ addr + k.offset
    · refine ⟨k :: ks, addr, by simp [hpast, locate, hbegin], le_rfl, ?_⟩
      apply filter_congr
      intro r hr
      simp [hbegin.trans (le_of_mem_locateAll_cons hr)]
    · have hlen : ks.length < fuel := by simpa using hfuel
      obtain ⟨ls, addr', hskip, hls, hfilter⟩ := ih (addr + k.offset) fuel hlen
      refine ⟨ls, addr', ?_, hls.trans (Nat.le_succ _), ?_⟩
      · simp [hpast, locate, hbegin, hskip]
      · have hout : ¬ (decide (begin ≤ (k.locate addr).addr) &&
            !pastLimit l (k.locate addr).addr) = true := by
          simp [locate, hbegin]
        rw [hfilter, locateAll, filter_cons, if_neg hout]

/-- Is an address in a range whose ends may be left open? -/
def inRange (begin limit : Option Nat) (addr : Nat) : Bool :=
  (match begin with
    | none => true
    | some begin => begin ≤ addr) && !pastLimit limit addr

/-- An iterator over packets shows those in its range, at the sums of their offsets. -/
theorem records_packets (ks : List (Packet p)) (start : Nat) (begin l : Option Nat) :
    records p (ks.flatMap words) start begin l =
      some ((locateAll start ks).filter fun r => inRange begin l r.addr) := by
  have hlen := length_le_flatMap_words ks
  cases begin with
  | none =>
    simp only [records, setLimits, some_bind]
    rw [toList_packets ks start l _ (by omega)]
    simp [inRange]
  | some begin =>
    obtain ⟨ls, addr', hskip, hls, hfilter⟩ := skipTo_packets begin ks start l
      ((ks.flatMap words).length + 1) (by omega)
    simp only [records, setLimits, hskip, some_bind]
    rw [toList_packets ls addr' l _ (by omega), hfilter]
    rfl

end RelocIterator

end Hotspot.Asm
