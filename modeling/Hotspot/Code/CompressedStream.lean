-- SUMMARY: Compressed streams: the UNSIGNED5 coding, the buffer, and the round trip.
import Hotspot.Base.JavaTypes

/-!
# Compressed streams

`CompressedWriteStream` and `CompressedReadStream` file basic types out and in.
Integers use the UNSIGNED5 coding of Pack200: up to five bytes, of which all but
the last are high codes that carry six bits each. Signed integers fold the sign
into the low bit first, floats and doubles are bit-reversed first.

The writer owns a buffer that doubles when it is full. What has been written is
the prefix of the buffer up to the position; every write appends to it
(`CompressedWriteStream.written`), which is all the reader relies on. The size is
an `int`, so a buffer of `2^30` bytes or more cannot double any more
(`CompressedWriteStream.capacityOf`).
-/

namespace Hotspot

open List

open BitVec hiding append_assoc

namespace CompressedStream

/-! ## Constants of the UNSIGNED5 coding -/

def lgH : Nat := 6
/-- Number of high codes. -/
def H : JInt := 64#32
/-- Number of low codes. -/
def L : JInt := 192#32
/-- Bytes of a coding are numbered `0..maxI`. -/
def maxI : Nat := 4

/-! ## Sign folding and bit reversal -/

def encodeSign (value : JInt) : JInt := (value <<< 1) ^^^ (value.sshiftRight 31)

def decodeSign (value : JInt) : JInt := (value >>> 1) ^^^ (-(value &&& 1#32))

/-- Swap neighbouring groups of bits, `mask` selecting the lower group of each pair. -/
def swapGroups (mask : JInt) (n : Nat) (i : JInt) : JInt :=
  (i &&& mask) <<< n ||| (i >>> n) &&& mask

def reverseBytes (i : JInt) : JInt :=
  (i <<< 24) ||| ((i &&& 0xff00#32) <<< 8) ||| ((i >>> 8) &&& 0xff00#32) ||| (i >>> 24)

def reverseInt (i : JInt) : JInt :=
  reverseBytes (swapGroups 0x0f0f0f0f#32 4 (swapGroups 0x33333333#32 2
    (swapGroups 0x55555555#32 1 i)))

/-- All bits equal to the sign bit. -/
theorem sshiftRight_31 (v : JInt) :
    v.sshiftRight 31 = if v.msb then BitVec.allOnes 32 else 0#32 := by
  apply eq_of_getLsbD_eq
  intro i hi
  rw [getLsbD_sshiftRight]
  by_cases h0 : i = 0
  · subst h0
    cases hm : v.msb <;> simp [msb_eq_getLsbD_last] at hm ⊢ <;> exact hm
  · have hout : ¬ 31 + i < 32 := by omega
    cases v.msb <;> simp [-reduceAllOnes, hi, hout]

theorem encodeSign_and_one (v : JInt) :
    -(encodeSign v &&& 1#32) = if v.msb then BitVec.allOnes 32 else 0#32 := by
  have hlow : encodeSign v &&& 1#32 = if v.msb then 1#32 else 0#32 := by
    apply eq_of_getLsbD_eq
    intro i hi
    rw [encodeSign, sshiftRight_31]
    by_cases h0 : i = 0
    · subst h0; cases v.msb <;> simp
    · cases v.msb <;> simp [h0]
  rw [hlow]
  cases v.msb <;> rfl

theorem decodeSign_encodeSign (v : JInt) : decodeSign (encodeSign v) = v := by
  apply eq_of_getLsbD_eq
  intro i hi
  rw [decodeSign, encodeSign_and_one, encodeSign, sshiftRight_31]
  by_cases hlast : i = 31
  · subst hlast
    cases hm : v.msb <;> simp [msb_eq_getLsbD_last] at hm ⊢ <;> simp [hm]
  · have hnext : 1 + i < 32 := by omega
    cases v.msb <;> simp [-reduceAllOnes, hnext, hi]

variable {i : Nat} (x : JInt)

-- Each stage of `reverseInt` is the permutation of bit indices that flips some
-- bits of the index; the four stages together flip all five.
theorem getLsbD_swapGroups_one (h : i < 32) :
    (swapGroups 0x55555555#32 1 x).getLsbD i = x.getLsbD (i ^^^ 1) := by
  interval_cases i <;> simp [swapGroups]

theorem getLsbD_swapGroups_two (h : i < 32) :
    (swapGroups 0x33333333#32 2 x).getLsbD i = x.getLsbD (i ^^^ 2) := by
  interval_cases i <;> simp [swapGroups]

theorem getLsbD_swapGroups_four (h : i < 32) :
    (swapGroups 0x0f0f0f0f#32 4 x).getLsbD i = x.getLsbD (i ^^^ 4) := by
  interval_cases i <;> simp [swapGroups]

theorem getLsbD_reverseBytes (h : i < 32) : (reverseBytes x).getLsbD i = x.getLsbD (i ^^^ 24) := by
  interval_cases i <;> simp [reverseBytes]

theorem getLsbD_reverseInt (h : i < 32) : (reverseInt x).getLsbD i = x.getLsbD (i ^^^ 31) := by
  have lt (c : Nat) (hc : c < 32) {j : Nat} (hj : j < 32) : j ^^^ c < 32 :=
    Nat.xor_lt_two_pow (n := 5) hj hc
  have h24 := lt 24 (by decide) h
  have h4 := lt 4 (by decide) h24
  have h2 := lt 2 (by decide) h4
  rw [reverseInt, getLsbD_reverseBytes _ h, getLsbD_swapGroups_four _ h24,
    getLsbD_swapGroups_two _ h4, getLsbD_swapGroups_one _ h2]
  simp only [Nat.xor_assoc]
  rfl

theorem reverseInt_reverseInt : reverseInt (reverseInt x) = x := by
  apply eq_of_getLsbD_eq
  intro i hi
  rw [getLsbD_reverseInt _ hi, getLsbD_reverseInt _ (Nat.xor_lt_two_pow (n := 5) hi (by decide)),
    Nat.xor_assoc, Nat.xor_self, Nat.xor_zero]

/-! ## The coding of an integer -/

/-- The UNSIGNED5 coding of `sum` when up to `n` more bytes may follow the next one. -/
def codeFrom : Nat → JInt → List UChar
  | 0, sum => [sum.setWidth 8]
  | n + 1, sum =>
    if sum < L then [sum.setWidth 8]
    else (L + (sum - L) % H).setWidth 8 :: codeFrom n ((sum - L) >>> lgH)

/-- The UNSIGNED5 coding of an integer. -/
def code (value : JInt) : List UChar := codeFrom maxI value

/-- Codings with up to `n` more bytes are exact below this bound. -/
def codeBound : Nat → Nat
  | 0 => 256
  | n + 1 => 192 + 64 * codeBound n

section HighCode

variable {sum : JInt} (h : ¬ sum < L)
include h

theorem highCode_toNat : (L + (sum - L) % H).toNat = 192 + (sum.toNat - 192) % 64 := by
  have hle : L ≤ sum := BitVec.not_lt.mp h
  have hrem : ((sum - L) % H).toNat = (sum.toNat - 192) % 64 := by
    rw [toNat_umod, toNat_sub_of_le hle]; rfl
  rw [toNat_add, hrem]
  simp only [L, toNat_ofNat]
  omega

theorem rest_toNat : ((sum - L) >>> lgH).toNat = (sum.toNat - 192) / 64 := by
  have hle : L ≤ sum := BitVec.not_lt.mp h
  rw [toNat_ushiftRight, toNat_sub_of_le hle, Nat.shiftRight_eq_div_pow]
  rfl

/-- A high code and the remainder after it add up to the coded value. -/
theorem highCode_add_rest : (L + (sum - L) % H) + (((sum - L) >>> lgH) <<< lgH) = sum := by
  have hle : 192 ≤ sum.toNat := not_lt.mp h
  apply eq_of_toNat_eq
  rw [toNat_add, toNat_shiftLeft, highCode_toNat h, rest_toNat h,
    Nat.shiftLeft_eq, lgH]
  omega

theorem highCode_byte : ((L + (sum - L) % H).setWidth 8).setWidth 32 = L + (sum - L) % H := by
  apply eq_of_toNat_eq
  rw [toNat_setWidth, toNat_setWidth, highCode_toNat h]
  omega

theorem highCode_not_lt : ¬ L + (sum - L) % H < L := by
  rw [lt_def, highCode_toNat h]
  simp only [L, toNat_ofNat]
  omega

end HighCode

theorem codeFrom_length (n : Nat) (sum : JInt) : (codeFrom n sum).length ≤ n + 1 := by
  induction n generalizing sum with
  | zero => simp [codeFrom]
  | succ n ih =>
    simp only [codeFrom]
    split
    · simp
    · simpa using ih _

end CompressedStream

open CompressedStream JLong

/-! ## The write stream -/

/-- A write stream. The array behind the stream has `_size` bytes, which is the
length of `buffer`; the structure keeps it an `int`, and the position inside the array. -/
structure CompressedWriteStream where
  buffer : List UChar
  position : Nat
  position_le : position ≤ buffer.length
  size_pos : 0 < buffer.length
  size_lt : buffer.length < 2 ^ 31

namespace CompressedWriteStream

variable (s : CompressedWriteStream)

def size : Nat := s.buffer.length

theorem toNat_pos {n : JInt} (h : 0 < n.toInt) : 0 < n.toNat ∧ n.toNat < 2 ^ 31 := by
  have := toInt_eq_toNat_cond n
  split at this <;> omega

/-- A stream over a fresh array. The contents of fresh memory are never read back. -/
def new (initialSize : JInt) (h : 0 < initialSize.toInt) : CompressedWriteStream where
  buffer := List.replicate initialSize.toNat 0
  position := 0
  position_le := Nat.zero_le _
  size_pos := by simpa using (toNat_pos h).1
  size_lt := by simpa using (toNat_pos h).2

def full : Prop := s.size ≤ s.position

instance : Decidable s.full :=
  inferInstanceAs (Decidable (s.size ≤ s.position))

/-- `_size * 2` -/
def doubled : JInt := BitVec.ofNat 32 s.size * 2#32

theorem toInt_doubled :
    s.doubled.toNat = s.size * 2 ∧ (s.doubled.toInt < 0 ↔ 2 ^ 30 ≤ s.size) := by
  have hlt : s.size < 2 ^ 31 := s.size_lt
  have hnat : s.doubled.toNat = s.size * 2 := by
    rw [doubled, toNat_mul, toNat_ofNat, toNat_ofNat]
    omega
  have := toInt_eq_toNat_cond s.doubled
  refine ⟨hnat, ?_⟩
  split at this <;> omega

/-- There is no array of a negative size: as a `size_t` it is larger than the memory. -/
def grow : Option CompressedWriteStream :=
  if h : s.doubled.toInt < 0 then none
  else some
    { buffer := s.buffer.take s.position ++ List.replicate (s.doubled.toNat - s.position) 0
      position := s.position
      position_le := by simp [s.position_le]
      size_pos := by
        have := s.size_pos
        have := s.position_le
        simp [s.toInt_doubled.1, size]
        omega
      size_lt := by
        have := s.position_le
        have := mt s.toInt_doubled.2.mpr h
        simp only [s.toInt_doubled.1, size, length_append, length_take, length_replicate] at this ⊢
        omega }

/-- There is no store behind the array. -/
def store (b : UChar) : Option CompressedWriteStream :=
  if h : s.position < s.size then
    some
      { buffer := s.buffer.set s.position b
        position := s.position + 1
        position_le := by simpa [size] using h
        size_pos := by simpa using s.size_pos
        size_lt := by simpa using s.size_lt }
  else none

def write (b : UChar) : Option CompressedWriteStream := do
  let s ← if s.full then s.grow else some s
  s.store b

/-- The loop of `write_int_mb`, with `n = MAX_i - i`. -/
def writeIntMbLoop : Nat → JInt → CompressedWriteStream → Option CompressedWriteStream
  | 0, sum, s => s.write (sum.setWidth 8)
  | n + 1, sum, s =>
    if sum < L then s.write (sum.setWidth 8)
    else do
      let s ← s.write ((L + (sum - L) % H).setWidth 8)
      writeIntMbLoop n ((sum - L) >>> lgH) s

def writeIntMb (value : JInt) : Option CompressedWriteStream :=
  writeIntMbLoop maxI value s

def writeInt (value : JInt) : Option CompressedWriteStream :=
  if value < L ∧ ¬ s.full then s.store (value.setWidth 8) else s.writeIntMb value

def writeSignedInt (value : JInt) : Option CompressedWriteStream :=
  s.writeInt (encodeSign value)

def writeBool (value : JBoolean) : Option CompressedWriteStream :=
  s.write value

def writeByte (value : JByte) : Option CompressedWriteStream :=
  s.write value

def writeChar (value : JChar) : Option CompressedWriteStream :=
  s.writeInt (value.setWidth 32)

def writeShort (value : JShort) : Option CompressedWriteStream :=
  s.writeSignedInt (value.signExtend 32)

/-- Floats are passed by their bits, as `jint_cast` gives them. -/
def writeFloat (value : JInt) : Option CompressedWriteStream :=
  s.writeInt (reverseInt value)

def writeDouble (value : JLong) : Option CompressedWriteStream := do
  let s ← s.writeInt (reverseInt (JLong.high value))
  s.writeInt (reverseInt (JLong.low value))

def writeLong (value : JLong) : Option CompressedWriteStream := do
  let s ← s.writeSignedInt (JLong.low value)
  s.writeSignedInt (JLong.high value)

/-! ## What a write appends -/

/-- The bytes written so far. -/
def written : List UChar := s.buffer.take s.position

@[simp] theorem written_length : s.written.length = s.position := by
  simp [written, s.position_le]

theorem written_new (n : JInt) (h : 0 < n.toInt) : (new n h).written = [] := by
  simp [written, new]

/-- The size that a buffer has when it cannot double any more. -/
def capacityOf (size : Nat) : Nat := size * 2 ^ (30 - size.log2)

theorem capacityOf_of_le {n : Nat} (hlo : 2 ^ 30 ≤ n) (hhi : n < 2 ^ 31) : capacityOf n = n := by
  have hlog : n.log2 = 30 := (Nat.log2_eq_iff (by omega)).mpr ⟨hlo, hhi⟩
  simp [capacityOf, hlog]

theorem capacityOf_of_lt {n : Nat} (hpos : 0 < n) (hlt : n < 2 ^ 30) :
    capacityOf (n * 2) = capacityOf n ∧ n < capacityOf n := by
  have hlog : n.log2 < 30 := (Nat.log2_lt hpos.ne').mpr hlt
  obtain ⟨k, hk⟩ : ∃ k, 30 - n.log2 = k + 1 := ⟨29 - n.log2, by omega⟩
  have hdouble : (n * 2).log2 = n.log2 + 1 := by rw [Nat.mul_comm, Nat.log2_two_mul hpos.ne']
  refine ⟨?_, ?_⟩
  · rw [capacityOf, capacityOf, hdouble, hk, show 30 - (n.log2 + 1) = k by omega, Nat.pow_succ]
    ring
  · rw [capacityOf, hk]
    exact (Nat.lt_mul_iff_one_lt_right hpos).mpr (Nat.one_lt_two_pow (by omega))

/-- Growing keeps what was written, and ends at `2^30` bytes. -/
theorem grow_cases : (∃ s', s.grow = some s' ∧ s'.written = s.written ∧ s'.size = s.size * 2 ∧ s.size < 2 ^ 30) ∨
    s.grow = none ∧ 2 ^ 30 ≤ s.size := by
  have hle : s.position ≤ s.buffer.length := s.position_le
  obtain ⟨hnat, hneg⟩ := s.toInt_doubled
  unfold grow
  split
  · next h => exact .inr ⟨rfl, hneg.mp h⟩
  · next h =>
    refine .inl ⟨_, rfl, by simp [written, hle], ?_, not_le.mp (mt hneg.mpr h)⟩
    simp only [size, length_append, length_take, length_replicate, hnat]
    omega

theorem exists_store (b : UChar) (h : s.position < s.size) :
    ∃ s', s.store b = some s' ∧ s'.written = s.written ++ [b] ∧ s'.size = s.size := by
  refine ⟨_, dif_pos h, ?_, by simp [size]⟩
  simp only [written]
  rw [take_add_one, take_set_of_le le_rfl]
  simp [show s.position < s.buffer.length from h]

theorem size_le_capacityOf (n : Nat) : n ≤ capacityOf n := Nat.le_mul_of_pos_right _ (Nat.two_pow_pos _)

/-- One byte is appended as long as there is room. -/
theorem write_cases (b : UChar) : (∃ s', s.write b = some s' ∧ s'.written = s.written ++ [b] ∧
      capacityOf s'.size = capacityOf s.size ∧ s.position < capacityOf s.size) ∨
    s.write b = none ∧ capacityOf s.size ≤ s.position := by
  have hlt : s.size < 2 ^ 31 := s.size_lt
  have hpos : 0 < s.size := s.size_pos
  have hle : s.position ≤ s.size := s.position_le
  have hsize := size_le_capacityOf s.size
  unfold write
  by_cases hfull : s.full
  · have hposition : s.size = s.position := le_antisymm hfull hle
    rw [if_pos hfull]
    rcases s.grow_cases with ⟨t, hgrow, hwritten, hdouble, hsmall⟩ | ⟨hgrow, hlarge⟩
    · obtain ⟨hsame, hroom⟩ := capacityOf_of_lt hpos hsmall
      have hkept := congrArg length hwritten
      rw [written_length, written_length] at hkept
      obtain ⟨s', hstore, happend, hsize'⟩ := t.exists_store b (by omega)
      exact .inl ⟨s', by rw [hgrow]; exact hstore, by rw [happend, hwritten], by rw [hsize', hdouble, hsame], by omega⟩
    · exact .inr ⟨by rw [hgrow]; rfl, by rw [capacityOf_of_le hlarge hlt]; exact hposition.le⟩
  · have hroom : s.position < s.size := not_le.mp hfull
    obtain ⟨s', hstore, happend, hsize'⟩ := s.exists_store b hroom
    rw [if_neg hfull]
    exact .inl ⟨s', hstore, happend, by rw [hsize'], by omega⟩

/-- Bytes are appended if and only if there is room for all of them. -/
theorem foldlM_write (bytes : List UChar) (s : CompressedWriteStream) :
    (∃ s', bytes.foldlM write s = some s' ∧ s'.written = s.written ++ bytes ∧
      s.position + bytes.length ≤ capacityOf s.size) ∨
    bytes.foldlM write s = none ∧ capacityOf s.size < s.position + bytes.length := by
  induction bytes generalizing s with
  | nil => exact .inl ⟨s, rfl, (append_nil _).symm, s.position_le.trans (size_le_capacityOf s.size)⟩
  | cons b bytes ih =>
    rw [foldlM_cons, length_cons]
    rcases s.write_cases b with ⟨t, hwrite, hwritten, hcapacity, hroom⟩ | ⟨hwrite, hfull⟩
    · have hposition := congrArg length hwritten
      simp only [written_length, length_append, length_singleton] at hposition
      rw [hwrite]
      rcases ih t with ⟨s', hrest, hrest', hroom'⟩ | ⟨hrest, hfull⟩
      · exact .inl ⟨s', hrest, by rw [hrest', hwritten, append_assoc]; rfl, by omega⟩
      · exact .inr ⟨hrest, by omega⟩
    · rw [hwrite]
      exact .inr ⟨rfl, by omega⟩

theorem writeIntMbLoop_eq (n : Nat) (sum : JInt) (s : CompressedWriteStream) :
    writeIntMbLoop n sum s = (codeFrom n sum).foldlM write s := by
  induction n generalizing sum s with
  | zero => simp [writeIntMbLoop, codeFrom]
  | succ n ih =>
    rw [writeIntMbLoop, codeFrom]
    split
    · simp
    · simp [ih]

theorem writeIntMb_eq (v : JInt) : s.writeIntMb v = (code v).foldlM write s := writeIntMbLoop_eq maxI v s

/-- The path of one byte emits the same coding. -/
theorem writeInt_eq (v : JInt) : s.writeInt v = (code v).foldlM write s := by
  unfold writeInt
  split
  · next h =>
    rw [code, maxI, codeFrom, if_pos h.1, foldlM_cons, write, if_neg h.2]
    simp
  · exact s.writeIntMb_eq v

end CompressedWriteStream

/-! ## The read stream -/

structure CompressedReadStream where
  buffer : List UChar
  position : Nat

/-- Reading advances the position; reading past the array has no result. -/
abbrev Reader := StateT CompressedReadStream Option

namespace CompressedReadStream

def read : Reader UChar := fun s =>
  (s.buffer[s.position]?).map fun b => (b, { s with position := s.position + 1 })

/-- The loop of `read_int_mb` over the bytes after `b0`, which stands at `pos`;
`n = MAX_i - i` before the increment of `i`. -/
def readIntMbLoop (buf : List UChar) (pos : Nat) : Nat → JInt → Nat → Option (JInt × Nat)
  | 0, _, _ => none
  | n + 1, sum, lgHi => do
    let i := maxI - n
    let b ← buf[pos + i]?
    let sum := sum + (b.setWidth 32 <<< lgHi)
    if b.setWidth 32 < L ∨ i = maxI then return (sum, pos + i + 1)
    else readIntMbLoop buf pos n sum (lgHi + lgH)

def readIntMb (b0 : JInt) : Reader JInt := fun s => do
  let (sum, position) ← readIntMbLoop s.buffer (s.position - 1) maxI b0 lgH
  return (sum, { s with position })

def readInt : Reader JInt := do
  let b0 ← read
  if b0.setWidth 32 < L then return b0.setWidth 32 else readIntMb (b0.setWidth 32)

def readSignedInt : Reader JInt := return decodeSign (← readInt)

def readBool : Reader JBoolean := read

def readByte : Reader JByte := read

def readChar : Reader JChar := return (← readInt).setWidth 16

def readShort : Reader JShort := return (← readSignedInt).setWidth 16

def readFloat : Reader JInt := return reverseInt (← readInt)

def readDouble : Reader JLong := do
  let rh ← readInt
  let rl ← readInt
  return JLong.ofWords (reverseInt rh) (reverseInt rl)

def readLong : Reader JLong := do
  let low ← readSignedInt
  let high ← readSignedInt
  return JLong.ofWords high low

/-! ## What a read consumes -/

/-- `r` reads the value `v` off the bytes `bytes`, wherever they stand, and stops behind them. -/
def Reads {α : Type} (r : Reader α) (bytes : List UChar) (v : α) : Prop :=
  ∀ pre post, r ⟨pre ++ bytes ++ post, pre.length⟩ =
    some (v, ⟨pre ++ bytes ++ post, pre.length + bytes.length⟩)

theorem Reads.pure {α : Type} (v : α) : Reads (pure v) [] v := by
  intro pre post
  simp [Pure.pure, StateT.pure]

theorem Reads.bind {α β : Type} {r : Reader α} {f : α → Reader β} {b₁ b₂ : List UChar}
    {v : α} {w : β} (hr : Reads r b₁ v) (hf : Reads (f v) b₂ w) : Reads (r >>= f) (b₁ ++ b₂) w := by
  intro pre post
  have h₁ := hr pre (b₂ ++ post)
  have h₂ := hf (pre ++ b₁) post
  simp only [append_assoc, length_append] at h₁ h₂ ⊢
  simp [Bind.bind, StateT.bind, h₁, Option.bind_some, h₂, Nat.add_assoc]

theorem Reads.map {α β : Type} {r : Reader α} {bytes : List UChar} {v : α} (g : α → β)
    (hr : Reads r bytes v) : Reads (do let a ← r; return g a) bytes (g v) := by
  simpa using hr.bind (f := fun a => Pure.pure (g a)) (Reads.pure (g v))

theorem reads_read (b : UChar) : Reads read [b] b := by
  intro pre post
  simp [read]

theorem byte_setWidth {sum : JInt} (h : sum.toNat < 256) : (sum.setWidth 8).setWidth 32 = sum := by
  apply eq_of_toNat_eq
  rw [toNat_setWidth, toNat_setWidth]
  omega

theorem readIntMbLoop_succ {buf : List UChar} {pos n : Nat} {b : UChar}
    (hb : buf[pos + (maxI - n)]? = some b) (acc : JInt) (lgHi : Nat) :
    readIntMbLoop buf pos (n + 1) acc lgHi = if b.setWidth 32 < L ∨ maxI - n = maxI
      then some (acc + b.setWidth 32 <<< lgHi, pos + (maxI - n) + 1)
      else readIntMbLoop buf pos n (acc + b.setWidth 32 <<< lgHi) (lgHi + lgH) := by
  rw [readIntMbLoop]
  simp [hb]

/-- The loop of `read_int_mb` inverts the tail of a coding. -/
theorem readIntMbLoop_codeFrom {n : Nat} (hn : n < maxI) {sum : JInt}
    (hsum : sum.toNat < codeBound n) (acc : JInt) (lgHi pos : Nat) (pre post : List UChar)
    (hpre : pre.length = pos + (maxI - n)) :
    readIntMbLoop (pre ++ codeFrom n sum ++ post) pos (n + 1) acc lgHi =
      some (acc + sum <<< lgHi, pre.length + (codeFrom n sum).length) := by
  induction n generalizing sum acc lgHi pre with
  | zero =>
    -- the fifth byte takes whatever is left
    rw [readIntMbLoop_succ (b := sum.setWidth 8) (by rw [← hpre]; simp [codeFrom]),
      if_pos (Or.inr (Nat.sub_zero maxI)), byte_setWidth hsum, hpre]
    rfl
  | succ n ih =>
    by_cases hlow : sum < L
    · -- a low code ends the coding early
      have hlt : sum.toNat < 192 := hlow
      have hbyte := byte_setWidth (show sum.toNat < 256 by omega)
      rw [readIntMbLoop_succ (b := sum.setWidth 8) (by simp [codeFrom, ← hpre, hlow]),
        hbyte, if_pos (Or.inl hlow), hpre]
      simp [codeFrom, hlow]
    · have hrest : ((sum - L) >>> lgH).toNat < codeBound n := by
        have hle : 192 ≤ sum.toNat := not_lt.mp hlow
        rw [rest_toNat hlow]
        simp only [codeBound] at hsum
        omega
      have hnot : ¬ (maxI - (n + 1) = maxI) := by simp only [maxI] at hn ⊢; omega
      have hval : acc + (L + (sum - L) % H) <<< lgHi + ((sum - L) >>> lgH) <<< (lgHi + lgH) =
          acc + sum <<< lgHi := by
        rw [Nat.add_comm lgHi lgH, shiftLeft_add, add_assoc,
          ← shiftLeft_add_distrib, highCode_add_rest hlow]
      have hcode : pre ++ codeFrom (n + 1) sum ++ post =
          pre ++ [(L + (sum - L) % H).setWidth 8] ++ codeFrom n ((sum - L) >>> lgH) ++ post := by
        simp [codeFrom, hlow]
      rw [hcode, readIntMbLoop_succ (b := (L + (sum - L) % H).setWidth 8) (by simp [← hpre]),
        highCode_byte hlow, if_neg (by simp [highCode_not_lt hlow, hnot]),
        ih (by omega) hrest _ _ _ (by simp [hpre, maxI] at hn ⊢; omega), hval]
      simp [codeFrom, hlow, Nat.add_comm 1, Nat.add_assoc]

theorem reads_readInt (v : JInt) : Reads readInt (code v) v := by
  by_cases hlow : v < L
  · have hlt : v.toNat < 192 := hlow
    have hbyte := byte_setWidth (show v.toNat < 256 by omega)
    have hcode : code v = [v.setWidth 8] ++ [] := by simp [code, maxI, codeFrom, hlow]
    rw [hcode]
    refine (reads_read _).bind ?_
    rw [hbyte, if_pos hlow]
    exact Reads.pure v
  · have hcode : code v =
        [(L + (v - L) % H).setWidth 8] ++ codeFrom 3 ((v - L) >>> lgH) := by
      simp [code, maxI, codeFrom, hlow]
    have hrest : ((v - L) >>> lgH).toNat < codeBound 3 := by
      have := v.isLt
      rw [rest_toNat hlow]
      simp only [codeBound]
      omega
    -- `readIntMb` looks back at the byte just read, so the two reads are unfolded together
    intro pre post
    have hloop := readIntMbLoop_codeFrom (n := 3) (by decide) hrest (L + (v - L) % H) lgH
      pre.length (pre ++ [(L + (v - L) % H).setWidth 8]) post (by simp [maxI])
    have hread := reads_read ((L + (v - L) % H).setWidth 8) pre
      (codeFrom 3 ((v - L) >>> lgH) ++ post)
    simp only [← append_assoc] at hread
    rw [hcode, readInt, ← append_assoc]
    simp only [Bind.bind, StateT.bind, hread, Option.bind_some, highCode_byte hlow,
      highCode_not_lt hlow, if_false, readIntMb]
    rw [show pre.length + [(L + (v - L) % H).setWidth 8].length - 1 = pre.length by simp]
    rw [show (maxI : Nat) = 3 + 1 from rfl, hloop, highCode_add_rest hlow]
    simp [Nat.add_assoc, Nat.add_comm 1]

theorem reads_readSignedInt (v : JInt) : Reads readSignedInt (code (encodeSign v)) v := by
  have h := (reads_readInt (encodeSign v)).map decodeSign
  rwa [decodeSign_encodeSign] at h

theorem reads_readLong (v : JLong) :
    Reads readLong (code (encodeSign (low v)) ++ code (encodeSign (high v))) v := by
  have h := (reads_readSignedInt (high v)).map (ofWords · (low v))
  rw [ofWords_high_low] at h
  exact (reads_readSignedInt (low v)).bind h

theorem reads_readDouble (bits : JLong) :
    Reads readDouble (code (reverseInt (high bits)) ++ code (reverseInt (low bits))) bits := by
  have h := (reads_readInt (reverseInt (low bits))).map fun rl =>
    ofWords (reverseInt (reverseInt (high bits))) (reverseInt rl)
  rw [reverseInt_reverseInt, reverseInt_reverseInt, ofWords_high_low] at h
  refine (reads_readInt (reverseInt (high bits))).bind ?_
  rw [reverseInt_reverseInt]
  exact h

theorem setWidth_signExtend_short (v : JShort) : (v.signExtend 32).setWidth 16 = v := by
  apply eq_of_getLsbD_eq
  intro i hi
  rw [getLsbD_setWidth, getLsbD_signExtend]
  simp [hi, show i < 32 by omega]

end CompressedReadStream

/-! ## Streams of typed values -/

/-- A value of one of the basic types a stream files out. Floats and doubles
stand by their bit patterns. -/
inductive StreamValue where
  | bool (v : JBoolean)
  | byte (v : JByte)
  | char (v : JChar)
  | short (v : JShort)
  | int (v : JInt)
  | signedInt (v : JInt)
  | long (v : JLong)
  | float (bits : JInt)
  | double (bits : JLong)
  deriving DecidableEq, Repr

/-- The type a reader must know to read a value back. -/
inductive StreamType where
  | bool | byte | char | short | int | signedInt | long | float | double
  deriving DecidableEq, Repr

namespace StreamValue

def type : StreamValue → StreamType
  | bool _ => .bool
  | byte _ => .byte
  | char _ => .char
  | short _ => .short
  | int _ => .int
  | signedInt _ => .signedInt
  | long _ => .long
  | float _ => .float
  | double _ => .double

def write (s : CompressedWriteStream) : StreamValue → Option CompressedWriteStream
  | bool v => s.writeBool v
  | byte v => s.writeByte v
  | char v => s.writeChar v
  | short v => s.writeShort v
  | int v => s.writeInt v
  | signedInt v => s.writeSignedInt v
  | long v => s.writeLong v
  | float v => s.writeFloat v
  | double v => s.writeDouble v

def writeAll (s : CompressedWriteStream) (vs : List StreamValue) : Option CompressedWriteStream :=
  vs.foldlM write s

end StreamValue

open StreamValue

namespace StreamType

open CompressedReadStream

def read : StreamType → Reader StreamValue
  | bool => return .bool (← readBool)
  | byte => return .byte (← readByte)
  | char => return .char (← readChar)
  | short => return .short (← readShort)
  | int => return .int (← readInt)
  | signedInt => return .signedInt (← readSignedInt)
  | long => return .long (← readLong)
  | float => return .float (← readFloat)
  | double => return .double (← readDouble)

def readAll : List StreamType → Reader (List StreamValue)
  | [] => return []
  | t :: ts => do
    let v ← t.read
    let vs ← readAll ts
    return v :: vs

end StreamType

namespace StreamValue

open CompressedReadStream StreamType

/-- The bytes a value occupies in a stream. -/
def bytes : StreamValue → List UChar
  | bool v => [v]
  | byte v => [v]
  | char v => code (v.setWidth 32)
  | short v => code (encodeSign (v.signExtend 32))
  | int v => code v
  | signedInt v => code (encodeSign v)
  | long v => code (encodeSign (JLong.low v)) ++ code (encodeSign (JLong.high v))
  | float v => code (reverseInt v)
  | double v => code (reverseInt (JLong.high v)) ++ code (reverseInt (JLong.low v))

open CompressedWriteStream in
theorem write_eq (s : CompressedWriteStream) (v : StreamValue) :
    write s v = v.bytes.foldlM CompressedWriteStream.write s := by
  cases v <;> simp [write, bytes, writeBool, writeByte, writeChar, writeShort, writeSignedInt,
    writeLong, writeFloat, writeDouble, writeInt_eq]

theorem writeAll_eq (s : CompressedWriteStream) (vs : List StreamValue) :
    writeAll s vs = (vs.flatMap bytes).foldlM CompressedWriteStream.write s := by
  induction vs generalizing s with
  | nil => rfl
  | cons v vs ih =>
    rw [writeAll, foldlM_cons, write_eq, flatMap_cons, foldlM_append]
    exact bind_congr fun s' => ih s'

theorem reads_read (v : StreamValue) : Reads v.type.read v.bytes v := by
  cases v with
  | bool v => exact (CompressedReadStream.reads_read v).map bool
  | byte v => exact (CompressedReadStream.reads_read v).map byte
  | char v =>
    have h := (reads_readInt (v.setWidth 32)).map (setWidth 16)
    rw [setWidth_setWidth_of_le _ (by decide), setWidth_eq] at h
    exact h.map char
  | short v =>
    have h := (reads_readSignedInt (v.signExtend 32)).map (setWidth 16)
    rw [setWidth_signExtend_short] at h
    exact h.map short
  | int v => exact (reads_readInt v).map int
  | signedInt v => exact (reads_readSignedInt v).map signedInt
  | long v => exact (reads_readLong v).map long
  | float v =>
    have h := (reads_readInt (reverseInt v)).map reverseInt
    rw [reverseInt_reverseInt] at h
    exact h.map float
  | double v => exact (reads_readDouble v).map double

theorem reads_readAll (vs : List StreamValue) :
    Reads (readAll (vs.map type)) (vs.flatMap bytes) vs := by
  induction vs with
  | nil => exact Reads.pure []
  | cons v vs ih =>
    exact (reads_read v).bind (ih.map (v :: ·))

/-- Values written in order from any initial buffer are read back in order, and
the reader ends where the writer stopped, as long as their bytes fit into a
buffer that an `int` can measure, and no longer. Growing keeps what was written,
an integer takes at most five bytes, and both paths of `write_int` emit one coding. -/
theorem readAll_writeAll (initialSize : JInt) (h : 0 < initialSize.toInt) (vs : List StreamValue) :
    ((∃ w, writeAll (.new initialSize h) vs = some w ∧
        readAll (vs.map type) ⟨w.buffer, 0⟩ = some (vs, ⟨w.buffer, w.position⟩)) ↔
      (vs.flatMap bytes).length ≤ CompressedWriteStream.capacityOf initialSize.toNat) ∧
    (∀ s s' : CompressedWriteStream, s.grow = some s' → s'.written = s.written) ∧
    (∀ (s s' : CompressedWriteStream) (v : JInt), s.writeInt v = some s' →
      s'.written = s.written ++ code v ∧ s'.position ≤ s.position + 5) ∧
    (∀ (s : CompressedWriteStream) (v : JInt), s.writeInt v = s.writeIntMb v) := by
  refine ⟨?_, ?_, ?_, fun s v => by rw [s.writeInt_eq, s.writeIntMb_eq]⟩
  · have hroom := CompressedWriteStream.foldlM_write (vs.flatMap bytes) (.new initialSize h)
    rw [← writeAll_eq, CompressedWriteStream.written_new, nil_append] at hroom
    have hsize : (CompressedWriteStream.new initialSize h).size = initialSize.toNat := length_replicate
    rw [hsize, show (CompressedWriteStream.new initialSize h).position = 0 from rfl, Nat.zero_add] at hroom
    rcases hroom with ⟨w, hwrite, hw, hfits⟩ | ⟨hwrite, hfull⟩
    · refine iff_of_true ⟨w, hwrite, ?_⟩ hfits
      -- the buffer is the bytes of the values, then memory nobody has written
      have hbuf : w.buffer = [] ++ vs.flatMap bytes ++ w.buffer.drop w.position := by
        rw [← hw, CompressedWriteStream.written, nil_append, take_append_drop]
      have hpos : w.position = ([] : List UChar).length + (vs.flatMap bytes).length := by
        rw [← hw, CompressedWriteStream.written_length]; simp
      have hread := reads_readAll vs [] (w.buffer.drop w.position)
      rw [← hbuf, ← hpos] at hread
      exact hread
    · refine iff_of_false ?_ (not_le.mpr hfull)
      rintro ⟨w, hsome, -⟩
      rw [hwrite] at hsome
      cases hsome
  · intro s s' hgrow
    rcases s.grow_cases with ⟨t, ht, hwritten, -⟩ | ⟨hnone, -⟩
    · cases hgrow.symm.trans ht
      exact hwritten
    · cases hgrow.symm.trans hnone
  · intro s s' v hwrite
    rw [s.writeInt_eq] at hwrite
    rcases CompressedWriteStream.foldlM_write (code v) s with ⟨t, ht, hwritten, -⟩ | ⟨hnone, -⟩
    · cases hwrite.symm.trans ht
      have hlen := congrArg length hwritten
      have hcode := codeFrom_length maxI v
      simp only [CompressedWriteStream.written_length, length_append, code] at hlen
      simp only [maxI] at hlen hcode
      exact ⟨hwritten, by omega⟩
    · cases hwrite.symm.trans hnone

theorem readAll_writeAll_mixed :
    ∃ w, writeAll (.new 1#32 (by decide)) [.char 0xffff#16, .double 1#64, .int 191#32] = some w ∧
      readAll [.char, .double, .int] ⟨w.buffer, 0⟩ =
        some ([.char 0xffff#16, .double 1#64, .int 191#32], ⟨w.buffer, w.position⟩) :=
  (readAll_writeAll 1#32 (by decide) [.char 0xffff#16, .double 1#64, .int 191#32]).1.mpr (by decide)

/-- One byte more than `2^30`: the buffer is full, and its size cannot double any more. -/
theorem writeAll_too_long :
    writeAll (.new 1#32 (by decide)) (List.replicate (2 ^ 30 + 1) (.bool 0)) = none := by
  have hlength (n : Nat) : ((List.replicate n (StreamValue.bool 0)).flatMap bytes).length = n := by
    simp [length_flatMap, bytes]
  rw [writeAll_eq]
  rcases CompressedWriteStream.foldlM_write ((List.replicate (2 ^ 30 + 1) (.bool 0)).flatMap bytes)
    (.new 1#32 (by decide)) with ⟨w, -, -, hfits⟩ | ⟨hnone, -⟩
  · rw [hlength] at hfits
    exact absurd hfits (by decide)
  · exact hnone

end StreamValue

end Hotspot
