-- SUMMARY: Modified UTF-8: the encoder, the decoders, and their round trip.
import Hotspot.Base.Except
import Hotspot.Base.JavaTypes

/-!
# Modified UTF-8

The virtual machine stores strings in modified UTF-8: a code unit takes one, two
or three bytes, zero takes two, and a supplementary character is a surrogate
pair of three bytes each. `UNICODE` encodes, `UTF8` counts and decodes.

A pointer into a string is the list of bytes from there to the end of the array.
Reading behind the array has no result.
-/

namespace Hotspot

open List

open Option hiding pure_def

open BitVec hiding append_assoc cons_append

namespace UTF8

/-! ## Decoding -/

/-- Decode the code unit at `str`. On a malformed sequence the lead byte itself
is the result and one byte is consumed. -/
def next (str : List UChar) : Option (JChar × List UChar) := do
  let ch ← str[0]?
  let bad : JChar × List UChar := (ch.setWidth 16, str.drop 1)
  match (ch >>> 4).toNat with
  | 0x8 | 0x9 | 0xA | 0xB | 0xF => return bad
  | 0xC | 0xD =>
    let ch2 ← str[1]?
    if ch2 &&& 0xC0#8 = 0x80#8 then
      let highFive := (ch &&& 0x1F#8).setWidth 16
      let lowSix := (ch2 &&& 0x3F#8).setWidth 16
      return ((highFive <<< 6) + lowSix, str.drop 2)
    else return bad
  | 0xE =>
    let ch2 ← str[1]?
    if ch2 &&& 0xC0#8 = 0x80#8 then
      let ch3 ← str[2]?
      if ch3 &&& 0xC0#8 = 0x80#8 then
        let highFour := (ch &&& 0x0F#8).setWidth 16
        let midSix := (ch2 &&& 0x3F#8).setWidth 16
        let lowSix := (ch3 &&& 0x3F#8).setWidth 16
        return ((((highFour <<< 6) + midSix) <<< 6) + lowSix, str.drop 3)
      else return bad
    else return bad
  | _ => return (ch.setWidth 16, str.drop 1)

/-- The six bytes of a surrogate pair, tested left to right. -/
def isSupplementaryCharacter (str : List UChar) : Option Bool := do
  if (← str[0]?) &&& 0xFF#8 ≠ 0xED#8 then return false
  if (← str[1]?) &&& 0xF0#8 ≠ 0xA0#8 then return false
  if (← str[2]?) &&& 0xC0#8 ≠ 0x80#8 then return false
  if (← str[3]?) &&& 0xFF#8 ≠ 0xED#8 then return false
  if (← str[4]?) &&& 0xF0#8 ≠ 0xB0#8 then return false
  if (← str[5]?) &&& 0xC0#8 ≠ 0x80#8 then return false
  return true

def getSupplementaryCharacter (str : List UChar) : Option JInt := do
  let b1 ← str[1]?
  let b2 ← str[2]?
  let b4 ← str[4]?
  let b5 ← str[5]?
  return 0x10000#32 + ((b1 &&& 0x0f#8).setWidth 32 <<< 16) + ((b2 &&& 0x3f#8).setWidth 32 <<< 10)
    + ((b4 &&& 0x0f#8).setWidth 32 <<< 6) + (b5 &&& 0x3f#8).setWidth 32

def nextCharacter (str : List UChar) : Option (JInt × List UChar) := do
  if ← isSupplementaryCharacter str then
    return (← getSupplementaryCharacter str, str.drop 6)
  else
    let (result, nextCh) ← next str
    return (result.setWidth 32, nextCh)

/-! ## Counting -/

/-- `unicode_length(str, len)`: the length less the continuation bytes. -/
def unicodeLengthOf (str : List UChar) (len : JInt) : JInt :=
  (str.take len.toInt.toNat).foldl (fun numChars b => if b &&& 0xC0#8 = 0x80#8 then numChars - 1 else numChars) len

/-- `unicode_length(str)`: count the other bytes, up to the terminating zero. -/
def unicodeLength : List UChar → Option JInt
  | [] => none
  | b :: str =>
    if b = 0#8 then some 0
    else (unicodeLength str).map fun n => if b &&& 0xC0#8 ≠ 0x80#8 then n + 1 else n

/-! ## Converting a string -/

/-- The second loop of `convert_to_unicode`: `n` code units, decoded one by one. -/
def convertLoop : Nat → List UChar → Option (List JChar)
  | 0, _ => some []
  | n + 1, ptr => do
    let (ch, ptr) ← next ptr
    return ch :: (← convertLoop n ptr)

/-- Both loops of `convert_to_unicode`: ASCII bytes are copied until the first other byte. -/
def convertToUnicode : List UChar → Nat → Option (List JChar)
  | _, 0 => some []
  | ptr, n + 1 => do
    let ch ← ptr[0]?
    if ch > 0x7F#8 then convertLoop (n + 1) ptr
    else return ch.setWidth 16 :: (← convertToUnicode (ptr.drop 1) n)

end UTF8

namespace UNICODE

/-! ## Encoding -/

/-- The bytes `utf8_write` stores for a code unit. -/
def utf8Write (ch : JChar) : List UChar :=
  if ch ≠ 0#16 ∧ ch ≤ 0x7f#16 then [ch.setWidth 8]
  else if ch ≤ 0x7FF#16 then
    let highFive : UChar := (ch >>> 6).setWidth 8
    let lowSix : UChar := (ch &&& 0x3F#16).setWidth 8
    [highFive ||| 0xC0#8, lowSix ||| 0x80#8]
  else
    let highFour : UChar := (ch >>> 12).setWidth 8
    let midSix : UChar := ((ch >>> 6) &&& 0x3F#16).setWidth 8
    let lowSix : UChar := (ch &&& 0x3f#16).setWidth 8
    [highFour ||| 0xE0#8, midSix ||| 0x80#8, lowSix ||| 0x80#8]

def utf8Size (c : JChar) : Nat :=
  if 0x0001#16 ≤ c ∧ c ≤ 0x007F#16 then 1
  else if c ≤ 0x07FF#16 then 2
  else 3

def utf8Length (base : List JChar) : JInt :=
  base.foldl (fun result c =>
    if 0x0001#16 ≤ c ∧ c ≤ 0x007F#16 then result + 1
    else if c ≤ 0x07FF#16 then result + 2
    else result + 3) 0

/-- The contents of the buffer before the terminating zero. -/
def utf8Bytes (base : List JChar) : List UChar := base.flatMap utf8Write

def convertToUtf8 (base : List JChar) : List UChar := utf8Bytes base ++ [0#8]

/-- The loop of the `as_utf8` that is given a buffer: stop at the first code unit that would
leave no room for the terminating zero. `p` counts the bytes stored so far. -/
def asUtf8Loop (buflen : Nat) : Nat → List JChar → List UChar
  | _, [] => [0#8]
  | p, c :: base =>
    if p + utf8Size c ≥ buflen then [0#8]
    else utf8Write c ++ asUtf8Loop buflen (p + utf8Size c) base

def asUtf8 (base : List JChar) (buflen : Nat) : List UChar := asUtf8Loop buflen 0 base

/-! ## The shape of one encoded code unit -/

theorem or_continuation : ∀ x : UChar, x < 0x40#8 →
    (x ||| 0x80#8) &&& 0xC0#8 = 0x80#8 ∧ (x ||| 0x80#8) &&& 0x3F#8 = x ∧
      0x80#8 ≤ x ||| 0x80#8 ∧ x ||| 0x80#8 ≤ 0xEF#8 := by
  decide

theorem or_lead_two : ∀ x : UChar, x < 0x20#8 →
    (x ||| 0xC0#8) &&& 0xE0#8 = 0xC0#8 ∧ (x ||| 0xC0#8) &&& 0x1F#8 = x ∧
      0x80#8 ≤ x ||| 0xC0#8 ∧ x ||| 0xC0#8 ≤ 0xEF#8 := by
  decide

theorem or_lead_three : ∀ x : UChar, x < 0x10#8 →
    (x ||| 0xE0#8) &&& 0xF0#8 = 0xE0#8 ∧ (x ||| 0xE0#8) &&& 0x0F#8 = x ∧
      0x80#8 ≤ x ||| 0xE0#8 ∧ x ||| 0xE0#8 ≤ 0xEF#8 := by
  decide

/-- What `utf8Write` may store for a code unit, the groups of payload bits named. -/
inductive Form (ch : JChar) : List UChar → Prop
  | one (b : UChar) (hb : b ≠ 0#8) (hlt : b ≤ 0x7F#8) (hch : b.setWidth 16 = ch) : Form ch [b]
  | two (highFive lowSix : UChar) (hh : highFive < 0x20#8) (hl : lowSix < 0x40#8)
      (hch : (highFive.setWidth 16 <<< 6) + lowSix.setWidth 16 = ch) :
      Form ch [highFive ||| 0xC0#8, lowSix ||| 0x80#8]
  | three (highFour midSix lowSix : UChar) (hh : highFour < 0x10#8) (hm : midSix < 0x40#8)
      (hl : lowSix < 0x40#8)
      (hch : (((highFour.setWidth 16 <<< 6) + midSix.setWidth 16) <<< 6) + lowSix.setWidth 16 = ch) :
      Form ch [highFour ||| 0xE0#8, midSix ||| 0x80#8, lowSix ||| 0x80#8]

theorem toNat_and_six (x : JChar) : (x &&& 0x3F#16).toNat = x.toNat % 64 := by
  exact Nat.and_two_pow_sub_one_eq_mod _ 6

theorem and_six_lt (x : JChar) : (x &&& 0x3F#16).setWidth 8 < 0x40#8 := by
  rw [lt_def, toNat_setWidth, toNat_and_six]
  simp only [toNat_ofNat]
  omega

theorem utf8Write_form (ch : JChar) : Form ch (utf8Write ch) := by
  unfold utf8Write
  split
  next h =>
    refine .one _ ?_ ?_ ?_
    · intro h0
      exact h.1 (by bv_omega)
    · bv_omega
    · bv_omega
  split
  next h =>
    refine .two _ _ ?_ (and_six_lt ch) ?_
    · bv_omega
    · apply eq_of_toNat_eq
      simp only [toNat_add, toNat_shiftLeft, toNat_setWidth, toNat_and_six,
        toNat_ushiftRight, Nat.shiftRight_eq_div_pow, Nat.shiftLeft_eq]
      bv_omega
  · refine .three _ _ _ ?_ (and_six_lt _) (and_six_lt ch) ?_
    · simp only [lt_def, toNat_setWidth, toNat_ushiftRight,
        Nat.shiftRight_eq_div_pow, toNat_ofNat]
      omega
    apply eq_of_toNat_eq
    simp only [toNat_add, toNat_shiftLeft, toNat_setWidth, toNat_and_six,
      toNat_ushiftRight, Nat.shiftRight_eq_div_pow, Nat.shiftLeft_eq]
    have := ch.isLt
    omega

theorem utf8Write_length (ch : JChar) : (utf8Write ch).length = utf8Size ch := by
  have hone : (ch ≠ 0#16 ∧ ch ≤ 0x7f#16) ↔ (0x0001#16 ≤ ch ∧ ch ≤ 0x007F#16) := by
    constructor
    · rintro ⟨h0, h1⟩
      refine ⟨?_, h1⟩
      bv_omega
    · rintro ⟨h0, h1⟩
      refine ⟨?_, h1⟩
      bv_omega
  unfold utf8Write utf8Size
  simp only [hone]
  split
  · rfl
  · split <;> rfl

variable {ch : JChar} {bytes : List UChar}

/-- Encoded bytes are neither zero nor lead bytes of longer forms. -/
theorem Form.byte_bounds (h : Form ch bytes) : ∀ b ∈ bytes, b ≠ 0#8 ∧ b ≤ 0xEF#8 := by
  have high : ∀ b : UChar, 0x80#8 ≤ b → b ≠ 0#8 := by decide
  cases h with
  | one b hb hlt _ =>
    simp only [mem_singleton, forall_eq]
    exact ⟨hb, by bv_omega⟩
  | two highFive lowSix hh hl _ =>
    obtain ⟨-, -, hlo, hhi⟩ := or_lead_two highFive hh
    obtain ⟨-, -, hlo', hhi'⟩ := or_continuation lowSix hl
    simp only [mem_cons, not_mem_nil, or_false, forall_eq_or_imp, forall_eq]
    exact ⟨⟨high _ hlo, hhi⟩, high _ hlo', hhi'⟩
  | three highFour midSix lowSix hh hm hl _ =>
    obtain ⟨-, -, hlo, hhi⟩ := or_lead_three highFour hh
    obtain ⟨-, -, hlo', hhi'⟩ := or_continuation midSix hm
    obtain ⟨-, -, hlo'', hhi''⟩ := or_continuation lowSix hl
    simp only [mem_cons, not_mem_nil, or_false, forall_eq_or_imp, forall_eq]
    exact ⟨⟨high _ hlo, hhi⟩, ⟨high _ hlo', hhi'⟩, high _ hlo'', hhi''⟩

/-! ## Decoding one encoded code unit -/

/-- Bytes of the form `10xxxxxx`. -/
def isContinuation (b : UChar) : Bool := b &&& 0xC0#8 = 0x80#8

theorem unicodeLength_loop (bytes : List UChar) (n : JInt) :
    bytes.foldl (fun numChars b => if b &&& 0xC0#8 = 0x80#8 then numChars - 1 else numChars) n
      = n - BitVec.ofNat 32 (bytes.countP isContinuation) := by
  induction bytes generalizing n with
  | nil => simp
  | cons b bytes ih =>
    rw [foldl_cons, ih, countP_cons]
    by_cases hcont : b &&& 0xC0#8 = 0x80#8
    · simp [isContinuation, hcont, ofNat_add]
      abel
    · simp [isContinuation, hcont]

end UNICODE

namespace UTF8

def twoBytes (b c : UChar) : JChar := ((b &&& 0x1F#8).setWidth 16 <<< 6) + (c &&& 0x3F#8).setWidth 16

def threeBytes (b c d : UChar) : JChar :=
  ((((b &&& 0x0F#8).setWidth 16 <<< 6) + (c &&& 0x3F#8).setWidth 16) <<< 6) + (d &&& 0x3F#8).setWidth 16

/-- The bytes of a character, and its value. From version 48 on it has its shortest form. -/
inductive Character (majorVersion : Nat) : List UChar → JChar → Prop
  | one {b : UChar} (hne : b ≠ 0#8) (hb : b < 0x80#8) : Character majorVersion [b] (b.setWidth 16)
  | two {b c : UChar} (hb : b &&& 0xE0#8 = 0xC0#8) (hc : c &&& 0xC0#8 = 0x80#8)
      (hshort : majorVersion ≤ 47 ∨ twoBytes b c = 0#16 ∨ 0x80#16 ≤ twoBytes b c) :
      Character majorVersion [b, c] (twoBytes b c)
  | three {b c d : UChar} (hb : b &&& 0xF0#8 = 0xE0#8) (hc : c &&& 0xC0#8 = 0x80#8) (hd : d &&& 0xC0#8 = 0x80#8)
      (hshort : majorVersion ≤ 47 ∨ 0x800#16 ≤ threeBytes b c d) : Character majorVersion [b, c, d] (threeBytes b c d)

/-- The bytes of a sequence of characters. -/
inductive Characters (majorVersion : Nat) : List UChar → List JChar → Prop
  | nil : Characters majorVersion [] []
  | cons {bytes rest : List UChar} {ch : JChar} {chs : List JChar} (h : Character majorVersion bytes ch)
      (hrest : Characters majorVersion rest chs) : Characters majorVersion (bytes ++ rest) (ch :: chs)

variable {v : Nat} {bytes : List UChar} {ch : JChar} {chs : List JChar}

theorem next_one {b : UChar} (rest : List UChar) (hb : b < 0x80#8) : next (b :: rest) = some (b.setWidth 16, rest) := by
  have hlead := (by decide : ∀ b : UChar, b < 0x80#8 → (b >>> 4).toNat < 8) b hb
  unfold next
  simp only [getElem?_cons_zero, some_bind]
  -- only the default label of the switch is left
  split <;> first
    | omega
    | rfl

theorem next_two {b c : UChar} (rest : List UChar) (hb : b &&& 0xE0#8 = 0xC0#8) (hcont : c &&& 0xC0#8 = 0x80#8) :
    next (b :: c :: rest) = some (twoBytes b c, rest) := by
  have hlead := (by decide : ∀ b : UChar, b &&& 0xE0#8 = 0xC0#8 → (b >>> 4).toNat = 0xC ∨ (b >>> 4).toNat = 0xD) b hb
  unfold next
  simp only [getElem?_cons_zero, bind_eq_bind, bind_some]
  obtain hlead | hlead := hlead
  all_goals
    rw [hlead]
    simp [hcont]
    rfl

theorem next_three {b c d : UChar} (rest : List UChar) (hb : b &&& 0xF0#8 = 0xE0#8)
    (hcont : c &&& 0xC0#8 = 0x80#8) (hcont' : d &&& 0xC0#8 = 0x80#8) :
    next (b :: c :: d :: rest) = some (threeBytes b c d, rest) := by
  have hlead := (by decide : ∀ b : UChar, b &&& 0xF0#8 = 0xE0#8 → (b >>> 4).toNat = 0xE) b hb
  unfold next
  simp only [getElem?_cons_zero, bind_eq_bind, bind_some]
  rw [hlead]
  simp only [getElem?_cons_succ, getElem?_cons_zero, bind_some, hcont, hcont', if_true]
  rfl

theorem Character.next_append (h : Character v bytes ch) (rest : List UChar) : next (bytes ++ rest) = some (ch, rest) := by
  cases h with
  | one _ hb => exact next_one rest hb
  | two hb hc _ => exact next_two rest hb hc
  | three hb hc hd _ => exact next_three rest hb hc hd

theorem Character.length_eq (h : Character v bytes ch) : bytes.length = bytes.countP UNICODE.isContinuation + 1 := by
  have hlead : ∀ b : UChar, b < 0x80#8 ∨ b &&& 0xE0#8 = 0xC0#8 ∨ b &&& 0xF0#8 = 0xE0#8 → b &&& 0xC0#8 ≠ 0x80#8 := by
    decide
  cases h with
  | one _ hb => simp [UNICODE.isContinuation, hlead _ (.inl hb)]
  | two hb hc _ => simp [UNICODE.isContinuation, hlead _ (.inr (.inl hb)), hc]
  | three hb hc hd _ => simp [UNICODE.isContinuation, hlead _ (.inr (.inr hb)), hc, hd]

theorem Characters.length_eq (h : Characters v bytes chs) :
    bytes.length = bytes.countP UNICODE.isContinuation + chs.length := by
  induction h with
  | nil => rfl
  | cons hch _ ih =>
    have hlen := hch.length_eq
    rw [length_append, countP_append, length_cons]
    omega

theorem toInt_ofNat_of_lt {n : Nat} (h : n < 2 ^ 31) : (BitVec.ofNat 32 n).toInt = n := by
  rw [toInt_eq_toNat_cond, toNat_ofNat]
  omega

theorem Characters.unicodeLengthOf_eq (h : Characters v bytes chs) {len : JInt} (hlen : len.toInt = bytes.length) :
    (unicodeLengthOf bytes len).toInt = chs.length := by
  have hcount := h.length_eq
  have hlt := BitVec.toInt_lt (x := len)
  have heq : len = BitVec.ofNat 32 chs.length + BitVec.ofNat 32 (bytes.countP UNICODE.isContinuation) := by
    apply eq_of_toInt_eq
    rw [← ofNat_add, toInt_ofNat_of_lt (by omega), hlen]
    omega
  rw [unicodeLengthOf, hlen, Int.toNat_natCast, take_length, UNICODE.unicodeLength_loop, heq, BitVec.add_sub_cancel]
  exact toInt_ofNat_of_lt (by omega)

theorem isSupplementaryCharacter_eq (b0 b1 b2 b3 b4 b5 : UChar) (p : List UChar) :
    isSupplementaryCharacter (b0 :: b1 :: b2 :: b3 :: b4 :: b5 :: p) =
      some (decide (b0 &&& 0xFF#8 = 0xED#8 ∧ b1 &&& 0xF0#8 = 0xA0#8 ∧ b2 &&& 0xC0#8 = 0x80#8 ∧
        b3 &&& 0xFF#8 = 0xED#8 ∧ b4 &&& 0xF0#8 = 0xB0#8 ∧ b5 &&& 0xC0#8 = 0x80#8)) := by
  unfold isSupplementaryCharacter
  simp only [getElem?_cons_zero, getElem?_cons_succ, some_bind, ne_eq, ite_not]
  split_ifs <;> simp [*]

/-- Behind the first byte only continuation bytes are consumed. -/
theorem next_consumes {b : UChar} {p q : List UChar} {ch : JChar} (h : next (b :: p) = some (ch, q)) :
    ∃ tail, p = tail ++ q ∧ ∀ c ∈ tail, c &&& 0xC0#8 = 0x80#8 := by
  rcases p with _ | ⟨c, _ | ⟨d, p⟩⟩ <;> unfold next at h <;>
    simp only [getElem?_nil, getElem?_cons_zero, getElem?_cons_succ, bind_eq_bind,
      bind_none, bind_some] at h <;> split at h
  all_goals try split_ifs at h
  all_goals
    cases h <;> first
      | exact ⟨[], rfl, nofun⟩
      | exact ⟨[c], rfl, by simpa⟩
      | exact ⟨[c, d], rfl, by simp [*]⟩

/-- A character that does not begin with an ASCII byte has none. -/
theorem nextCharacter_consumes {b : UChar} {p q : List UChar} {ch : JInt} (hb : 0x80#8 ≤ b)
    (h : nextCharacter (b :: p) = some (ch, q)) : ∃ bytes, b :: p = bytes ++ q ∧ ∀ c ∈ bytes, 0x80#8 ≤ c := by
  have hcont : ∀ c : UChar, c &&& 0xC0#8 = 0x80#8 → 0x80#8 ≤ c := by decide
  obtain ⟨supplementary, hsupp, h⟩ := bind_eq_some_iff.mp h
  cases supplementary with
  | false =>
    obtain ⟨⟨result, nextCh⟩, hnext, hresult⟩ := bind_eq_some_iff.mp h
    obtain ⟨tail, rfl, htail⟩ := next_consumes hnext
    cases hresult
    exact ⟨b :: tail, rfl, forall_mem_cons.mpr ⟨hb, fun c hc => hcont c (htail c hc)⟩⟩
  | true =>
    obtain ⟨_, -, h⟩ := bind_eq_some_iff.mp h
    cases h
    have hhigh : ∀ c : UChar, c &&& 0xF0#8 = 0xA0#8 ∨ c &&& 0xF0#8 = 0xB0#8 ∨ c &&& 0xFF#8 = 0xED#8 → 0x80#8 ≤ c := by
      decide
    rcases p with _ | ⟨b1, _ | ⟨b2, _ | ⟨b3, _ | ⟨b4, _ | ⟨b5, p⟩⟩⟩⟩⟩
    case cons.cons.cons.cons.cons =>
      simp only [isSupplementaryCharacter_eq, some.injEq, decide_eq_true_eq] at hsupp
      obtain ⟨-, h1, h2, h3, h4, h5⟩ := hsupp
      refine ⟨[b, b1, b2, b3, b4, b5], rfl, ?_⟩
      simp [hb, hhigh b1 (.inl h1), hcont b2 h2, hhigh b3 (.inr (.inr h3)), hhigh b4 (.inr (.inl h4)), hcont b5 h5]
    all_goals
      simp only [isSupplementaryCharacter, getElem?_nil, getElem?_cons_zero, getElem?_cons_succ,
        bind_eq_bind, bind_none, bind_some] at hsupp
      split_ifs at hsupp <;> cases hsupp

end UTF8

namespace UNICODE

variable {ch : JChar} {bytes : List UChar}

/-- What is written are the bytes of a character. -/
theorem Form.character (h : Form ch bytes) : UTF8.Character 0 bytes ch := by
  cases h with
  | one b hb hlt hch => exact hch ▸ .one hb (by bv_omega)
  | two highFive lowSix hh hl hch =>
    obtain ⟨hlead, hpay, -⟩ := or_lead_two highFive hh
    obtain ⟨hcont, hpay', -⟩ := or_continuation lowSix hl
    have hvalue : UTF8.twoBytes (highFive ||| 0xC0#8) (lowSix ||| 0x80#8) = ch := by
      rw [UTF8.twoBytes, hpay, hpay', hch]
    exact hvalue ▸ .two hlead hcont (.inl (Nat.zero_le 47))
  | three highFour midSix lowSix hh hm hl hch =>
    obtain ⟨hlead, hpay, -⟩ := or_lead_three highFour hh
    obtain ⟨hcont, hpay', -⟩ := or_continuation midSix hm
    obtain ⟨hcont', hpay'', -⟩ := or_continuation lowSix hl
    have hvalue : UTF8.threeBytes (highFour ||| 0xE0#8) (midSix ||| 0x80#8) (lowSix ||| 0x80#8) = ch := by
      rw [UTF8.threeBytes, hpay, hpay', hpay'', hch]
    exact hvalue ▸ .three hlead hcont hcont' (.inl (Nat.zero_le 47))

/-- The decoder undoes the encoder and stops right behind what it wrote. -/
theorem next_utf8Write (ch : JChar) (rest : List UChar) :
    UTF8.next (utf8Write ch ++ rest) = some (ch, rest) :=
  (utf8Write_form ch).character.next_append rest

/-! ## Whole strings -/

@[simp]
theorem utf8Bytes_cons (ch : JChar) (s : List JChar) :
    utf8Bytes (ch :: s) = utf8Write ch ++ utf8Bytes s := rfl

theorem utf8Bytes_append (s t : List JChar) : utf8Bytes (s ++ t) = utf8Bytes s ++ utf8Bytes t :=
  flatMap_append

variable (s : List JChar)

theorem utf8Length_loop (n : JInt) : s.foldl (fun result c =>
      if 0x0001#16 ≤ c ∧ c ≤ 0x007F#16 then result + 1 else if c ≤ 0x07FF#16 then result + 2
      else result + 3) n = n + BitVec.ofNat 32 (utf8Bytes s).length := by
  induction s generalizing n with
  | nil => simp [utf8Bytes]
  | cons ch s ih =>
    rw [foldl_cons, ih, utf8Bytes_cons, length_append, utf8Write_length, ofNat_add, ← add_assoc]
    unfold utf8Size
    split_ifs <;> rfl

/-- The length prediction `as_utf8` asserts, as an `int`. -/
theorem utf8Length_eq : utf8Length s = BitVec.ofNat 32 (utf8Bytes s).length := by
  unfold utf8Length
  rw [utf8Length_loop, zero_add]

theorem utf8Bytes_length : (utf8Bytes s).length = (s.map utf8Size).sum := by
  rw [utf8Bytes, length_flatMap]
  simp [utf8Write_length]

theorem utf8Bytes_bounds : ∀ b ∈ utf8Bytes s, b ≠ 0#8 ∧ b ≤ 0xEF#8 := by
  intro b hb
  obtain ⟨ch, -, hb⟩ := mem_flatMap.mp hb
  exact (utf8Write_form ch).byte_bounds b hb

theorem characters_utf8Bytes : UTF8.Characters 0 (utf8Bytes s) s := by
  induction s with
  | nil => exact .nil
  | cons ch s ih => exact .cons (utf8Write_form ch).character ih

/-- The count that stops at the terminating zero is the number of characters. -/
theorem unicodeLength_convertToUtf8 : UTF8.unicodeLength (convertToUtf8 s) = some (BitVec.ofNat 32 s.length) := by
  have hcount : ∀ bytes : List UChar, (∀ b ∈ bytes, b ≠ 0#8) → UTF8.unicodeLength (bytes ++ [0#8]) =
      some (BitVec.ofNat 32 (bytes.countP fun b => !isContinuation b)) := by
    intro bytes hzero
    induction bytes with
    | nil => rfl
    | cons b bytes ih =>
      rw [cons_append, UTF8.unicodeLength, if_neg (hzero b mem_cons_self),
        ih fun c hc => hzero c (mem_cons_of_mem b hc), map_some, countP_cons]
      by_cases hcont : b &&& 0xC0#8 = 0x80#8 <;> simp [isContinuation, hcont, ofNat_add]
  have hlen := (characters_utf8Bytes s).length_eq
  have hsplit := length_eq_countP_add_countP isContinuation (l := utf8Bytes s)
  rw [convertToUtf8, hcount _ fun b hb => (utf8Bytes_bounds s b hb).1]
  congr 2
  simp only [decide_not, Bool.decide_eq_true] at hsplit
  omega

/-- Decoding one code unit after the other gives the string back. -/
theorem convertLoop_utf8Bytes (rest : List UChar) :
    UTF8.convertLoop s.length (utf8Bytes s ++ rest) = some s := by
  induction s with
  | nil => rfl
  | cons ch s ih =>
    rw [utf8Bytes_cons, append_assoc, length_cons, UTF8.convertLoop, next_utf8Write]
    simp [ih]

/-- The ASCII loop copies a prefix of one-byte forms and hands the rest to the decoder. -/
theorem convertToUnicode_utf8Bytes (rest : List UChar) :
    UTF8.convertToUnicode (utf8Bytes s ++ rest) s.length = some s := by
  induction s with
  | nil => rfl
  | cons ch s ih =>
    have hloop := convertLoop_utf8Bytes (ch :: s) rest
    rw [utf8Bytes_cons, append_assoc, length_cons] at hloop ⊢
    have hform := utf8Write_form ch
    generalize utf8Write ch = bytes at hloop hform ⊢
    cases hform with
    | one b _ hlt hch =>
      have hascii : ¬ b > 0x7F#8 := by bv_omega
      simp [UTF8.convertToUnicode, hascii, ih, hch]
    | two highFive lowSix hh _ _ =>
      obtain ⟨-, -, hhigh, -⟩ := or_lead_two highFive hh
      have hascii : (highFive ||| 0xC0#8) > 0x7F#8 := by bv_omega
      simpa [UTF8.convertToUnicode, hascii] using hloop
    | three highFour midSix lowSix hh _ _ _ =>
      obtain ⟨-, -, hhigh, -⟩ := or_lead_three highFour hh
      have hascii : (highFour ||| 0xE0#8) > 0x7F#8 := by bv_omega
      simpa [UTF8.convertToUnicode, hascii] using hloop

/-- The buffer of `as_utf8` is never overrun. It holds the longest prefix of the string that leaves room for the zero. -/
theorem asUtf8Loop_spec (buflen : Nat) (s : List JChar) (p : Nat) (hp : p < buflen) :
    p + (asUtf8Loop buflen p s).length ≤ buflen ∧ ∃ n, asUtf8Loop buflen p s = convertToUtf8 (s.take n) ∧
      (n = s.length ∨ buflen ≤ p + (utf8Bytes (s.take (n + 1))).length) := by
  induction s generalizing p with
  | nil => exact ⟨hp, 0, rfl, .inl rfl⟩
  | cons c s ih =>
    rw [asUtf8Loop]
    split
    next hfull => exact ⟨hp, 0, rfl, .inr (by simpa [utf8Bytes, utf8Write_length] using hfull)⟩
    next hfit =>
      obtain ⟨hlen, n, htake, hlongest⟩ := ih (p + utf8Size c) (by omega)
      refine ⟨?_, n + 1, ?_, hlongest.imp (congrArg (· + 1)) fun hfull => ?_⟩
      · rw [length_append, utf8Write_length]
        omega
      · rw [htake, take_succ_cons]
        simp [convertToUtf8]
      · rw [take_succ_cons, utf8Bytes_cons, length_append, utf8Write_length]
        omega

/-- What `as_utf8` stores is read back by `convert_to_unicode`. -/
theorem asUtf8_spec (buflen : Nat) (h : 0 < buflen) :
    (asUtf8 s buflen).length ≤ buflen ∧ ∃ n, asUtf8 s buflen = convertToUtf8 (s.take n) ∧
      (n = s.length ∨ buflen ≤ (utf8Bytes (s.take (n + 1))).length) ∧
      UTF8.convertToUnicode (asUtf8 s buflen) (s.take n).length = some (s.take n) := by
  obtain ⟨hlen, n, htake, hlongest⟩ := asUtf8Loop_spec buflen s 0 h
  rw [Nat.zero_add] at hlen hlongest
  refine ⟨hlen, n, htake, hlongest, ?_⟩
  rw [asUtf8, htake]
  exact convertToUnicode_utf8Bytes _ _

theorem asUtf8_spec_short : (asUtf8 [0x41#16, 0x20AC#16] 4).length ≤ 4 :=
  (asUtf8_spec _ 4 (by decide)).1

/-! ## Surrogate pairs -/

def isHighSurrogate (ch : JChar) : Prop := 0xD800#16 ≤ ch ∧ ch ≤ 0xDBFF#16

def isLowSurrogate (ch : JChar) : Prop := 0xDC00#16 ≤ ch ∧ ch ≤ 0xDFFF#16

/-- The supplementary code point a surrogate pair stands for. -/
def codePoint (high low : JChar) : JInt :=
  0x10000#32 + ((high.setWidth 32 - 0xD800#32) <<< 10) + (low.setWidth 32 - 0xDC00#32)

theorem or_high_surrogate : ∀ x : UChar, 0x20#8 ≤ x → x < 0x30#8 →
    (x ||| 0x80#8) &&& 0xF0#8 = 0xA0#8 ∧ (x ||| 0x80#8) &&& 0x0f#8 = x - 0x20#8 := by
  decide

theorem or_low_surrogate : ∀ x : UChar, 0x30#8 ≤ x → x < 0x40#8 →
    (x ||| 0x80#8) &&& 0xF0#8 = 0xB0#8 ∧ (x ||| 0x80#8) &&& 0x0f#8 = x - 0x30#8 := by
  decide

/-- A surrogate takes three bytes and the first one is `0xED`. -/
theorem utf8Write_surrogate (h : isHighSurrogate ch ∨ isLowSurrogate ch) :
    ∃ midSix lowSix : UChar, midSix < 0x40#8 ∧ lowSix < 0x40#8 ∧
      ch.toNat = 0xD000 + 64 * midSix.toNat + lowSix.toNat ∧
      utf8Write ch = [0xED#8, midSix ||| 0x80#8, lowSix ||| 0x80#8] := by
  have hform := utf8Write_form ch
  generalize utf8Write ch = bytes at hform
  have hnat : 0xD800 ≤ ch.toNat ∧ ch.toNat ≤ 0xDFFF := by
    obtain ⟨hlo, hhi⟩ | ⟨hlo, hhi⟩ := h
    all_goals bv_omega
  cases hform with
  | one b _ hlt hch =>
    exfalso
    bv_omega
  | two highFive lowSix hh hl hch =>
    subst hch
    exfalso
    bv_omega
  | three highFour midSix lowSix hh hm hl hch =>
    have hval : ch.toNat = 4096 * highFour.toNat + 64 * midSix.toNat + lowSix.toNat := by
      rw [← hch]
      bv_omega
    have hfour : highFour = 0xD#8 := by bv_omega
    subst hfour
    exact ⟨midSix, lowSix, hm, hl, hval, rfl⟩

theorem nextCharacter_pair {high low : JChar} (hhigh : isHighSurrogate high)
    (hlow : isLowSurrogate low) (rest : List UChar) :
    UTF8.nextCharacter (utf8Write high ++ (utf8Write low ++ rest)) =
      some (codePoint high low, rest) := by
  obtain ⟨m, l, hm, hl, hval, hwrite⟩ := utf8Write_surrogate (.inl hhigh)
  obtain ⟨m', l', hm', hl', hval', hwrite'⟩ := utf8Write_surrogate (.inr hlow)
  have hnat : 0xD800 ≤ high.toNat ∧ high.toNat ≤ 0xDBFF := hhigh
  have hnat' : 0xDC00 ≤ low.toNat ∧ low.toNat ≤ 0xDFFF := hlow
  obtain ⟨htag, hmid⟩ := or_high_surrogate m (by bv_omega) (by bv_omega)
  obtain ⟨htag', hmid'⟩ := or_low_surrogate m' (by bv_omega) (by bv_omega)
  obtain ⟨hcont, hsix, -⟩ := or_continuation l hl
  obtain ⟨hcont', hsix', -⟩ := or_continuation l' hl'
  have hsupp : UTF8.isSupplementaryCharacter (utf8Write high ++ (utf8Write low ++ rest))
      = some true := by
    rw [hwrite, hwrite']
    unfold UTF8.isSupplementaryCharacter
    simp only [cons_append, nil_append, getElem?_cons_zero, getElem?_cons_succ,
      some_bind, htag, htag', hcont, hcont']
    rfl
  have hget : UTF8.getSupplementaryCharacter (utf8Write high ++ (utf8Write low ++ rest))
      = some (codePoint high low) := by
    rw [hwrite, hwrite']
    unfold UTF8.getSupplementaryCharacter codePoint
    simp only [cons_append, nil_append, getElem?_cons_zero, getElem?_cons_succ,
      some_bind, hmid, hmid', hsix, hsix', Option.pure_def,
      some.injEq]
    apply eq_of_toNat_eq
    bv_omega
  unfold UTF8.nextCharacter
  rw [hsupp, hget, hwrite, hwrite']
  rfl

/-- Encoding a string and decoding it again. The three counts are `int`s: they are right as long
as the encoding has less than `2^31` bytes, and no longer. -/
theorem convertToUtf8_roundTrip : ∃ bytes, convertToUtf8 s = bytes ++ [0#8] ∧
      (∀ b ∈ bytes, b ≠ 0#8 ∧ b ≤ 0xEF#8) ∧
      UTF8.convertToUnicode (convertToUtf8 s) s.length = some s ∧
      UTF8.convertLoop s.length (convertToUtf8 s) = some s ∧
      (∀ before after high low, s = before ++ high :: low :: after →
        isHighSurrogate high → isLowSurrogate low →
        UTF8.nextCharacter ((convertToUtf8 s).drop (before.map utf8Size).sum) =
          some (codePoint high low, (convertToUtf8 s).drop ((before.map utf8Size).sum + 6))) ∧
      ((utf8Length s).toInt = bytes.length ∧ (UTF8.unicodeLengthOf bytes (utf8Length s)).toInt = s.length ∧
          (UTF8.unicodeLength (convertToUtf8 s)).map BitVec.toInt = some (s.length : Int) ↔
        (s.map utf8Size).sum < 2 ^ 31) := by
  refine ⟨utf8Bytes s, rfl, utf8Bytes_bounds s, convertToUnicode_utf8Bytes s [0#8], convertLoop_utf8Bytes s [0#8],
    ?_, ?_⟩
  · intro before after high low hs hhigh hlow
    have hpair : (utf8Write high ++ utf8Write low).length = 6 := by
      obtain ⟨_, _, -, -, -, hwrite⟩ := utf8Write_surrogate (.inl hhigh)
      obtain ⟨_, _, -, -, -, hwrite'⟩ := utf8Write_surrogate (.inr hlow)
      rw [hwrite, hwrite']
      rfl
    have hsplit : convertToUtf8 s = utf8Bytes before ++
        ((utf8Write high ++ utf8Write low) ++ (utf8Bytes after ++ [0#8])) := by
      rw [hs, convertToUtf8, utf8Bytes_append]
      simp
    rw [← utf8Bytes_length before, hsplit, ← drop_drop, drop_left, ← hpair, drop_left,
      append_assoc]
    exact nextCharacter_pair hhigh hlow _
  · rw [← utf8Bytes_length]
    constructor
    · rintro ⟨hlen, -⟩
      have := BitVec.toInt_lt (x := utf8Length s)
      omega
    · intro hlt
      have hlen : (utf8Length s).toInt = (utf8Bytes s).length := by
        rw [utf8Length_eq, UTF8.toInt_ofNat_of_lt hlt]
      have hcount := (characters_utf8Bytes s).length_eq
      refine ⟨hlen, (characters_utf8Bytes s).unicodeLengthOf_eq hlen, ?_⟩
      rw [unicodeLength_convertToUtf8, map_some, UTF8.toInt_ofNat_of_lt (by omega)]

/-- 715827883 times `U+0800`: the encoding has 2147483649 bytes. -/
theorem utf8Length_wraps : (utf8Length (replicate 715827883 0x0800#16)).toInt = -2147483647 ∧
    (utf8Bytes (replicate 715827883 0x0800#16)).length = 2147483649 := by
  have hlength (n : Nat) : (utf8Bytes (replicate n 0x0800#16)).length = n * 3 := by
    rw [utf8Bytes_length, map_replicate, sum_replicate]
    rfl
  rw [utf8Length_eq, hlength]
  decide

end UNICODE

end Hotspot
