-- SUMMARY: The check of class file strings: its grammar, and the decoder behind it.
import Hotspot.Classfile.ClassFileParser

/-!
# Legal strings

`verify_legal_utf8` skips ASCII characters four at a time, and then looks at one character after
the other. A pointer into its buffer is the list of the bytes from there to `length`: a read at or
behind the length is an error. The length is a `u2` of the class file, so that the ints of the
loops do not overflow.
-/

namespace Hotspot

namespace ClassFileParser

variable (this : ClassFileParser)

/-! ## The check -/

def illegalUtf8 : ParseError :=
  .classFormatError "Illegal UTF8 string in constant pool in class file %s" [this.className]

/-- The first loop, `k` rounds of four bytes. It stops at a zero or at a byte above 127. -/
def skipAscii : Nat → List UChar → Except ParseError (List UChar)
  | 0, p => .ok p
  | k + 1, p => do
    let b0 ← deref p
    let b1 ← deref (p.drop 1)
    let b2 ← deref (p.drop 2)
    let b3 ← deref (p.drop 3)
    let res := b0 ||| (b0 - 1) ||| b1 ||| (b1 - 1) ||| b2 ||| (b2 - 1) ||| b3 ||| (b3 - 1)
    if 128#8 ≤ res then return p else skipAscii k (p.drop 4)

/-- Behind the lead byte of `110xxxxx 10xxxxxx`. -/
def checkTwo (b : UChar) (p : List UChar) : Except ParseError (List UChar) :=
  if 0 < p.length then do
    let b1 ← deref p
    let c : JChar := ((b &&& 0x1F#8).setWidth 16 <<< 6) + (b1 &&& 0x3F#8).setWidth 16
    if b1 &&& 0xC0#8 = 0x80#8 ∧ (this.majorVersion ≤ 47 ∨ c = 0#16 ∨ 0x80#16 ≤ c)
      then return p.drop 1
    else throw this.illegalUtf8
  else throw this.illegalUtf8

/-- Behind the lead byte of `1110xxxx 10xxxxxx 10xxxxxx`. -/
def checkThree (b : UChar) (p : List UChar) : Except ParseError (List UChar) :=
  if 1 < p.length then do
    let b1 ← deref p
    let b2 ← deref (p.drop 1)
    let c : JChar := ((b &&& 0x0F#8).setWidth 16 <<< 12) +
      (((b1 &&& 0x3F#8).setWidth 16 <<< 6) + (b2 &&& 0x3F#8).setWidth 16)
    if (b1 &&& 0xC0#8 = 0x80#8 ∧ b2 &&& 0xC0#8 = 0x80#8) ∧
      (this.majorVersion ≤ 47 ∨ 0x800#16 ≤ c) then
      return p.drop 2
    else throw this.illegalUtf8
  else throw this.illegalUtf8

/-- The switch on the lead byte. -/
def checkLead (b : UChar) (p : List UChar) : Except ParseError (List UChar) :=
  match (b >>> 4).toNat with
  | 0x8 | 0x9 | 0xA | 0xB | 0xF => throw this.illegalUtf8
  | 0xC | 0xD => this.checkTwo b p
  | 0xE => this.checkThree b p
  | _ => return p

/-- One round of the second loop: where the next round begins. -/
def checkCharacter (p : List UChar) : Except ParseError (List UChar) := do
  let b ← deref p
  if b = 0#8 then throw this.illegalUtf8
  else if b < 128#8 then return p.drop 1
  else
    -- see if it's a legal supplementary character
    match if 5 < p.length then UTF8.isSupplementaryCharacter p else some false with
    | none => throw .pastEnd
    | some true => return p.drop 6
    | some false => this.checkLead b (p.drop 1)

/-- The second loop. Each round moves on, so that `length` rounds are enough. -/
def checkCharacters : Nat → List UChar → Except ParseError Unit
  | 0, _ => .error .pastEnd
  | fuel + 1, p =>
    if p.length = 0 then return
    else do
      let p ← this.checkCharacter p
      checkCharacters fuel p

def verifyLegalUtf8 (buffer : List UChar) : Except ParseError Unit := do
  let p ← skipAscii (buffer.length >>> 2) buffer
  this.checkCharacters (p.length + 1) p

end ClassFileParser

/-! ## The grammar -/

namespace UTF8

def Legal (majorVersion : Nat) (bytes : List UChar) : Prop :=
  ∃ chs, Characters majorVersion bytes chs

/-- The run of `next` from a pointer to the end of the array, in `n` steps that all find a legal
character. -/
inductive Run (majorVersion : Nat) : List UChar → Nat → Prop
  | done : Run majorVersion [] 0
  | step {bytes rest : List UChar} {ch : JChar} {n : Nat} (h : Character majorVersion bytes ch)
      (hnext : next (bytes ++ rest) = some (ch, rest)) (hrest : Run majorVersion rest n) :
      Run majorVersion (bytes ++ rest) (n + 1)

variable {v : Nat} {b : UChar} {p bytes : List UChar} {ch : JChar} {chs : List JChar}

theorem Characters.run (h : Characters v bytes chs) : Run v bytes chs.length := by
  induction h with
  | nil => exact .done
  | cons hch _ ih => exact .step hch (hch.next_append _) ih

/-- How a legal string begins. -/
theorem legal_cons : Legal v (b :: p) ↔ (b ≠ 0#8 ∧ b < 0x80#8) ∧ Legal v p ∨
      b &&& 0xE0#8 = 0xC0#8 ∧ (∃ c rest, p = c :: rest ∧
        (c &&& 0xC0#8 = 0x80#8 ∧ (v ≤ 47 ∨ twoBytes b c = 0#16 ∨ 0x80#16 ≤ twoBytes b c)) ∧
          Legal v rest) ∨
      b &&& 0xF0#8 = 0xE0#8 ∧ ∃ c d rest, p = c :: d :: rest ∧
        ((c &&& 0xC0#8 = 0x80#8 ∧ d &&& 0xC0#8 = 0x80#8) ∧ (v ≤ 47 ∨ 0x800#16 ≤ threeBytes b c d)) ∧
          Legal v rest := by
  constructor
  · rintro ⟨chs, h⟩
    generalize heq : b :: p = all at h
    cases h with
    | nil => cases heq
    | cons hch hrest =>
      cases hch with
      | one hne hb =>
        cases heq
        exact .inl ⟨⟨hne, hb⟩, _, hrest⟩
      | two hb hc hshort =>
        cases heq
        exact .inr (.inl ⟨hb, _, _, rfl, ⟨hc, hshort⟩, _, hrest⟩)
      | three hb hc hd hshort =>
        cases heq
        exact .inr (.inr ⟨hb, _, _, _, rfl, ⟨⟨hc, hd⟩, hshort⟩, _, hrest⟩)
  · rintro (⟨⟨hne, hb⟩, chs, h⟩ | ⟨hb, c, rest, rfl, ⟨hc, hshort⟩, chs, h⟩ |
      ⟨hb, c, d, rest, rfl, ⟨⟨hc, hd⟩, hshort⟩, chs, h⟩)
    · exact ⟨_, .cons (.one hne hb) h⟩
    · exact ⟨_, .cons (.two hb hc hshort) h⟩
    · exact ⟨_, .cons (.three hb hc hd hshort) h⟩

theorem legal_of_ascii (hne : b ≠ 0#8) (hb : b < 0x80#8) : Legal v (b :: p) ↔ Legal v p := by
  have hlead : ∀ b : UChar, b < 0x80#8 → b &&& 0xE0#8 ≠ 0xC0#8 ∧ b &&& 0xF0#8 ≠ 0xE0#8 := by decide
  rw [legal_cons]
  simp [hne, hb, hlead b hb]

theorem legal_of_two (hb : b &&& 0xE0#8 = 0xC0#8) : Legal v (b :: p) ↔ ∃ c rest, p = c :: rest ∧
    (c &&& 0xC0#8 = 0x80#8 ∧ (v ≤ 47 ∨ twoBytes b c = 0#16 ∨ 0x80#16 ≤ twoBytes b c)) ∧
      Legal v rest := by
  have hlead : ∀ b : UChar, b &&& 0xE0#8 = 0xC0#8 →
      ¬ b < 0x80#8 ∧ b &&& 0xF0#8 ≠ 0xE0#8 := by decide
  rw [legal_cons, and_iff_right hb, or_iff_right fun h => (hlead b hb).1 h.1.2, or_iff_left fun h =>
    (hlead b hb).2 h.1]

theorem legal_of_three (hb : b &&& 0xF0#8 = 0xE0#8) :
    Legal v (b :: p) ↔ ∃ c d rest, p = c :: d :: rest ∧
    ((c &&& 0xC0#8 = 0x80#8 ∧ d &&& 0xC0#8 = 0x80#8) ∧ (v ≤ 47 ∨ 0x800#16 ≤ threeBytes b c d)) ∧
      Legal v rest := by
  have hlead : ∀ b : UChar, b &&& 0xF0#8 = 0xE0#8 →
      ¬ b < 0x80#8 ∧ b &&& 0xE0#8 ≠ 0xC0#8 := by decide
  rw [legal_cons, and_iff_right hb, or_iff_right fun h => (hlead b hb).1 h.1.2,
    or_iff_right fun h => (hlead b hb).2 h.1]

/-- `check` computes the value of three bytes in another order. -/
theorem threeBytes_eq (b c d : UChar) : threeBytes b c d = ((b &&& 0x0F#8).setWidth 16 <<< 12) +
    (((c &&& 0x3F#8).setWidth 16 <<< 6) + (d &&& 0x3F#8).setWidth 16) := by
  apply BitVec.eq_of_toNat_eq
  simp only [threeBytes, BitVec.toNat_add, BitVec.toNat_shiftLeft, Nat.shiftLeft_eq]
  omega

/-- A surrogate takes three bytes, and that is its shortest form. -/
theorem legal_of_surrogate {c d : UChar} (hb : b &&& 0xFF#8 = 0xED#8)
    (hc : c &&& 0xF0#8 = 0xA0#8 ∨ c &&& 0xF0#8 = 0xB0#8)
    (hd : d &&& 0xC0#8 = 0x80#8) : Legal v (b :: c :: d :: p) ↔ Legal v p := by
  have hlead : ∀ b : UChar, b &&& 0xFF#8 = 0xED#8 → b = 0xED#8 := by decide
  have hcont : ∀ c : UChar, c &&& 0xF0#8 = 0xA0#8 ∨ c &&& 0xF0#8 = 0xB0#8 →
      c &&& 0xC0#8 = 0x80#8 := by decide
  have hsix : ∀ c : UChar, (c &&& 0x3F#8).toNat < 64 := by decide
  obtain rfl := hlead b hb
  have hshort : 0x800#16 ≤ threeBytes 0xED#8 c d := by
    have := hsix c
    have := hsix d
    rw [threeBytes_eq, BitVec.le_def, show (0xED#8 &&& 0x0F#8).setWidth 16 = 0xD#16 from rfl]
    simp only [BitVec.toNat_add, BitVec.toNat_shiftLeft, BitVec.toNat_setWidth, Nat.shiftLeft_eq,
      BitVec.toNat_ofNat]
    omega
  rw [legal_of_three rfl]
  constructor
  · rintro ⟨_, _, _, heq, -, h⟩
    cases heq
    exact h
  · exact fun h => ⟨c, d, p, rfl, ⟨⟨hcont c hc, hd⟩, .inr hshort⟩, h⟩

end UTF8

/-! ## What is accepted -/

namespace ClassFileParser

open UTF8

variable {this : ClassFileParser}

/-- For `0 < v < 128` the highest bit of `v | v - 1` is zero. -/
theorem ascii_of_msb : ∀ b : UChar, b.msb = false → (b - 1).msb = false → b ≠ 0#8 ∧ b < 0x80#8 := by
  decide

/-- The first loop reads only bytes that are there, and skips legal characters. -/
theorem skipAscii_spec (v k : Nat) (p : List UChar) (hk : 4 * k ≤ p.length) :
    ∃ rest, skipAscii k p = .ok rest ∧ (Legal v p ↔ Legal v rest) := by
  induction k generalizing p with
  | zero => exact ⟨p, rfl, .rfl⟩
  | succ k ih =>
    obtain ⟨b0, b1, b2, b3, tail, rfl⟩ : ∃ b0 b1 b2 b3 tail, p = b0 :: b1 :: b2 :: b3 :: tail := by
      match p, hk with
      | b0 :: b1 :: b2 :: b3 :: tail, _ => exact ⟨b0, b1, b2, b3, tail, rfl⟩
    simp only [skipAscii, deref, List.drop_succ_cons, List.drop_zero, ok_bind]
    split
    · exact ⟨_, rfl, .rfl⟩
    next hascii =>
      have hmsb : ∀ b : UChar, 128#8 ≤ b ↔ b.msb = true := by decide
      simp only [hmsb, BitVec.msb_or, Bool.not_eq_true, Bool.or_eq_false_iff, and_assoc] at hascii
      obtain ⟨h0, h0', h1, h1', h2, h2', h3, h3'⟩ := hascii
      obtain ⟨rest, heq, hlegal⟩ := ih tail (by simp only [List.length_cons] at hk; omega)
      refine ⟨rest, heq, ?_⟩
      rw [← hlegal, legal_of_ascii (ascii_of_msb b0 h0 h0').1 (ascii_of_msb b0 h0 h0').2,
        legal_of_ascii (ascii_of_msb b1 h1 h1').1 (ascii_of_msb b1 h1 h1').2,
        legal_of_ascii (ascii_of_msb b2 h2 h2').1 (ascii_of_msb b2 h2 h2').2,
        legal_of_ascii (ascii_of_msb b3 h3 h3').1 (ascii_of_msb b3 h3 h3').2]

/-- What a round does at `p`: it moves on and keeps the verdict, or `p` is not legal. -/
def Checked (this : ClassFileParser) (p : List UChar) (result : Except ParseError (List UChar)) :
    Prop :=
  (∃ rest, result = .ok rest ∧ rest.length < p.length ∧
    (Legal this.majorVersion p ↔ Legal this.majorVersion rest)) ∨
    result = .error this.illegalUtf8 ∧ ¬ Legal this.majorVersion p

variable {b : UChar} {p : List UChar}

theorem checked_two (hb : b &&& 0xE0#8 = 0xC0#8) : this.Checked (b :: p) (this.checkTwo b p) := by
  rw [Checked, legal_of_two hb]
  cases p with
  | nil => exact .inr ⟨rfl, fun ⟨_, _, heq, _⟩ => by cases heq⟩
  | cons c rest =>
    simp only [checkTwo, List.length_cons, Nat.zero_lt_succ, if_true, deref, ok_bind,
      List.drop_succ_cons, List.drop_zero,
      List.cons.injEq, ↓existsAndEq, true_and, twoBytes]
    split
    next hok => exact .inl ⟨rest, rfl, by omega, and_iff_right hok⟩
    next hbad => exact .inr ⟨rfl, fun h => hbad h.1⟩

theorem checked_three (hb : b &&& 0xF0#8 = 0xE0#8) :
    this.Checked (b :: p) (this.checkThree b p) := by
  rw [Checked, legal_of_three hb]
  match p with
  | [] | [_] => exact .inr ⟨rfl, fun ⟨_, _, _, heq, _⟩ => by cases heq⟩
  | c :: d :: rest =>
    simp only [checkThree, List.length_cons, show 1 < rest.length + 1 + 1 by omega, if_true, deref,
      ok_bind,
      List.drop_succ_cons, List.drop_zero, List.cons.injEq, ↓existsAndEq, true_and, ← threeBytes_eq]
    split
    next hok => exact .inl ⟨rest, rfl, by omega, and_iff_right hok⟩
    next hbad => exact .inr ⟨rfl, fun h => hbad h.1⟩

theorem checked_lead (hge : ¬ b < 128#8) : this.Checked (b :: p) (this.checkLead b p) := by
  have hcases : ∀ b : UChar, ¬ b < 128#8 →
      b &&& 0xE0#8 = 0xC0#8 ∧ ((b >>> 4).toNat = 0xC ∨ (b >>> 4).toNat = 0xD) ∨
        b &&& 0xF0#8 = 0xE0#8 ∧ (b >>> 4).toNat = 0xE ∨
        (b &&& 0xE0#8 ≠ 0xC0#8 ∧ b &&& 0xF0#8 ≠ 0xE0#8) ∧
          ((b >>> 4).toNat = 0x8 ∨ (b >>> 4).toNat = 0x9 ∨
          (b >>> 4).toNat = 0xA ∨ (b >>> 4).toNat = 0xB ∨ (b >>> 4).toNat = 0xF) := by decide
  obtain ⟨hb, h | h⟩ | ⟨hb, h⟩ | ⟨⟨htwo, hthree⟩, h⟩ := hcases b hge
  · rw [checkLead, h]
    exact checked_two hb
  · rw [checkLead, h]
    exact checked_two hb
  · rw [checkLead, h]
    exact checked_three hb
  · refine .inr ⟨?_, by simp [legal_cons, hge, htwo, hthree]⟩
    obtain h | h | h | h | h := h <;> rw [checkLead, h] <;> rfl

/-- The step: one round of the second loop. The six bytes of a supplementary character are two
surrogates. -/
theorem checked_character (b : UChar) (p : List UChar) :
    this.Checked (b :: p) (this.checkCharacter (b :: p)) := by
  simp only [checkCharacter, deref, ok_bind, List.drop_succ_cons, List.drop_zero]
  split
  next hzero =>
    subst hzero
    exact .inr ⟨rfl, by simp [legal_cons]⟩
  next hne =>
    split
    next hb => exact .inl ⟨p, rfl, Nat.lt_succ_self _, legal_of_ascii hne hb⟩
    next hge =>
      rcases p with _ | ⟨c, _ | ⟨d, _ | ⟨e, _ | ⟨f, _ | ⟨g, rest⟩⟩⟩⟩⟩
      case cons.cons.cons.cons.cons =>
        rw [if_pos (by simp only [List.length_cons]; omega), isSupplementaryCharacter_eq]
        by_cases hsupp : b &&& 0xFF#8 = 0xED#8 ∧ c &&& 0xF0#8 = 0xA0#8 ∧ d &&& 0xC0#8 = 0x80#8 ∧
          e &&& 0xFF#8 = 0xED#8 ∧ f &&& 0xF0#8 = 0xB0#8 ∧ g &&& 0xC0#8 = 0x80#8
        · rw [decide_eq_true hsupp]
          obtain ⟨hb, hc, hd, he, hf, hg⟩ := hsupp
          refine .inl ⟨rest, rfl, by simp only [List.length_cons]; omega, ?_⟩
          rw [legal_of_surrogate hb (.inl hc) hd, legal_of_surrogate he (.inr hf) hg]
        · rw [decide_eq_false hsupp]
          exact checked_lead hge
      all_goals exact checked_lead hge

/-- The run: the second loop accepts the legal strings, and reads no byte behind them. -/
theorem checkCharacters_spec (fuel : Nat) (p : List UChar) (hfuel : p.length < fuel) :
    this.checkCharacters fuel p = .ok () ∧ Legal this.majorVersion p ∨
      this.checkCharacters fuel p = .error this.illegalUtf8 ∧ ¬ Legal this.majorVersion p := by
  induction fuel generalizing p with
  | zero => omega
  | succ fuel ih =>
    cases p with
    | nil => exact .inl ⟨rfl, [], .nil⟩
    | cons b p =>
      rw [checkCharacters, if_neg (show ¬ (b :: p).length = 0 from Nat.succ_ne_zero _)]
      obtain ⟨rest, heq, hlen, hlegal⟩ | ⟨heq, hillegal⟩ := @checked_character this b p
      · rw [heq, hlegal]
        exact ih rest (by omega)
      · rw [heq]
        exact .inr ⟨rfl, hillegal⟩

theorem verifyLegalUtf8_cases (this : ClassFileParser) (buffer : List UChar) :
    this.verifyLegalUtf8 buffer = .ok () ∧ Legal this.majorVersion buffer ∨
      this.verifyLegalUtf8 buffer = .error this.illegalUtf8 ∧ ¬ Legal this.majorVersion buffer := by
  obtain ⟨p, hskip, hlegal⟩ := skipAscii_spec this.majorVersion (buffer.length >>> 2) buffer
    (by rw [Nat.shiftRight_eq_div_pow]; omega)
  rw [verifyLegalUtf8, hskip, ok_bind, hlegal]
  exact checkCharacters_spec _ p (Nat.lt_succ_self _)

theorem verifyLegalUtf8_iff (this : ClassFileParser) (buffer : List UChar) :
    this.verifyLegalUtf8 buffer = .ok () ↔ Legal this.majorVersion buffer := by
  obtain ⟨hok, hp⟩ | ⟨herr, hp⟩ := this.verifyLegalUtf8_cases buffer
  · simp [hok, hp]
  · simp [herr, hp]

/-- The check accepts exactly the legal strings and stays within them, and `next` then runs through
an accepted string to its end, in as many steps as `unicode_length` counts. -/
theorem verifyLegalUtf8_spec (this : ClassFileParser) (buffer : List UChar) :
    (this.verifyLegalUtf8 buffer = .ok () ↔ Legal this.majorVersion buffer) ∧
      this.verifyLegalUtf8 buffer ≠ .error .pastEnd ∧ (this.verifyLegalUtf8 buffer = .ok () →
        ∃ n : Nat, Run this.majorVersion buffer n ∧
          ∀ len : JInt, len.toInt = buffer.length → (unicodeLengthOf buffer len).toInt = n) := by
  refine ⟨this.verifyLegalUtf8_iff buffer, ?_, fun h => ?_⟩
  · obtain ⟨hok, -⟩ | ⟨herr, -⟩ := this.verifyLegalUtf8_cases buffer
    · simp [hok]
    · simp [herr, illegalUtf8]
  · obtain ⟨chs, hchs⟩ := (this.verifyLegalUtf8_iff buffer).mp h
    exact ⟨_, hchs.run, fun _ => hchs.unicodeLengthOf_eq⟩

end ClassFileParser

/-! ## Canonical strings -/

namespace UTF8

open UNICODE

variable {v : Nat} {bytes : List UChar} {ch : JChar} {chs : List JChar}

/-- What the encoder writes has the shortest form. -/
theorem character_utf8Write (v : Nat) (ch : JChar) : Character v (utf8Write ch) ch := by
  have h := (utf8Write_form ch).character
  generalize hbytes : utf8Write ch = bytes at h
  cases h with
  | one hne hb => exact .one hne hb
  | two hb hc _ =>
    refine .two hb hc (.inr ?_)
    rw [utf8Write] at hbytes
    split at hbytes
    · simp at hbytes
    · bv_omega
  | three hb hc hd _ =>
    refine .three hb hc hd (.inr ?_)
    rw [utf8Write] at hbytes
    split_ifs at hbytes
    · simp at hbytes
    · simp at hbytes
    · bv_omega

/-- From version 48 on a character has no other form. -/
theorem Character.eq_utf8Write (h : Character v bytes ch) (hv : 47 < v) : bytes = utf8Write ch := by
  have hsix : ∀ c : UChar, c &&& 0xC0#8 = 0x80#8 →
      (c &&& 0x3F#8) ||| 0x80#8 = c ∧ (c &&& 0x3F#8).toNat < 64 := by decide
  have hbyte : ∀ (x : JChar) (b : UChar), x.toNat = b.toNat → x.setWidth 8 = b :=
    fun _ _ _ => by bv_omega
  have hshift : ∀ (x : JChar) (n : Nat), (x >>> n).toNat = x.toNat / 2 ^ n := fun x n => by
    rw [BitVec.toNat_ushiftRight, Nat.shiftRight_eq_div_pow]
  cases h with
  | one hne hb =>
    rw [utf8Write, if_pos (by bv_omega)]
    simp
  | @two b c hb hc hshort =>
    have hlead := (by decide : ∀ b : UChar, b &&& 0xE0#8 = 0xC0#8 →
      (b &&& 0x1F#8) ||| 0xC0#8 = b ∧ (b &&& 0x1F#8).toNat < 32) b hb
    have hc := hsix c hc
    have hval : (twoBytes b c).toNat = 64 * (b &&& 0x1F#8).toNat + (c &&& 0x3F#8).toNat := by
      unfold twoBytes
      bv_omega
    rw [utf8Write, if_neg (by bv_omega), if_pos (by bv_omega)]
    dsimp only
    rw [hbyte _ (b &&& 0x1F#8) (by rw [hshift]; omega),
      hbyte _ (c &&& 0x3F#8) (by rw [toNat_and_six]; omega), hlead.1, hc.1]
  | @three b c d hb hc hd hshort =>
    have hlead := (by decide : ∀ b : UChar, b &&& 0xF0#8 = 0xE0#8 →
      (b &&& 0x0F#8) ||| 0xE0#8 = b ∧ (b &&& 0x0F#8).toNat < 16) b hb
    have hc := hsix c hc
    have hd := hsix d hd
    have hval : (threeBytes b c d).toNat =
        4096 * (b &&& 0x0F#8).toNat + 64 * (c &&& 0x3F#8).toNat + (d &&& 0x3F#8).toNat := by
      unfold threeBytes
      bv_omega
    rw [utf8Write, if_neg (by bv_omega), if_neg (by bv_omega)]
    dsimp only
    rw [hbyte _ (b &&& 0x0F#8) (by rw [hshift]; omega),
      hbyte _ (c &&& 0x3F#8) (by rw [toNat_and_six, hshift]; omega),
      hbyte _ (d &&& 0x3F#8) (by rw [toNat_and_six]; omega), hlead.1, hc.1, hd.1]

theorem characters_of_utf8Bytes (v : Nat) (s : List JChar) : Characters v (utf8Bytes s) s := by
  induction s with
  | nil => exact .nil
  | cons ch s ih => exact .cons (character_utf8Write v ch) ih

theorem Characters.eq_utf8Bytes (h : Characters v bytes chs) (hv : 47 < v) :
    bytes = utf8Bytes chs := by
  induction h with
  | nil => rfl
  | cons h _ ih => rw [utf8Bytes_cons, h.eq_utf8Write hv, ih]

end UTF8

namespace ClassFileParser

/-- The check accepts what the encoder writes, and from version 48 on nothing else. -/
theorem verifyLegalUtf8_utf8Bytes (this : ClassFileParser) :
    (∀ s, this.verifyLegalUtf8 (UNICODE.utf8Bytes s) = .ok ()) ∧ (47 < this.majorVersion →
      ∀ buffer, this.verifyLegalUtf8 buffer = .ok () → ∃ s, buffer = UNICODE.utf8Bytes s) := by
  refine ⟨fun s => (this.verifyLegalUtf8_iff _).mpr ⟨s, UTF8.characters_of_utf8Bytes _ s⟩,
    fun hv buffer h => ?_⟩
  obtain ⟨s, hs⟩ := (this.verifyLegalUtf8_iff buffer).mp h
  exact ⟨s, hs.eq_utf8Bytes hv⟩

theorem verifyLegalUtf8_utf8Bytes_zero : ∃ s, [0xC0#8, 0x80#8] = UNICODE.utf8Bytes s :=
  (verifyLegalUtf8_utf8Bytes ⟨50, true, [], ⟨fun _ => none, fun _ => none⟩⟩).2 (by decide) _ rfl

end ClassFileParser

end Hotspot
