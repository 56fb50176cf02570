-- SUMMARY: The parser's checks of method descriptors, and what they accept.
import Hotspot.Classfile.Descriptor
import Hotspot.Utilities.Utf8

/-!
# Checking descriptors

A pointer into a symbol's text is the list of bytes from there to the terminating zero,
which it includes. The length that the checks pass along counts the bytes before the
zero.
-/

namespace Hotspot

open List JvmSignature

/-- `ClassFormatError` with the format of its message and the texts that go into it, or a read
behind the terminating zero. -/
inductive ParseError where
  | classFormatError (format : String) (args : List (List UChar))
  | pastEnd
  deriving DecidableEq, Repr

/-- The methods of `java.lang.Character` that the parser calls. A call may end in an exception. -/
structure JavaCharacter where
  isJavaIdentifierStart : JInt → Option Bool
  isJavaIdentifierPart : JInt → Option Bool

/-- What the checks of descriptors need of the parser. -/
structure ClassFileParser where
  majorVersion : Nat
  needVerify : Bool
  className : List UChar
  character : JavaCharacter

namespace ClassFileParser

/-- The version that allows any name for a class. -/
def JAVA_1_5_VERSION : Nat := 49

def deref (p : List UChar) : Except ParseError UChar :=
  match p with
  | c :: _ => .ok c
  | [] => .error .pastEnd

/-! ## Names before version 49 -/

/-- A letter, an underscore, a dollar sign or, behind the first character, a digit. -/
def isAsciiName (ch : UChar) (notFirstCh : Bool) : Bool :=
  (0x61#8 ≤ ch && ch ≤ 0x7A#8) || (0x41#8 ≤ ch && ch ≤ 0x5A#8) || ch = 0x5F#8 || ch = 0x24#8 ||
    (notFirstCh && 0x30#8 ≤ ch && ch ≤ 0x39#8)

/-- Whether a character outside of ASCII goes on with the name; an exception ends the search
without a name. -/
def continuesName (this : ClassFileParser) (ch : JInt) (notFirstCh : Bool) : Option Bool := do
  if ← this.character.isJavaIdentifierStart ch then return true
  else if notFirstCh then this.character.isJavaIdentifierPart ch
  else return false

/-- The loop of `skip_over_field_name`. The name ends `stop` bytes before the end of the text. -/
def fieldNameLoop (this : ClassFileParser) (slashOk : Bool) (stop : Nat) :
    Nat → List UChar → Bool → Bool → Except ParseError (Option (List UChar))
  | 0, _, _, _ => .error .pastEnd
  | fuel + 1, p, lastIsSlash, notFirstCh => do
    if p.length = stop then return if notFirstCh then some p else none
    let ch ← deref p
    if ch < 0x80#8 then
      if isAsciiName ch notFirstCh then fieldNameLoop this slashOk stop fuel (p.drop 1) false true
      else if slashOk ∧ ch = 0x2F#8 then
        if lastIsSlash then return none
        else fieldNameLoop this slashOk stop fuel (p.drop 1) true true
      else return if notFirstCh then some p else none
    else
      match UTF8.nextCharacter p with
      | none => throw .pastEnd
      | some (unicodeCh, p') =>
        match this.continuesName unicodeCh notFirstCh with
        | none => return none
        | some true => fieldNameLoop this slashOk stop fuel p' false true
        | some false => return if notFirstCh then some p else none

def skipOverFieldName (this : ClassFileParser) (name : List UChar) (slashOk : Bool) (length : Nat) :
    Except ParseError (Option (List UChar)) :=
  fieldNameLoop this slashOk (name.length - length) (name.length + 1) name false false

/-! ## Signatures -/

/-- The class name in a descriptor, from version 49 on. -/
def skipOverClassName (this : ClassFileParser) :
    Nat → List UChar → Except ParseError (Option (List UChar))
  | 0, signature => do
    if (← deref signature) = JvmSignature.endclass then return some (signature.drop 1)
    else return none
  | length + 1, signature => do
    let c ← deref signature
    if c ≠ JvmSignature.endclass then
      if c = JvmSignature.dot then
        throw (.classFormatError
          "Class name contains illegal character '.' in descriptor in class file %s" [this.className])
      skipOverClassName this length (signature.drop 1)
    else return some (signature.drop 1)

/-- The loop of `skip_over_field_signature`, one round for each dimension of an array. -/
def fieldSignatureLoop (this : ClassFileParser) :
    Nat → List UChar → Bool → Nat → Except ParseError (Option (List UChar))
  | 0, _, _, _ => return none
  | length + 1, signature, voidOk, arrayDim => do
    match char2type (← deref signature) with
    | some .void => return if voidOk then some (signature.drop 1) else none
    | some .object =>
      if this.majorVersion < JAVA_1_5_VERSION then
        match ← this.skipOverFieldName (signature.drop 1) true length with
        | none => return none
        | some p =>
          if signature.length - p.length > 1 then
            if (← deref p) = JvmSignature.endclass then return some (p.drop 1)
          return none
      else this.skipOverClassName length (signature.drop 1)
    | some .array =>
      if arrayDim + 1 > 255 then
        throw (.classFormatError
          "Array type descriptor has more than 255 dimensions in class file %s" [this.className])
      -- the rest had better be a legal signature
      fieldSignatureLoop this length (signature.drop 1) false (arrayDim + 1)
    | some _ => return some (signature.drop 1)
    | none => return none

def skipOverFieldSignature (this : ClassFileParser) (signature : List UChar) (voidOk : Bool)
    (length : Nat) : Except ParseError (Option (List UChar)) :=
  this.fieldSignatureLoop length signature voidOk 0

/-- The parameters: how many words they take, and what stands behind them. -/
def parameterLoop (this : ClassFileParser) :
    Nat → List UChar → Nat → Nat → Except ParseError (Nat × List UChar × Nat)
  | 0, _, _, _ => .error .pastEnd
  | fuel + 1, p, length, argsSize => do
    match ← this.skipOverFieldSignature p false length with
    | some nextp =>
      if length > 0 then
        let c ← deref p
        let argsSize := argsSize + 1
        let argsSize :=
          if c = BasicType.long.letter ∨ c = BasicType.double.letter then argsSize + 1 else argsSize
        parameterLoop this fuel nextp (length - (p.length - nextp.length)) argsSize
      else return (argsSize, p, length)
    | none => return (argsSize, p, length)

/-- The text of the message, up to a zero. -/
def asCString (p : List UChar) : List UChar := p.takeWhile (· ≠ 0#8)

/-- The error at the end of `verify_legal_method_signature`. -/
def illegalSignature (this : ClassFileParser) (name p : List UChar) : ParseError :=
  .classFormatError "Method \"%s\" in class %s has illegal signature \"%s\""
    [name, this.className, asCString p]

/-- Whether a return type ends the signature. All internal methods must return void. -/
def legalReturn (this : ClassFileParser) (name p : List UChar) (length : Nat) :
    Except ParseError Bool := do
  if name[0]? = some 0x3C#8 then
    if length = 1 then return (← deref p) = BasicType.void.letter
    else return false
  else
    match ← this.skipOverFieldSignature p true length with
    | some nextp => return length = p.length - nextp.length
    | none => return false

/-- The number of words the parameters take. The first thing that is no parameter had better
be a `)`. -/
def verifyLegalMethodSignature (this : ClassFileParser) (name signature : List UChar) :
    Except ParseError Int := do
  if this.needVerify = false then return -2
  let p := signature ++ [0#8]
  if signature.length = 0 then throw (this.illegalSignature name p)
  if (← deref p) ≠ JvmSignature.func then throw (this.illegalSignature name (p.drop 1))
  let (argsSize, p, length) ←
    this.parameterLoop (signature.length + 1) (p.drop 1) (signature.length - 1) 0
  if length = 0 then throw (this.illegalSignature name p)
  if (← deref p) ≠ JvmSignature.endfunc then throw (this.illegalSignature name (p.drop 1))
  if ← this.legalReturn name (p.drop 1) (length - 1) then return argsSize
  else throw (this.illegalSignature name (p.drop 1))

/-! ## What is accepted -/

section

variable {this : ClassFileParser} {t s' : List UChar}

/-- A character that may stand in a name before version 49. -/
theorem ne_of_isAsciiName : ∀ (c : UChar) (notFirstCh : Bool), isAsciiName c notFirstCh = true →
    c ≠ endclass ∧ c ≠ dot := by
  decide

/-- Before version 49 a name has no byte either that may not stand in it later. -/
theorem fieldNameLoop_eq_some {slashOk lastIsSlash notFirstCh : Bool} {stop fuel : Nat} {p p' : List UChar}
    (h : this.fieldNameLoop slashOk stop fuel p lastIsSlash notFirstCh = .ok (some p')) :
    ∃ n : ClassName, p = n.name ++ p' := by
  induction fuel generalizing p lastIsSlash notFirstCh with
  | zero => cases h
  | succ fuel ih =>
    have hdone : (.ok (if notFirstCh then some p else none) : Except ParseError _) = .ok (some p') →
        ∃ n : ClassName, p = n.name ++ p' := by
      intro h
      cases notFirstCh <;> cases h
      exact ⟨⟨[], not_mem_nil, not_mem_nil⟩, rfl⟩
    simp only [fieldNameLoop] at h
    split at h
    · exact hdone h
    cases p with
    | nil => cases h
    | cons c p =>
      have hcons : ∀ {lastIsSlash}, c ≠ endclass ∧ c ≠ dot →
          this.fieldNameLoop slashOk stop fuel p lastIsSlash true = .ok (some p') → ∃ n : ClassName, c :: p = n.name ++ p' := by
        intro lastIsSlash hc h
        obtain ⟨n, rfl⟩ := ih h
        exact ⟨⟨c :: n.name, not_mem_cons_of_ne_of_not_mem hc.1.symm n.no_endclass,
          not_mem_cons_of_ne_of_not_mem hc.2.symm n.no_dot⟩, rfl⟩
      simp only [deref, ok_bind, drop_succ_cons, drop_zero] at h
      split at h
      · split at h
        · exact hcons (ne_of_isAsciiName _ _ ‹_›) h
        · split at h
          · split at h
            · cases h
            · rename_i hslash _
              exact hcons (by rw [hslash.2]; decide) h
          · exact hdone h
      · rename_i hascii
        split at h
        · cases h
        · rename_i unicodeCh q hnext
          obtain ⟨bytes, hbytes, hhigh⟩ := UTF8.nextCharacter_consumes (BitVec.not_lt.mp hascii) hnext
          split at h
          · cases h
          · obtain ⟨n, rfl⟩ := ih h
            have hne : ∀ {d : UChar}, d < 0x80#8 → d ∉ n.name → d ∉ bytes ++ n.name := by
              intro d hd hn hmem
              rcases mem_append.mp hmem with hmem | hmem
              · exact absurd hd (BitVec.not_lt.mpr (hhigh d hmem))
              · exact hn hmem
            exact ⟨⟨bytes ++ n.name, hne (by decide) n.no_endclass, hne (by decide) n.no_dot⟩, by rw [hbytes, append_assoc]⟩
          · exact hdone h

/-- A class name is followed by its semicolon. -/
theorem skipOverClassName_eq_some
    (h : this.skipOverClassName t.length (t ++ [0#8]) = .ok (some s')) :
    ∃ (n : ClassName) (t' : List UChar), t = n.name ++ endclass :: t' ∧ s' = t' ++ [0#8] := by
  induction t with
  | nil =>
    simp only [skipOverClassName, length_nil, nil_append, deref, ok_bind] at h
    cases h
  | cons c t ih =>
    simp only [skipOverClassName, length_cons, deref, cons_append, ok_bind,
      drop_succ_cons, drop_zero] at h
    split_ifs at h with hend hdot
    · cases h
    · obtain ⟨n, t', rfl, rfl⟩ := ih h
      refine ⟨⟨c :: n.name, ?_, ?_⟩, t', rfl, rfl⟩
      · exact not_mem_cons_of_ne_of_not_mem (Ne.symm hend) n.no_endclass
      · exact not_mem_cons_of_ne_of_not_mem (Ne.symm hdot) n.no_dot
    · cases h
      exact ⟨⟨[], by simp, by simp⟩, t, by simp [not_not.mp hend], rfl⟩

/-- A signature is skipped if it is a type: first its dimensions, then its elements. -/
theorem fieldSignatureLoop_eq_some {voidOk : Bool} {arrayDim : Nat} (hdim : arrayDim ≤ 255)
    (h : this.fieldSignatureLoop t.length (t ++ [0#8]) voidOk arrayDim = .ok (some s')) :
    (∃ (d : Nat) (e : ElementType) (t' : List UChar), arrayDim + d ≤ 255 ∧
      t = List.replicate d array ++ e.text ++ t' ∧ s' = t' ++ [0#8]) ∨
    (voidOk = true ∧ ∃ t', t = BasicType.void.letter :: t' ∧ s' = t' ++ [0#8]) := by
  induction t generalizing voidOk arrayDim with
  | nil => cases h
  | cons c t ih =>
    simp only [fieldSignatureLoop, length_cons, deref, cons_append, ok_bind,
      drop_succ_cons, drop_zero] at h
    cases htype : char2type c with
    | none => simp [htype] at h
    | some ty =>
      obtain rfl := char2type_eq_some.mp htype
      simp only [htype] at h
      cases ty with
      | void =>
        cases voidOk with
        | false => cases h
        | true =>
          cases h
          exact .inr ⟨rfl, t, rfl, rfl⟩
      | object =>
        dsimp only at h
        obtain ⟨n, t', rfl, rfl⟩ : ∃ (n : ClassName) (t' : List UChar),
            t = n.name ++ endclass :: t' ∧ s' = t' ++ [0#8] := by
          split at h
          · obtain ⟨p, hp, hrest⟩ := bind_eq_ok.mp h
            rcases p with _ | ⟨_ | ⟨c, p⟩⟩ <;> dsimp only at hrest
            · cases hrest
            · split_ifs at hrest <;> cases hrest
            rw [ok_bind] at hrest
            split_ifs at hrest with _ hend <;> cases hrest
            obtain ⟨n, hn⟩ := fieldNameLoop_eq_some hp
            rw [hend] at hn
            -- the text ends with the zero and not with a semicolon
            obtain rfl | ⟨t', x, rfl⟩ := eq_nil_or_concat p
            · exact absurd (append_inj' hn rfl).2 (by decide)
            rw [concat_eq_append, ← cons_append, ← append_assoc] at hn
            obtain ⟨ht, hx⟩ := append_inj' hn rfl
            exact ⟨n, t', ht, by rw [hx, concat_eq_append]; rfl⟩
          · exact skipOverClassName_eq_some h
        refine .inl ⟨0, .object n, t', hdim, ?_, rfl⟩
        simp [ElementType.text, ElementType.type, ElementType.tail]
      | array =>
        dsimp only at h
        split_ifs at h with hmax
        · cases h
        · obtain ⟨d, e, t', hd, rfl, rfl⟩ | ⟨hvoid, -⟩ := ih (by omega) h
          · exact .inl ⟨d + 1, e, t', by omega, rfl, rfl⟩
          · cases hvoid
      | _ =>
        cases h
        exact .inl ⟨0, .primitive _ rfl, t, hdim, rfl, rfl⟩

theorem skipOverFieldSignature_eq_some
    (h : this.skipOverFieldSignature (t ++ [0#8]) false t.length = .ok (some s')) :
    ∃ (f : FieldType) (t' : List UChar), t = f.text ++ t' ∧ s' = t' ++ [0#8] := by
  obtain ⟨d, e, t', hd, rfl, rfl⟩ | ⟨hvoid, -⟩ :=
    fieldSignatureLoop_eq_some (Nat.zero_le 255) h
  · exact ⟨⟨d, e, by omega⟩, t', rfl, rfl⟩
  · cases hvoid

theorem skipOverFieldSignature_ret
    (h : this.skipOverFieldSignature (t ++ [0#8]) true t.length = .ok (some s')) :
    ∃ (ret : Option FieldType) (t' : List UChar),
      t = ret.elim [BasicType.void.letter] FieldType.text ++ t' ∧ s' = t' ++ [0#8] := by
  obtain ⟨d, e, t', hd, rfl, rfl⟩ | ⟨-, t', rfl, rfl⟩ :=
    fieldSignatureLoop_eq_some (Nat.zero_le 255) h
  · exact ⟨some ⟨d, e, by omega⟩, t', rfl, rfl⟩
  · exact ⟨none, t', rfl, rfl⟩

/-- One step of the argument size, read off the first character of a type. -/
theorem argsSize_step (f : FieldType) (a : Nat) :
    (if f.type.letter = BasicType.long.letter ∨ f.type.letter = BasicType.double.letter then
      a + 1 + 1 else a + 1) = a + f.type.size := by
  have hvoid := f.type_ne_void
  generalize f.type = ty at hvoid ⊢
  cases ty <;> first | rfl | exact absurd rfl hvoid

theorem parameterLoop_eq_ok {fuel : Nat} {p : List UChar} {a n length : Nat}
    (h : this.parameterLoop fuel (t ++ [0#8]) t.length a = .ok (n, p, length)) :
    ∃ (fs : List FieldType) (t' : List UChar), t = fs.flatMap FieldType.text ++ t' ∧
      p = t' ++ [0#8] ∧ length = t'.length ∧ n = a + (fs.map fun f => f.type.size).sum := by
  induction fuel generalizing t a with
  | zero => cases h
  | succ fuel ih =>
    obtain ⟨nextp, hnextp, h⟩ := bind_eq_ok.mp h
    cases nextp with
    | none =>
      cases h
      exact ⟨[], t, rfl, rfl, rfl, rfl⟩
    | some nextp =>
      obtain ⟨f, t', rfl, rfl⟩ := skipOverFieldSignature_eq_some hnextp
      obtain ⟨s, hs⟩ := f.text_eq_cons
      have hpos : 0 < (f.text ++ t').length := by simp [hs]
      have hderef : deref (f.text ++ t' ++ [0#8]) = .ok f.type.letter := by rw [hs]; rfl
      have hlength : (f.text ++ t').length - ((f.text ++ t' ++ [0#8]).length -
          (t' ++ [0#8]).length) = t'.length := by
        simp only [length_append, length_singleton]
        omega
      simp only [gt_iff_lt, hpos, if_true, hderef, ok_bind, argsSize_step, hlength] at h
      obtain ⟨fs, t'', rfl, rfl, rfl, rfl⟩ := ih h
      exact ⟨f :: fs, t'', by simp, rfl, rfl, by simp [Nat.add_assoc]⟩

theorem legalReturn_eq_true {name : List UChar}
    (h : this.legalReturn name (t ++ [0#8]) t.length = .ok true) :
    ∃ ret : Option FieldType, t = ret.elim [BasicType.void.letter] FieldType.text := by
  unfold legalReturn at h
  split_ifs at h with hinit hone
  · obtain ⟨c, rfl⟩ := length_eq_one_iff.mp hone
    simp only [deref, cons_append, ok_bind, pure_eq_ok, Except.ok.injEq, decide_eq_true_eq] at h
    exact ⟨none, by rw [h]; rfl⟩
  · cases h
  obtain ⟨nextp, hnextp, h⟩ := bind_eq_ok.mp h
  cases nextp with
  | none => cases h
  | some nextp =>
    obtain ⟨ret, t', rfl, rfl⟩ := skipOverFieldSignature_ret hnextp
    simp only [pure_eq_ok, Except.ok.injEq, decide_eq_true_eq, length_append,
      length_singleton] at h
    obtain rfl : t' = [] := length_eq_zero_iff.mp (by omega)
    exact ⟨ret, append_nil _⟩

/-- Only the text of a method type is accepted, and the result is the size of its parameters. -/
theorem verifyLegalMethodSignature_eq_ok (hverify : this.needVerify = true)
    {name signature : List UChar} {n : Int}
    (h : this.verifyLegalMethodSignature name signature = .ok n) :
    ∃ m : MethodType, signature = m.text ∧ n = m.paramSize := by
  simp only [verifyLegalMethodSignature, hverify, Bool.true_eq_false, if_false] at h
  cases signature with
  | nil => cases h
  | cons c t =>
    simp only [length_cons, Nat.succ_ne_zero, if_false, cons_append, deref, ok_bind,
      drop_succ_cons, drop_zero, Nat.add_sub_cancel] at h
    split_ifs at h with hfunc
    · cases h
    obtain ⟨⟨argsSize, p, length⟩, hparams, h⟩ := bind_eq_ok.mp h
    obtain ⟨fs, t', rfl, rfl, rfl, rfl⟩ := parameterLoop_eq_ok hparams
    cases t' with
    | nil => cases h
    | cons d t' =>
      simp only [length_cons, Nat.succ_ne_zero, if_false, cons_append, ok_bind,
        drop_succ_cons, drop_zero, Nat.add_sub_cancel] at h
      split_ifs at h with hendfunc
      · cases h
      obtain ⟨legal, hlegal, h⟩ := bind_eq_ok.mp h
      cases legal with
      | false => cases h
      | true =>
        cases h
        obtain ⟨ret, rfl⟩ := legalReturn_eq_true hlegal
        refine ⟨⟨fs, ret⟩, ?_, by simp [MethodType.paramSize]⟩
        rw [not_not.mp hfunc, not_not.mp hendfunc]
        rfl

end

end ClassFileParser

end Hotspot
