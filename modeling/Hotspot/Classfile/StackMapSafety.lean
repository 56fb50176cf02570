-- SUMMARY: Reading a StackMapTable: safe accesses and faithful frames.
import Hotspot.Classfile.StackMapDecoding
import Hotspot.Interpreter.BytecodeScan

/-!
# Reading stack maps

The reader decodes the frames that the entries of the attribute describe, kind by kind and then
for the whole table. The one exception is an entry that chops when there are no locals: the
reader then looks at the cell in front of the array.
-/

namespace Hotspot.StackMap

open List Decoder StackMapReader TypeArray VerificationTypeInfo StackMapEntry

open Nat

open Option

/-! ## Frames -/

theorem decodes_checkSize (size : Nat) (maxSize : JChar) :
    Decodes (checkVerificationTypeArraySize size maxSize)
      fun b _ => b = [] ∧ size ≤ maxSize.toNat := by
  unfold checkVerificationTypeArraySize
  split
  next hbad =>
    refine (decodes_report _).congr fun b a => ?_
    simp only [false_iff, not_and]
    omega
  next hgood =>
    refine (decodes_pure ()).congr fun b a => ?_
    have hs : size ≤ maxSize.toNat := by omega
    simp [hs]

theorem decodes_checkSize_neg (maxSize : JChar) :
    Decodes (checkVerificationTypeArraySize (-1) maxSize) fun _ _ => False := by
  unfold checkVerificationTypeArraySize
  rw [if_pos (.inl (by decide))]
  exact decodes_report _

/-- Check a size, and go on if it is good. -/
theorem decodes_checked {α : Type} (size : Nat) (maxSize : JChar) {body : ReadM (Option α)}
    {G : List UChar → Option α → Prop} (h : Decodes body G) :
    Decodes (do checkVerificationTypeArraySize size maxSize; unlessError body)
      fun b f => size ≤ maxSize.toNat ∧ G b f := by
  refine ((decodes_checkSize size maxSize).bind fun _ => h.unlessError).congr fun b f => ⟨?_, ?_⟩
  · rintro ⟨b₁, b₂, _, rfl, ⟨rfl, hs⟩, hG⟩
    exact ⟨hs, hG⟩
  · rintro ⟨hs, hG⟩
    exact ⟨[], b, (), rfl, ⟨rfl, hs⟩, hG⟩

section Frames

variable {m : MethodContext} {pf : StackMapFrame} {d : FrameDesc}
  (hpre : pf.Represents m d) (fi first : Bool) (o offset : Nat)

include hpre

theorem keepLocals_all : keepLocals pf fi pf.localsSize =
    .ok (keptLocals pf fi (expand d.locals)) := by
  rw [hpre.localsSize]
  exact keepLocals_eq fi hpre prefix_rfl

theorem expand_take_le (n : Nat) : (expand (d.locals.take n)).length ≤ m.maxLocals.toNat := by
  have hlen := (expand_take_isPrefixOf d.locals n).length_le
  have hmax := hpre.localsSize_le
  rw [hpre.localsSize] at hmax
  exact hlen.trans hmax

theorem decodes_sameFrame : Decodes (sameFrame m pf fi o) fun b f => b = [] ∧
      f = some (m.frame o (addFlags 0 d.locals) (expand d.locals).length 0
        (keptLocals pf fi (expand d.locals)) []) := by
  unfold sameFrame
  rw [keepLocals_all hpre fi, lift_ok, pure_bind, hpre.flags, hpre.localsSize]
  exact decodes_pure _

theorem decodes_sameLocals1 :
    Decodes (sameLocals1StackItemFrame m pf fi o) fun b f => ∃ item types,
      b = VerificationTypeInfo.encode item ∧ VerificationTypeInfo.types m [item] = some types ∧
      (expand types).length ≤ m.maxStack.toNat ∧
      f = some (m.frame o (addFlags 0 d.locals) (expand d.locals).length
        (expand types).length (keptLocals pf fi (expand d.locals))
        (fill (alloc 2) 0 (expand types))) := by
  unfold sameLocals1StackItemFrame
  refine ((decodes_parseTypes m 1 (alloc 2) 0 0 (by simp [alloc])).bind
    fun c => (decodes_checked c.2.1 m.maxStack
      (G := fun b f => b = [] ∧ f = some (m.frame o (addFlags 0 d.locals)
        (expand d.locals).length c.2.1 (keptLocals pf fi (expand d.locals)) c.1))
      ?_).unlessError).congr fun b f => ⟨?_, ?_⟩
  · rw [keepLocals_all hpre fi, lift_ok, pure_bind, hpre.flags, hpre.localsSize]
    exact decodes_pure _
  · rintro ⟨b₁, b₂, c, rfl, ⟨items, types, hn, rfl, htypes, rfl⟩, hs, rfl, rfl⟩
    obtain ⟨item, rfl⟩ := length_eq_one_iff.mp hn
    refine ⟨item, types, by simp [encodeAll], htypes, by simpa using hs, ?_⟩
    simp
  · rintro ⟨item, types, rfl, htypes, hs, rfl⟩
    refine ⟨item.encode, [], _, (append_nil _).symm,
      ⟨[item], types, rfl, by simp [encodeAll], htypes, rfl⟩, ?_, rfl, ?_⟩
    · simpa using hs
    · simp

theorem decodes_chopFrame {k : Nat} (hk : 0 < k) (hne : d.locals ≠ []) :
    Decodes (chopFrame m pf fi k o) fun b f => b = [] ∧ k ≤ d.locals.length ∧
      f = some (m.frame o (addFlags 0 (d.locals.take (d.locals.length - k)))
        (expand (d.locals.take (d.locals.length - k))).length 0
        (keptLocals pf fi (expand (d.locals.take (d.locals.length - k)))) []) := by
  unfold chopFrame
  obtain ⟨k, rfl⟩ : ∃ n, k = n + 1 := ⟨k - 1, by omega⟩
  rw [if_neg (by omega), hpre.localsSize, chop_eq k d.locals hne hpre.locals hpre.whole, lift_ok,
    pure_bind]
  by_cases hle : k + 1 ≤ d.locals.length
  · rw [if_pos hle]
    have hkept := expand_take_isPrefixOf d.locals (d.locals.length - (k + 1))
    have hs := expand_take_le hpre (d.locals.length - (k + 1))
    have hflags := flagsOfLocals_eq _ 0 ((hkept.map some).trans hpre.locals) (zero_add _)
    rw [drop_zero, addFlags_expand] at hflags
    simp only [Int.toNat_natCast, hflags, keepLocals_eq fi hpre hkept, lift_ok, pure_bind]
    refine (decodes_checked _ m.maxLocals (decodes_pure _)).congr fun b f => ?_
    simp only [hs, hle, true_and]
  · rw [if_neg hle]
    have hflags : flagsOfLocals pf.locals (-1 : Int).toNat 0 = .ok 0 := rfl
    have hkeep : keepLocals pf fi (-1 : Int).toNat = .ok (keptLocals pf fi []) :=
      keepLocals_eq fi hpre nil_prefix
    simp only [hflags, hkeep, lift_ok, pure_bind]
    refine ((decodes_checkSize_neg m.maxLocals).bind fun _ => (decodes_pure _).unlessError).congr
      fun b f => ?_
    simp [hle]

theorem decodes_appendFrame (n : Nat) : Decodes (appendFrame m pf n o) fun b f => ∃ items types,
      items.length = n ∧ b = VerificationTypeInfo.encodeAll items ∧
      VerificationTypeInfo.types m items = some types ∧
      (expand (d.locals ++ types)).length ≤ m.maxLocals.toNat ∧
      f = some (m.frame o (addFlags 0 (d.locals ++ types)) (expand (d.locals ++ types)).length
        0 (fill (fill (alloc (pf.localsSize + n * 2)) 0
          (expand d.locals)) pf.localsSize (expand types)) []) := by
  unfold appendFrame
  have hcopy := copy_eq (alloc (pf.localsSize + n * 2))
    pf.localsSize hpre.locals hpre.localsSize.le (by simp [alloc])
  rw [hpre.localsSize, take_length, ← hpre.localsSize] at hcopy
  rw [hcopy, lift_ok, pure_bind]
  refine ((decodes_parseTypes m n _ pf.localsSize pf.flags ?_).bind fun c =>
    decodes_checked c.2.1 m.maxLocals (decodes_pure _)).congr fun b f => ⟨?_, ?_⟩
  · rw [fill_length]
    simp only [alloc, length_replicate]
    omega
  · rintro ⟨b₁, b₂, c, rfl, ⟨items, types, hn, rfl, htypes, rfl⟩, hs, rfl, rfl⟩
    refine ⟨items, types, hn, append_nil _, htypes, ?_, ?_⟩
    · simpa [hpre.localsSize] using hs
    · rw [addFlags_append, ← hpre.flags, expand_append, length_append, ← hpre.localsSize]
  · rintro ⟨items, types, hn, rfl, htypes, hs, rfl⟩
    refine ⟨_, [], _, (append_nil _).symm, ⟨items, types, hn, rfl, htypes, rfl⟩, ?_, rfl, ?_⟩
    · simpa [hpre.localsSize] using hs
    · rw [addFlags_append, ← hpre.flags, expand_append, length_append, ← hpre.localsSize]

omit hpre in
theorem decodes_fullFrame :
    Decodes (fullFrame m o) fun b f => ∃ locals st : List VerificationTypeInfo,
      ∃ types stackTypes, locals.length < 65536 ∧ st.length < 65536 ∧
      b = bigEndian (BitVec.ofNat 16 locals.length) ++ VerificationTypeInfo.encodeAll locals ++
        (bigEndian (BitVec.ofNat 16 st.length) ++ VerificationTypeInfo.encodeAll st) ∧
      VerificationTypeInfo.types m locals = some types ∧
      VerificationTypeInfo.types m st = some stackTypes ∧
      (expand types).length ≤ m.maxLocals.toNat ∧ (expand stackTypes).length ≤ m.maxStack.toNat ∧
      f = some (m.frame o (addFlags 0 types) (expand types).length (expand stackTypes).length
        (fill (alloc (locals.length * 2)) 0 (expand types))
        (fill (alloc (st.length * 2)) 0 (expand stackTypes))) := by
  unfold fullFrame
  have harray : ∀ x : JChar, Decodes (parseTypes m x.toNat (alloc (x.toNat * 2)) 0 0)
      (ParsesTypes m x.toNat (alloc (x.toNat * 2)) 0 0) := fun x =>
    decodes_parseTypes m x.toNat _ 0 0 (by simp only [alloc, length_replicate]; omega)
  refine (decodes_getU2.bind fun x => (harray x).bind fun c => decodes_checked c.2.1 m.maxLocals
    (decodes_getU2.bind fun y => (harray y).bind fun c' => decodes_checked c'.2.1 m.maxStack
      (decodes_pure _))).congr fun b f => ⟨?_, ?_⟩
  · rintro ⟨_, _, x, rfl, rfl, _, _, c, rfl, ⟨locals, types, hx, rfl, htypes, rfl⟩, hs,
      _, _, y, rfl, rfl, _, _, c', rfl, ⟨st, stackTypes, hy, rfl, hstackTypes, rfl⟩, hstackSize,
      rfl, rfl⟩
    have hlocals : BitVec.ofNat 16 locals.length = x := by simp [hx]
    have hstack : BitVec.ofNat 16 st.length = y := by simp [hy]
    refine ⟨locals, st, types, stackTypes, hx ▸ x.isLt, hy ▸ y.isLt, ?_, htypes, hstackTypes,
      by simpa using hs, by simpa using hstackSize, ?_⟩
    · rw [hlocals, hstack]
      simp
    · simp [hx, hy]
  · rintro ⟨locals, st, types, stackTypes, hlocals, hstack, rfl, htypes, hstackTypes, hs,
      hstackSize, rfl⟩
    have hx : (BitVec.ofNat 16 locals.length).toNat = locals.length := by
      rw [BitVec.toNat_ofNat, mod_eq_of_lt hlocals]
    have hy : (BitVec.ofNat 16 st.length).toNat = st.length := by
      rw [BitVec.toNat_ofNat, mod_eq_of_lt hstack]
    refine ⟨_, _, _, append_assoc _ _ _, rfl, _, _, _, rfl,
      ⟨locals, types, hx.symm, rfl, htypes, rfl⟩, by simpa using hs, _, _, _, rfl, rfl,
      _, [], _, (append_nil _).symm, ⟨st, stackTypes, hy.symm, rfl, hstackTypes, rfl⟩,
      by simpa using hstackSize, rfl, ?_⟩
    simp [hx, hy]

end Frames

/-! ## The next frame -/

namespace StackMapEntry

variable (m : MethodContext) (pf preFrame : StackMapFrame) (d : FrameDesc) (fi first : Bool)

/-- The array of locals that the reader makes for an entry. -/
def builtLocals (e : StackMapEntry) (locals : List VerificationType) : TypeArray :=
  match e with
  | .append items _ _ =>
    TypeArray.fill (TypeArray.fill (TypeArray.alloc (preFrame.localsSize + items.length * 2)) 0
      (expand d.locals)) preFrame.localsSize (expand (locals.drop d.locals.length))
  | .full _ items _ _ _ => TypeArray.fill (TypeArray.alloc (items.length * 2)) 0 (expand locals)
  | _ => keptLocals preFrame first (expand locals)

/-- The array of stack types that the reader makes for an entry. -/
def builtStack (e : StackMapEntry) (stack : List VerificationType) : TypeArray :=
  match e with
  | .sameLocals1 _ _ _ | .sameLocals1Extended _ _ =>
    TypeArray.fill (TypeArray.alloc 2) 0 (expand stack)
  | .full _ _ items _ _ => TypeArray.fill (TypeArray.alloc (items.length * 2)) 0 (expand stack)
  | _ => []

/-- The frame that the reader makes for an entry that describes `d'`. -/
def built (e : StackMapEntry) (d' : FrameDesc) : StackMapFrame :=
  m.frame d'.offset (addFlags 0 d'.locals) (expand d'.locals).length (expand d'.stack).length
    (builtLocals preFrame d first e d'.locals) (builtStack e d'.stack)

theorem frameType_lt (e : StackMapEntry) : e.frameType < 256 := by
  cases e <;> simp only [frameType] <;> omega

theorem describe_eq_some {base : Nat} {pre : List VerificationType} {e : StackMapEntry}
    {d' : FrameDesc} : e.describe m base pre = some d' ↔ ∃ locals st, e.locals m pre = some locals ∧
      e.stack m = some st ∧ (expand locals).length ≤ m.maxLocals.toNat ∧
      (expand st).length ≤ m.maxStack.toNat ∧ d' = ⟨base + e.delta, locals, st⟩ := by
  simp only [describe, bind_eq_bind, bind_eq_some_iff]
  constructor
  · rintro ⟨locals, hlocals, st, hstack, h⟩
    split at h
    next hs =>
      cases h
      exact ⟨locals, st, hlocals, hstack, hs.1, hs.2, rfl⟩
    · cases h
  · rintro ⟨locals, st, hlocals, hstack, hs, hsize', rfl⟩
    exact ⟨locals, hlocals, st, hstack, if_pos ⟨hs, hsize'⟩⟩

end StackMapEntry

/-- Where the offset of the next frame is counted from. -/
def offsetBase (preFrame : StackMapFrame) (first : Bool) : Nat :=
  if first then 0 else preFrame.offset + 1

theorem offsetFrom_eq (pf : StackMapFrame) (fi : Bool) (delta : Nat) :
    offsetFrom pf fi delta = offsetBase pf fi + delta := by
  unfold offsetFrom offsetBase
  cases fi
  · simp only [Bool.false_eq_true, if_false]
    omega
  · simp

/-- The bytes of an entry, and the frame that is made of it. -/
def ReadsFrame (m : MethodContext) (preFrame : StackMapFrame) (d : FrameDesc) (first : Bool)
    (b : List UChar) (f : Option StackMapFrame) : Prop :=
  ∃ e d', b = StackMapEntry.encode e ∧ e.describe m (offsetBase preFrame first) d.locals = some d' ∧
    f = some (e.built m preFrame d first d')

section Next

variable {m : MethodContext} {pf : StackMapFrame} {d : FrameDesc} {fi : Bool} {t : UChar}

theorem readsFrame_cons {b : List UChar} {f : Option StackMapFrame} :
    ReadsFrame m pf d fi (t :: b) f ↔ ∃ e locals st,
      StackMapEntry.frameType e = t.toNat ∧ b = e.body ∧ e.locals m d.locals = some locals ∧
      e.stack m = some st ∧ (expand locals).length ≤ m.maxLocals.toNat ∧
      (expand st).length ≤ m.maxStack.toNat ∧ f = some (e.built m pf d fi
        ⟨offsetBase pf fi + e.delta, locals, st⟩) := by
  have hhead : ∀ e : StackMapEntry, t = BitVec.ofNat 8 e.frameType ↔ e.frameType = t.toNat := by
    intro e
    rw [← BitVec.toNat_inj, BitVec.toNat_ofNat, mod_eq_of_lt e.frameType_lt, eq_comm]
  simp only [ReadsFrame, StackMapEntry.encode, cons.injEq, hhead,
    describe_eq_some]
  constructor
  · rintro ⟨e, d', ⟨ht, hb⟩, ⟨locals, st, hlocals, hstack, hs, hsize', rfl⟩, hf⟩
    exact ⟨e, locals, st, ht, hb, hlocals, hstack, hs, hsize', hf⟩
  · rintro ⟨e, locals, st, ht, hb, hlocals, hstack, hs, hsize', hf⟩
    exact ⟨e, _, ⟨ht, hb⟩, ⟨locals, st, hlocals, hstack, hs, hsize', rfl⟩, hf⟩

variable (hpre : pf.Represents m d)

include hpre

theorem decodes_same (ht : t.toNat < 64) :
    Decodes (sameFrame m pf fi (offsetFrom pf fi t.toNat))
      fun b f => ReadsFrame m pf d fi (t :: b) f := by
  refine (decodes_sameFrame hpre fi _).congr fun b f => ?_
  rw [readsFrame_cons, offsetFrom_eq]
  have hmax := hpre.localsSize ▸ hpre.localsSize_le
  constructor
  · rintro ⟨rfl, rfl⟩
    exact ⟨.same t.toNat ht, d.locals, [], rfl, rfl, rfl, rfl, hmax, zero_le _, rfl⟩
  rintro ⟨e, locals, st, htype, rfl, hlocals, hstack, -, -, rfl⟩
  cases e with
  | same delta h =>
    cases hlocals
    cases hstack
    cases htype
    exact ⟨rfl, rfl⟩
  | _ =>
    exfalso
    simp only [frameType] at htype
    omega

theorem decodes_sameLocals1StackItem (ht : 64 ≤ t.toNat) (ht' : t.toNat < 128) :
    Decodes (sameLocals1StackItemFrame m pf fi (offsetFrom pf fi (t.toNat - 64)))
      fun b f => ReadsFrame m pf d fi (t :: b) f := by
  refine (decodes_sameLocals1 hpre fi _).congr fun b f => ?_
  rw [readsFrame_cons, offsetFrom_eq]
  have hmax := hpre.localsSize ▸ hpre.localsSize_le
  constructor
  · rintro ⟨item, types, rfl, htypes, hs, rfl⟩
    have hdelta : t.toNat - 64 < 64 := by omega
    exact ⟨.sameLocals1 (t.toNat - 64) hdelta item, d.locals, types, add_sub_of_le ht, rfl, rfl,
      htypes, hmax, hs, rfl⟩
  · rintro ⟨e, locals, st, htype, rfl, hlocals, hstack, -, hs, rfl⟩
    cases e with
    | sameLocals1 delta h item =>
      cases hlocals
      have hdelta : t.toNat - 64 = delta := by
        simp only [frameType] at htype
        omega
      exact ⟨item, st, rfl, hstack, hs, by rw [hdelta]; rfl⟩
    | _ =>
      exfalso
      simp only [frameType] at htype
      omega

/-! The kinds with an offset of two bytes, by the bytes behind the offset. -/

theorem decodes_sameLocals1Extended (ht : t.toNat = 247) (x : JChar) :
    Decodes (sameLocals1StackItemFrame m pf fi (offsetFrom pf fi x.toNat))
      fun b f => ReadsFrame m pf d fi (t :: (bigEndian x ++ b)) f := by
  refine (decodes_sameLocals1 hpre fi _).congr fun b f => ?_
  rw [readsFrame_cons, offsetFrom_eq]
  have hmax := hpre.localsSize ▸ hpre.localsSize_le
  constructor
  · rintro ⟨item, types, rfl, htypes, hs, rfl⟩
    exact ⟨.sameLocals1Extended x item, d.locals, types, ht.symm, rfl, rfl, htypes, hmax, hs,
      rfl⟩
  rintro ⟨e, locals, st, htype, hbody, hlocals, hstack, -, hs, rfl⟩
  cases e with
  | sameLocals1Extended delta item =>
    obtain ⟨rfl, rfl⟩ := bigEndian_append_inj.mp hbody
    cases hlocals
    exact ⟨item, st, rfl, hstack, hs, rfl⟩
  | _ =>
    exfalso
    simp only [frameType] at htype
    omega

theorem decodes_sameExtended (ht : t.toNat = 251) (x : JChar) :
    Decodes (sameFrame m pf fi (offsetFrom pf fi x.toNat))
      fun b f => ReadsFrame m pf d fi (t :: (bigEndian x ++ b)) f := by
  refine (decodes_sameFrame hpre fi _).congr fun b f => ?_
  rw [readsFrame_cons, offsetFrom_eq]
  have hmax := hpre.localsSize ▸ hpre.localsSize_le
  constructor
  · rintro ⟨rfl, rfl⟩
    exact ⟨.sameExtended x, d.locals, [], ht.symm, append_nil _, rfl, rfl, hmax,
      zero_le _, rfl⟩
  rintro ⟨e, locals, st, htype, hbody, hlocals, hstack, -, -, rfl⟩
  cases e with
  | sameExtended delta =>
    rw [body, ← append_nil (bigEndian delta)] at hbody
    obtain ⟨rfl, rfl⟩ := bigEndian_append_inj.mp hbody
    cases hlocals
    cases hstack
    exact ⟨rfl, rfl⟩
  | _ =>
    exfalso
    simp only [frameType] at htype
    omega

theorem decodes_chop (ht : 248 ≤ t.toNat) (ht' : t.toNat < 251) (x : JChar) (hne : d.locals ≠ []) :
    Decodes (chopFrame m pf fi (251 - t.toNat) (offsetFrom pf fi x.toNat))
      fun b f => ReadsFrame m pf d fi (t :: (bigEndian x ++ b)) f := by
  have hk : 0 < 251 - t.toNat := by omega
  refine (decodes_chopFrame hpre fi _ hk hne).congr fun b f => ?_
  rw [readsFrame_cons, offsetFrom_eq]
  constructor
  · rintro ⟨rfl, hle, rfl⟩
    refine ⟨.chop (251 - t.toNat) ⟨hk, by omega⟩ x, d.locals.take (d.locals.length - (251 - t.toNat)),
      [], ?_, append_nil _, if_pos hle, rfl, expand_take_le hpre _, zero_le _, rfl⟩
    simp only [frameType]
    omega
  · rintro ⟨e, locals, st, htype, hbody, hlocals, hstack, -, -, rfl⟩
    cases e with
    | chop k h delta =>
      rw [body, ← append_nil (bigEndian delta)] at hbody
      obtain ⟨rfl, rfl⟩ := bigEndian_append_inj.mp hbody
      have hk' : 251 - t.toNat = k := by
        simp only [frameType] at htype
        omega
      rw [hk']
      simp only [StackMapEntry.locals] at hlocals
      split at hlocals
      next hle =>
        cases hlocals
        cases hstack
        exact ⟨rfl, hle, rfl⟩
      · cases hlocals
    | _ =>
      exfalso
      simp only [frameType] at htype
      omega

theorem decodes_append (ht : 251 < t.toNat) (ht' : t.toNat < 255) (x : JChar) :
    Decodes (appendFrame m pf (t.toNat - 251) (offsetFrom pf fi x.toNat))
      fun b f => ReadsFrame m pf d fi (t :: (bigEndian x ++ b)) f := by
  refine (decodes_appendFrame hpre _ _).congr fun b f => ?_
  rw [readsFrame_cons, offsetFrom_eq]
  constructor
  · rintro ⟨items, types, hn, rfl, htypes, hs, rfl⟩
    refine ⟨.append items (by omega) x, d.locals ++ types, [], ?_, rfl, ?_, rfl, hs,
      zero_le _, ?_⟩
    · simp only [frameType]
      omega
    · simp only [locals, htypes, map_some]
    · simp [built, builtLocals, builtStack, delta, hn]
  · rintro ⟨e, locals, st, htype, hbody, hlocals, hstack, hs, -, rfl⟩
    cases e with
    | append items h delta =>
      obtain ⟨rfl, rfl⟩ := bigEndian_append_inj.mp hbody
      obtain ⟨types, htypes, rfl⟩ := map_eq_some_iff.mp hlocals
      cases hstack
      have hn : items.length = t.toNat - 251 := by
        simp only [frameType] at htype
        omega
      refine ⟨items, types, hn, rfl, htypes, hs, ?_⟩
      simp [built, builtLocals, builtStack, delta, hn]
    | _ =>
      exfalso
      simp only [frameType] at htype
      omega

omit hpre in
theorem decodes_full (ht : t.toNat = 255) (x : JChar) :
    Decodes (fullFrame m (offsetFrom pf fi x.toNat))
      fun b f => ReadsFrame m pf d fi (t :: (bigEndian x ++ b)) f := by
  refine (decodes_fullFrame _).congr fun b f => ?_
  rw [readsFrame_cons, offsetFrom_eq]
  constructor
  · rintro ⟨items, stackItems, types, stackTypes, hitems, hstackItems, rfl, htypes, hstackTypes,
      hs, hstackSize, rfl⟩
    exact ⟨.full x items stackItems hitems hstackItems, types, stackTypes, ht.symm, rfl, htypes,
      hstackTypes, hs, hstackSize, rfl⟩
  · rintro ⟨e, locals, st, htype, hbody, hlocals, hstack, hs, hstackSize, rfl⟩
    cases e with
    | full delta items stackItems hitems hstackItems =>
      obtain ⟨rfl, rfl⟩ := bigEndian_append_inj.mp hbody
      exact ⟨items, stackItems, locals, st, hitems, hstackItems, rfl, hlocals, hstack, hs,
        hstackSize, rfl⟩
    | _ =>
      exfalso
      simp only [frameType] at htype
      omega

/-- The frame type of an entry that chops. -/
def IsChop (t : UChar) : Prop := 248 ≤ t.toNat ∧ t.toNat ≤ 250

variable {e : StackMapEntry}

omit hpre in
theorem body_extended (h : 128 ≤ e.frameType) : ∃ x b, e.body = bigEndian x ++ b := by
  cases e with
  | same delta hdelta => exact absurd h (by simp only [frameType]; omega)
  | sameLocals1 delta hdelta item => exact absurd h (by simp only [frameType]; omega)
  | chop _ _ delta | sameExtended delta => exact ⟨delta, [], (append_nil _).symm⟩
  | sameLocals1Extended delta _ | append _ _ delta | full delta _ _ _ _ => exact ⟨delta, _, rfl⟩

theorem decodes_extendedFrame (ht : 128 ≤ t.toNat) (hne : IsChop t → d.locals ≠ []) :
    Decodes (extendedFrame m pf fi t.toNat) fun b f => ReadsFrame m pf d fi (t :: b) f := by
  refine (Decodes.bind (T := fun x b f => ReadsFrame m pf d fi (t :: (bigEndian x ++ b)) f)
    decodes_getU2 fun x => ?_).congr fun b f => ⟨?_, fun h => ?_⟩
  · dsimp only
    split
    next hreserved =>
      refine (decodes_report_pure _ _).congr fun b f => ⟨False.elim, fun h => ?_⟩
      obtain ⟨e, _, _, htype, -⟩ := readsFrame_cons.mp h
      cases e <;> simp only [frameType] at htype <;> omega
    split
    next hsame => exact decodes_sameLocals1Extended hpre hsame x
    split
    next hle =>
      by_cases hchop : t.toNat = 251
      · have hsame : chopFrame m pf fi (251 - t.toNat) (offsetFrom pf fi x.toNat) =
            sameFrame m pf fi (offsetFrom pf fi x.toNat) := by
          rw [hchop]
          rfl
        rw [hsame]
        exact decodes_sameExtended hpre hchop x
      · exact decodes_chop hpre (by omega) (by omega) x (hne ⟨by omega, by omega⟩)
    split
    next happend => exact decodes_append hpre (by omega) happend x
    · exact decodes_full (by omega) x
  · rintro ⟨b₁, b₂, x, rfl, rfl, h⟩
    exact h
  · obtain ⟨e, _, _, htype, rfl, -⟩ := readsFrame_cons.mp h
    obtain ⟨x, b, hbody⟩ := body_extended (htype ▸ ht)
    rw [hbody] at h ⊢
    exact ⟨bigEndian x, b, x, rfl, rfl, h⟩

theorem decodes_nextOfType (hne : IsChop t → d.locals ≠ []) :
    Decodes (nextOfType m pf fi t.toNat) fun b f => ReadsFrame m pf d fi (t :: b) f := by
  unfold nextOfType
  split
  next hsame => exact decodes_same hpre hsame
  split
  next hsame => exact decodes_sameLocals1StackItem hpre (by omega) hsame
  · exact decodes_extendedFrame hpre (by omega) hne

/-- The next frame is read without a fault unless its entry chops and there are no locals. -/
theorem decodesAt_next {s : Input UChar StackMapError}
    (hne : ∀ t r, s.rest = t :: r → IsChop t → d.locals ≠ []) :
    DecodesAt s (next m pf fi) (ReadsFrame m pf d fi) := by
  refine ((decodes_token _ _ s).bind (T := fun t b f => ReadsFrame m pf d fi (t :: b) f)
    fun t s' hrun => decodes_nextOfType hpre (fun hchop => ?_) s').congr fun b f => ⟨?_, fun h => ?_⟩
  · rcases s with ⟨rest, errors⟩
    cases rest with
    | nil =>
      cases hrun
      exact absurd hchop (by simp [IsChop])
    | cons t' rest =>
      cases hrun
      exact hne t rest rfl hchop
  · rintro ⟨b₁, b₂, t, rfl, rfl, h⟩
    exact h
  · cases b with
    | nil =>
      obtain ⟨e, _, hnil, _⟩ := h
      cases hnil
    | cons t b => exact ⟨[t], b, t, rfl, rfl, h⟩

omit hpre in
/-- An entry that chops from no locals makes the reader look in front of the array. -/
theorem next_fault {r : List UChar} (ht : IsChop t) (hs : pf.localsSize = 0) :
    (next m pf fi).run ⟨t :: r, []⟩ = .error (.outOfBounds (-1)) := by
  obtain ⟨hlo, hhi⟩ := ht
  have hchop : ∀ o, chopFrame m pf fi (251 - t.toNat) o =
      fault (.outOfBounds (-1)) := by
    intro o
    obtain ⟨k, hk⟩ : ∃ k, 251 - t.toNat = k + 1 := ⟨250 - t.toNat, by omega⟩
    rw [hk, chopFrame, if_neg (by omega), hs, chop_zero]
    rfl
  obtain ⟨x, s', hx, -⟩ := (decodes_getU2 ⟨r, []⟩).sound
  show (nextOfType m pf fi t.toNat).run ⟨r, []⟩ = _
  rw [nextOfType, if_neg (by omega), if_neg (by omega), extendedFrame, StateT.run_bind, hx, ok_bind]
  dsimp only
  rw [if_neg (by omega), if_neg (by omega), if_pos (by omega), hchop]
  rfl

omit hpre in
theorem prefix_fill_alloc {n : Nat} {ts : List VerificationType} (h : ts.length ≤ n) :
    ts.map some <+: fill (alloc n) 0 ts := by
  have hfill := prefix_fill (alloc n) [] ts (by simp)
    (by simpa [alloc] using h)
  simpa using hfill

theorem prefix_builtLocals {locals : List VerificationType}
    (h : e.locals m d.locals = some locals) :
    (expand locals).map some <+: e.builtLocals pf d fi locals := by
  cases e with
  | append items hitems delta =>
    obtain ⟨types, htypes, rfl⟩ := map_eq_some_iff.mp h
    have hlen := types_length m htypes
    have hle := expand_length_le types
    have hkept : (expand d.locals).map some <+: fill
        (alloc (pf.localsSize + items.length * 2)) 0 (expand d.locals) :=
      prefix_fill_alloc (by rw [hpre.localsSize]; omega)
    have hfill := prefix_fill _ (expand d.locals) (expand types) hkept (by
      rw [fill_length, alloc, length_replicate, hpre.localsSize]
      omega)
    simpa only [builtLocals, expand_append, drop_left, hpre.localsSize]
      using hfill
  | full delta items stackItems hitems hstackItems =>
    have hlen := types_length m h
    have hle := expand_length_le locals
    exact prefix_fill_alloc (by omega)
  | chop k hk delta =>
    simp only [StackMapEntry.locals] at h
    split at h
    · cases h
      exact prefix_keptLocals fi hpre (expand_take_isPrefixOf _ _)
    · cases h
  | _ =>
    cases h
    exact prefix_keptLocals fi hpre prefix_rfl

omit hpre in
theorem prefix_builtStack {st : List VerificationType}
    (h : e.stack m = some st) : (expand st).map some <+: e.builtStack st := by
  cases e with
  | full delta items stackItems hitems hstackItems =>
    have hlen := types_length m h
    have hle := expand_length_le st
    exact prefix_fill_alloc (by omega)
  | sameLocals1 _ _ item | sameLocals1Extended _ item =>
    have hlen := types_length m h
    have hle := expand_length_le st
    exact prefix_fill_alloc (by rw [length_singleton] at hlen; omega)
  | _ =>
    cases h
    exact nil_prefix

omit hpre in
/-- What holds of the types of all items and of the locals before holds of the locals of an entry. -/
theorem forall_locals {P : VerificationType → Prop} (hP : ∀ {i : VerificationTypeInfo} {t}, i.type m = some t → P t)
    {pre locals : List VerificationType} (hpre : ∀ t ∈ pre, P t) (h : e.locals m pre = some locals) :
    ∀ t ∈ locals, P t := by
  cases e with
  | append items hitems delta =>
    obtain ⟨types, htypes, rfl⟩ := map_eq_some_iff.mp h
    exact forall_mem_append.mpr ⟨hpre, forall_types m hP htypes⟩
  | full delta items stackItems hitems hstackItems => exact forall_types m hP h
  | chop k hk delta =>
    simp only [StackMapEntry.locals] at h
    split at h
    · cases h
      exact fun t ht => hpre t (mem_of_mem_take ht)
    · cases h
  | _ =>
    cases h
    exact hpre

/-- The frame that is made has the contents of the described one. -/
theorem built_represents {d' : FrameDesc} {base : Nat}
    (h : e.describe m base d.locals = some d') : (e.built m pf d fi d').Represents m d' := by
  obtain ⟨locals, st, hlocals, hstack, hs, hstackSize, rfl⟩ :=
    (describe_eq_some m).mp h
  have hmod : (expand locals).length % 65536 = (expand locals).length := mod_eq_of_lt (by omega)
  have hmodStack : (expand st).length % 65536 = (expand st).length :=
    mod_eq_of_lt (by omega)
  exact {
    offset := rfl
    localsSize := hmod
    locals := prefix_builtLocals hpre hlocals
    stackSize := hmodStack
    stack := prefix_builtStack hstack
    flags := rfl
    localsSize_le := hmod.le.trans hs
    stackSize_le := hmodStack.le.trans hstackSize
    whole := forall_locals (fun h => (type_plain m h).1) hpre.whole hlocals }

end Next

/-! ## The table -/

def encodeEntries (es : List StackMapEntry) : List UChar := es.flatMap StackMapEntry.encode

/-- The frames that a list of entries describes, each of them at an instruction. -/
def decodeFrames (m : MethodContext) :
    Nat → List VerificationType → List StackMapEntry → Option (List FrameDesc)
  | _, _, [] => some []
  | base, pre, e :: es => do
    let d ← e.describe m base pre
    if m.markAt d.offset = .unmarked then none
    else do
      let ds ← decodeFrames m (d.offset + 1) d.locals es
      some (d :: ds)

/-- The locals after some frames. -/
def lastLocals (pre : List VerificationType) : List FrameDesc → List VerificationType
  | [] => pre
  | d :: ds => lastLocals d.locals ds

/-- Good entries, fewer than `n`, leave no locals, and then comes an entry that chops. -/
def ChopsNoLocals (m : MethodContext) (base : Nat) (pre : List VerificationType) (n : Nat)
    (data : List UChar) : Prop :=
  ∃ es ds t r, data = encodeEntries es ++ t :: r ∧ es.length < n ∧
    decodeFrames m base pre es = some ds ∧ lastLocals pre ds = [] ∧ IsChop t

variable {m : MethodContext}

variable {pre : List VerificationType} {es : List StackMapEntry} {ds : List FrameDesc}

theorem decodeFrames_cons {base : Nat} {e : StackMapEntry} :
    decodeFrames m base pre (e :: es) = some ds ↔ ∃ d ds', e.describe m base pre = some d ∧
      m.markAt d.offset ≠ .unmarked ∧ decodeFrames m (d.offset + 1) d.locals es = some ds' ∧
      ds = d :: ds' := by
  simp only [decodeFrames, bind_eq_bind, bind_eq_some_iff]
  constructor
  · rintro ⟨d, hd, h⟩
    split at h
    · cases h
    next hmark =>
      obtain ⟨ds', hds', h⟩ := bind_eq_some_iff.mp h
      cases h
      exact ⟨d, ds', hd, hmark, hds', rfl⟩
  · rintro ⟨d, ds', hd, hmark, hds', rfl⟩
    exact ⟨d, hd, by rw [if_neg hmark, hds', bind_some]⟩

/-- A good entry that chops finds something to chop. -/
theorem ne_nil_of_isChop {e : StackMapEntry} {base : Nat}
    {d' : FrameDesc} (h : e.describe m base pre = some d')
    (hchop : IsChop (BitVec.ofNat 8 e.frameType)) : pre ≠ [] := by
  obtain ⟨locals, _, hlocals, -⟩ := (describe_eq_some m).mp h
  have htype : (BitVec.ofNat 8 e.frameType).toNat = e.frameType := by
    rw [BitVec.toNat_ofNat, mod_eq_of_lt e.frameType_lt]
  rw [IsChop, htype] at hchop
  cases e with
  | chop k hk delta =>
    rintro rfl
    simp only [StackMapEntry.locals, length_nil] at hlocals
    rw [if_neg (by omega)] at hlocals
    cases hlocals
  | _ =>
    simp only [frameType] at hchop
    omega

@[simp]
theorem offsetBase_built (pf : StackMapFrame) (d d' : FrameDesc) (fi : Bool)
    (e : StackMapEntry) : offsetBase (e.built m pf d fi d') false = d'.offset + 1 := rfl

theorem encodeEntries_cons (e : StackMapEntry) (es : List StackMapEntry) (r : List UChar) :
    encodeEntries (e :: es) ++ r = e.encode ++ (encodeEntries es ++ r) := by
  simp [encodeEntries]

section Table

variable {pf : StackMapFrame} {d : FrameDesc} {fi : Bool}
  (hpre : pf.Represents m d)

include hpre

/-- One turn of the loop over a good entry. -/
theorem readFrames_cons {d' : FrameDesc} {e : StackMapEntry} (n : Nat) (r : List UChar)
    (hd : e.describe m (offsetBase pf fi) d.locals = some d')
    (hmark : m.markAt d'.offset ≠ .unmarked) : (readFrames m (n + 1) fi pf).run ⟨e.encode ++ r, []⟩ =
      ((readFrames m n false (e.built m pf d fi d')).run ⟨r, []⟩).map
        fun p => (p.1.map (e.built m pf d fi d' :: ·), p.2) := by
  have hdecodes : DecodesAt ⟨e.encode ++ r, []⟩ (next m pf fi) _ :=
    decodesAt_next hpre (by rintro t r' ⟨⟩; exact ne_nil_of_isChop hd)
  have hnext := hdecodes.complete e.encode _ r rfl ⟨e, d', rfl, hd, rfl⟩
  rw [readFrames, StateT.run_bind, hnext, ok_bind]
  show (if m.markAt d'.offset = .unmarked then _ else _ : ReadM _).run ⟨r, []⟩ = _
  rw [if_neg hmark, StateT.run_bind]
  cases (readFrames m n false (e.built m pf d fi d')).run ⟨r, []⟩ with
  | error f => rfl
  | ok p => rfl

/-- Good entries in front are read, and the loop goes on behind them. -/
theorem readFrames_append (es : List StackMapEntry) {ds : List FrameDesc} (n : Nat) (r : List UChar)
    (hdecode : decodeFrames m (offsetBase pf fi) d.locals es = some ds) :
    ∃ fs preFrame' d' first', preFrame'.Represents m d' ∧ d'.locals = lastLocals d.locals ds ∧
      (readFrames m (es.length + n) fi pf).run ⟨encodeEntries es ++ r, []⟩ =
        ((readFrames m n first' preFrame').run ⟨r, []⟩).map fun p => (p.1.map (fs ++ ·), p.2) := by
  induction es generalizing pf d fi ds with
  | nil =>
    cases hdecode
    refine ⟨[], pf, d, fi, hpre, rfl, ?_⟩
    rw [length_nil, zero_add]
    show (readFrames m n fi pf).run ⟨r, []⟩ = _
    cases (readFrames m n fi pf).run ⟨r, []⟩ with
    | error f => rfl
    | ok p => simp
  | cons e es ih =>
    obtain ⟨d₁, ds', hd, hmark, hds', rfl⟩ := decodeFrames_cons.mp hdecode
    have hbuilt : (e.built m pf d fi d₁).Represents m d₁ := built_represents hpre hd
    obtain ⟨fs, preFrame', d', first', hpre', hlast, hrun⟩ := @ih _ d₁ false hbuilt ds'
      (by rw [offsetBase_built]; exact hds')
    refine ⟨e.built m pf d fi d₁ :: fs, preFrame', d', first', hpre', hlast, ?_⟩
    have hlen : (e :: es).length + n = (es.length + n) + 1 := by simp; omega
    rw [hlen, encodeEntries_cons, readFrames_cons hpre _ _ hd hmark, hrun]
    cases (readFrames m n first' preFrame').run ⟨r, []⟩ with
    | error f => rfl
    | ok p =>
      rcases p with ⟨o, s⟩
      cases o <;> rfl

theorem readFrames_fault {n : Nat} {data : List UChar}
    (hbad : ChopsNoLocals m (offsetBase pf fi) d.locals n data) :
    (readFrames m n fi pf).run ⟨data, []⟩ = .error (.outOfBounds (-1)) := by
  obtain ⟨es, ds, t, r, rfl, hlt, hdecode, hlast, hchop⟩ := hbad
  obtain ⟨k, rfl⟩ : ∃ k, n = es.length + (k + 1) := ⟨n - es.length - 1, by omega⟩
  obtain ⟨fs, preFrame', d', first', hpre', hlocals, hrun⟩ :=
    readFrames_append hpre es (k + 1) (t :: r) hdecode
  have hs : preFrame'.localsSize = 0 := by
    rw [hpre'.localsSize, hlocals, hlast]
    rfl
  rw [hrun, readFrames, StateT.run_bind, next_fault hchop hs]
  rfl

/-- The loop has no fault, and without an error its frames are those of the entries. -/
theorem readFrames_sound (n : Nat) (data : List UChar)
    (hgood : ¬ChopsNoLocals m (offsetBase pf fi) d.locals n data) :
    ∃ o s, (readFrames m n fi pf).run ⟨data, []⟩ = .ok (o, s) ∧ (s.errors = [] →
      ∃ es ds fs, o = some fs ∧ es.length = n ∧ data = encodeEntries es ++ s.rest ∧
        decodeFrames m (offsetBase pf fi) d.locals es = some ds ∧
        List.Forall₂ (fun frame d => frame.Represents m d) fs ds) := by
  induction n generalizing pf d fi data with
  | zero => exact ⟨_, _, rfl, fun _ => ⟨[], [], [], rfl, rfl, rfl, rfl, .nil⟩⟩
  | succ n ih =>
    have hne : ∀ t r, data = t :: r → IsChop t → d.locals ≠ [] := by
      rintro t r rfl hchop hlocals
      exact hgood ⟨[], [], t, r, rfl, succ_pos n, rfl, hlocals, hchop⟩
    have hdecodes : DecodesAt ⟨data, []⟩ (next m pf fi) _ := decodesAt_next hpre hne
    obtain ⟨f, s, hnext, himp⟩ := hdecodes.sound
    by_cases hclean : s.errors = []
    · obtain ⟨-, b, hdata, e, d', rfl, hd, rfl⟩ := himp hclean
      rcases s with ⟨rest, errors⟩
      dsimp only at hclean hdata
      subst hclean hdata
      by_cases hmark : m.markAt d'.offset = .unmarked
      · refine ⟨none, ⟨rest, [.badOffset]⟩, ?_, nofun⟩
        rw [readFrames, StateT.run_bind, hnext, ok_bind]
        show (if m.markAt d'.offset = .unmarked then _ else _ : ReadM _).run ⟨rest, []⟩ = _
        rw [if_pos hmark]
        rfl
      · have hbuilt : (e.built m pf d fi d').Represents m d' :=
          built_represents hpre hd
        have hgood' : ¬ChopsNoLocals m (d'.offset + 1) d'.locals n rest := by
          rintro ⟨es, ds, t, r, rfl, hlt, hds, hlast, hchop⟩
          exact hgood ⟨e :: es, d' :: ds, t, r, (encodeEntries_cons e es _).symm,
            succ_lt_succ hlt, decodeFrames_cons.mpr ⟨d', ds, hd, hmark, hds, rfl⟩, hlast,
            hchop⟩
        obtain ⟨o, s, hrun, hsound⟩ := @ih _ d' false hbuilt rest hgood'
        refine ⟨o.map (e.built m pf d fi d' :: ·), s, ?_, fun hclean => ?_⟩
        · rw [readFrames_cons hpre n rest hd hmark, hrun]
          rfl
        · obtain ⟨es, ds, fs, rfl, rfl, rfl, hds, hframes⟩ := hsound hclean
          exact ⟨e :: es, d' :: ds, _, rfl, rfl, (encodeEntries_cons e es _).symm,
            decodeFrames_cons.mpr ⟨d', ds, hd, hmark, hds, rfl⟩, .cons hbuilt hframes⟩
    · refine ⟨none, s, ?_, fun h => absurd h hclean⟩
      rw [readFrames, StateT.run_bind, hnext, ok_bind]
      show (if s.errors.isEmpty then _ else _) = _
      rw [if_neg (by simpa using hclean)]

end Table

theorem decodeFrames_offsets {base : Nat} (h : decodeFrames m base pre es = some ds) :
    (∀ d ∈ ds, base ≤ d.offset ∧ m.markAt d.offset ≠ .unmarked) ∧
      (ds.map FrameDesc.offset).Pairwise (· < ·) := by
  induction es generalizing base pre ds with
  | nil =>
    cases h
    simp
  | cons e es ih =>
    obtain ⟨d, ds', hd, hmark, hds', rfl⟩ := decodeFrames_cons.mp h
    obtain ⟨hbounds, hsorted⟩ := ih hds'
    have hbase : base ≤ d.offset := by
      obtain ⟨_, _, _, _, _, _, rfl⟩ := (describe_eq_some m).mp hd
      exact le_add_right _ _
    constructor
    · intro d' hd'
      rcases mem_cons.mp hd' with rfl | hd'
      · exact ⟨hbase, hmark⟩
      · obtain ⟨hle, hmark'⟩ := hbounds d' hd'
        exact ⟨by omega, hmark'⟩
    · rw [map_cons, pairwise_cons]
      refine ⟨fun o hoffset => ?_, hsorted⟩
      obtain ⟨d', hd', rfl⟩ := mem_map.mp hoffset
      exact (hbounds d' hd').1

theorem map_offset_of_represents {fs : List StackMapFrame}
    (h : List.Forall₂ (fun frame d => frame.Represents m d) fs ds) :
    fs.map StackMapFrame.offset = ds.map FrameDesc.offset := by
  induction h with
  | nil => rfl
  | cons hframe _ ih => rw [map_cons, map_cons, hframe.offset, ih]

/-- The frame at the entry of a method: it has the types of the parameters. -/
structure InitialFrame (m : MethodContext) where
  frame : StackMapFrame
  locals : List VerificationType
  represents : frame.Represents m ⟨0, locals, []⟩

/-- The frames are those that the attribute describes. -/
structure Faithful (m : MethodContext) (pre : List VerificationType) (data : List UChar)
    (frames : List StackMapFrame) : Prop where
  decoded : ∃ es ds, es.length < 65536 ∧
    data = bigEndian (BitVec.ofNat 16 es.length) ++ encodeEntries es ∧
    decodeFrames m 0 pre es = some ds ∧
    List.Forall₂ (fun frame d => frame.Represents m d) frames ds
  increasing : (frames.map StackMapFrame.offset).Pairwise (· < ·)
  atInstructions : ∀ frame ∈ frames, m.markAt frame.offset ≠ .unmarked

/-- Somewhere in the attribute an entry chops although the frame before it has no locals. -/
def ChopsWithoutLocals (m : MethodContext) (pre : List VerificationType) (data : List UChar) : Prop :=
  ∃ count rest, data = bigEndian count ++ rest ∧ ChopsNoLocals m 0 pre count.toNat rest

theorem faithful_of_decoded {data : List UChar} {fs : List StackMapFrame} (hlen : es.length < 65536)
    (hdata : data = bigEndian (BitVec.ofNat 16 es.length) ++ encodeEntries es)
    (hdecode : decodeFrames m 0 pre es = some ds)
    (hframes : List.Forall₂ (fun frame d => frame.Represents m d) fs ds) :
    Faithful m pre data fs := by
  obtain ⟨hbounds, hsorted⟩ := decodeFrames_offsets hdecode
  have hoffsets := map_offset_of_represents hframes
  refine ⟨⟨es, ds, hlen, hdata, hdecode, hframes⟩, hoffsets ▸ hsorted, fun frame hframe => ?_⟩
  have hmem := mem_map_of_mem (f := StackMapFrame.offset) hframe
  rw [hoffsets] at hmem
  obtain ⟨d, hd, hoffset⟩ := mem_map.mp hmem
  rw [← hoffset]
  exact (hbounds d hd).2

/-- The table from the count on. -/
theorem readStackMapTable_eq (initFrame : StackMapFrame) (count : JChar) (rest : List UChar) :
    readStackMapTable m initFrame (bigEndian count ++ rest) =
      ((readFrames m count.toNat true initFrame).run ⟨rest, []⟩).map fun p => (match p.1 with
        | none => p.2.errors
        | some _ => if p.2.rest.isEmpty then p.2.errors else p.2.errors ++ [.wrongAttributeSize],
        p.1.getD []) := by
  have hcount := (decodes_getU2 ⟨bigEndian count ++ rest, []⟩).complete _ count rest rfl rfl
  rw [readStackMapTable, stackMapTable, StateT.run_bind, hcount, ok_bind]
  dsimp only
  rw [StateT.run_bind]
  cases (readFrames m count.toNat true initFrame).run ⟨rest, []⟩ with
  | error f => rfl
  | ok p =>
    rcases p with ⟨o, s⟩
    cases o <;> rfl

/-- Reading an attribute makes no bad access and yields an error or the frames that it describes,
exactly if no entry chops when there are no locals. -/
theorem readStackMapTable_faithful_iff (m : MethodContext) (init : InitialFrame m)
    (data : List UChar) :
    (∃ errors frames, readStackMapTable m init.frame data = .ok (errors, frames) ∧
      (errors ≠ [] ∨ Faithful m init.locals data frames)) ↔
    ¬ChopsWithoutLocals m init.locals data := by
  constructor
  · rintro ⟨errors, frames, hread, -⟩ ⟨count, rest, rfl, hbad⟩
    have hfault := @readFrames_fault m init.frame _ true init.represents _ _ hbad
    rw [readStackMapTable_eq, hfault] at hread
    cases hread
  · intro hgood
    rcases data with _ | ⟨h, _ | ⟨l, rest⟩⟩
    · exact ⟨[.accessBeyondEnd], [], rfl, .inl nofun⟩
    · exact ⟨[.accessBeyondEnd, .wrongAttributeSize], [], rfl, .inl nofun⟩
    have hdata : h :: l :: rest = bigEndian (h ++ l) ++ rest := by rw [bigEndian_append]; rfl
    rw [hdata] at hgood ⊢
    obtain ⟨o, s, hrun, hsound⟩ := @readFrames_sound m init.frame _ true init.represents
      (h ++ l : JChar).toNat rest fun hbad => hgood ⟨h ++ l, rest, rfl, hbad⟩
    rw [readStackMapTable_eq, hrun]
    refine ⟨_, _, rfl, ?_⟩
    by_cases hclean : s.errors = []
    · obtain ⟨es, ds, frames, rfl, hn, rfl, hds, hframes⟩ := hsound hclean
      have hcount : BitVec.ofNat 16 es.length = (h ++ l : JChar) := by simp [hn]
      cases hrest : s.rest with
      | nil =>
        refine .inr (faithful_of_decoded (hn ▸ BitVec.isLt _) ?_ hds hframes)
        rw [hcount, append_nil]
      | cons t r => exact .inl (by simp)
    · refine .inl ?_
      cases o with
      | none => exact hclean
      | some frames =>
        dsimp only
        split
        · exact hclean
        · simp

/-- The code data of a scan that found instructions mark nothing but their starts. -/
theorem Faithful.mem_starts {bytes : List UChar} {ls : List Nat} {data : List UChar}
    {frames : List StackMapFrame}
    (hmarks : m.codeData = BytecodeStream.markAll bytes (replicate bytes.length .unmarked)
      (BytecodeStream.starts 0 ls)) (h : Faithful m pre data frames) :
    ∀ frame ∈ frames, frame.offset ∈ BytecodeStream.starts 0 ls := by
  intro frame hframe
  by_contra hnot
  apply h.atInstructions frame hframe
  rw [MethodContext.markAt, hmarks, BytecodeStream.getElem?_markAll hnot, getElem?_replicate]
  split <;> rfl

/-- After a scan in bounds that found no illegal instruction, the frames that are read stand at
the instructions which it found. -/
theorem frames_at_starts {code : BytecodeStream.MethodCode}
    (hscan : BytecodeStream.ScansInBounds code) :
    ∃ fuel result, (BytecodeStream.generateCodeData code fuel).value = some result ∧
      (result = .marks m.codeData → ∃ ls, BytecodeStream.Tiles code.bytes 0 ls ∧
        ∀ data frames, Faithful m pre data frames →
          ∀ frame ∈ frames, frame.offset ∈ BytecodeStream.starts 0 ls) := by
  obtain ⟨fuel, result, hvalue, -, ⟨bci, rfl⟩ | ⟨ls, htiles, rfl⟩⟩ := hscan
  · exact ⟨fuel, _, hvalue, nofun⟩
  · refine ⟨fuel, _, hvalue, fun hmarks => ⟨ls, htiles, fun data frames hframes => ?_⟩⟩
    injection hmarks with hmarks
    exact hframes.mem_starts hmarks.symm

/-- A static method without parameters, whose code is one instruction. -/
def emptyMethod : MethodContext where
  constants := []
  codeData := [.bytecodeOffset]
  codeLength_le := by decide
  maxLocals := 0
  maxStack := 0

def emptyInitialFrame : InitialFrame emptyMethod where
  frame := emptyMethod.frame 0 0 0 0 [] []
  locals := []
  represents := {
    offset := rfl
    localsSize := rfl
    locals := List.nil_prefix
    stackSize := rfl
    stack := List.nil_prefix
    flags := rfl
    localsSize_le := Nat.zero_le _
    stackSize_le := Nat.zero_le _
    whole := nofun }

/-- One chop frame for a method without locals: the reader looks in front of the array. -/
theorem chop_reads_before_locals :
    readStackMapTable emptyMethod emptyInitialFrame.frame [0, 1, 250, 0, 0] =
      .error (.outOfBounds (-1)) := rfl

/-- The reader accepts each attribute that describes frames. -/
theorem readStackMapTable_complete (init : InitialFrame m) (hlen : es.length < 65536)
    (hdecode : decodeFrames m 0 init.locals es = some ds) : ∃ fs, readStackMapTable m init.frame
      (bigEndian (BitVec.ofNat 16 es.length) ++ encodeEntries es) = .ok ([], fs) := by
  obtain ⟨fs, _, _, _, -, -, hrun⟩ :=
    @readFrames_append m init.frame _ true init.represents es ds 0 [] hdecode
  rw [append_nil, add_zero] at hrun
  rw [readStackMapTable_eq, BitVec.toNat_ofNat, mod_eq_of_lt hlen, hrun]
  exact ⟨_, rfl⟩

/-- A method with a `new` at bci 2, in front of a call that takes three bytes. -/
def callingMethod : MethodContext where
  constants := [.other, .klass javaLangObject]
  codeData := [.bytecodeOffset, .bytecodeOffset, .newOffset, .unmarked, .unmarked, .bytecodeOffset,
    .unmarked, .unmarked, .bytecodeOffset]
  codeLength_le := by decide
  maxLocals := 5
  maxStack := 2

def longInitialFrame : InitialFrame callingMethod where
  frame := callingMethod.frame 0 0 2 0 [some .long, some .long2, none, none, none] [none, none]
  locals := [.long]
  represents := {
    offset := rfl
    localsSize := rfl
    locals := ⟨_, rfl⟩
    stackSize := rfl
    stack := nil_prefix
    flags := rfl
    localsSize_le := by decide
    stackSize_le := zero_le _
    whole := by decide }

/-- Two locals are appended, the frame is replaced by one with an object and a new object, and the
local is chopped. -/
def mixedEntries : List StackMapEntry :=
  [.append [.integer, .float] (by decide) 1,
    .full 0 [.object 1] [.uninitialized 2] (by decide) (by decide), .chop 1 (by decide) 2,
    .sameLocals1 2 (by decide) .integer]

theorem readStackMapTable_complete_mixed : ∃ fs, readStackMapTable callingMethod longInitialFrame.frame
    (bigEndian (BitVec.ofNat 16 mixedEntries.length) ++ encodeEntries mixedEntries) = .ok ([], fs) := by
  have hdecode : decodeFrames callingMethod 0 [.long] mixedEntries = some
      [⟨1, [.long, .integer, .float], []⟩, ⟨2, [.reference javaLangObject], [.uninitialized 2]⟩,
        ⟨5, [], []⟩, ⟨8, [], [.integer]⟩] := rfl
  exact readStackMapTable_complete longInitialFrame (by decide) hdecode

/-! ## The initial frame -/

theorem parameterType_whole (f : FieldType) : (parameterType f).isCategory2Second = false := by
  unfold parameterType
  split <;> rfl

theorem parameterType_ne_uninitializedThis (f : FieldType) :
    parameterType f ≠ .uninitializedThis := by
  unfold parameterType
  split <;> nofun

theorem changeSig_eq (f : FieldType) (a : TypeArray) (i : Nat)
    (h : i + (cells (parameterType f)).length ≤ a.length) : changeSigToVerificationType f a i =
      .ok (a.fill i (cells (parameterType f)), (cells (parameterType f)).length) := by
  have hpos := cells_length_pos (parameterType f)
  rw [changeSigToVerificationType, write_eq _ (by omega), ok_bind]
  by_cases hcat : (parameterType f).isCategory2
  · have hcells : cells (parameterType f) =
        [parameterType f, (parameterType f).toCategory2Second] := if_pos hcat
    rw [hcells] at h ⊢
    rw [if_pos hcat, write_eq _ (by rw [length_set]; exact h)]
    rfl
  · have hcells : cells (parameterType f) = [parameterType f] := if_neg hcat
    rw [hcells, if_neg hcat]
    rfl

theorem setParameters_eq (params : List FieldType) (a : TypeArray) (i : Nat)
    (h : i + (expand (params.map parameterType)).length ≤ a.length) :
    setParameters params a i = .ok (a.fill i (expand (params.map parameterType)),
      i + (expand (params.map parameterType)).length) := by
  induction params generalizing a i with
  | nil => rfl
  | cons f params ih =>
    simp only [map_cons, expand_cons, length_append] at h ⊢
    rw [setParameters, changeSig_eq f a i (by omega), ok_bind, fill_append]
    dsimp only
    rw [ih _ _ (by rw [fill_length]; omega), add_assoc]

/-- The types of the receiver and the parameters. -/
def MethodHeader.locals (h : MethodHeader) : List VerificationType :=
  (if h.isStatic then [] else [h.thisType]) ++ h.params.map parameterType

theorem cells_thisType (h : MethodHeader) : cells h.thisType = [h.thisType] := by
  unfold MethodHeader.thisType
  split <;> rfl

theorem locals_whole_header (h : MethodHeader) : ∀ t ∈ h.locals, t.isCategory2Second = false := by
  intro t ht
  rcases mem_append.mp ht with ht | ht
  · split at ht
    · cases ht
    · rw [mem_singleton.mp ht, MethodHeader.thisType]
      split <;> rfl
  · obtain ⟨f, -, rfl⟩ := mem_map.mp ht
    exact parameterType_whole f

theorem addFlags_parameters (flags : UChar) (params : List FieldType) :
    addFlags flags (params.map parameterType) = flags := by
  refine if_neg fun hmem => ?_
  obtain ⟨f, -, hf⟩ := mem_map.mp hmem
  exact parameterType_ne_uninitializedThis f hf

/-- The receiver and the parameters are stored to the front of the locals. -/
theorem setLocalsFromArg_eq (m : MethodContext) (h : MethodHeader)
    (hfit : (expand h.locals).length ≤ m.maxLocals.toNat) :
    setLocalsFromArg m h = .ok { m.frame 0 (addFlags 0 h.locals) 0 0
        (fill (List.replicate m.maxLocals.toNat (some .bogus)) 0 (expand h.locals))
        (List.replicate m.maxStack.toNat (some .bogus)) with
      localsSize := (expand h.locals).length } := by
  cases hstatic : h.isStatic with
  | true =>
    have hlocals : h.locals = h.params.map parameterType := by simp [MethodHeader.locals, hstatic]
    rw [hlocals] at hfit ⊢
    have hset := setParameters_eq h.params (replicate m.maxLocals.toNat (some .bogus)) 0
      (by simpa using hfit)
    rw [zero_add] at hset
    simp only [setLocalsFromArg, hstatic, if_true, hset, addFlags_parameters]
    rfl
  | false =>
    have hlocals : h.locals = h.thisType :: h.params.map parameterType := by
      simp [MethodHeader.locals, hstatic]
    have hexpand : expand h.locals = h.thisType :: expand (h.params.map parameterType) := by
      rw [hlocals, expand_cons, cells_thisType]
      rfl
    rw [hexpand, length_cons] at hfit ⊢
    have hwrite := write_eq (a := replicate m.maxLocals.toNat (some .bogus)) (i := 0)
      h.thisType (by rw [length_replicate]; omega)
    have hset := setParameters_eq h.params
      ((replicate m.maxLocals.toNat (some .bogus)).set 0 (some h.thisType)) 1
      (by rw [length_set, length_replicate]; omega)
    rw [add_comm] at hset
    have hflags : addFlags 0 h.locals = if h.thisType = .uninitializedThis then flagThisUninit else 0 := by
      rw [hlocals, addFlags_cons, addFlags_parameters]
      by_cases hthis : h.thisType = .uninitializedThis
      · simp [addFlags, hthis]
      · simp [addFlags, hthis, Ne.symm hthis]
    simp only [setLocalsFromArg, hstatic, hwrite, ok_bind, hset, hflags]
    rfl

/-- A method whose parameters fit into its locals has an initial frame. -/
theorem setLocalsFromArg_represents (m : MethodContext) (h : MethodHeader)
    (hfit : (expand h.locals).length ≤ m.maxLocals.toNat) :
    ∃ frame, setLocalsFromArg m h = .ok frame ∧ frame.Represents m ⟨0, h.locals, []⟩ := by
  have hfill := prefix_fill (replicate m.maxLocals.toNat (some .bogus)) []
    (expand h.locals) (by simp) (by simpa using hfit)
  refine ⟨_, setLocalsFromArg_eq m h hfit, ?_⟩
  exact {
    offset := rfl
    localsSize := rfl
    locals := hfill
    stackSize := rfl
    stack := nil_prefix
    flags := rfl
    localsSize_le := hfit
    stackSize_le := zero_le _
    whole := locals_whole_header h }

/-- A constructor with a `long` and an array of `int`s. -/
theorem setLocalsFromArg_represents_constructor : ∃ frame,
    setLocalsFromArg callingMethod ⟨false, objectInitializerName, [65],
      [⟨0, .primitive .long rfl, by decide⟩, ⟨1, .primitive .int rfl, by decide⟩]⟩ = .ok frame ∧
      frame.Represents callingMethod ⟨0, [.uninitializedThis, .long, .reference [91, 73]], []⟩ :=
  setLocalsFromArg_represents _ _ (by decide)

end Hotspot.StackMap
