-- SUMMARY: The StackMapTable attribute, and the decoding of its types and frames.
import Hotspot.Classfile.StackMapTable

/-!
# Decoding stack maps

The entries of the attribute are given as data types, with their encodings and with the frames
they describe. A described frame lists the types of its values; in the arrays of the verifier a
value of two words takes two cells.

The reader is compared with this kind of frame by kind of frame.
-/

namespace Hotspot.StackMap

open List Decoder StackMapReader TypeArray

/-! ## The attribute -/

def bigEndian (x : JChar) : List UChar := [x.extractLsb' 8 8, x.extractLsb' 0 8]

/-- `verification_type_info`. -/
inductive VerificationTypeInfo where
  | top
  | integer
  | float
  | double
  | long
  | null
  | uninitializedThis
  | object (cpoolIndex : JChar)
  | uninitialized (offset : JChar)
  deriving DecidableEq, Repr

namespace VerificationTypeInfo

def tag : VerificationTypeInfo → UChar
  | .top => 0
  | .integer => 1
  | .float => 2
  | .double => 3
  | .long => 4
  | .null => 5
  | .uninitializedThis => 6
  | .object _ => 7
  | .uninitialized _ => 8

/-- What stands behind the tag. -/
def operand : VerificationTypeInfo → List UChar
  | .object cpoolIndex => bigEndian cpoolIndex
  | .uninitialized offset => bigEndian offset
  | _ => []

def encode (i : VerificationTypeInfo) : List UChar := i.tag :: i.operand

/-- The type that is meant. An index must be that of a class, an offset that of a `new`. -/
def type (m : MethodContext) : VerificationTypeInfo → Option VerificationType
  | .top => some .bogus
  | .integer => some .integer
  | .float => some .float
  | .double => some .double
  | .long => some .long
  | .null => some .null
  | .uninitializedThis => some .uninitializedThis
  | .object cpoolIndex => (m.klassNameAt cpoolIndex).map .reference
  | .uninitialized offset =>
    if m.markAt offset.toNat = .newOffset then some (.uninitialized offset) else none

def encodeAll (items : List VerificationTypeInfo) : List UChar := items.flatMap encode

def types (m : MethodContext) (items : List VerificationTypeInfo) : Option (List VerificationType) :=
  items.mapM (type m)

end VerificationTypeInfo

open VerificationTypeInfo

/-- `stack_map_frame`. -/
inductive StackMapEntry where
  | same (delta : Nat) (h : delta < 64)
  | sameLocals1 (delta : Nat) (h : delta < 64) (item : VerificationTypeInfo)
  | sameLocals1Extended (delta : JChar) (item : VerificationTypeInfo)
  | chop (k : Nat) (h : 0 < k ∧ k ≤ 3) (delta : JChar)
  | sameExtended (delta : JChar)
  | append (items : List VerificationTypeInfo) (h : 0 < items.length ∧ items.length ≤ 3)
      (delta : JChar)
  | full (delta : JChar) (locals stack : List VerificationTypeInfo)
      (hlocals : locals.length < 65536) (hstack : stack.length < 65536)

namespace StackMapEntry

def frameType : StackMapEntry → Nat
  | .same delta _ => delta
  | .sameLocals1 delta _ _ => 64 + delta
  | .sameLocals1Extended _ _ => 247
  | .chop k _ _ => 251 - k
  | .sameExtended _ => 251
  | .append items _ _ => 251 + items.length
  | .full _ _ _ _ _ => 255

/-- What stands behind the frame type. -/
def body : StackMapEntry → List UChar
  | .same _ _ => []
  | .sameLocals1 _ _ item => item.encode
  | .sameLocals1Extended delta item => bigEndian delta ++ item.encode
  | .chop _ _ delta => bigEndian delta
  | .sameExtended delta => bigEndian delta
  | .append items _ delta => bigEndian delta ++ VerificationTypeInfo.encodeAll items
  | .full delta locals stack _ _ =>
    bigEndian delta ++
      (bigEndian (BitVec.ofNat 16 locals.length) ++ VerificationTypeInfo.encodeAll locals ++
        (bigEndian (BitVec.ofNat 16 stack.length) ++ VerificationTypeInfo.encodeAll stack))

def encode (e : StackMapEntry) : List UChar := BitVec.ofNat 8 e.frameType :: e.body

def delta : StackMapEntry → Nat
  | .same delta _ | .sameLocals1 delta _ _ => delta
  | .sameLocals1Extended delta _ | .chop _ _ delta | .sameExtended delta | .append _ _ delta
  | .full delta _ _ _ _ => delta.toNat

/-- The types of the locals, from those of the frame before. -/
def locals (m : MethodContext) (pre : List VerificationType) :
    StackMapEntry → Option (List VerificationType)
  | .chop k _ _ => if k ≤ pre.length then some (pre.take (pre.length - k)) else none
  | .append items _ _ => (VerificationTypeInfo.types m items).map (pre ++ ·)
  | .full _ locals _ _ _ => VerificationTypeInfo.types m locals
  | _ => some pre

/-- The types on the operand stack. -/
def stack (m : MethodContext) : StackMapEntry → Option (List VerificationType)
  | .sameLocals1 _ _ item | .sameLocals1Extended _ item => VerificationTypeInfo.types m [item]
  | .full _ _ stack _ _ => VerificationTypeInfo.types m stack
  | _ => some []

end StackMapEntry

/-! ## Described frames -/

/-- The cells of a value. -/
def cells (t : VerificationType) : List VerificationType :=
  if t.isCategory2 then [t, t.toCategory2Second] else [t]

/-- The cells of a list of values. -/
def expand (types : List VerificationType) : List VerificationType := types.flatMap cells

/-- The flags with those of some values added. -/
def addFlags (flags : UChar) (types : List VerificationType) : UChar :=
  if .uninitializedThis ∈ types then flags ||| flagThisUninit else flags

/-- A frame as a list of values for the locals and one for the stack. -/
structure FrameDesc where
  offset : Nat
  locals : List VerificationType
  stack : List VerificationType

/-- The frame that an entry describes, if its sizes are within the maxima of the method. Its
offset is counted from `base`, the locals of the frame before it are `pre`. -/
def StackMapEntry.describe (m : MethodContext) (base : Nat) (pre : List VerificationType)
    (e : StackMapEntry) : Option FrameDesc := do
  let locals ← e.locals m pre
  let stack ← e.stack m
  if (expand locals).length ≤ m.maxLocals.toNat ∧ (expand stack).length ≤ m.maxStack.toNat then
    some ⟨base + e.delta, locals, stack⟩
  else none

/-- A frame of the verifier that has the contents of a described frame. -/
structure StackMapFrame.Represents (frame : StackMapFrame) (m : MethodContext) (d : FrameDesc) :
    Prop where
  offset : frame.offset = d.offset
  localsSize : frame.localsSize = (expand d.locals).length
  locals : (expand d.locals).map some <+: frame.locals
  stackSize : frame.stackSize = (expand d.stack).length
  stack : (expand d.stack).map some <+: frame.stack
  flags : frame.flags = addFlags 0 d.locals
  localsSize_le : frame.localsSize ≤ m.maxLocals.toNat
  stackSize_le : frame.stackSize ≤ m.maxStack.toNat
  /-- No value starts with the second half of one. -/
  whole : ∀ t ∈ d.locals, t.isCategory2Second = false

/-! ## Cells -/

@[simp]
theorem expand_nil : expand [] = [] := rfl

@[simp]
theorem expand_cons (t : VerificationType) (ts : List VerificationType) :
    expand (t :: ts) = cells t ++ expand ts := rfl

@[simp]
theorem expand_append (ts us : List VerificationType) :
    expand (ts ++ us) = expand ts ++ expand us := flatMap_append

variable (ts : List VerificationType)

theorem expand_take_isPrefixOf (n : Nat) : expand (ts.take n) <+: expand ts := by
  conv_rhs => rw [← take_append_drop n ts, expand_append]
  exact prefix_append _ _

theorem cells_length_pos (t : VerificationType) : 0 < (cells t).length := by
  unfold cells
  split <;> simp

theorem cells_length_le (t : VerificationType) : (cells t).length ≤ 2 := by
  unfold cells
  split <;> simp

theorem expand_length_le : (expand ts).length ≤ 2 * ts.length := by
  induction ts with
  | nil => simp
  | cons t ts ih =>
    have hcells := cells_length_le t
    simp
    omega

variable {t : VerificationType}

theorem mem_expand {ts : List VerificationType} :
    t ∈ expand ts ↔ ∃ u ∈ ts, t ∈ cells u := mem_flatMap

/-- A value that is not a half of one is a value of its own among the cells. -/
theorem uninitializedThis_mem_expand :
    .uninitializedThis ∈ expand ts ↔ .uninitializedThis ∈ ts := by
  rw [mem_expand]
  constructor
  · rintro ⟨u, hu, hmem⟩
    unfold cells at hmem
    split at hmem
    next hcat =>
      unfold VerificationType.toCategory2Second at hmem
      rcases mem_cons.mp hmem with rfl | hmem
      · cases hcat
      · split at hmem <;> simp at hmem
    · rw [mem_singleton] at hmem
      exact hmem ▸ hu
  · intro hmem
    exact ⟨_, hmem, mem_singleton.mpr rfl⟩

theorem addFlags_expand (flags : UChar) (ts : List VerificationType) :
    addFlags flags (expand ts) = addFlags flags ts := by
  unfold addFlags
  simp [uninitializedThis_mem_expand]

theorem addFlags_cons (flags : UChar) (t : VerificationType) (ts : List VerificationType) :
    addFlags flags (t :: ts) = addFlags (addFlags flags [t]) ts := by
  unfold addFlags
  by_cases ht : t = .uninitializedThis <;> by_cases hts : .uninitializedThis ∈ ts <;>
    simp [ht, hts, eq_comm, BitVec.or_assoc]

theorem addFlags_append (flags : UChar) (ts us : List VerificationType) :
    addFlags flags (ts ++ us) = addFlags (addFlags flags ts) us := by
  unfold addFlags
  by_cases hts : .uninitializedThis ∈ ts <;> by_cases hus : .uninitializedThis ∈ us <;>
    simp [hts, hus, BitVec.or_assoc]

namespace TypeArray

/-- The array with some types written from an index on. -/
def fill : TypeArray → Nat → List VerificationType → TypeArray
  | a, _, [] => a
  | a, i, t :: ts => fill (a.set i (some t)) (i + 1) ts

theorem fill_append (a : TypeArray) (i : Nat) (ts us : List VerificationType) :
    fill a i (ts ++ us) = fill (fill a i ts) (i + ts.length) us := by
  induction ts generalizing a i with
  | nil => rfl
  | cons t ts ih =>
    simp only [cons_append, fill, length_cons]
    rw [ih, Nat.add_right_comm, Nat.add_assoc]

theorem fill_length (a : TypeArray) (i : Nat) (ts : List VerificationType) :
    (fill a i ts).length = a.length := by
  induction ts generalizing a i with
  | nil => rfl
  | cons t ts ih => rw [fill, ih, length_set]

/-- What was written before the index stays, and the new types follow it. -/
theorem prefix_fill (a : TypeArray) (ts us : List VerificationType)
    (hpre : ts.map some <+: a) (hlen : ts.length + us.length ≤ a.length) :
    (ts ++ us).map some <+: fill a ts.length us := by
  induction us generalizing a ts with
  | nil => simpa [fill] using hpre
  | cons u us ih =>
    obtain ⟨rest, rfl⟩ := hpre
    cases rest with
    | nil => simp at hlen
    | cons c rest =>
      have hset : (ts.map some ++ c :: rest).set ts.length (some u) =
          (ts ++ [u]).map some ++ rest := by
        simp
      have hstep := ih (ts.map some ++ c :: rest |>.set ts.length (some u)) (ts ++ [u])
        (hset ▸ prefix_append _ _) (by simp at hlen ⊢; omega)
      simpa [fill] using hstep

variable {a : TypeArray}

theorem read_eq {i : Nat} {t : VerificationType} (h : a[i]? = some (some t)) :
    a.read i = .ok t := by
  unfold read
  rw [if_neg (by omega), Int.toNat_natCast, h]

theorem read_prefix_eq {ts : List VerificationType} {i : Nat} {t : VerificationType}
    (hpre : ts.map some <+: a) (ht : ts[i]? = some t) : a.read i = .ok t := by
  obtain ⟨rest, rfl⟩ := hpre
  have hlt : i < ts.length := (List.getElem?_eq_some_iff.mp ht).1
  apply read_eq
  rw [getElem?_append_left (by simpa using hlt), getElem?_map, ht]
  rfl

theorem write_eq {i : Nat} (t : VerificationType) (h : i < a.length) :
    a.write i t = .ok (a.set i (some t)) := if_pos h

/-- The cells that were written are copied to the front of an array. -/
theorem copy_eq {src : TypeArray} {ts : List VerificationType} (dst : TypeArray) (n : Nat)
    (hpre : ts.map some <+: src) (hn : n ≤ ts.length) (hdst : n ≤ dst.length) :
    copy src dst n = .ok (fill dst 0 (ts.take n)) := by
  induction n with
  | zero => rfl
  | succ n ih =>
    obtain ⟨t, ht⟩ : ∃ t, ts[n]? = some t := ⟨_, getElem?_eq_getElem (by omega)⟩
    have htake : ts.take (n + 1) = ts.take n ++ [t] := by
      rw [take_add_one, ht]
      rfl
    have hlen : (ts.take n).length = n := length_take_of_le (by omega)
    rw [copy, ih (by omega) (by omega), ok_bind, read_prefix_eq hpre ht, ok_bind,
      write_eq t (by rw [fill_length]; omega), htake, fill_append, hlen, Nat.zero_add]
    rfl

end TypeArray

/-! ## Locals -/

/-- The last cell of a value tells whether the value has two. -/
theorem last_cell (hwhole : t.isCategory2Second = false) :
    ∃ u, (cells t)[(cells t).length - 1]? = some u ∧
      (if u.isCategory2Second then 2 else 1) = (cells t).length := by
  by_cases hcat : t.isCategory2
  · refine ⟨t.toCategory2Second, by simp [cells, hcat], ?_⟩
    have hsecond : t.toCategory2Second.isCategory2Second = true := by
      unfold VerificationType.toCategory2Second
      split <;> rfl
    simp [cells, hcat, hsecond]
  · exact ⟨t, by simp [cells, hcat], by simp [cells, hcat, hwhole]⟩

theorem expand_length_eq_zero : (expand ts).length = 0 ↔ ts = [] := by
  cases ts with
  | nil => simp
  | cons t ts =>
    have hpos := cells_length_pos t
    simp only [expand_cons, length_append, reduceCtorEq, iff_false]
    omega

/-- One iteration of the loop drops the last value. -/
theorem chopLoop_succ (locals : TypeArray) (n : Nat) (ts : List VerificationType)
    (t : VerificationType) (hpre : (expand (ts ++ [t])).map some <+: locals)
    (hwhole : t.isCategory2Second = false) :
    chopLoop locals (n + 1) ((expand (ts ++ [t])).length - 1 : Int) =
      if ts = [] ∧ 0 < n then .ok (-1) else chopLoop locals n ((expand ts).length - 1 : Int) := by
  obtain ⟨u, hlast, hsize⟩ := last_cell hwhole
  have hlen : (expand (ts ++ [t])).length = (expand ts).length + (cells t).length := by simp
  have hpos := cells_length_pos t
  have hindex : ((expand (ts ++ [t])).length - 1 : Int) =
      (((expand ts).length + ((cells t).length - 1) : Nat) : Int) := by omega
  have hread : locals.read ((expand (ts ++ [t])).length - 1 : Int) = .ok u := by
    rw [hindex]
    apply read_prefix_eq hpre
    rw [expand_append, getElem?_append_right (by omega), Nat.add_sub_cancel_left]
    simpa using hlast
  have hnext : (if u.isCategory2Second then ((expand (ts ++ [t])).length - 1 : Int) - 2
      else ((expand (ts ++ [t])).length - 1 : Int) - 1) = (expand ts).length - 1 := by
    split at hsize <;> rename_i hu <;> simp only [hu] <;> simp <;> omega
  have hneg : ((expand ts).length - 1 : Int) < 0 ↔ ts = [] := by
    rw [← expand_length_eq_zero ts]
    omega
  rw [chopLoop, hread, ok_bind, hnext]
  simp only [hneg]
  rfl

theorem chop_eq {locals : TypeArray} (k : Nat) (ts : List VerificationType) (hne : ts ≠ [])
    (hpre : (expand ts).map some <+: locals) (hwhole : ∀ t ∈ ts, t.isCategory2Second = false) :
    chop locals (expand ts).length (k + 1) =
      .ok (if k + 1 ≤ ts.length then ((expand (ts.take (ts.length - (k + 1)))).length : Int)
        else -1) := by
  unfold chop
  induction k generalizing ts with
  | zero =>
    obtain ⟨ts, t, rfl⟩ := (eq_nil_or_concat' ts).resolve_left hne
    rw [chopLoop_succ locals 0 ts t hpre (hwhole t (by simp))]
    simp [chopLoop]
  | succ k ih =>
    obtain ⟨ts, t, rfl⟩ := (eq_nil_or_concat' ts).resolve_left hne
    rw [chopLoop_succ locals (k + 1) ts t hpre (hwhole t (by simp))]
    by_cases hts : ts = []
    · subst hts
      simp
    have hshort : (expand ts).map some <+: locals := by
      rw [expand_append, map_append] at hpre
      exact (prefix_append _ _).trans hpre
    rw [if_neg (fun h => hts h.1), ih ts hts hshort fun u hu => hwhole u (by simp [hu])]
    have hlen : (ts ++ [t]).length - (k + 1 + 1) = ts.length - (k + 1) := by simp
    have htake : (ts ++ [t]).take (ts.length - (k + 1)) = ts.take (ts.length - (k + 1)) :=
      take_append_of_le_length (by omega)
    rw [hlen, htake]
    simp

/-- With no locals the first access is in front of the array. -/
theorem chop_zero (locals : TypeArray) (k : Nat) :
    chop locals 0 (k + 1) = .error (.outOfBounds (-1)) := rfl

theorem flagsOfLocals_eq {locals : TypeArray} {ts : List VerificationType} (n i : Nat)
    (hpre : ts.map some <+: locals) (hn : i + n = ts.length) :
    flagsOfLocals locals n i = .ok (addFlags 0 (ts.drop i)) := by
  induction n generalizing i with
  | zero =>
    rw [drop_eq_nil_of_le (by omega)]
    rfl
  | succ n ih =>
    have hlt : i < ts.length := by omega
    rw [flagsOfLocals, read_prefix_eq hpre (getElem?_eq_getElem hlt), ok_bind,
      ih (i + 1) (by omega), drop_eq_getElem_cons hlt, addFlags_cons]
    by_cases ht : ts[i] = .uninitializedThis
    · simp [VerificationType.isUninitializedThis, ht, addFlags]
    · simp [VerificationType.isUninitializedThis, ht, addFlags, Ne.symm ht]

/-- The array of a frame that keeps some cells of the frame before it. -/
def keptLocals (preFrame : StackMapFrame) (first : Bool) (kept : List VerificationType) :
    TypeArray :=
  if first then TypeArray.fill (TypeArray.alloc kept.length) 0 kept else preFrame.locals

variable {m : MethodContext}

theorem keepLocals_eq {preFrame : StackMapFrame} {d : FrameDesc} (first : Bool)
    {kept : List VerificationType} (hpre : preFrame.Represents m d)
    (hkept : kept <+: expand d.locals) :
    keepLocals preFrame first kept.length = .ok (keptLocals preFrame first kept) := by
  cases first with
  | false => rfl
  | true =>
    have hle := hkept.length_le
    have hmin : min preFrame.localsSize kept.length = kept.length := by
      rw [hpre.localsSize]
      omega
    have hcopy := copy_eq (alloc kept.length) kept.length hpre.locals hle
      (by simp [alloc])
    rw [← prefix_iff_eq_take.mp hkept] at hcopy
    simp [keepLocals, keptLocals, hmin, hcopy]

theorem prefix_keptLocals {preFrame : StackMapFrame} {d : FrameDesc}
    (first : Bool) {kept : List VerificationType} (hpre : preFrame.Represents m d)
    (hkept : kept <+: expand d.locals) : kept.map some <+: keptLocals preFrame first kept := by
  cases first with
  | false => exact (hkept.map some).trans hpre.locals
  | true =>
    have hfill := prefix_fill (alloc kept.length) [] kept (by simp)
      (by simp [alloc])
    simpa [keptLocals] using hfill

/-! ## Types -/

theorem append_bigEndian (x : JChar) : (x.extractLsb' 8 8 ++ x.extractLsb' 0 8 : JChar) = x := by
  ext i hi
  simp only [BitVec.getElem_append, BitVec.getElem_extractLsb']
  split
  · simp [hi]
  next h => simp [show 8 + (i - 8) = i by omega, hi]

theorem bigEndian_append (h l : UChar) : bigEndian (h ++ l) = [h, l] := by
  have hhigh : (h ++ l : JChar).extractLsb' 8 8 = h := by
    ext i hi
    simp only [BitVec.getElem_extractLsb', BitVec.getLsbD_append]
    rw [if_neg (by omega), Nat.add_sub_cancel_left, BitVec.getLsbD_eq_getElem hi]
  have hlow : (h ++ l : JChar).extractLsb' 0 8 = l := by
    ext i hi
    simp only [BitVec.getElem_extractLsb', BitVec.getLsbD_append, Nat.zero_add]
    rw [if_pos hi, BitVec.getLsbD_eq_getElem hi]
  rw [bigEndian, hhigh, hlow]

variable {b : List UChar}

theorem bigEndian_append_inj {x y : JChar} {c : List UChar} :
    bigEndian x ++ b = bigEndian y ++ c ↔ x = y ∧ b = c := by
  constructor
  · intro h
    simp only [bigEndian, cons_append, nil_append, cons.injEq] at h
    refine ⟨?_, h.2.2⟩
    rw [← append_bigEndian x, ← append_bigEndian y, h.1, h.2.1]
  · rintro ⟨rfl, rfl⟩
    rfl

theorem decodes_getU2 : Decodes getU2 fun b x => b = bigEndian x := by
  intro s
  rcases s with ⟨rest, errors⟩
  constructor
  · cases rest with
    | nil => exact ⟨0, _, rfl, fun h => by simp at h⟩
    | cons h rest =>
      cases rest with
      | nil => exact ⟨0, _, rfl, fun h => by simp at h⟩
      | cons l rest =>
        exact ⟨h ++ l, _, rfl, fun hclean => ⟨hclean, [h, l], rfl, (bigEndian_append h l).symm⟩⟩
  · rintro b x r hs rfl
    cases hs
    exact congrArg (fun y => Except.ok (y, _)) (append_bigEndian x)

namespace VerificationTypeInfo

variable (m : MethodContext) {i : VerificationTypeInfo}

/-- Only the tag means the receiver: no instruction is at its number. -/
theorem type_eq_uninitializedThis :
    i.type m = some .uninitializedThis ↔ i = .uninitializedThis := by
  cases i with
  | uninitialized offset =>
    simp only [type, reduceCtorEq, iff_false]
    split
    next hmark =>
      rintro ⟨⟩
      have hlen := m.codeLength_le
      have hnone : m.codeData[VerificationType.bciForThis.toNat]? = none :=
        getElem?_eq_none (by simpa [VerificationType.bciForThis] using hlen)
      simp [MethodContext.markAt, hnone] at hmark
    · nofun
  | object index => simp [type]
  | _ => simp [type]

/-- No item is a second half or a query. -/
theorem type_plain {t : VerificationType} (h : i.type m = some t) :
    t.isCategory2Second = false ∧ t.isCheck = false := by
  cases i with
  | uninitialized offset =>
    simp only [type] at h
    split at h
    · cases h; exact ⟨rfl, rfl⟩
    · cases h
  | object index =>
    obtain ⟨name, _, rfl⟩ := Option.map_eq_some_iff.mp h
    exact ⟨rfl, rfl⟩
  | _ => cases h; exact ⟨rfl, rfl⟩

/-- The items below `ITEM_UninitializedThis` have no operand. -/
theorem type_of_small_tag (h : i.tag.toNat < 6) :
    i.operand = [] ∧ i.type m = some (fromTag i.tag) := by
  cases i with
  | uninitializedThis | object | uninitialized => exact absurd h (by simp [tag])
  | _ => exact ⟨rfl, rfl⟩

theorem exists_small_tag {t : UChar} (h : t.toNat < 6) : ∃ i : VerificationTypeInfo, i.tag = t := by
  obtain ⟨n, hn, rfl⟩ : ∃ n < 6, t = BitVec.ofNat 8 n := ⟨t.toNat, h, by simp⟩
  interval_cases n
  exacts [⟨.top, rfl⟩, ⟨.integer, rfl⟩, ⟨.float, rfl⟩, ⟨.double, rfl⟩, ⟨.long, rfl⟩, ⟨.null, rfl⟩]

theorem types_cons (i : VerificationTypeInfo) (is : List VerificationTypeInfo)
    (ts : List VerificationType) : types m (i :: is) = some ts ↔
      ∃ t us, i.type m = some t ∧ types m is = some us ∧ ts = t :: us := by
  simp only [types, mapM_cons, Option.bind_eq_bind, Option.bind_eq_some_iff]
  constructor
  · rintro ⟨t, ht, us, hus, h⟩
    cases h
    exact ⟨t, us, ht, hus, rfl⟩
  · rintro ⟨t, us, ht, hus, rfl⟩
    exact ⟨t, ht, us, hus, rfl⟩

theorem types_length {is : List VerificationTypeInfo} {ts : List VerificationType}
    (h : types m is = some ts) : ts.length = is.length := by
  induction is generalizing ts with
  | nil => cases h; rfl
  | cons i is ih =>
    obtain ⟨t, us, _, hus, rfl⟩ := (types_cons m i is ts).mp h
    rw [length_cons, length_cons, ih hus]

/-- What holds of the type of each item holds of the types of a list. -/
theorem forall_types {P : VerificationType → Prop} (hP : ∀ {i : VerificationTypeInfo} {t}, i.type m = some t → P t)
    {is : List VerificationTypeInfo} {ts : List VerificationType} (h : types m is = some ts) : ∀ t ∈ ts, P t := by
  induction is generalizing ts with
  | nil => cases h; simp
  | cons i is ih =>
    obtain ⟨t, us, ht, hus, rfl⟩ := (types_cons m i is ts).mp h
    exact forall_mem_cons.mpr ⟨hP ht, ih hus⟩

end VerificationTypeInfo

/-- A type and flags that an item gives. -/
def ParsesType (m : MethodContext) (flags : UChar) (b : List UChar)
    (result : VerificationType × UChar) : Prop :=
  ∃ i : VerificationTypeInfo, b = i.encode ∧ i.type m = some result.1 ∧
    result.2 = addFlags flags [result.1]

variable {flags : UChar}

theorem addFlags_other (h : t ≠ .uninitializedThis) : addFlags flags [t] = flags := by
  simp [addFlags, Ne.symm h]

/-- The branch of an operand that may be bad. -/
theorem decodes_operand {tag : UChar} {item : JChar → VerificationTypeInfo} (e : StackMapError)
    {k : JChar → ReadM (VerificationType × UChar)}
    (hitem : ∀ x, (item x).tag = tag ∧ (item x).operand = bigEndian x)
    (honly : ∀ i : VerificationTypeInfo, i.tag = tag → ∃ x, i = item x)
    (hsome : ∀ x t, (item x).type m = some t → k x = pure (t, flags) ∧ t ≠ .uninitializedThis)
    (hnone : ∀ x, (item x).type m = none → k x = report e >>= fun _ => pure (.bogus, flags)) :
    Decodes (getU2 >>= k) fun b c => ParsesType m flags (tag :: b) c := by
  have hk : ∀ x, Decodes (k x) fun b c =>
      b = [] ∧ (item x).type m = some c.1 ∧ c.2 = flags := by
    intro x
    cases htype : (item x).type m with
    | none =>
      rw [hnone x htype]
      exact (decodes_report_pure e _).congr fun b c => by simp
    | some t =>
      rw [(hsome x t htype).1]
      refine (decodes_pure _).congr fun b c => ?_
      rcases c with ⟨u, f⟩
      simp [eq_comm]
  refine (decodes_getU2.bind hk).congr fun b c => ⟨?_, ?_⟩
  · rintro ⟨b₁, b₂, x, rfl, rfl, rfl, htype, hflags⟩
    refine ⟨item x, ?_, htype, ?_⟩
    · rw [encode, (hitem x).1, (hitem x).2, append_nil]
    · rw [hflags, addFlags_other (hsome x c.1 htype).2]
  · rintro ⟨i, hb, htype, hflags⟩
    rw [encode, cons.injEq] at hb
    obtain ⟨x, rfl⟩ := honly i hb.1.symm
    refine ⟨b, [], x, (append_nil b).symm, hb.2.trans (hitem x).2, rfl, htype, ?_⟩
    rw [hflags, addFlags_other (hsome x c.1 htype).2]

theorem fromTag_ne_uninitializedThis (tag : UChar) : fromTag tag ≠ .uninitializedThis := by
  unfold fromTag
  split <;> nofun

theorem parsesType_cons {tag : UChar} {c : VerificationType × UChar} :
    ParsesType m flags (tag :: b) c ↔ ∃ i : VerificationTypeInfo, i.tag = tag ∧ b = i.operand ∧
      i.type m = some c.1 ∧ c.2 = addFlags flags [c.1] := by
  simp [ParsesType, encode, cons.injEq, and_assoc, eq_comm]

theorem decodes_parseVerificationType (m : MethodContext) (flags : UChar) :
    Decodes (parseVerificationType m flags) (ParsesType m flags) := by
  refine Decodes.token_bind (fun c h => ?_) fun tag => ?_
  · obtain ⟨i, hnil, _⟩ := h
    cases hnil
  split
  next hsmall =>
    refine (decodes_pure _).congr fun b c => ?_
    rw [parsesType_cons]
    constructor
    · rintro ⟨rfl, rfl⟩
      obtain ⟨i, rfl⟩ := exists_small_tag hsmall
      obtain ⟨hoperand, htype⟩ := type_of_small_tag m hsmall
      exact ⟨i, rfl, hoperand.symm, htype, (addFlags_other (fromTag_ne_uninitializedThis _)).symm⟩
    · rintro ⟨i, rfl, rfl, htype, hflags⟩
      obtain ⟨hoperand, htype'⟩ := type_of_small_tag m hsmall
      rw [htype', Option.some.injEq] at htype
      rw [← htype, addFlags_other (fromTag_ne_uninitializedThis _)] at hflags
      exact ⟨hoperand, Prod.ext htype.symm hflags⟩
  next hsmall =>
  split
  next hobject =>
    obtain rfl : tag = 7 := BitVec.eq_of_toNat_eq hobject
    refine @decodes_operand m flags 7 .object .badClassIndex _ (fun x => ⟨rfl, rfl⟩) ?_ ?_ ?_
    · intro i hi
      cases i with
      | object x => exact ⟨x, rfl⟩
      | _ => exact absurd hi (by simp [tag])
    · intro x t ht
      obtain ⟨name, hname, rfl⟩ := Option.map_eq_some_iff.mp ht
      exact ⟨by simp [hname], nofun⟩
    · intro x hx
      simp [Option.map_eq_none_iff.mp hx]
  next hobject =>
  split
  next hthis =>
    obtain rfl : tag = 6 := BitVec.eq_of_toNat_eq hthis
    refine (decodes_pure _).congr fun b c => ?_
    rw [parsesType_cons]
    constructor
    · rintro ⟨rfl, rfl⟩
      exact ⟨.uninitializedThis, rfl, rfl, rfl, by simp [addFlags]⟩
    rintro ⟨i, htag, rfl, htype, hflags⟩
    cases i with
    | uninitializedThis =>
      have hfst : c.1 = .uninitializedThis := (Option.some.inj htype).symm
      refine ⟨rfl, Prod.ext hfst ?_⟩
      rw [hflags, hfst]
      simp [addFlags]
    | _ => exact absurd htag (by simp [tag])
  next hthis =>
  split
  next huninit =>
    obtain rfl : tag = 8 := BitVec.eq_of_toNat_eq huninit
    refine @decodes_operand m flags 8 .uninitialized .badUninitializedOffset _
      (fun x => ⟨rfl, rfl⟩) ?_ ?_ ?_
    · intro i hi
      cases i with
      | uninitialized x => exact ⟨x, rfl⟩
      | _ => exact absurd hi (by simp [tag])
    · intro x t ht
      have hne : t ≠ .uninitializedThis := by
        rintro rfl
        exact absurd ((type_eq_uninitializedThis m).mp ht) nofun
      simp only [type] at ht
      split at ht
      next hmark =>
        cases ht
        exact ⟨if_pos hmark, hne⟩
      · cases ht
    · intro x hx
      simp only [type] at hx
      split at hx
      · cases hx
      next hmark => exact if_neg hmark
  next huninit =>
    refine (decodes_report_pure _ _).congr fun b c => ?_
    rw [parsesType_cons]
    refine ⟨False.elim, ?_⟩
    rintro ⟨i, rfl, -⟩
    cases i <;> simp [tag] at *

/-- What the loop over `n` items leaves in an array from an index on. -/
def ParsesTypes (m : MethodContext) (n : Nat) (a : TypeArray) (size : Nat) (flags : UChar)
    (b : List UChar) (result : TypeArray × Nat × UChar) : Prop :=
  ∃ items types, items.length = n ∧ b = VerificationTypeInfo.encodeAll items ∧
    VerificationTypeInfo.types m items = some types ∧
    result = (a.fill size (expand types), size + (expand types).length, addFlags flags types)

theorem parsesTypes_succ {n : Nat} {a : TypeArray} {size : Nat} {result : TypeArray × Nat × UChar} :
    ParsesTypes m (n + 1) a size flags b result ↔
      ∃ b₁ b₂, ∃ c : VerificationType × UChar, b = b₁ ++ b₂ ∧ ParsesType m flags b₁ c ∧
        ParsesTypes m n (a.fill size (cells c.1)) (size + (cells c.1).length) c.2 b₂ result := by
  constructor
  · rintro ⟨items, types, hn, rfl, htypes, rfl⟩
    cases items with
    | nil => cases hn
    | cons i items =>
      obtain ⟨t, us, ht, hus, rfl⟩ := (types_cons m i items types).mp htypes
      refine ⟨i.encode, encodeAll items, (t, addFlags flags [t]), rfl,
        ⟨i, rfl, ht, rfl⟩, items, us, Nat.succ.inj hn, rfl, hus, ?_⟩
      simp only [expand_cons, fill_append, length_append, Nat.add_assoc, Prod.mk.injEq, true_and]
      rw [addFlags_cons]
  · rintro ⟨b₁, b₂, ⟨t, f⟩, rfl, ⟨i, rfl, ht, hf⟩, items, us, hn, rfl, hus, rfl⟩
    dsimp only at hf
    subst hf
    refine ⟨i :: items, t :: us, by rw [length_cons, hn], rfl,
      (types_cons m i items _).mpr ⟨t, us, ht, hus, rfl⟩, ?_⟩
    simp only [expand_cons, fill_append, length_append, Nat.add_assoc]
    rw [addFlags_cons flags t us]

@[simp]
theorem lift_ok {α : Type} (a : α) :
    (liftM (Except.ok a : Except Fault α) : ReadM α) = pure a := rfl

theorem decodes_parseTypes (m : MethodContext) (n : Nat) (a : TypeArray) (size : Nat)
    (flags : UChar) (hlen : size + 2 * n ≤ a.length) :
    Decodes (parseTypes m n a size flags) (ParsesTypes m n a size flags) := by
  induction n generalizing a size flags with
  | zero =>
    refine (decodes_pure _).congr fun b c => ⟨?_, ?_⟩
    · rintro ⟨rfl, rfl⟩
      exact ⟨[], [], rfl, rfl, rfl, by simp [fill, addFlags]⟩
    rintro ⟨items, types, hn, rfl, htypes, rfl⟩
    rw [length_eq_zero_iff] at hn
    subst hn
    cases htypes
    exact ⟨rfl, by simp [fill, addFlags]⟩
  | succ n ih =>
    refine ((decodes_parseVerificationType m flags).bind fun c => ?_).congr
      fun b result => parsesTypes_succ.symm
    rcases c with ⟨t, f⟩
    have hwrite : a.write size t = .ok (a.set size (some t)) := write_eq t (by omega)
    by_cases hcat : t.isCategory2
    · have hsecond : write (a.set size (some t)) (size + 1) t.toCategory2Second =
          .ok (a.fill size (cells t)) := by
        rw [write_eq _ (by rw [length_set]; omega)]
        simp [cells, hcat, fill]
      have hcells : (cells t).length = 2 := by simp [cells, hcat]
      simp only [hwrite, lift_ok, if_pos hcat, pure_bind, hsecond, hcells]
      exact ih _ _ _ (by rw [fill_length]; omega)
    · have hfill : a.set size (some t) = a.fill size (cells t) := by
        simp [cells, hcat, fill]
      have hcells : (cells t).length = 1 := by simp [cells, hcat]
      simp only [hwrite, lift_ok, pure_bind, if_neg hcat, hfill, hcells]
      exact ih _ _ _ (by rw [fill_length]; omega)

end Hotspot.StackMap
