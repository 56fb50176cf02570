-- SUMMARY: The scalar part of the type lattice: meet, dual, and what the dispatch misses.
import Hotspot.Base.JavaTypes

/-!
# Types of the optimizing compiler

The lattice the compiler assigns types from, without the oop types: the two ends,
integer ranges, float and double constants, and the pointers that are not oops.
Each class of types implements its half of `xmeet` and hands the other half to its
peer. A result of `none` is the `typerr` branch, which is `ShouldNotReachHere`.

Types are hash-consed, so equality of pointers to them is equality of types.
-/

namespace Hotspot.Opto

/-! ## Integer ranges -/

/-- The widen bits count how often a range has been widened. -/
abbrev Widen := Fin 4

def WidenMin : Widen := 0

def WidenMax : Widen := 3

def Widen.next (widen : Widen) : Widen := widen + 1

def min2 {w : Nat} (a b : BitVec w) : BitVec w := if a.slt b then a else b

def max2 {w : Nat} (a b : BitVec w) : BitVec w := if b.slt a then a else b

variable {w : Nat}

@[simp]
theorem toInt_min2 (a b : BitVec w) : (min2 a b).toInt = min a.toInt b.toInt := by
  unfold min2
  rw [BitVec.slt_eq_decide]
  split
  next h =>
    rw [decide_eq_true_eq] at h
    omega
  next h =>
    rw [decide_eq_true_eq] at h
    omega

@[simp]
theorem toInt_max2 (a b : BitVec w) : (max2 a b).toInt = max a.toInt b.toInt := by
  unfold max2
  rw [BitVec.slt_eq_decide]
  split
  next h =>
    rw [decide_eq_true_eq] at h
    omega
  next h =>
    rw [decide_eq_true_eq] at h
    omega

theorem min2_comm (a b : BitVec w) : min2 a b = min2 b a := by
  apply BitVec.eq_of_toInt_eq
  rw [toInt_min2, toInt_min2, min_comm]

theorem max2_comm (a b : BitVec w) : max2 a b = max2 b a := by
  apply BitVec.eq_of_toInt_eq
  rw [toInt_max2, toInt_max2, max_comm]

/-- `TypeInt` and `TypeLong`: a range of signed integers. The dual of a range has
its ends swapped, so `lo` may lie above `hi`. -/
@[ext]
structure IntegerType (w : Nat) where
  lo : BitVec w
  hi : BitVec w
  widen : Widen
  deriving DecidableEq, Repr

abbrev TypeInt := IntegerType 32

abbrev TypeLong := IntegerType 64

namespace IntegerType

variable {w : Nat}

/-- Expand the covered set, without the normalisation `make` does. -/
def meet (r0 r1 : IntegerType w) : IntegerType w where
  lo := min2 r0.lo r1.lo
  hi := max2 r0.hi r1.hi
  widen := max r0.widen r1.widen

/-- Reverse `hi` and `lo`; flip `widen`. -/
def xdual (r : IntegerType w) : IntegerType w where
  lo := r.hi
  hi := r.lo
  widen := WidenMax - r.widen

theorem meet_comm (r0 r1 : IntegerType w) : r0.meet r1 = r1.meet r0 := by
  unfold meet
  rw [min2_comm, max2_comm, max_comm]

end IntegerType

open IntegerType

/-! ## Pointer states and offsets -/

inductive PTR where
  | topPTR
  | anyNull
  | constant
  | null
  | notNull
  | botPTR
  deriving DecidableEq, Repr

namespace PTR

/-- The table `ptr_meet`: a row is what a state does to the others. -/
def meet : PTR → PTR → PTR
  | topPTR => fun q => q
  | anyNull => fun
    | topPTR => anyNull | anyNull => anyNull | constant => constant
    | null => botPTR | notNull => notNull | botPTR => botPTR
  | constant => fun
    | topPTR => constant | anyNull => constant | constant => constant
    | null => botPTR | notNull => notNull | botPTR => botPTR
  | null => fun
    | topPTR => null | anyNull => botPTR | constant => botPTR
    | null => null | notNull => botPTR | botPTR => botPTR
  | notNull => fun
    | topPTR => notNull | anyNull => notNull | constant => notNull
    | null => botPTR | notNull => notNull | botPTR => botPTR
  | botPTR => fun _ => botPTR

/-- The table `ptr_dual`. -/
def dual : PTR → PTR
  | topPTR => botPTR
  | anyNull => notNull
  | constant => constant
  | null => null
  | notNull => anyNull
  | botPTR => topPTR

theorem meet_comm (p q : PTR) : p.meet q = q.meet p := by
  cases p <;> cases q <;> rfl

theorem meet_self (p : PTR) : p.meet p = p := by
  cases p <;> rfl

@[simp]
theorem dual_dual (p : PTR) : p.dual.dual = p := by
  cases p <;> rfl

/-- The table is symmetric under the dual: a join of duals is above both. -/
theorem dual_meet_dual (p q : PTR) : (p.meet q).dual.meet p.dual = p.dual := by
  cases p <;> cases q <;> rfl

theorem dual_ne_null {p : PTR} (h : p ≠ null) : p.dual ≠ null := by
  cases p <;> simp_all [dual]

theorem dual_eq_constant (p : PTR) : p.dual = constant ↔ p = constant := by
  cases p <;> simp [dual]

end PTR

/-- An offset that is still undefined. -/
def OffsetTop : JInt := BitVec.ofInt 32 (-2000000000)

/-- Any possible offset. -/
def OffsetBot : JInt := BitVec.ofInt 32 (-2000000001)

def meetOffset (o offset : JInt) : JInt :=
  if o = OffsetTop then offset
  else if offset = OffsetTop then o
  else if o ≠ offset then OffsetBot
  else o

def dualOffset (o : JInt) : JInt :=
  if o = OffsetTop then OffsetBot
  else if o = OffsetBot then OffsetTop
  else o

theorem OffsetBot_ne_OffsetTop : OffsetBot ≠ OffsetTop := by decide

theorem meetOffset_comm (o p : JInt) : meetOffset o p = meetOffset p o := by
  unfold meetOffset
  split_ifs <;> simp_all

theorem meetOffset_self (o : JInt) : meetOffset o o = o := by
  simp [meetOffset]

@[simp]
theorem dualOffset_dualOffset (o : JInt) : dualOffset (dualOffset o) = o := by
  have := OffsetBot_ne_OffsetTop
  unfold dualOffset
  split_ifs <;> simp_all

theorem dualOffset_meetOffset (o p : JInt) :
    meetOffset (dualOffset (meetOffset o p)) (dualOffset o) = dualOffset o := by
  have hne := OffsetBot_ne_OffsetTop
  have hbot : ∀ q, meetOffset q OffsetBot = OffsetBot := by
    intro q
    unfold meetOffset
    split_ifs <;> simp_all
  have hcases : o = OffsetTop ∨ meetOffset o p = o ∨ meetOffset o p = OffsetBot := by
    unfold meetOffset
    split_ifs <;> simp_all
  rcases hcases with rfl | hleft | hdrop
  · exact hbot _
  · rw [hleft, meetOffset_self]
  · rw [hdrop]
    rfl

/-! ## Types -/

/-- An `AnyPtr`: a pointer state and an offset. -/
structure TypePtr where
  ptr : PTR
  offset : JInt
  deriving DecidableEq, Repr

/-- A `RawPtr`. Null is left to `TypePtr`, and exactly a constant has an address. -/
structure TypeRawPtr where
  ptr : PTR
  bits : BitVec 64
  ptr_ne_null : ptr ≠ .null
  constant_iff : ptr = .constant ↔ bits ≠ 0
  deriving DecidableEq, Repr

inductive Ty where
  | top
  | bottom
  | int (r : TypeInt)
  | long (r : TypeLong)
  | floatTop
  | floatCon (bits : BitVec 32)
  | floatBot
  | doubleTop
  | doubleCon (bits : BitVec 64)
  | doubleBot
  | anyPtr (p : TypePtr)
  | rawPtr (p : TypeRawPtr)
  deriving DecidableEq, Repr

namespace TypeRawPtr

/-- `make(ptr)`, which asserts that the state is neither `Constant` nor `Null`. -/
def make (ptr : PTR) : Option TypeRawPtr :=
  if h : ptr ≠ .constant ∧ ptr ≠ .null then
    some ⟨ptr, 0, h.2, by simp [h.1]⟩
  else none

def top : TypeRawPtr := ⟨.topPTR, 0, by simp, by simp⟩

def anyNull : TypeRawPtr := ⟨.anyNull, 0, by simp, by simp⟩

def notNull : TypeRawPtr := ⟨.notNull, 0, by simp, by simp⟩

def bottom : TypeRawPtr := ⟨.botPTR, 0, by simp, by simp⟩

def con (bits : BitVec 64) (h : bits ≠ 0) : TypeRawPtr := ⟨.constant, bits, by simp, by simpa using h⟩

/-- A raw pointer is one of four states or the constant of a nonzero address. -/
theorem eq_state_or_con (p : TypeRawPtr) :
    p = top ∨ p = anyNull ∨ p = notNull ∨ p = bottom ∨ ∃ bits h, p = con bits h := by
  obtain ⟨ptr, bits, hnull, hcon⟩ := p
  by_cases hbits : bits = 0
  · subst hbits
    cases ptr with
    | topPTR => exact .inl rfl
    | anyNull => exact .inr (.inl rfl)
    | constant => exact absurd rfl (hcon.mp rfl)
    | null => exact absurd rfl hnull
    | notNull => exact .inr (.inr (.inl rfl))
    | botPTR => exact .inr (.inr (.inr (.inl rfl)))
  · obtain rfl := hcon.mpr hbits
    exact .inr (.inr (.inr (.inr ⟨bits, hbits, rfl⟩)))

def xdual (p : TypeRawPtr) : TypeRawPtr where
  ptr := p.ptr.dual
  bits := p.bits
  ptr_ne_null := PTR.dual_ne_null p.ptr_ne_null
  constant_iff := by rw [PTR.dual_eq_constant, p.constant_iff]

end TypeRawPtr

def TypePtr.xdual (p : TypePtr) : TypePtr := ⟨p.ptr.dual, dualOffset p.offset⟩

/-! ## Meet, class by class -/

def TypeInt.xmeet (this : TypeInt) (t : Ty) : Option Ty :=
  if .int this = t then some (.int this)
  else match t with
    | .anyPtr _ | .rawPtr _ | .long _ | .floatTop | .floatCon _ | .floatBot
    | .doubleTop | .doubleCon _ | .doubleBot | .bottom => some .bottom
    | .top => some (.int this)
    | .int r => some (.int (this.meet r))

def TypeLong.xmeet (this : TypeLong) (t : Ty) : Option Ty :=
  if .long this = t then some (.long this)
  else match t with
    | .anyPtr _ | .rawPtr _ | .int _ | .floatTop | .floatCon _ | .floatBot
    | .doubleTop | .doubleCon _ | .doubleBot | .bottom => some .bottom
    | .top => some (.long this)
    | .long r => some (.long (this.meet r))

/-- `TypeF::xmeet`, for the constant of these bits. -/
def TypeF.xmeet (this : BitVec 32) (t : Ty) : Option Ty :=
  if .floatCon this = t then some (.floatCon this)
  else match t with
    | .anyPtr _ | .rawPtr _ | .int _ | .long _
    | .doubleTop | .doubleCon _ | .doubleBot | .bottom => some .bottom
    | .floatBot => some t
    | .floatCon f => if this ≠ f then some .floatBot else some (.floatCon this)
    | .top | .floatTop => some (.floatCon this)

/-- `TypeD::xmeet`, for the constant of these bits. -/
def TypeD.xmeet (this : BitVec 64) (t : Ty) : Option Ty :=
  if .doubleCon this = t then some (.doubleCon this)
  else match t with
    | .anyPtr _ | .rawPtr _ | .int _ | .long _
    | .floatTop | .floatCon _ | .floatBot | .bottom => some .bottom
    | .doubleBot => some t
    | .doubleCon d => if this ≠ d then some .doubleBot else some (.doubleCon this)
    | .top | .doubleTop => some (.doubleCon this)

/-- A raw pointer against an `AnyPtr`. -/
def TypeRawPtr.xmeetAnyPtr (this : TypeRawPtr) (tp : TypePtr) : Option Ty :=
  match tp.ptr with
  | .topPTR => some (.rawPtr this)
  | .botPTR => some (.anyPtr tp)
  | .null => if this.ptr = .topPTR then some (.anyPtr tp) else some (.rawPtr TypeRawPtr.bottom)
  | .notNull => some (.anyPtr ⟨this.ptr.meet .notNull, meetOffset tp.offset 0#32⟩)
  | .anyNull =>
    if this.ptr = .constant then some (.rawPtr this)
    else (TypeRawPtr.make (this.ptr.meet .anyNull)).map .rawPtr
  | .constant => none

/-- A raw pointer against another one: unequal constants fall down in the lattice. -/
def TypeRawPtr.xmeetRawPtr (this t : TypeRawPtr) : Option Ty :=
  let ptr := this.ptr.meet t.ptr
  if ptr = .constant then
    if t.ptr = .constant ∧ this.ptr ≠ .constant then some (.rawPtr t)
    else if this.ptr = .constant ∧ t.ptr ≠ .constant then some (.rawPtr this)
    else (TypeRawPtr.make .notNull).map .rawPtr
  else (TypeRawPtr.make ptr).map .rawPtr

def TypeRawPtr.xmeet (this : TypeRawPtr) (t : Ty) : Option Ty :=
  if .rawPtr this = t then some (.rawPtr this)
  else match t with
    | .bottom => some t
    | .top => some (.rawPtr this)
    | .anyPtr tp => this.xmeetAnyPtr tp
    | .rawPtr t => this.xmeetRawPtr t
    | _ => none

def TypePtr.xmeet (this : TypePtr) (t : Ty) : Option Ty :=
  if .anyPtr this = t then some (.anyPtr this)
  else match t with
    | .int _ | .long _ | .floatTop | .floatCon _ | .floatBot
    | .doubleTop | .doubleCon _ | .doubleBot | .bottom => some .bottom
    | .top => some (.anyPtr this)
    | .anyPtr tp => some (.anyPtr ⟨this.ptr.meet tp.ptr, meetOffset this.offset tp.offset⟩)
    | .rawPtr t => t.xmeet (.anyPtr this)

namespace Ty

/-- `Type::xmeet`, for the types that have no class of their own. -/
def xmeetBase (this t : Ty) : Option Ty :=
  if this = t then some this
  else if this = .top then some t
  else if this = .bottom then some .bottom
  else match t with
    | .floatCon f => TypeF.xmeet f this
    | .doubleCon d => TypeD.xmeet d this
    | .int r => TypeInt.xmeet r this
    | .long r => TypeLong.xmeet r this
    | .bottom => some t
    -- a `FloatTop` that meets something else falls through to the `FloatBot` label
    | .floatTop | .floatBot =>
      if t = .floatTop ∧ this = .floatTop then some this
      else if this = .floatBot ∨ this = .floatTop then some .floatBot
      else if this = .doubleTop ∨ this = .doubleBot then some .bottom
      else none
    | .doubleTop | .doubleBot =>
      if t = .doubleTop ∧ this = .doubleTop then some this
      else if this = .doubleBot ∨ this = .doubleTop then some .doubleBot
      else if this = .floatTop ∨ this = .floatBot then some .bottom
      else none
    | .top => some this
    | _ => none

/-- The virtual call `this->xmeet(t)`. -/
def xmeet (this t : Ty) : Option Ty :=
  match this with
  | .int r => TypeInt.xmeet r t
  | .long r => TypeLong.xmeet r t
  | .floatCon f => TypeF.xmeet f t
  | .doubleCon d => TypeD.xmeet d t
  | .anyPtr p => p.xmeet t
  | .rawPtr p => p.xmeet t
  | .top | .bottom | .floatTop | .floatBot | .doubleTop | .doubleBot => xmeetBase this t

/-- The virtual call `this->xdual()`. -/
def dual : Ty → Ty
  | .top => .bottom
  | .bottom => .top
  | .int r => .int r.xdual
  | .long r => .long r.xdual
  | .floatTop => .floatBot
  | .floatCon f => .floatCon f
  | .floatBot => .floatTop
  | .doubleTop => .doubleBot
  | .doubleCon d => .doubleCon d
  | .doubleBot => .doubleTop
  | .anyPtr p => .anyPtr p.xdual
  | .rawPtr p => .rawPtr p.xdual

end Ty

open Ty

/-! ## Meet within one class -/

theorem IntegerType.meet_self (r : IntegerType w) : r.meet r = r := by
  ext1
  · exact BitVec.eq_of_toInt_eq (by simp [meet])
  · exact BitVec.eq_of_toInt_eq (by simp [meet])
  · exact max_self r.widen

theorem xmeet_int_int (r s : TypeInt) : (int r).xmeet (.int s) = some (.int (r.meet s)) := by
  simp only [xmeet, TypeInt.xmeet]
  split
  next h =>
    cases h
    rw [meet_self]
  · rfl

theorem xmeet_long_long (r s : TypeLong) : (long r).xmeet (.long s) = some (.long (r.meet s)) := by
  simp only [xmeet, TypeLong.xmeet]
  split
  next h =>
    cases h
    rw [meet_self]
  · rfl

theorem xmeet_floatCon_floatCon (f g : BitVec 32) :
    (floatCon f).xmeet (.floatCon g) = some (if f = g then .floatCon f else .floatBot) := by
  simp only [xmeet, TypeF.xmeet]
  by_cases h : f = g
  · simp [h]
  · simp [h]

theorem xmeet_doubleCon_doubleCon (d e : BitVec 64) :
    (doubleCon d).xmeet (.doubleCon e) = some (if d = e then .doubleCon d else .doubleBot) := by
  simp only [xmeet, TypeD.xmeet]
  by_cases h : d = e
  · simp [h]
  · simp [h]

theorem xmeet_anyPtr_anyPtr (p q : TypePtr) : (anyPtr p).xmeet (.anyPtr q) =
      some (.anyPtr ⟨p.ptr.meet q.ptr, meetOffset p.offset q.offset⟩) := by
  simp only [xmeet, TypePtr.xmeet]
  split
  next h =>
    cases h
    rw [PTR.meet_self, meetOffset_self]
  · rfl

theorem TypeRawPtr.xmeetRawPtr_comm (p q : TypeRawPtr) : p.xmeetRawPtr q = q.xmeetRawPtr p := by
  obtain rfl | rfl | rfl | rfl | ⟨bits, hbits, rfl⟩ := p.eq_state_or_con
  all_goals
    obtain rfl | rfl | rfl | rfl | ⟨bits', hbits', rfl⟩ := q.eq_state_or_con
    all_goals rfl

theorem TypeRawPtr.xmeetRawPtr_total (p q : TypeRawPtr) : ∃ m, p.xmeetRawPtr q = some m := by
  obtain rfl | rfl | rfl | rfl | ⟨bits, hbits, rfl⟩ := p.eq_state_or_con
  all_goals
    obtain rfl | rfl | rfl | rfl | ⟨bits', hbits', rfl⟩ := q.eq_state_or_con
    all_goals exact ⟨_, rfl⟩

theorem xmeet_rawPtr_rawPtr (p q : TypeRawPtr) :
    (rawPtr p).xmeet (.rawPtr q) = if p = q then some (.rawPtr p) else p.xmeetRawPtr q := by
  simp [xmeet, TypeRawPtr.xmeet, rawPtr.injEq]

/-- Against an `AnyPtr` only the `Constant` state has no case. -/
theorem TypeRawPtr.xmeetAnyPtr_total (p : TypeRawPtr) {q : TypePtr} (h : q.ptr ≠ .constant) :
    ∃ m, p.xmeetAnyPtr q = some m := by
  obtain ⟨ptr, offset⟩ := q
  obtain rfl | rfl | rfl | rfl | ⟨bits, hbits, rfl⟩ := p.eq_state_or_con
  all_goals
    cases ptr with
    | constant => exact absurd rfl h
    | _ => exact ⟨_, rfl⟩

/-! ## Totality and commutativity -/

namespace Ty

/-- The types of locals that hold no pointer. -/
def isScalar : Ty → Bool
  | .int _ | .long _ | .floatTop | .floatCon _ | .floatBot
  | .doubleTop | .doubleCon _ | .doubleBot => true
  | _ => false

/-- The float and double types that are left to `Type::xmeet`. -/
def isBareFloat : Ty → Bool
  | .floatTop | .floatBot | .doubleTop | .doubleBot => true
  | _ => false

def isConstantAnyPtr : Ty → Bool
  | .anyPtr p => p.ptr = .constant
  | _ => false

/-- The pairs for which one of the two switch statements has no case label: a raw pointer
with a scalar or with an `AnyPtr` constant, and an `AnyPtr` with a float or double range. -/
def clash (t u : Ty) : Bool :=
  match t with
  | .rawPtr _ => u.isScalar || u.isConstantAnyPtr
  | .anyPtr _ => u.isBareFloat
  | _ => false

variable {u : Ty}

theorem xmeet_of_clash {t : Ty} (h : t.clash u) : t.xmeet u = none ∨ u.xmeet t = none := by
  cases t with
  | rawPtr p =>
    cases u with
    | anyPtr q =>
      obtain ⟨ptr, offset⟩ := q
      obtain rfl : ptr = .constant := of_decide_eq_true h
      exact .inl rfl
    | int _ | long _ | floatTop | floatCon _ | floatBot | doubleTop | doubleCon _ | doubleBot =>
      exact .inl rfl
    | top | bottom | rawPtr _ => cases h
  | anyPtr p =>
    cases u with
    | floatTop | floatBot | doubleTop | doubleBot => exact .inr rfl
    | _ => cases h
  | _ => cases h

/-- Both orders of a meet have a result, and it is the same one. -/
def MeetAgree (t u : Ty) : Prop := ∃ m, t.xmeet u = some m ∧ u.xmeet t = some m

theorem MeetAgree.symm {t : Ty} (h : t.MeetAgree u) : u.MeetAgree t := by
  obtain ⟨m, htu, hut⟩ := h
  exact ⟨m, hut, htu⟩

theorem meetAgree_int (r : TypeInt) (h : u.clash (.int r) = false) : (int r).MeetAgree u := by
  cases u with
  | int s => exact ⟨_, xmeet_int_int r s, by rw [xmeet_int_int, meet_comm]⟩
  | rawPtr _ => cases h
  | _ => exact ⟨_, rfl, rfl⟩

theorem meetAgree_long (r : TypeLong) (h : u.clash (.long r) = false) : (long r).MeetAgree u := by
  cases u with
  | long s => exact ⟨_, xmeet_long_long r s, by rw [xmeet_long_long, meet_comm]⟩
  | rawPtr _ => cases h
  | _ => exact ⟨_, rfl, rfl⟩

theorem meetAgree_floatCon (f : BitVec 32) (h : u.clash (.floatCon f) = false) :
    (floatCon f).MeetAgree u := by
  cases u with
  | floatCon g =>
    refine ⟨_, xmeet_floatCon_floatCon f g, ?_⟩
    rw [xmeet_floatCon_floatCon]
    by_cases hfg : f = g
    · rw [hfg]
    · rw [if_neg hfg, if_neg (Ne.symm hfg)]
  | rawPtr _ => cases h
  | _ => exact ⟨_, rfl, rfl⟩

theorem meetAgree_doubleCon (d : BitVec 64) (h : u.clash (.doubleCon d) = false) :
    (doubleCon d).MeetAgree u := by
  cases u with
  | doubleCon e =>
    refine ⟨_, xmeet_doubleCon_doubleCon d e, ?_⟩
    rw [xmeet_doubleCon_doubleCon]
    by_cases hde : d = e
    · rw [hde]
    · rw [if_neg hde, if_neg (Ne.symm hde)]
  | rawPtr _ => cases h
  | _ => exact ⟨_, rfl, rfl⟩

theorem meetAgree_rawPtr (p : TypeRawPtr) (h : (rawPtr p).clash u = false) :
    (rawPtr p).MeetAgree u := by
  cases u with
  | top | bottom => exact ⟨_, rfl, rfl⟩
  | anyPtr q =>
    obtain ⟨m, hm⟩ := p.xmeetAnyPtr_total (of_decide_eq_false h)
    exact ⟨m, hm, hm⟩
  | rawPtr q =>
    by_cases hpq : p = q
    · subst hpq
      exact ⟨.rawPtr p, by simp [xmeet_rawPtr_rawPtr], by simp [xmeet_rawPtr_rawPtr]⟩
    · obtain ⟨m, hm⟩ := p.xmeetRawPtr_total q
      refine ⟨m, ?_, ?_⟩
      · rw [xmeet_rawPtr_rawPtr, if_neg hpq, hm]
      · rw [xmeet_rawPtr_rawPtr, if_neg (Ne.symm hpq), TypeRawPtr.xmeetRawPtr_comm, hm]
  | _ => cases h

theorem meetAgree_anyPtr (p : TypePtr) (h : (anyPtr p).clash u = false)
    (h' : u.clash (.anyPtr p) = false) : (anyPtr p).MeetAgree u := by
  cases u with
  | top | bottom | int _ | long _ | floatCon _ | doubleCon _ => exact ⟨_, rfl, rfl⟩
  | anyPtr q =>
    refine ⟨_, xmeet_anyPtr_anyPtr p q, ?_⟩
    rw [xmeet_anyPtr_anyPtr, PTR.meet_comm, meetOffset_comm]
  | rawPtr q => exact (meetAgree_rawPtr q h').symm
  | floatTop | floatBot | doubleTop | doubleBot => cases h

/-- `xmeet` is total and commutative exactly on the pairs that no switch misses. -/
theorem xmeet_total_comm_iff (t u : Ty) :
    (∃ m, t.xmeet u = some m ∧ u.xmeet t = some m) ↔ t.clash u = false ∧ u.clash t = false := by
  constructor
  · rintro ⟨m, htu, hut⟩
    refine ⟨Bool.eq_false_iff.mpr fun h => ?_, Bool.eq_false_iff.mpr fun h => ?_⟩
    · obtain hnone | hnone := xmeet_of_clash h
      · rw [hnone] at htu
        cases htu
      · rw [hnone] at hut
        cases hut
    · obtain hnone | hnone := xmeet_of_clash h
      · rw [hnone] at hut
        cases hut
      · rw [hnone] at htu
        cases htu
  · rintro ⟨h, h'⟩
    cases t with
    | top => exact ⟨u, by cases u <;> rfl, by cases u <;> rfl⟩
    | bottom => exact ⟨.bottom, by cases u <;> rfl, by cases u <;> rfl⟩
    | int r => exact meetAgree_int r h'
    | long r => exact meetAgree_long r h'
    | floatCon f => exact meetAgree_floatCon f h'
    | doubleCon d => exact meetAgree_doubleCon d h'
    | anyPtr p => exact meetAgree_anyPtr p h h'
    | rawPtr p => exact meetAgree_rawPtr p h
    | floatTop | floatBot | doubleTop | doubleBot =>
      cases u with
      | int r => exact (meetAgree_int r h).symm
      | long r => exact (meetAgree_long r h).symm
      | floatCon f => exact (meetAgree_floatCon f h).symm
      | doubleCon d => exact (meetAgree_doubleCon d h).symm
      | anyPtr p => cases h'
      | rawPtr p => cases h'
      | _ => exact ⟨_, rfl, rfl⟩

/-- An int that meets a raw pointer drops to the bottom; the raw pointer that meets the int
has no case for it. -/
theorem xmeet_int_rawPtr : (Ty.int ⟨0, 0, 0⟩).xmeet (.rawPtr TypeRawPtr.bottom) = some .bottom ∧
      (Ty.rawPtr TypeRawPtr.bottom).xmeet (.int ⟨0, 0, 0⟩) = none :=
  ⟨rfl, rfl⟩

end Ty

/-! ## Symmetry of the pointer part -/

namespace Ty

theorem dual_dual (t : Ty) : t.dual.dual = t := by
  have hwiden : ∀ v : Widen, WidenMax - (WidenMax - v) = v := by decide
  cases t with
  | int r => simp [dual, xdual, hwiden]
  | long r => simp [dual, xdual, hwiden]
  | anyPtr p => simp [dual, TypePtr.xdual]
  | rawPtr p => simp [dual, TypeRawPtr.xdual]
  | _ => rfl

theorem xmeet_self (t : Ty) : t.xmeet t = some t := by
  cases t with
  | int r => rw [xmeet_int_int, meet_self]
  | long r => rw [xmeet_long_long, meet_self]
  | floatCon f => rw [xmeet_floatCon_floatCon, if_pos rfl]
  | doubleCon d => rw [xmeet_doubleCon_doubleCon, if_pos rfl]
  | anyPtr p => rw [xmeet_anyPtr_anyPtr, PTR.meet_self, meetOffset_self]
  | rawPtr p => rw [xmeet_rawPtr_rawPtr, if_pos rfl]
  | _ => rfl

/-- What `Type::meet` asserts of the dual of a meet: it lies above both duals. -/
def MeetSymmetric (a b : Ty) : Prop :=
  ∃ m, a.xmeet b = some m ∧ m.dual.xmeet a.dual = some a.dual ∧ m.dual.xmeet b.dual = some b.dual

theorem meetSymmetric_self (a : Ty) : a.MeetSymmetric a :=
  ⟨a, xmeet_self a, xmeet_self _, xmeet_self _⟩

theorem meetSymmetric_anyPtr (p q : TypePtr) : (anyPtr p).MeetSymmetric (.anyPtr q) := by
  refine ⟨_, xmeet_anyPtr_anyPtr p q, ?_, ?_⟩
  · simp [dual, TypePtr.xdual, xmeet_anyPtr_anyPtr, PTR.dual_meet_dual, dualOffset_meetOffset]
  · rw [PTR.meet_comm, meetOffset_comm]
    simp [dual, TypePtr.xdual, xmeet_anyPtr_anyPtr, PTR.dual_meet_dual, dualOffset_meetOffset]

theorem meetSymmetric_rawPtr (p q : TypeRawPtr) : (rawPtr p).MeetSymmetric (.rawPtr q) := by
  by_cases hpq : p = q
  · subst hpq
    exact meetSymmetric_self _
  unfold MeetSymmetric
  rw [xmeet_rawPtr_rawPtr, if_neg hpq]
  obtain rfl | rfl | rfl | rfl | ⟨bits, hbits, rfl⟩ := p.eq_state_or_con
  all_goals
    obtain rfl | rfl | rfl | rfl | ⟨bits', hbits', rfl⟩ := q.eq_state_or_con
    all_goals first
      | exact absurd rfl hpq
      | exact ⟨_, rfl, rfl, rfl⟩
      | exact ⟨_, rfl, rfl, xmeet_self _⟩
      | exact ⟨_, rfl, xmeet_self _, rfl⟩

/-- The offset `0` a raw pointer is given is compatible with another one only if that is
`0` or the undefined offset, whose dual absorbs it. -/
theorem meetOffset_dualOffset_zero (o : JInt) :
    meetOffset (dualOffset o) 0#32 = dualOffset o ↔ o = 0#32 ∨ o = OffsetTop := by
  by_cases htop : o = OffsetTop
  · subst htop
    decide
  by_cases hbot : o = OffsetBot
  · subst hbot
    decide
  have hdual : dualOffset o = o := by simp [dualOffset, htop, hbot]
  have hzero : 0#32 ≠ OffsetTop := by decide
  rw [hdual]
  by_cases ho : o = 0#32
  · simp [ho, meetOffset]
  · simp [meetOffset, ho, htop, hzero, Ne.symm hbot]

/-- A raw pointer against an `AnyPtr` that the cross-kind code places wrongly: a constant,
or an `AnyNull` whose offset is neither `0` nor undefined. -/
def skew (a b : Ty) : Bool :=
  match a, b with
  | .rawPtr _, .anyPtr p =>
    p.ptr = .constant || (p.ptr = .anyNull && p.offset ≠ 0#32 && p.offset ≠ OffsetTop)
  | _, _ => false

theorem meetSymmetric_rawPtr_anyPtr (p : TypeRawPtr) (q : TypePtr) :
    (rawPtr p).MeetSymmetric (.anyPtr q) ↔ (rawPtr p).skew (.anyPtr q) = false := by
  obtain ⟨ptr, offset⟩ := q
  cases ptr with
  | topPTR =>
    refine iff_of_true ⟨.rawPtr p, rfl, xmeet_self _, rfl⟩ rfl
  | botPTR =>
    refine iff_of_true ⟨.anyPtr ⟨.botPTR, offset⟩, rfl, rfl, xmeet_self _⟩ rfl
  | constant =>
    refine iff_of_false ?_ (by simp [skew])
    rintro ⟨m, hm, -⟩
    cases hm
  | null =>
    refine iff_of_true ?_ rfl
    obtain rfl | rfl | rfl | rfl | ⟨bits, hbits, rfl⟩ := p.eq_state_or_con
    · exact ⟨.anyPtr ⟨.null, offset⟩, rfl, rfl, xmeet_self _⟩
    all_goals exact ⟨.rawPtr TypeRawPtr.bottom, rfl, rfl, rfl⟩
  | notNull =>
    refine iff_of_true ⟨_, rfl, ?_, ?_⟩ rfl
    · obtain rfl | rfl | rfl | rfl | ⟨bits, hbits, rfl⟩ := p.eq_state_or_con
      all_goals rfl
    · simp only [dual, TypePtr.xdual, xmeet_anyPtr_anyPtr, dualOffset_meetOffset]
      rw [PTR.meet_comm p.ptr, PTR.dual_meet_dual]
  | anyNull =>
    -- the meet forgets the offset, and its dual meets the other dual at offset `0`
    have hoffset : (rawPtr p).MeetSymmetric (.anyPtr ⟨.anyNull, offset⟩) ↔
        meetOffset (dualOffset offset) 0#32 = dualOffset offset := by
      constructor
      · rintro ⟨m, hm, -, hm'⟩
        obtain rfl | rfl | rfl | rfl | ⟨bits, hbits, rfl⟩ := p.eq_state_or_con
        all_goals
          cases hm
          exact congrArg TypePtr.offset (anyPtr.inj (Option.some.inj hm'))
      · intro h
        obtain rfl | rfl | rfl | rfl | ⟨bits, hbits, rfl⟩ := p.eq_state_or_con
        all_goals
          refine ⟨_, rfl, ?_, congrArg (fun o => some (anyPtr ⟨.notNull, o⟩)) h⟩
          first
            | rfl
            | exact xmeet_self _
    rw [hoffset, meetOffset_dualOffset_zero]
    by_cases hzero : offset = 0#32
    · simp [skew, hzero]
    · by_cases htop : offset = OffsetTop
      · simp [skew, htop]
      · simp [skew, hzero, htop]

theorem MeetSymmetric.comm_of_eq {a b : Ty} (h : a.xmeet b = b.xmeet a) :
    a.MeetSymmetric b ↔ b.MeetSymmetric a := by
  constructor
  · rintro ⟨m, hm, ha, hb⟩
    exact ⟨m, h ▸ hm, hb, ha⟩
  · rintro ⟨m, hm, hb, ha⟩
    exact ⟨m, h ▸ hm, ha, hb⟩

def isPointer : Ty → Bool
  | .anyPtr _ | .rawPtr _ => true
  | _ => false

/-- The pointer part of the lattice is symmetric except at skew pairs. -/
theorem meet_symmetric_iff (a b : Ty) (ha : a.isPointer) (hb : b.isPointer) :
    (∃ m, a.xmeet b = some m ∧ m.dual.xmeet a.dual = some a.dual ∧
        m.dual.xmeet b.dual = some b.dual ∧
        a.dual.dual = a ∧ b.dual.dual = b ∧ a.xmeet a = some a ∧ b.xmeet b = some b) ↔
      a.skew b = false ∧ b.skew a = false := by
  have hsymm : a.MeetSymmetric b ↔ a.skew b = false ∧ b.skew a = false := by
    cases a with
    | anyPtr p =>
      cases b with
      | anyPtr q => exact iff_of_true (meetSymmetric_anyPtr p q) ⟨rfl, rfl⟩
      | rawPtr q =>
        have hcomm : (anyPtr p).xmeet (.rawPtr q) = (rawPtr q).xmeet (.anyPtr p) := rfl
        rw [MeetSymmetric.comm_of_eq hcomm, meetSymmetric_rawPtr_anyPtr]
        exact ⟨fun h => ⟨rfl, h⟩, fun h => h.2⟩
      | _ => cases hb
    | rawPtr p =>
      cases b with
      | anyPtr q =>
        rw [meetSymmetric_rawPtr_anyPtr]
        exact ⟨fun h => ⟨h, rfl⟩, fun h => h.1⟩
      | rawPtr q => exact iff_of_true (meetSymmetric_rawPtr p q) ⟨rfl, rfl⟩
      | _ => cases hb
    | _ => cases ha
  rw [← hsymm]
  constructor
  · rintro ⟨m, hm, hma, hmb, -⟩
    exact ⟨m, hm, hma, hmb⟩
  · rintro ⟨m, hm, hma, hmb⟩
    exact ⟨m, hm, hma, hmb, dual_dual a, dual_dual b, xmeet_self a, xmeet_self b⟩

theorem meet_symmetric_iff_null :
    (Ty.rawPtr TypeRawPtr.notNull).isPointer ∧ (Ty.anyPtr ⟨.null, 0⟩).isPointer ∧
      ∃ m, (Ty.rawPtr TypeRawPtr.notNull).xmeet (.anyPtr ⟨.null, 0⟩) = some m := by
  obtain ⟨m, hm, -⟩ :=
    (meet_symmetric_iff (.rawPtr TypeRawPtr.notNull) (.anyPtr ⟨.null, 0⟩) rfl rfl).mpr ⟨rfl, rfl⟩
  exact ⟨rfl, rfl, m, hm⟩

/-- `AnyPtr:AnyNull+5` meets `RawPtr:NotNull` at `RawPtr:NotNull`. The dual of that meets the
dual `AnyPtr:NotNull+5` at an unknown offset. -/
theorem meet_not_symmetric : (Ty.rawPtr TypeRawPtr.notNull).xmeet (.anyPtr ⟨.anyNull, 5⟩) =
        some (.rawPtr TypeRawPtr.notNull) ∧
      (Ty.rawPtr TypeRawPtr.notNull).dual.xmeet (Ty.anyPtr ⟨.anyNull, 5⟩).dual =
        some (.anyPtr ⟨.notNull, OffsetBot⟩) ∧
      (Ty.anyPtr ⟨.anyNull, 5⟩).dual = .anyPtr ⟨.notNull, 5⟩ := by
  decide

end Ty

end Hotspot.Opto
