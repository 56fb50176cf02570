-- SUMMARY: Two rules of the verifier: constructor calls, and the dimensions of arrays.
import Hotspot.Classfile.Assignability
import Hotspot.Classfile.StackMapFrame
import Hotspot.Classfile.StackMapSafety

/-!
# Verifier

A constructor has to call one of its own class or of the direct superclass first. The verifier
looks for the class of the called constructor among all the superclasses instead, and there is
nothing to stop it at the last of them.

The dimensions of an array type are counted by a loop that also counts the character it ends at.
-/

namespace Hotspot.StackMap

open List
open VerificationType (uninitializedThis getComponent)

/-- What the rules depend on, apart from the frame. -/
structure ClassVerifier where
  dict : SystemDictionary
  currentClass : Symbol
  /-- The superclass of the current class, its superclass and so on. -/
  supers : List Symbol
  method : MethodContext
  code : List UChar
  /-- The constructor that is found is protected and in another package. -/
  protectedInit : Bool

namespace ClassVerifier

variable (v : ClassVerifier)

def currentType : VerificationType := .reference v.currentClass

/-- The loop up the superclasses. The `klass_part` of a superclass that is `NULL` is not `NULL`, so
the loop does not end there, and the error for that end is never reported. -/
def walkSupers (refClass : Symbol) : List Symbol → FrameM Unit
  | [] => .error .nullSuperclass
  | klass :: supers => if refClass = klass then return () else walkSupers refClass supers

/-- The rule for the protected constructors of superclasses. -/
def checkProtected (refClass : Symbol) (objectref : VerificationType) : FrameM Unit :=
  if v.supers.contains refClass then
    if (v.dict.resolveOrFail refClass).isNone then .error .unresolvedClass
    else if v.protectedInit then do
      if ← StackMapFrame.isAssignable v.dict v.currentType objectref then return ()
      else .error (.verifyError "Bad access to protected <init> method")
    else return ()
  else return ()

/-- The frame after the call, and whether `this` is now initialized. -/
def verifyInvokeInit (refClass : Symbol) (f : StackMapFrame) (thisUninit : Bool) :
    FrameM (StackMapFrame × Bool) := do
  let (type, f) ← f.popStack v.dict .referenceCheck
  if type = uninitializedThis then
    walkSupers refClass (v.currentClass :: v.supers)
    return (← f.initializeObject type v.currentType, true)
  else match type with
    | .uninitialized newOffset =>
      if v.code.length < newOffset.toNat + 3 ∨ v.code[newOffset.toNat]? ≠ some 0xBB then
        .error (.verifyError "Expecting new instruction")
      else
        let newClassIndex :=
          v.code.getD (newOffset.toNat + 1) 0 ++ v.code.getD (newOffset.toNat + 2) 0
        match v.method.klassNameAt newClassIndex with
        | none => .error (.verifyError "Illegal type at constant pool entry")
        | some newClass =>
          if newClass ≠ refClass then .error (.verifyError "Call to wrong <init> method")
          else
            v.checkProtected refClass (.reference newClass)
            return (← f.initializeObject type (.reference newClass), thisUninit)
    | _ => .error (.verifyError "Bad operand type when invoking <init>")

/-! ## Constructors -/

variable {v} {f : StackMapFrame} {ls st rest : List VerificationType} {refClass : Symbol}

theorem walkSupers_eq (ks : List Symbol) :
    walkSupers refClass ks = if refClass ∈ ks then .ok () else .error .nullSuperclass := by
  induction ks with
  | nil => rfl
  | cons k ks ih =>
    rw [walkSupers, ih]
    by_cases hk : refClass = k <;> simp [hk]

/-- A frame whose locals and stack are given, with an object on top that its constructor has not yet
initialized. -/
structure Constructing (f : StackMapFrame) (ls st rest : List VerificationType) : Prop where
  locals : f.locals = ls.map some
  locals_length : ls.length = f.maxLocals
  stack : f.stack = (st ++ uninitializedThis :: rest).map some
  stackSize : f.stackSize = st.length + 1

/-- The frame with the object popped and all its copies initialized. -/
def initialized (v : ClassVerifier) (f : StackMapFrame) (ls st rest : List VerificationType) :
    StackMapFrame :=
  { f with
    stackSize := st.length
    locals := (ls.map (renamed uninitializedThis v.currentType)).map some
    stack := (st.map (renamed uninitializedThis v.currentType) ++ uninitializedThis :: rest).map
      some
    flags := 0 }

/-- The call of any constructor up the superclasses is accepted, and any other one leads behind
them. -/
theorem verifyInvokeInit_eq (h : Constructing f ls st rest) (thisUninit : Bool) :
    v.verifyInvokeInit refClass f thisUninit = if refClass ∈ v.currentClass :: v.supers then
      .ok (initialized v f ls st rest, true) else .error .nullSuperclass := by
  have htop : f.popStack v.dict .referenceCheck =
      .ok (uninitializedThis, { f with stackSize := st.length }) := by
    have hread :=
      @access_read (st ++ uninitializedThis :: rest) st.length uninitializedThis (by simp)
    rw [popStack_eq, StackMapFrame.popStackEx, if_neg (by rw [h.stackSize]; omega), h.stack,
      h.stackSize,
      Nat.add_sub_cancel, hread]
    rfl
  have hinit :
      StackMapFrame.initializeObject { f with stackSize := st.length } uninitializedThis
    v.currentType =
      .ok (initialized v f ls st rest) := by
    rw [initializeObject_eq (f := { f with stackSize := st.length }) _ _ h.locals h.locals_length
      h.stack (by simp)]
    simp [initialized]
  rw [verifyInvokeInit, htop, ok_bind]
  dsimp only
  rw [if_pos rfl, walkSupers_eq]
  by_cases hmem : refClass ∈ v.currentClass :: v.supers
  · rw [if_pos hmem, if_pos hmem, ok_bind, hinit]
    rfl
  · rw [if_neg hmem, if_neg hmem]
    rfl

/-- The rule for constructors. -/
def ConstructorRule (v : ClassVerifier) (refClass : Symbol) (f : StackMapFrame)
    (ls st rest : List VerificationType)
    (thisUninit : Bool) : Prop :=
  ((∃ r, v.verifyInvokeInit refClass f thisUninit = .ok r) ↔
      refClass = v.currentClass ∨ v.supers.head? = some refClass) ∧
    (∀ e, v.verifyInvokeInit refClass f thisUninit = .error e →
      ∃ message, e = .verifyError message) ∧
    ∀ r, v.verifyInvokeInit refClass f thisUninit = .ok r → r = (initialized v f ls st rest, true)

/-- The rule is kept just for the classes that it allows. -/
theorem constructorRule_iff (h : Constructing f ls st rest) (thisUninit : Bool) :
    ConstructorRule v refClass f ls st rest thisUninit ↔
      refClass = v.currentClass ∨ v.supers.head? = some refClass := by
  unfold ConstructorRule
  rw [verifyInvokeInit_eq h]
  constructor
  · rintro ⟨haccept, hreport, -⟩
    by_cases hmem : refClass ∈ v.currentClass :: v.supers
    · rw [if_pos hmem] at haccept
      exact haccept.mp ⟨_, rfl⟩
    · rw [if_neg hmem] at hreport
      obtain ⟨_, heq⟩ := hreport _ rfl
      cases heq
  · intro hnear
    have hmem : refClass ∈ v.currentClass :: v.supers := hnear.elim (fun heq => heq ▸ mem_cons_self)
      fun hhead => mem_cons_of_mem _ (mem_of_mem_head? hhead)
    rw [if_pos hmem]
    exact ⟨iff_of_true ⟨_, rfl⟩ hnear, nofun, fun r hr => (Except.ok.inj hr).symm⟩

/-- A class named `A`, below one named `B`, in a constructor without arguments. -/
def exampleVerifier : ClassVerifier where
  dict := ⟨fun _ => none⟩
  currentClass := [0x41]
  supers := [[0x42], javaLangObject]
  method := emptyMethod
  code := []
  protectedInit := false

def exampleFrame : StackMapFrame :=
  ⟨0, flagThisUninit, 1, 1, 1, 1, [some uninitializedThis], [some uninitializedThis]⟩

theorem constructing_exampleFrame : Constructing exampleFrame [uninitializedThis] [] [] :=
  ⟨rfl, rfl, rfl, rfl⟩

theorem constructorRule_superclass :
    ConstructorRule exampleVerifier [0x42] exampleFrame [uninitializedThis] [] [] false :=
  (constructorRule_iff constructing_exampleFrame false).mpr (.inr rfl)

/-- The constructor of the superclass of the superclass is accepted, that of another class follows
the superclass that is not there. -/
theorem verifyInvokeInit_far :
    (exampleVerifier.verifyInvokeInit javaLangObject exampleFrame false).isOk = true ∧
      exampleVerifier.verifyInvokeInit [0x43] exampleFrame false = .error .nullSuperclass :=
        ⟨rfl, rfl⟩

end ClassVerifier

/-! ## Dimensions -/

/-- The loop of `dimensions`. There is no result if it reads behind the name. -/
def dimensionsFrom : Symbol → Nat → Option Nat
  | [], _ => none
  | c :: name, index => if c = JvmSignature.array then dimensionsFrom name (index + 1)
      else some (index + 1)

def dimensions (name : Symbol) : Option Nat := dimensionsFrom name 0

/-- The loop that pops the sizes. -/
def popSizes (dict : SystemDictionary) : Nat → StackMapFrame → FrameM StackMapFrame
  | 0, f => return f
  | n + 1, f => do
    let (_, f) ← f.popStack dict .integer
    popSizes dict n f

def verifyMultianewarray (dict : SystemDictionary) (name : Symbol) (dim : UChar)
    (f : StackMapFrame) :
    FrameM StackMapFrame :=
  if (VerificationType.reference name).isArray = false then
    .error (.verifyError "Illegal constant pool index in multianewarray instruction")
  else match dimensions name with
    | none => .error (.fault (.outOfBounds name.length))
    | some dimensions =>
      if dim.toNat < 1 ∨ dimensions < dim.toNat then
        .error (.verifyError "Illegal dimension in multianewarray instruction")
      else do
        let f ← popSizes dict dim.toNat f
        f.pushStack (.reference name)

/-- `get_component`, as often as there is an array. -/
def getComponents : Nat → VerificationType → Option VerificationType
  | 0, t => some t
  | n + 1, .reference name =>
    if (VerificationType.reference name).isArray then (getComponent name).bind (getComponents n)
      else none
  | _ + 1, _ => none

open JavaType (arrayText)

theorem dimensionsFrom_replicate (n i : Nat) (s : Symbol) :
    dimensionsFrom (List.replicate n JvmSignature.array ++ s) i = dimensionsFrom s (i + n) := by
  induction n generalizing i with
  | zero => rfl
  | succ n ih =>
    rw [replicate_succ, cons_append, dimensionsFrom, if_pos rfl, ih, Nat.add_right_comm,
      Nat.add_assoc]

/-- The character behind the dimensions is counted, too. -/
theorem dimensions_arrayText (dims : Nat) (e : JavaElement) :
    dimensions (arrayText dims e) = some (dims + 2) := by
  rw [dimensions, arrayText, dimensionsFrom_replicate, Nat.zero_add]
  cases e with
  | primitive t h =>
    have hne : t.letter ≠ JvmSignature.array := by
      intro heq
      cases BasicType.letter_inj (u := .array) heq
      cases h
    exact if_neg hne
  | object n => rfl

/-- The component of an array is reached with each of its dimensions. -/
theorem getComponents_encode (dims k : Nat) (e : JavaElement) :
    getComponents k (JavaType.array (dims + k) e).encode = some (JavaType.array dims e).encode ∧
      getComponents (dims + 1) (JavaType.array dims e).encode = some e.toType.encode := by
  have hstep : ∀ n dims, getComponents (n + 1) (JavaType.array dims e).encode =
      getComponents n (JavaType.component dims e).encode := fun n dims => by
    have harray := JavaType.isArray_encode dims e
    rw [JavaType.encode] at harray ⊢
    rw [getComponents, if_pos harray, JavaType.getComponent_arrayText, Option.bind_some]
  constructor
  · induction k with
    | zero => rfl
    | succ k ih => exact (hstep k (dims + k + 1)).trans ih
  · induction dims with
    | zero => exact hstep 0 0
    | succ dims ih => exact (hstep (dims + 1) (dims + 1)).trans ih

theorem isArray_toType (e : JavaElement) : e.toType.encode.isArray = false := by
  cases e with
  | primitive t h => cases t <;> rfl
  | object n => exact JavaType.isArray_object n

theorem popSizes_eq (dict : SystemDictionary) {n : Nat} {f : StackMapFrame}
    {st rest : List VerificationType}
    (hstack : f.stack = (st ++ (List.replicate n VerificationType.integer ++ rest)).map some)
    (hsize : f.stackSize = st.length + n) :
    popSizes dict n f = .ok { f with stackSize := st.length } := by
  induction n generalizing f rest with
  | zero =>
    rw [← show f.stackSize = st.length from hsize]
    rfl
  | succ n ih =>
    rw [replicate_succ', append_assoc, singleton_append] at hstack
    have hread :=
      @access_read (st ++ (replicate n .integer ++ .integer :: rest)) (st.length + n) .integer
      (by simp)
    have hpop : f.popStack dict .integer =
        .ok (.integer, { f with stackSize := st.length + n }) := by
      rw [popStack_eq, StackMapFrame.popStackEx, if_neg (by omega), hstack, hsize, ← Nat.add_assoc,
        Nat.add_sub_cancel,
        hread]
      rfl
    rw [popSizes, hpop, ok_bind]
    exact ih hstack rfl

/-- One dimension too many is accepted; the components follow the dimensions. -/
theorem multianewarray_rule_iff (dict : SystemDictionary) (dims : Nat) (e : JavaElement)
    (dim : UChar)
    {f : StackMapFrame} {st rest : List VerificationType}
    (hstack : f.stack = (st ++ (List.replicate dim.toNat VerificationType.integer ++ rest)).map
      some)
    (hsize : f.stackSize = st.length + dim.toNat) (hmax : f.stack.length = f.maxStack) :
    ((∀ k ≤ dims, getComponents k (JavaType.array dims e).encode =
      some (JavaType.array (dims - k) e).encode) ∧
      getComponents (dims + 1) (JavaType.array dims e).encode = some e.toType.encode ∧
      e.toType.encode.isArray = false) ∧
    (((∃ f', verifyMultianewarray dict (arrayText dims e) dim f = .ok f') ↔
      1 ≤ dim.toNat ∧ dim.toNat ≤ dims + 1) ↔
      dim.toNat ≠ dims + 2) := by
  refine ⟨⟨fun k hk => ?_, (getComponents_encode dims 0 e).2, isArray_toType e⟩, ?_⟩
  · have hcomponents := (getComponents_encode (dims - k) k e).1
    rwa [Nat.sub_add_cancel hk] at hcomponents
  have haccepted : (∃ f', verifyMultianewarray dict (arrayText dims e) dim f = .ok f') ↔
      1 ≤ dim.toNat ∧ dim.toNat ≤ dims + 2 := by
    have harray := JavaType.isArray_encode dims e
    rw [JavaType.encode] at harray
    rw [verifyMultianewarray, harray, dimensions_arrayText]
    dsimp only
    rw [if_neg Bool.true_eq_false.mp]
    by_cases hdim : dim.toNat < 1 ∨ dims + 2 < dim.toNat
    · rw [if_pos hdim]
      refine iff_of_false ?_ (by omega)
      rintro ⟨f', herror⟩
      cases herror
    · have hlen : f.stack.length = st.length + (dim.toNat + rest.length) := by simp [hstack]
      rw [if_neg hdim, popSizes_eq dict hstack hsize, ok_bind, StackMapFrame.pushStack,
        if_neg (by dsimp only; omega),
        TypeArray.write_eq _ (by dsimp only; omega)]
      exact iff_of_true ⟨_, rfl⟩ (by omega)
  rw [haccepted]
  omega

def intElement : JavaElement := .primitive .int rfl

/-- A frame that has nothing but sizes on its stack. -/
def sizesFrame (n : Nat) : StackMapFrame := ⟨0, 0, 0, n, 0, n, [], List.replicate n (some .integer)⟩

/-- Two sizes above another value. -/
def matrixFrame : StackMapFrame :=
  ⟨0, 0, 0, 3, 0, 4, [], [some .null, some .integer, some .integer, some .bogus]⟩

/-- Two dimensions of `[[[I` may be made. -/
theorem multianewarray_rule_matrix :
    ∃ f', verifyMultianewarray ⟨fun _ => none⟩ (arrayText 2 intElement) 2 matrixFrame = .ok f' :=
  have hrule :=
    @multianewarray_rule_iff ⟨fun _ => none⟩ 2 intElement 2 matrixFrame [.null] [.bogus] rfl rfl rfl
  (hrule.2.mpr (by decide)).mpr (by decide)

/-- An array of ints is made with two dimensions. -/
theorem multianewarray_int_two :
    (verifyMultianewarray ⟨fun _ => none⟩ (arrayText 0 intElement) 2 (sizesFrame 2)).isOk = true :=
  rfl

end Hotspot.StackMap
