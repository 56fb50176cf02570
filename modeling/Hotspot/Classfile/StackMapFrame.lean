-- SUMMARY: The verifier's operations on its current frame, with checked accesses.
import Hotspot.Classfile.StackMapDecoding

/-!
# StackMapFrame

The frame that the verifier changes as it goes through the code has arrays for all the locals and
for the whole stack of the method. The writes of builds that are no product builds, which clear a
cell of the stack when it is popped, are left out.
-/

namespace Hotspot.StackMap

/-- Why an operation stops. -/
inductive FrameError where
  | fault (f : Fault)
  | verifyError (message : String)
  | unresolvedClass
  /-- The class behind the last superclass is looked at. -/
  | nullSuperclass
  deriving DecidableEq, Repr

abbrev FrameM := Except FrameError

def access {α : Type} (x : Except Fault α) : FrameM α := x.mapError .fault

namespace TypeArray

/-- A loop of `initialize_object`. -/
def replace (a : TypeArray) (old new : VerificationType) : Nat → Except Fault TypeArray
  | 0 => pure a
  | n + 1 => do
    let a ← replace a old new n
    if (← a.read n) = old then a.write n new else pure a

end TypeArray

namespace StackMapFrame

variable (dict : SystemDictionary) (f : StackMapFrame)

def isAssignable (t u : VerificationType) : FrameM Bool :=
  match t.isAssignableFrom dict u with
  | none => .error .unresolvedClass
  | some b => .ok b

def popStackEx (type : VerificationType) : FrameM (VerificationType × StackMapFrame) :=
  if f.stackSize = 0 then .error (.verifyError "Operand stack underflow")
  else do
    let top ← access (f.stack.read (f.stackSize - 1 : Nat))
    if ← isAssignable dict type top then return (top, { f with stackSize := f.stackSize - 1 })
    else .error (.verifyError "Bad type on operand stack")

/-- `pop_stack` with a type. -/
def popStack (type : VerificationType) : FrameM (VerificationType × StackMapFrame) :=
  if f.stackSize ≠ 0 then do
    let top ← access (f.stack.read (f.stackSize - 1 : Nat))
    if ← isAssignable dict type top then return (top, { f with stackSize := f.stackSize - 1 })
    else popStackEx dict f type
  else popStackEx dict f type

def pushStack (type : VerificationType) : FrameM StackMapFrame :=
  if f.maxStack ≤ f.stackSize then .error (.verifyError "Operand stack overflow")
  else do
    let stack ← access (f.stack.write f.stackSize type)
    return { f with stack := stack, stackSize := f.stackSize + 1 }

def initializeObject (oldObject newObject : VerificationType) : FrameM StackMapFrame := do
  let locals ← access (f.locals.replace oldObject newObject f.maxLocals)
  let stack ← access (f.stack.replace oldObject newObject f.stackSize)
  return { f with
    locals := locals
    stack := stack
    flags := if oldObject = .uninitializedThis then 0 else f.flags }

end StackMapFrame

open List TypeArray

variable {ls : List VerificationType} {i : Nat} {f : StackMapFrame}

theorem access_read {t : VerificationType} (h : ls[i]? = some t) :
    access (read (ls.map some) i) = .ok t := by
  rw [read_prefix_eq prefix_rfl h]
  rfl

/-- The fast path of `pop_stack` gives what `pop_stack_ex` would. -/
theorem popStack_eq (dict : SystemDictionary) (f : StackMapFrame) (type : VerificationType) :
    f.popStack dict type = f.popStackEx dict type := by
  unfold StackMapFrame.popStack StackMapFrame.popStackEx
  by_cases hzero : f.stackSize = 0
  · rw [if_neg (not_not_intro hzero)]
  rw [if_pos hzero, if_neg hzero]
  cases access (f.stack.read (f.stackSize - 1 : Nat)) with
  | error e => rfl
  | ok top =>
    rw [ok_bind, ok_bind]
    cases hsub : StackMapFrame.isAssignable dict type top with
    | error e => rfl
    | ok b => cases b <;> rfl

/-- A type after the objects of one type have got another one. -/
def renamed (old new t : VerificationType) : VerificationType := if t = old then new else t

theorem replace_eq (old new : VerificationType) {n : Nat} (hn : n ≤ ls.length) :
    TypeArray.replace (ls.map some) old new n =
      .ok (((ls.take n).map (renamed old new) ++ ls.drop n).map some) := by
  induction n with
  | zero => rfl
  | succ n ih =>
    have hlt : n < ls.length := by omega
    have hget : ((ls.take n).map (renamed old new) ++ ls.drop n)[n]? = some ls[n] := by
      rw [getElem?_append_right (by simp), getElem?_drop]
      simp [hlt.le]
    rw [TypeArray.replace, ih hlt.le, ok_bind, read_prefix_eq prefix_rfl hget, ok_bind, take_add_one,
      getElem?_eq_getElem hlt, drop_eq_getElem_cons hlt]
    split
    next heq =>
      rw [write_eq _ (by simp; omega)]
      simp [renamed, heq, hlt.le]
    next hne =>
      have hkeep : renamed old new ls[n] = ls[n] := if_neg hne
      simp only [pure_eq_ok, Option.toList_some, map_append, map_cons, map_nil, hkeep, append_assoc,
        singleton_append]

/-- All the copies of an object change their type, and nothing else. -/
theorem initializeObject_eq (old new : VerificationType) {st : List VerificationType} (hls : f.locals = ls.map some)
    (hmax : ls.length = f.maxLocals) (hst : f.stack = st.map some) (hsize : f.stackSize ≤ st.length) :
    f.initializeObject old new = .ok { f with
      locals := (ls.map (renamed old new)).map some
      stack := ((st.take f.stackSize).map (renamed old new) ++ st.drop f.stackSize).map some
      flags := if old = .uninitializedThis then 0 else f.flags } := by
  unfold StackMapFrame.initializeObject
  have hlocals := replace_eq old new hmax.ge
  rw [← hmax, take_length, drop_length, append_nil] at hlocals
  rw [hls, ← hmax, hlocals, hst, replace_eq old new hsize]
  rfl

end Hotspot.StackMap
