-- SUMMARY: Descriptors of fields and methods: characters, types and text.
import Hotspot.Base.JavaTypes
import Hotspot.Base.Except

/-!
# Descriptors

A method descriptor is the text of the types of a method's parameters and of its result.
The syntax is

    Signature  = "(" {Parameter} ")" ReturnType
    ReturnType = FieldType | "V"
    FieldType  = "B" | "C" | "D" | "F" | "I" | "J" | "S" | "Z" | "L" ClassName ";" | "[" FieldType

Class files of version 49 and later allow every byte but `;` and `.` in a class name.
-/

namespace Hotspot

/-! ## Characters and types -/

/-! The characters of descriptors, as in `jvm.h`. -/

namespace JvmSignature

/-- The character `[`. -/
abbrev array : UChar := 0x5B#8
/-- The character `L`. -/
abbrev cls : UChar := 0x4C#8
/-- The character `;`. -/
abbrev endclass : UChar := 0x3B#8
/-- The character `(`. -/
abbrev func : UChar := 0x28#8
/-- The character `)`. -/
abbrev endfunc : UChar := 0x29#8
/-- The character `.`, which separates packages outside of class files. -/
abbrev dot : UChar := 0x2E#8

end JvmSignature

/-- The types a descriptor names. -/
inductive BasicType where
  | boolean
  | char
  | float
  | double
  | byte
  | short
  | int
  | long
  | object
  | array
  | void
  deriving DecidableEq, Repr

namespace BasicType

def isJavaPrimitive : BasicType → Bool
  | .object | .array | .void => false
  | _ => true

/-- `T_BOOLEAN_size` and so on, in words. -/
def size : BasicType → Nat
  | .double | .long => 2
  | .void => 0
  | _ => 1

/-- The first character of a descriptor of the type. -/
def letter : BasicType → UChar
  | .boolean => 0x5A#8 -- Z
  | .char => 0x43#8 -- C
  | .float => 0x46#8 -- F
  | .double => 0x44#8 -- D
  | .byte => 0x42#8 -- B
  | .short => 0x53#8 -- S
  | .int => 0x49#8 -- I
  | .long => 0x4A#8 -- J
  | .object => JvmSignature.cls
  | .array => JvmSignature.array
  | .void => 0x56#8 -- V

end BasicType

/-- The case labels that all the switches over a descriptor share. -/
def char2type (c : UChar) : Option BasicType :=
  [.byte, .char, .double, .float, .int, .long, .short, .boolean, .void, .object, .array].find?
    fun t => t.letter = c

theorem char2type_eq_some {c : UChar} {t : BasicType} : char2type c = some t ↔ c = t.letter := by
  constructor
  · intro h
    unfold char2type at h
    have hfound := List.find?_some h
    exact (of_decide_eq_true hfound).symm
  · rintro rfl
    cases t <;> rfl

@[simp]
theorem char2type_letter (t : BasicType) : char2type t.letter = some t := char2type_eq_some.mpr rfl

theorem BasicType.letter_inj {t u : BasicType} (h : t.letter = u.letter) : t = u := by
  have hsome := char2type_eq_some.mpr h
  rw [char2type_letter] at hsome
  exact Option.some.inj hsome

/-! ## Descriptors -/

/-- The name of a class in a descriptor, for class files of version 49 and later. -/
structure ClassName where
  name : List UChar
  no_endclass : JvmSignature.endclass ∉ name
  no_dot : JvmSignature.dot ∉ name

/-- A type that is not an array. -/
inductive ElementType where
  | primitive (t : BasicType) (h : t.isJavaPrimitive = true)
  | object (name : ClassName)

/-- A field type. More than 255 dimensions are not allowed. -/
structure FieldType where
  dims : Nat
  elem : ElementType
  dims_le : dims ≤ 255

/-- A method type. A method without result has the type `none`. -/
structure MethodType where
  params : List FieldType
  ret : Option FieldType

namespace ElementType

def type : ElementType → BasicType
  | .primitive t _ => t
  | .object _ => .object

/-- What stands behind the first character. -/
def tail : ElementType → List UChar
  | .primitive _ _ => []
  | .object n => n.name ++ [JvmSignature.endclass]

def text (e : ElementType) : List UChar := e.type.letter :: e.tail

theorem type_ne_void (e : ElementType) : e.type ≠ .void := by
  cases e with
  | primitive t h => rintro rfl; cases h
  | object _ => nofun

theorem type_ne_array (e : ElementType) : e.type ≠ .array := by
  cases e with
  | primitive t h => rintro rfl; cases h
  | object _ => nofun

end ElementType

namespace FieldType

def type (f : FieldType) : BasicType := if f.dims = 0 then f.elem.type else .array

def text (f : FieldType) : List UChar := List.replicate f.dims JvmSignature.array ++ f.elem.text

theorem text_eq_cons (f : FieldType) : ∃ s, f.text = f.type.letter :: s := by
  obtain ⟨dims, elem, hdims⟩ := f
  cases dims with
  | zero => exact ⟨elem.tail, rfl⟩
  | succ n => exact ⟨List.replicate n JvmSignature.array ++ elem.text, rfl⟩

theorem type_ne_void (f : FieldType) : f.type ≠ .void := by
  unfold type
  split
  · exact f.elem.type_ne_void
  · nofun

end FieldType

namespace MethodType

def retType (m : MethodType) : BasicType := m.ret.elim .void FieldType.type

def retText (m : MethodType) : List UChar := m.ret.elim [BasicType.void.letter] FieldType.text

def paramText (m : MethodType) : List UChar := m.params.flatMap FieldType.text

def text (m : MethodType) : List UChar :=
  JvmSignature.func :: (m.paramText ++ JvmSignature.endfunc :: m.retText)

/-- The number of words the parameters take. -/
def paramSize (m : MethodType) : Nat := (m.params.map fun f => f.type.size).sum

theorem retText_eq_cons (m : MethodType) : ∃ s, m.retText = m.retType.letter :: s := by
  obtain ⟨params, ret⟩ := m
  cases ret with
  | none => exact ⟨[], rfl⟩
  | some f => exact f.text_eq_cons

end MethodType

end Hotspot
