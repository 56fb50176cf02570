-- SUMMARY: The types of the verifier and the test whether one is assignable to another.
import Hotspot.Classfile.Descriptor

/-!
# Verification types

A reference type is represented by its name: the name of a class, or the descriptor of an
array type. The assignability of arrays recurses through the components of the names.
-/

namespace Hotspot

abbrev Symbol := List UChar

/-- The types of the verifier, with the ones that are only used for queries. -/
inductive VerificationType where
  | bogus
  | boolean
  | byte
  | short
  | char
  | integer
  | float
  | long
  | double
  | long2
  | double2
  | null
  | reference (name : Symbol)
  | uninitialized (bci : JChar)
  | referenceCheck
  | category1Check
  | category2Check
  | category2SecondCheck
  deriving DecidableEq, Repr

/-- What the verifier may learn about a class from the system dictionary. -/
structure ClassInfo where
  isInterface : Bool
  /-- The superclass, its superclass and so on. -/
  superChain : List Symbol

/-- The classes as the loader of the verified class sees them. A class that cannot be resolved
raises an exception. -/
structure SystemDictionary where
  resolveOrFail : Symbol → Option ClassInfo

/-- `vmSymbols::java_lang_Object()`. -/
def javaLangObject : Symbol :=
  [0x6A, 0x61, 0x76, 0x61, 0x2F, 0x6C, 0x61, 0x6E, 0x67, 0x2F, 0x4F, 0x62, 0x6A, 0x65, 0x63, 0x74]

namespace VerificationType

variable (this : VerificationType)

def isCheck : Bool :=
  match this with
  | .referenceCheck | .category1Check | .category2Check | .category2SecondCheck => true
  | _ => false

def isReference : Bool :=
  match this with
  | .null | .reference _ => true
  | _ => false

/-- The test of a bit that the query types have, too. -/
def isUninitialized : Bool :=
  match this with
  | .uninitialized _ => true
  | _ => this.isCheck

/-- Everything but the primitive types and query types without the flag. -/
def isCategory1 : Bool :=
  match this with
  | .long | .double | .long2 | .double2 => false
  | .referenceCheck | .category2Check | .category2SecondCheck => false
  | _ => true

def isCategory2 : Bool :=
  match this with
  | .long | .double | .category2Check => true
  | _ => false

def isCategory2Second : Bool :=
  match this with
  | .long2 | .double2 | .category2SecondCheck => true
  | _ => false

def isObject : Bool :=
  match this with
  | .reference name => name.length ≥ 1 && name[0]? != some JvmSignature.array
  | _ => false

def isArray : Bool :=
  match this with
  | .reference name => name.length ≥ 2 && name[0]? == some JvmSignature.array
  | _ => false

/-- The length of the name of a reference type. -/
def nameLength : Nat :=
  match this with
  | .reference name => name.length
  | _ => 0

/-- The component type of an array, by the second character of its name. -/
def getComponent (name : Symbol) : Option VerificationType := do
  match ← char2type (← name[1]?) with
  | .boolean => some .boolean
  | .byte => some .byte
  | .char => some .char
  | .short => some .short
  | .int => some .integer
  | .long => some .long
  | .float => some .float
  | .double => some .double
  | .array => some (.reference (name.drop 1))
  | .object => some (.reference ((name.take (name.length - 1)).drop 2))
  | .void => none

variable (dict : SystemDictionary)

/-- `is_subclass_of`: run up the super chain. -/
def isSubclassOf (name : Symbol) (info : ClassInfo) (super : Symbol) : Bool :=
  name == super || info.superChain.contains super

/-- `is_reference_assignable_from`, with the call for the components left open. -/
def isReferenceAssignableWith (assignable : VerificationType → VerificationType → Option Bool)
    (source : VerificationType) : Option Bool :=
  match source, this with
  | .reference fromName, .reference name =>
    if name = fromName then some true
    else if this.isObject then
      if name = javaLangObject then some true
      else do
        let thisClass ← dict.resolveOrFail name
        if thisClass.isInterface then some true
        else if source.isObject then do
          let fromClass ← dict.resolveOrFail fromName
          some (isSubclassOf fromName fromClass name)
        else some false
    else if this.isArray && source.isArray then do
      assignable (← getComponent name) (← getComponent fromName)
    else some false
  | .null, _ => some true
  | _, _ => some false

/-- `is_assignable_from`, with the call for the components left open. -/
def isAssignableWith (assignable : VerificationType → VerificationType → Option Bool)
    (source : VerificationType) : Option Bool :=
  if this = source ∨ this = .bogus then some true
  else
    match this with
    | .category1Check => some source.isCategory1
    | .category2Check => some source.isCategory2
    | .category2SecondCheck => some source.isCategory2Second
    | .referenceCheck => some (source.isReference || source.isUninitialized)
    | .boolean | .byte | .char | .short => some (source = .integer)
    | _ =>
      if this.isReference && source.isReference then
        isReferenceAssignableWith this dict assignable source
      else some false

/-- `is_assignable_from`, for names of a bounded length. There is no result if a class cannot be
resolved. -/
def assignableLoop : Nat → VerificationType → VerificationType → Option Bool
  | 0, _, _ => none
  | fuel + 1, this, source => isAssignableWith this dict (assignableLoop fuel) source

/-- The name of a component is shorter than the name of its array. -/
def isAssignableFrom (source : VerificationType) : Option Bool :=
  assignableLoop dict (this.nameLength + 1) this source

end VerificationType

end Hotspot
