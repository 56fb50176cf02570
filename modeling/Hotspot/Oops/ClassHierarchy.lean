-- SUMMARY: The hierarchy of loaded classes, and how a new class is linked into it.
import Mathlib

/-!
# The class hierarchy

A loaded class is known by its position in load order. Its class file gives the superclass, the
interfaces and the methods. The links to subclasses and implementors are made when later classes
are added to the hierarchy.
-/

namespace Hotspot.Oops

inductive Access where
  | privateAccess
  | packagePrivate
  | protectedAccess
  | publicAccess
deriving DecidableEq, Repr, Inhabited

/-- A method of a class, other than its initializers. -/
structure Method where
  name : String
  signature : String
  access : Access
  isStatic : Bool
  isFinal : Bool
  isAbstract : Bool
  isOld : Bool
  numberOfBreakpoints : Nat
deriving DecidableEq, Repr, Inhabited

def Method.SameSelector (m m' : Method) : Prop := m.name = m'.name ∧ m.signature = m'.signature

instance : DecidableRel Method.SameSelector := fun _ _ => inferInstanceAs (Decidable (_ ∧ _))

namespace Method.SameSelector

variable {m m' m'' : Method}

theorem symm (h : m.SameSelector m') : m'.SameSelector m := ⟨h.1.symm, h.2.symm⟩

theorem trans (h : m.SameSelector m') (h' : m'.SameSelector m'') : m.SameSelector m'' :=
  ⟨h.1.trans h'.1, h.2.trans h'.2⟩

end Method.SameSelector

/-- A method of a loaded class. -/
structure MethodOop where
  holder : Nat
  method : Method
deriving DecidableEq, Repr

/-- What the class file says. The package includes the class loader. -/
structure ParsedKlass where
  super : Option Nat
  isInterface : Bool
  isAbstract : Bool
  isFinal : Bool
  hasFinalizer : Bool
  package : String
  localInterfaces : List Nat
  methods : List Method
deriving DecidableEq, Repr, Inhabited

structure InstanceKlass extends ParsedKlass where
  transitiveInterfaces : List Nat
  /-- `subklass()` and its siblings -/
  subklasses : List Nat
  nofImplementors : Nat
  implementors : List Nat
deriving DecidableEq, Repr, Inhabited

namespace InstanceKlass

def findMethod (ik : InstanceKlass) (name signature : String) : Option Method :=
  ik.methods.find? fun m => m.name = name ∧ m.signature = signature

def implementorsLimit : Nat := 2

/-- One more implementor. The list is cleared on first overflow. -/
def recordImplementor (k : Nat) (ik : InstanceKlass) : InstanceKlass :=
  let i := ik.nofImplementors
  { ik with
    nofImplementors := i + 1
    implementors :=
      if i < implementorsLimit then ik.implementors ++ [k]
      else if i = implementorsLimit then []
      else ik.implementors }

def pushSubklass (k : Nat) (ik : InstanceKlass) : InstanceKlass := { ik with subklasses := k :: ik.subklasses }

end InstanceKlass

abbrev ClassTable := List InstanceKlass

namespace ClassTable

variable (h : ClassTable)

/-- `instanceKlass::cast` -/
def cast (k : Nat) : InstanceKlass := h.getD k default

/-! ## Supertypes -/

/-- The class and its superclasses. -/
def superChain : Nat → Nat → List Nat
  | 0, _ => []
  | n + 1, k =>
    match (h.cast k).super with
    | none => [k]
    | some s => k :: superChain n s

def isSubclassOf (k c : Nat) : Bool := (h.superChain (k + 1) k).contains c

def implementsInterface (k i : Nat) : Bool := k == i || (h.cast k).transitiveInterfaces.contains i

/-- `compute_is_subtype_of` -/
def isSubtypeOf (k c : Nat) : Bool :=
  if (h.cast c).isInterface then h.implementsInterface k c else h.isSubclassOf k c

def appendInterfaces (result ifs : List Nat) : List Nat :=
  ifs.foldl (fun result e => if result.contains e then result else result ++ [e]) result

/-- The transitive interfaces of the superclass, if there is one. -/
def superInterfaces : Option Nat → List Nat
  | none => []
  | some s => (h.cast s).transitiveInterfaces

def computeTransitiveInterfaces (super : Option Nat) (localIfs : List Nat) : List Nat :=
  let superIfs := h.superInterfaces super
  let maxTransitiveSize :=
    superIfs.length + (localIfs.map fun l => (h.cast l).transitiveInterfaces.length).sum + localIfs.length
  if maxTransitiveSize = 0 then []
  else if maxTransitiveSize = superIfs.length then superIfs
  else if maxTransitiveSize = localIfs.length then localIfs
  else
    let result := appendInterfaces [] superIfs
    let result := localIfs.foldl (fun result l => appendInterfaces result (h.cast l).transitiveInterfaces) result
    appendInterfaces result localIfs

/-! ## Linking a new class -/

def appendToSiblingList (k : Nat) : ClassTable :=
  match (h.cast k).super with
  | none => h
  | some s => h.modify s (InstanceKlass.pushSubklass k)

/-- The superclass already implements the interface. -/
def superImplements (k i : Nat) : Bool :=
  match (h.cast k).super with
  | none => false
  | some sk => h.implementsInterface sk i

/-- `add_implementor` of the interface `i`. The superinterfaces of an interface are loaded before
it, so the depth of the recursion is at most `i`. -/
def addImplementor : Nat → ClassTable → Nat → Nat → ClassTable
  | 0, h, _, _ => h
  | n + 1, h, i, k =>
    if (h.cast k).isInterface then h
    else if h.superImplements k i then h
    else
      (h.cast i).localInterfaces.foldl (fun h j => addImplementor n h j k)
        (h.modify i (InstanceKlass.recordImplementor k))

def processInterfaces (k : Nat) : ClassTable :=
  (h.cast k).localInterfaces.reverse.foldl (fun h i => addImplementor (i + 1) h i k) h

def addToHierarchy (p : ParsedKlass) : ClassTable :=
  let k := h.length
  let ik : InstanceKlass :=
    { p with
      transitiveInterfaces := h.computeTransitiveInterfaces p.super p.localInterfaces
      subklasses := [], nofImplementors := 0, implementors := [] }
  (appendToSiblingList (h ++ [ik]) k).processInterfaces k

/-! ## Well-formed hierarchies -/

/-- `k` is `c` or a subclass of it. -/
def Subclass : Nat → Nat → Prop := Relation.ReflTransGen fun a b => (h.cast a).super = some b

/-- What the parser and the resolution of the supertypes have checked before a class is linked. -/
structure Linkable (p : ParsedKlass) : Prop where
  super : ∃ s < h.length, p.super = some s ∧ (h.cast s).isInterface = false
  localInterfaces : ∀ i ∈ p.localInterfaces, i < h.length ∧ (h.cast i).isInterface = true
  interface_super : p.isInterface = true → p.super = some 0
  interface_abstract : p.isInterface = true → p.isAbstract = true
  interface_methods : p.isInterface = true →
    ∀ m ∈ p.methods, m.isAbstract = true ∧ m.isStatic = false ∧ m.access = .publicAccess
  methods : p.methods.Pairwise fun m m' => ¬ m.SameSelector m'

/-- The supertypes of the loaded classes. The class `0` is `java.lang.Object`. -/
structure Supertypes : Prop where
  object : 0 < h.length ∧ (h.cast 0).super = none ∧ (h.cast 0).isInterface = false ∧ (h.cast 0).isAbstract = false
  super : ∀ k, 0 < k → k < h.length → ∃ s < k, (h.cast k).super = some s ∧ (h.cast s).isInterface = false
  localInterfaces : ∀ k, ∀ i ∈ (h.cast k).localInterfaces, i < k ∧ (h.cast i).isInterface = true
  transitiveInterfaces : ∀ k i, i ∈ (h.cast k).transitiveInterfaces ↔
    (∃ s, (h.cast k).super = some s ∧ i ∈ (h.cast s).transitiveInterfaces) ∨
      ∃ l ∈ (h.cast k).localInterfaces, i = l ∨ i ∈ (h.cast l).transitiveInterfaces
  interface_super : ∀ k, (h.cast k).isInterface = true → (h.cast k).super = some 0
  interface_abstract : ∀ k, (h.cast k).isInterface = true → (h.cast k).isAbstract = true
  interface_methods : ∀ k, (h.cast k).isInterface = true →
    ∀ m ∈ (h.cast k).methods, m.isAbstract = true ∧ m.isStatic = false ∧ m.access = .publicAccess
  methods : ∀ k, (h.cast k).methods.Pairwise fun m m' => ¬ m.SameSelector m'

/-- The links downwards: subclasses and implementors. -/
structure WellFormed : Prop extends h.Supertypes where
  subklasses : ∀ k c, c ∈ (h.cast k).subklasses ↔ c < h.length ∧ (h.cast c).super = some k
  /-- Only interfaces have implementors. -/
  nofImplementors : ∀ k, (h.cast k).isInterface = false → (h.cast k).nofImplementors = 0
  implementors_length : ∀ k, (h.cast k).nofImplementors ≤ InstanceKlass.implementorsLimit →
    (h.cast k).implementors.length = (h.cast k).nofImplementors
  implementors_sound : ∀ k, ∀ c ∈ (h.cast k).implementors,
    c < h.length ∧ (h.cast c).isInterface = false ∧ k ∈ (h.cast c).transitiveInterfaces
  /-- The classes that implement an interface are below its implementors, unless there are too
      many. -/
  implementors_complete : ∀ k, (h.cast k).nofImplementors ≤ InstanceKlass.implementorsLimit →
    ∀ d < h.length, (h.cast d).isInterface = false → k ∈ (h.cast d).transitiveInterfaces →
      ∃ c ∈ (h.cast k).implementors, h.Subclass d c

end ClassTable

/-- The hierarchies that linking makes, and all others with its invariant. -/
structure Hierarchy where
  table : ClassTable
  wf : table.WellFormed

end Hotspot.Oops
