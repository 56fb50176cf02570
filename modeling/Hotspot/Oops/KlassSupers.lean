-- SUMMARY: The supertypes a class keeps: primary supers, secondary supers and the cache.
import Hotspot.Classfile.Descriptor
import Hotspot.Oops.ClassHierarchy

/-!
# Primary and secondary supers

Each class has a display: an array of its superclasses, indexed by their depth. A class knows the
cell of a display in which it must be found. Interfaces, arrays of them, and classes too deep for
the display are secondary: they are found in a list, or in the cell that caches the last one found.
-/

namespace Hotspot.Oops

/-- The loaded classes, with the interfaces that arrays implement. -/
structure Universe extends Hierarchy where
  cloneable : Nat
  serializable : Nat
  cloneable_interface : cloneable < table.length ∧ (table.cast cloneable).isInterface = true
  serializable_interface :
    serializable < table.length ∧ (table.cast serializable).isInterface = true

inductive Klass where
  | inst (k : Nat)
  | typeArray (t : BasicType)
  | objArray (elementKlass : Klass)
deriving DecidableEq, Repr

/-- `super_check_offset`: a cell of the display, or the cache of secondary supers. -/
inductive SuperCheckCell where
  | primary (depth : Nat)
  | secondary
deriving DecidableEq, Repr

/-- `_primary_super_limit` -/
def primarySuperLimit : Nat := 8

structure KlassSupers where
  superCheckOffset : SuperCheckCell
  primarySupers : List (Option Klass)
  secondarySupers : List Klass
deriving DecidableEq, Repr

namespace KlassSupers

def canBePrimarySuper (r : KlassSupers) : Bool :=
  match r.superCheckOffset with
  | .primary _ => true
  | .secondary => false

def superDepth (r : KlassSupers) : Nat :=
  match r.superCheckOffset with
  | .primary d => d
  | .secondary => primarySuperLimit

/-- The fields that are set when a class is allocated. -/
def preinitialized (k : Klass) : KlassSupers :=
  ⟨.primary 0, some k :: List.replicate (primarySuperLimit - 1) none, []⟩

end KlassSupers

namespace Klass

/-- `java.lang.Object` -/
def object : Klass := inst 0

def bottomKlass : Klass → Klass
  | objArray (objArray e) => bottomKlass (objArray e)
  | objArray e => e
  | k => k

end Klass

namespace Universe

variable (u : Universe)

/-- The superclass. The direct super of an array is the array of the super of its elements. -/
def super : Klass → Option Klass
  | .inst k => ((u.table.cast k).super).map .inst
  | .typeArray _ => some .object
  | .objArray e =>
    match super e with
    | none => some .object
    | some s => some (.objArray s)

/-- `can_be_primary_super_slow`, from the supers of the superclass and of the bottom class of an
array. -/
def canBePrimarySuperSlow (k : Klass) (sup : Option KlassSupers) (bottom : KlassSupers) : Bool :=
  let slow :=
    match sup with
    | none => true
    | some sup => !(primarySuperLimit - 1 ≤ sup.superDepth)
  match k with
  | .inst k => if (u.table.cast k).isInterface then false else slow
  | .typeArray _ => slow
  | .objArray _ => if !bottom.canBePrimarySuper then false else slow

/-- The display of a class, from that of its superclass. -/
def initializePrimarySupers (k : Klass) (sup : Option KlassSupers) (bottom : KlassSupers) :
    KlassSupers :=
  match sup with
  | none => .preinitialized k
  | some sup =>
    let myDepth := min (sup.superDepth + 1) primarySuperLimit
    let myDepth :=
      if !u.canBePrimarySuperSlow k (some sup) bottom then primarySuperLimit else myDepth
    if myDepth < primarySuperLimit then
      ⟨.primary myDepth,
        sup.primarySupers.take myDepth ++ some k ::
          List.replicate (primarySuperLimit - myDepth - 1) none, []⟩
    else ⟨.secondary, sup.primarySupers.take myDepth, []⟩

/-- `compute_secondary_supers`: the interfaces of a class, or for an array `Cloneable`,
`Serializable` and the arrays of the secondary supers of its elements. -/
def computeSecondarySupers (k : Klass) (element : KlassSupers) : List Klass :=
  match k with
  | .inst k => (u.table.cast k).transitiveInterfaces.map .inst
  | .typeArray _ => [.inst u.cloneable, .inst u.serializable]
  | .objArray _ => .inst u.cloneable :: .inst u.serializable ::
      element.secondarySupers.map .objArray

/-- `initialize_supers`. The superclasses that are secondary are added, from the farthest to the
nearest, if they are not in the list yet. -/
def initializeSupers (k : Klass) (above : List (Klass × KlassSupers))
    (element bottom : KlassSupers) : KlassSupers :=
  let extras := (above.takeWhile fun p => !p.2.canBePrimarySuper).map Prod.fst
  let secondaries := u.computeSecondarySupers k element
  { u.initializePrimarySupers k (above.head?.map Prod.snd) bottom with
    secondarySupers := (extras.filter fun p => !secondaries.contains p).reverse ++ secondaries }

/-- The classes on which the supers of a class depend come before it. -/
def rank : Klass → Nat
  | .inst k => k + 1
  | .typeArray _ => 2
  | .objArray e => rank e + 1

/-- A class and its superclasses, with their supers. -/
def superRecords : Nat → Klass → List (Klass × KlassSupers)
  | 0, _ => []
  | n + 1, k =>
    let above :=
      match u.super k with
      | none => []
      | some s => superRecords n s
    -- the supers of another class
    let supersOf := fun k' => (superRecords n k').head?.elim (.preinitialized k') Prod.snd
    let element :=
      match k with
      | .objArray e => supersOf e
      | k => .preinitialized k
    (k, u.initializeSupers k above element (supersOf k.bottomKlass)) :: above

def supers (k : Klass) : KlassSupers :=
  (u.superRecords (rank k + 1) k).head?.elim (.preinitialized k) Prod.snd

/-! ## The check -/

/-- `_secondary_super_cache` of each class -/
abbrev Caches := Klass → Option Klass

def searchSecondarySupers (caches : Caches) (s k : Klass) : Bool × Caches :=
  if s = k then (true, caches)
  else if (u.supers s).secondarySupers.contains k then (true, Function.update caches s (some k))
  else (false, caches)

def isSubtypeOf (caches : Caches) (s k : Klass) : Bool × Caches :=
  match (u.supers k).superCheckOffset with
  | .primary d => ((u.supers s).primarySupers.getD d none = some k, caches)
  | .secondary => if caches s = some k then (true, caches) else u.searchSecondarySupers caches s k

/-- Checks one after the other. -/
def checks (caches : Caches) (queries : List (Klass × Klass)) : Caches :=
  queries.foldl (fun caches q => (u.isSubtypeOf caches q.1 q.2).2) caches

end Universe

end Hotspot.Oops
