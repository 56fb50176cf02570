-- SUMMARY: The class hierarchy walker, and the checks of dependencies in full and for one class.
import Hotspot.Base.TreeWalk
import Hotspot.Oops.HierarchyLinking

/-!
# Dependencies

Compiled code depends on assertions about the class hierarchy. A check looks for a class that
breaks one, a witness. The full check walks the subtypes of the context type. The check for one
new class looks at this class only, and at the marks on its supertypes.
-/

namespace Hotspot.Dependencies

open Oops

/-! ## The walker -/

structure ClassHierarchyWalker where
  /-- The name and signature of a method search, nothing in a subtype search. -/
  selector : Option (String × String)
  participants : List Nat
  /-- The methods of the participants, and of the last class that had one. -/
  foundMethods : List (Option MethodOop)
  recordWitnesses : Nat
deriving DecidableEq, Repr

namespace ClassHierarchyWalker

def participantLimit : Nat := 3

/-- A walker with some participants. -/
def make (selector : Option (String × String)) (participants : List Nat) :
    ClassHierarchyWalker where
  selector
  participants
  foundMethods := List.replicate (participantLimit + 1) none
  recordWitnesses := 0

def addParticipant (w : ClassHierarchyWalker) (k : Nat) : ClassHierarchyWalker :=
  { w with
    participants := w.participants ++ [k]
    foundMethods := w.foundMethods.set (w.participants.length + 1) none }

end ClassHierarchyWalker

def isConcreteKlass (h : ClassTable) (k : Nat) : Bool := !(h.cast k).isAbstract

def isConcreteMethod (m : Method) : Bool := !m.isAbstract

section Walker

variable (h : ClassTable) (hide : Bool)

/-- `is_witness`, with the method that it memoizes. -/
def isWitness (w : ClassHierarchyWalker) (k : Nat) : Bool × ClassHierarchyWalker :=
  match w.selector with
  | none => (isConcreteKlass h k, w)
  | some (name, signature) =>
    match (h.cast k).findMethod name signature with
    | none => (false, w)
    | some m =>
      if isConcreteMethod m then
        (true, { w with foundMethods := w.foundMethods.set w.participants.length (some ⟨k, m⟩) })
      else (false, w)

/-- The test of one class: a participant, a witness, or neither. -/
def visit (w : ClassHierarchyWalker) (k : Nat) : Visit × ClassHierarchyWalker :=
  if w.participants.contains k then (if hide then .skip else .enter, w)
  else
    match isWitness h w k with
    | (false, w) => (.enter, w)
    | (true, w) =>
      -- `ignore_witness`
      if w.recordWitnesses = 0 then (.stop, w)
      else (.enter, { w with recordWitnesses := w.recordWitnesses - 1 }.addParticipant k)

/-- `ADD_SUBCLASS_CHAIN` -/
def addSubclassChain (k : Nat) (chains : List (List Nat)) : List (List Nat) :=
  match (h.cast k).subklasses with
  | [] => chains
  | c :: cs => (c :: cs) :: chains

/-- The loop over the direct implementors, by their indices. -/
def addImplementorChains (contextType : Nat) :
    List Nat → ClassHierarchyWalker → List (List Nat) →
      (Nat ⊕ List (List Nat)) × ClassHierarchyWalker
  | [], w, chains => (.inr chains, w)
  | i :: is, w, chains =>
    match (h.cast contextType).implementors[i]? with
    | none => (.inl contextType, w)
    | some impl =>
      match visit h hide w impl with
      | (.stop, w) => (.inl impl, w)
      | (.skip, w) => addImplementorChains contextType is w chains
      | (.enter, w) => addImplementorChains contextType is w (addSubclassChain h impl chains)

/-- The subclasses and the implementors of the context type. -/
def startChains (w : ClassHierarchyWalker) (contextType : Nat) :
    (Nat ⊕ List (List Nat)) × ClassHierarchyWalker :=
  let nofImpls := (h.cast contextType).nofImplementors
  if 1 < nofImpls then (.inl contextType, w)
  else addImplementorChains h hide contextType (List.range nofImpls) w
    (addSubclassChain h contextType [])

/-- `CHAINMAX`, which is partially disabled if `VerifyDependencies`. -/
def chainLimit (verifyDependencies : Bool) : Nat := if verifyDependencies then 2 else 100

def hierarchyWalk (verifyDependencies : Bool) : TreeWalk Nat ClassHierarchyWalker where
  children := fun k => (h.cast k).subklasses
  visit := visit h hide
  start := startChains h hide
  limit := chainLimit verifyDependencies

end Walker

/-! ## Changes -/

/-- `DepChange::ContextStream`: the new type, its superclasses, and its transitive interfaces. -/
def contextStream (h : ClassTable) (newType : Nat) : List Nat :=
  h.superChain (newType + 1) newType ++ (h.cast newType).transitiveInterfaces

def involvesContext (h : ClassTable) (newType k : Nat) : Bool :=
  (contextStream h newType).contains k

/-- The spot-checking version of the search. -/
def findWitnessIn (h : ClassTable) (newType : Nat) (hide : Bool) (w : ClassHierarchyWalker)
    (contextType : Nat) :
    Option Nat × ClassHierarchyWalker :=
  if 1 < (h.cast contextType).nofImplementors then (some contextType, w)
  else if hide && w.participants.any (involvesContext h newType) then (none, w)
  else
    match isWitness h w newType with
    | (false, w) => (none, w)
    | (true, w) =>
      if w.recordWitnesses = 0 then (some newType, w)
      else (none, { w with recordWitnesses := w.recordWitnesses - 1 }.addParticipant newType)

/-! ## The checks -/

section Checks

variable (h : ClassTable) (verifyDependencies : Bool)

/-- `find_witness_subtype` and `find_witness_definer`: participants hide witnesses in a search for
subtypes only. -/
def findWitness (hide : Bool) (w : ClassHierarchyWalker) (ctxk : Nat) (changes : Option Nat)
    (fuel : Nat) :
    Option (Option Nat × ClassHierarchyWalker) :=
  match changes with
  | some newType => some (findWitnessIn h newType hide w ctxk)
  | none => (hierarchyWalk h hide verifyDependencies).search fuel w ctxk

def findWitnessSubtype (w : ClassHierarchyWalker) (ctxk : Nat) (changes : Option Nat) (fuel : Nat) :
    Option (Option Nat) := (findWitness h verifyDependencies true w ctxk changes fuel).map Prod.fst

def findWitnessDefiner (w : ClassHierarchyWalker) (ctxk : Nat) (changes : Option Nat) (fuel : Nat) :
    Option (Option Nat) := (findWitness h verifyDependencies false w ctxk changes fuel).map Prod.fst

def checkEvolMethod (m : MethodOop) : Option Nat :=
  if m.method.isOld || 0 < m.method.numberOfBreakpoints then some m.holder else none

def checkLeafType (ctxk : Nat) : Option Nat :=
  match (h.cast ctxk).subklasses with
  | sub :: _ => some sub
  | [] =>
    if (h.cast ctxk).nofImplementors ≠ 0 then
      match (h.cast ctxk).implementors[0]? with
      | some impl => some impl
      | none => some ctxk
    else none

def checkAbstractWithUniqueConcreteSubtype (ctxk conck : Nat) :
    Option Nat → Nat → Option (Option Nat) :=
  findWitnessSubtype h verifyDependencies (.make none [conck]) ctxk

def checkAbstractWithNoConcreteSubtype (ctxk : Nat) : Option Nat → Nat → Option (Option Nat) :=
  findWitnessSubtype h verifyDependencies (.make none []) ctxk

/-- "Find any concrete subtype, with only the ctxk as participant" -/
def checkConcreteWithNoConcreteSubtype (ctxk : Nat) : Option Nat → Nat → Option (Option Nat) :=
  findWitnessSubtype h verifyDependencies (.make none [ctxk]) ctxk

def checkAbstractWithExclusiveConcreteSubtypes (ctxk k1 k2 : Nat) :
    Option Nat → Nat → Option (Option Nat) :=
  findWitnessSubtype h verifyDependencies (.make none [k1, k2]) ctxk

def checkUniqueConcreteMethod (ctxk : Nat) (uniqm : MethodOop) :
    Option Nat → Nat → Option (Option Nat) :=
  findWitnessDefiner h verifyDependencies
    (.make (some (uniqm.method.name, uniqm.method.signature)) [uniqm.holder]) ctxk

def checkExclusiveConcreteMethods (ctxk : Nat) (m1 m2 : MethodOop) :
    Option Nat → Nat → Option (Option Nat) :=
  findWitnessDefiner h verifyDependencies
    (.make (some (m1.method.name, m1.method.signature)) [m1.holder, m2.holder]) ctxk

/-- The recursion of `find_finalizable_subclass` into the chain of siblings. -/
def findFinalizable : Nat → List Nat → Option (Option Nat)
  | _, [] => some none
  | 0, _ :: _ => none
  | fuel + 1, k :: siblings =>
    if (h.cast k).isInterface then findFinalizable fuel siblings
    else if (h.cast k).hasFinalizer then some (some k)
    else
      match findFinalizable fuel (h.cast k).subklasses with
      | none => none
      | some (some result) => some (some result)
      | some none => findFinalizable fuel siblings

/-- `find_finalizable_subclass` of one class, which is a chain without siblings. -/
def checkHasNoFinalizableSubclasses (ctxk : Nat) (changes : Option Nat) (fuel : Nat) :
    Option (Option Nat) :=
  findFinalizable h fuel [changes.getD ctxk]

inductive Dependency where
  | evolMethod (m : MethodOop)
  | leafType (ctxk : Nat)
  | abstractWithUniqueConcreteSubtype (ctxk conck : Nat)
  | abstractWithNoConcreteSubtype (ctxk : Nat)
  | concreteWithNoConcreteSubtype (ctxk : Nat)
  | uniqueConcreteMethod (ctxk : Nat) (uniqm : MethodOop)
  | abstractWithExclusiveConcreteSubtypes (ctxk k1 k2 : Nat)
  | exclusiveConcreteMethods (ctxk : Nat) (m1 m2 : MethodOop)
  | noFinalizableSubclasses (ctxk : Nat)
deriving DecidableEq, Repr

def Dependency.contextType : Dependency → Option Nat
  | .evolMethod _ => none
  | .leafType ctxk => some ctxk
  | .abstractWithUniqueConcreteSubtype ctxk _ => some ctxk
  | .abstractWithNoConcreteSubtype ctxk => some ctxk
  | .concreteWithNoConcreteSubtype ctxk => some ctxk
  | .uniqueConcreteMethod ctxk _ => some ctxk
  | .abstractWithExclusiveConcreteSubtypes ctxk _ _ => some ctxk
  | .exclusiveConcreteMethods ctxk _ _ => some ctxk
  | .noFinalizableSubclasses ctxk => some ctxk

/-- `check_dependency_impl` -/
def checkDependency (changes : Option Nat) (fuel : Nat) : Dependency → Option (Option Nat)
  | .evolMethod m => some (checkEvolMethod m)
  | .leafType ctxk => some (checkLeafType h ctxk)
  | .abstractWithUniqueConcreteSubtype ctxk conck =>
    checkAbstractWithUniqueConcreteSubtype h verifyDependencies ctxk conck changes fuel
  | .abstractWithNoConcreteSubtype ctxk =>
      checkAbstractWithNoConcreteSubtype h verifyDependencies ctxk changes fuel
  | .concreteWithNoConcreteSubtype ctxk =>
      checkConcreteWithNoConcreteSubtype h verifyDependencies ctxk changes fuel
  | .uniqueConcreteMethod ctxk uniqm =>
      checkUniqueConcreteMethod h verifyDependencies ctxk uniqm changes fuel
  | .abstractWithExclusiveConcreteSubtypes ctxk k1 k2 =>
    checkAbstractWithExclusiveConcreteSubtypes h verifyDependencies ctxk k1 k2 changes fuel
  | .exclusiveConcreteMethods ctxk m1 m2 =>
      checkExclusiveConcreteMethods h verifyDependencies ctxk m1 m2 changes fuel
  | .noFinalizableSubclasses ctxk => checkHasNoFinalizableSubclasses h ctxk changes fuel

/-- The check that assumes nothing about what changed. -/
def fullCheck (dep : Dependency) (fuel : Nat) : Option (Option Nat) :=
  checkDependency h verifyDependencies none fuel dep

def spotCheckDependencyAt (newType : Nat) (dep : Dependency) (fuel : Nat) : Option (Option Nat) :=
  match dep.contextType with
  | none => some none
  | some ctxk =>
    if involvesContext h newType ctxk then
      checkDependency h verifyDependencies (some newType) fuel dep else some none

end Checks

/-! ## Unique concrete methods -/

/-- `find_unique_concrete_method` -/
def findUniqueConcreteMethod (h : ClassTable) (verifyDependencies : Bool) (ctxk : Nat)
    (m : MethodOop) (fuel : Nat) :
    Option (Option MethodOop) := do
  let w : ClassHierarchyWalker :=
    { ClassHierarchyWalker.make (some (m.method.name, m.method.signature)) []
    with recordWitnesses := 1 }
  let (wit, w) ← findWitness h verifyDependencies false w ctxk none fuel
  if wit.isSome then return none
  let fm := w.foundMethods.getD 0 none
  if isConcreteMethod m.method then
    match fm with
    | none => return some m
    | some fm => if fm ≠ m then return none else return some fm
  else return fm

end Hotspot.Dependencies
