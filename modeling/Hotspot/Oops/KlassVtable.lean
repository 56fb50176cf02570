-- SUMMARY: The virtual method tables: their computed size, and their filling.
import Hotspot.Oops.ClassHierarchy

/-!
# Virtual method tables

The table of a class starts with a copy of the table of its superclass. A method that overrides
the occupant of a slot takes its place, and other methods get new slots at the end, followed by
the mirandas: the interface methods that neither the class nor a superclass declares.
-/

namespace Hotspot.Oops

namespace Method

def isPublicOrProtected (m : Method) : Bool :=
  m.access == .publicAccess || m.access == .protectedAccess

def isPackagePrivate (m : Method) : Bool := m.access == .packagePrivate

def isPrivate (m : Method) : Bool := m.access == .privateAccess

end Method

namespace ClassTable

variable (h : ClassTable)

def isSameClassPackage (k c : Nat) : Bool := (h.cast k).package == (h.cast c).package

/-- `uncached_lookup_method`. For an interface it also looks in `java.lang.Object`, its
superclass. -/
def lookupMethod (k : Nat) (name signature : String) : Option MethodOop :=
  (h.superChain (k + 1) k).findSome? fun c =>
    ((h.cast c).findMethod name signature).map (MethodOop.mk c)

def lookupMethodInAllInterfaces (k : Nat) (name signature : String) : Option MethodOop :=
  (h.cast k).transitiveInterfaces.findSome? fun i => h.lookupMethod i name signature

/-! ## Mirandas -/

def isMiranda (k : Nat) (m : Method) : Bool :=
  ((h.cast k).findMethod m.name m.signature).isNone &&
    match (h.cast k).super with
    | none => true
    | some s => (h.lookupMethod s m.name m.signature).isNone

/-- The method is already a miranda of the superclass. -/
def isSuperMiranda (k : Nat) (m : Method) : Bool :=
  match (h.cast k).super with
  | none => false
  | some s => (h.lookupMethodInAllInterfaces s m.name m.signature).isSome

/-- The mirandas that the interface `i` adds. -/
def addNewMirandasToList (k : Nat) (mirandas : List MethodOop) (i : Nat) : List MethodOop :=
  (h.cast i).methods.foldl
    (fun mirandas im =>
      let isDuplicate := mirandas.any fun miranda => im.SameSelector miranda.method
      if !isDuplicate && h.isMiranda k im && !h.isSuperMiranda k im then mirandas ++ [⟨i, im⟩]
        else mirandas)
    mirandas

def getMirandas (k : Nat) : List MethodOop :=
  (h.cast k).localInterfaces.foldl
    (fun mirandas l =>
      (h.cast l).transitiveInterfaces.foldl (h.addNewMirandasToList k)
        (h.addNewMirandasToList k mirandas l))
    []

/-- The flag is set for a class that introduces mirandas, and inherited. -/
def hasMirandaMethods (k : Nat) : Bool :=
  (h.superChain (k + 1) k).any fun c => 0 < (h.getMirandas c).length

/-! ## The size of a table -/

/-- `target`, declared in `k`, re-uses the entry of the method `m` above. -/
def reusesEntry (k : Nat) (target : Method) (m : MethodOop) : Bool :=
  !m.method.isStatic &&
    ((target.isPublicOrProtected && m.method.isPublicOrProtected) ||
      (target.isPackagePrivate && m.method.isPackagePrivate && h.isSameClassPackage m.holder k))

/-- The loop over the superclasses. -/
def matchAbove (k : Nat) (target : Method) : Nat → Option Nat → Bool
  | 0, _ => false
  | _ + 1, none => false
  | n + 1, some c =>
    match h.lookupMethod c target.name target.signature with
    | none => false
    | some m => h.reusesEntry k target m || matchAbove k target n (h.cast m.holder).super

def needsNewVtableEntry (k : Nat) (target : Method) : Bool :=
  if (h.cast k).isFinal || target.isFinal || target.isStatic then false
  else
    match (h.cast k).super with
    | none => true
    | some s =>
      if target.isPrivate then true
      else if h.matchAbove k target (s + 1) (some s) then false
      else
        !(target.isPublicOrProtected && h.hasMirandaMethods s &&
          (h.lookupMethodInAllInterfaces s target.name target.signature).isSome)

/-- `compute_vtable_size_and_num_mirandas` -/
def computeVtableSize (superVtableLength k : Nat) : Nat :=
  superVtableLength + ((h.cast k).methods.countP (h.needsNewVtableEntry k)) +
    (h.getMirandas k).length

end ClassTable

/-! ## The filling of a table -/

inductive AccessType where
  | accPrivate
  | accPackagePrivate
  | accPublicProtected
deriving DecidableEq, Repr

namespace AccessType

def max : AccessType → AccessType → AccessType
  | accPublicProtected, _ => accPublicProtected
  | accPackagePrivate, accPublicProtected => accPublicProtected
  | accPackagePrivate, _ => accPackagePrivate
  | accPrivate, a => a

end AccessType

/-- The entries of a table. Entries that were never filled are null. -/
abbrev VTable := List (Option MethodOop)

/-- The broadest access of the occupants of a slot, in a table and in the tables of the
superclasses. -/
def vtableAccessibilityAt : List VTable → Nat → AccessType
  | [], _ => .accPrivate
  | table :: supers, i =>
    match table[i]? with
    | some (some m) =>
      if m.method.isPublicOrProtected then .accPublicProtected
      else
        (if m.method.isPackagePrivate then AccessType.accPackagePrivate else .accPrivate).max
          (vtableAccessibilityAt supers i)
    | _ => .accPrivate

/-- The result of `update_super_vtable`: the inherited slots, whether the method needs a new one,
and its index if it shares one. -/
structure UpdatedVtable where
  table : VTable
  allocateNew : Bool
  vtableIndex : Option Nat
deriving DecidableEq, Repr

namespace ClassTable

variable (h : ClassTable)

/-- The occupant of a slot is accessible from the class `k`. -/
def simpleMatch (k : Nat) (m : MethodOop) : Bool :=
  m.method.isPublicOrProtected || (m.method.isPackagePrivate && h.isSameClassPackage m.holder k)

def sameAccess (k : Nat) (target : Method) (m : MethodOop) (access : AccessType) : Bool :=
  (access == .accPublicProtected && target.isPublicOrProtected) ||
    (access == .accPackagePrivate && target.isPackagePrivate && h.isSameClassPackage m.holder k)

/-- The slot `i` in the loop of `update_super_vtable`. -/
def updateSlot (k : Nat) (supers : List VTable) (target : Method) (u : UpdatedVtable) (i : Nat) :
    UpdatedVtable :=
  match u.table[i]? with
  | some (some m) =>
    if target.SameSelector m.method && h.simpleMatch k m then
      let table := u.table.set i (some ⟨k, target⟩)
      if h.sameAccess k target m (vtableAccessibilityAt (u.table :: supers) i)
        then ⟨table, false, some i⟩
      else ⟨table, u.allocateNew, u.vtableIndex⟩
    else u
  | _ => u

def updateSuperVtable (k : Nat) (supers : List VTable) (table : VTable) (target : Method) :
    UpdatedVtable :=
  if target.isStatic then ⟨table, false, none⟩
  else
    let allocateNew := !((h.cast k).isFinal || target.isFinal)
    if (h.cast k).super.isNone || target.isPrivate then ⟨table, allocateNew, none⟩
    else (List.range table.length).foldl (h.updateSlot k supers target) ⟨table, allocateNew, none⟩

/-- The state of the loop of `initialize_vtable`: the inherited slots, the new ones, and the indices
of the methods so far. -/
structure Filling where
  inherited : VTable
  added : List MethodOop
  indices : List (Method × Option Nat)
deriving DecidableEq, Repr

def fillMethod (k : Nat) (supers : List VTable) (f : Filling) (target : Method) : Filling :=
  let u := h.updateSuperVtable k supers f.inherited target
  if u.allocateNew then
    ⟨u.table, f.added ++ [⟨k, target⟩], f.indices ++
      [(target, some (u.table.length + f.added.length))]⟩
  else ⟨u.table, f.added, f.indices ++ [(target, u.vtableIndex)]⟩

end ClassTable

/-- A table after `initialize_vtable`: the length that was computed for it, the entries that were
written, and the vtable indices of the methods of the class. -/
structure KlassVtable where
  length : Nat
  written : VTable
  indices : List (Method × Option Nat)
deriving DecidableEq, Repr

namespace KlassVtable

/-- The entries within the length. What was written beyond it is not part of the table, and the rest
is cleared. -/
def table (v : KlassVtable) : VTable :=
  (v.written ++ List.replicate (v.length - v.written.length) none).take v.length

def vtableIndex (v : KlassVtable) (m : Method) : Option Nat :=
  (v.indices.find? fun p => p.1 = m).bind Prod.snd

end KlassVtable

namespace ClassTable

variable (h : ClassTable)

def initializeVtable (k : Nat) (supers : List VTable) : KlassVtable :=
  let inherited := supers.headD []
  let f := (h.cast k).methods.foldl (h.fillMethod k supers) ⟨inherited, [], []⟩
  { length := h.computeVtableSize inherited.length k
    written := f.inherited ++ f.added.map some ++ (h.getMirandas k).map some
    indices := f.indices }

/-- The tables of a class and of its superclasses. -/
def vtables : Nat → Nat → List VTable
  | 0, _ => []
  | n + 1, k =>
    match (h.cast k).super with
    | none => [(h.initializeVtable k []).table]
    | some s => (h.initializeVtable k (vtables n s)).table :: vtables n s

def superVtables (k : Nat) : List VTable :=
  match (h.cast k).super with
  | none => []
  | some s => h.vtables (s + 1) s

def vtable (k : Nat) : KlassVtable := h.initializeVtable k (h.superVtables k)

end ClassTable

end Hotspot.Oops
