-- SUMMARY: Soundness of assignability, and the array types that it confuses.
import Hotspot.Classfile.VerificationType

/-!
# Assignability

The types of the Java virtual machine are given as a data type, with the number of dimensions
and the element type of an array. The specification of assignability is a relation on them;
the test of the verifier is compared with it on their representations.
-/

namespace Hotspot

/-! ## Types -/

/-- The name of a class that is not an array. -/
structure JavaClassName extends ClassName where
  ne_nil : name ≠ []
  no_array : JvmSignature.array ∉ name

/-- What an array holds in the end. -/
inductive JavaElement where
  | primitive (t : BasicType) (h : t.isJavaPrimitive = true)
  | object (n : JavaClassName)

/-- The types of values, and the types of the verifier that are no types of values. -/
inductive JavaType where
  | top
  | primitive (t : BasicType) (h : t.isJavaPrimitive = true)
  | long2
  | double2
  | null
  | uninitialized (bci : JChar)
  | object (n : JavaClassName)
  /-- An array with one dimension more than `dims`. -/
  | array (dims : Nat) (e : JavaElement)

namespace JavaElement

def toType : JavaElement → JavaType
  | .primitive t h => .primitive t h
  | .object n => .object n

/-- The descriptor of the element type. -/
def text : JavaElement → Symbol
  | .primitive t _ => [t.letter]
  | .object n => JvmSignature.cls :: (n.name ++ [JvmSignature.endclass])

end JavaElement

namespace JavaType

/-- The descriptor of an array type. -/
def arrayText (dims : Nat) (e : JavaElement) : Symbol :=
  List.replicate (dims + 1) JvmSignature.array ++ e.text

/-- The representation of a primitive type. -/
def ofBasicType : BasicType → VerificationType
  | .boolean => .boolean
  | .char => .char
  | .float => .float
  | .double => .double
  | .byte => .byte
  | .short => .short
  | .int => .integer
  | .long => .long
  | .object | .array | .void => .bogus

/-- The representation of a type. -/
def encode : JavaType → VerificationType
  | .top => .bogus
  | .primitive t _ => ofBasicType t
  | .long2 => .long2
  | .double2 => .double2
  | .null => .null
  | .uninitialized bci => .uninitialized bci
  | .object n => .reference n.name
  | .array dims e => .reference (arrayText dims e)

/-- The component type of an array. -/
def component : Nat → JavaElement → JavaType
  | 0, e => e.toType
  | dims + 1, e => .array dims e

/-- Class types, array types and the type of `null`. -/
def IsReference : JavaType → Prop
  | .null | .object _ | .array _ _ => True
  | _ => False

end JavaType

/-! ## Specification -/

namespace SystemDictionary

variable (D dict : SystemDictionary)

def IsInterface (n : Symbol) : Prop :=
  ∃ info, dict.resolveOrFail n = some info ∧ info.isInterface = true

/-- One class is below another one. -/
def IsBelow (m n : Symbol) : Prop :=
  ∃ info, dict.resolveOrFail m = some info ∧ n ∈ info.superChain

/-- The superclasses of a class can be resolved, the superclasses of a superclass are superclasses,
`Object` has none, and an interface has no other one than `Object`. -/
structure Consistent : Prop where
  below_resolved : ∀ m n, dict.IsBelow m n → ∃ info, dict.resolveOrFail n = some info
  below_trans : ∀ k m n, dict.IsBelow k m → dict.IsBelow m n → dict.IsBelow k n
  object_below : ∀ n, ¬dict.IsBelow javaLangObject n
  interface_below : ∀ m n, dict.IsInterface m → dict.IsBelow m n → n = javaLangObject

/-- A value of the second type may be used where one of the first type is expected. Arrays are
covariant in the components that `covariant` allows. -/
inductive Related (covariant : JavaType → JavaType → Prop) : JavaType → JavaType → Prop where
  | refl (t) : Related covariant t t
  | top (t) : Related covariant .top t
  | int (t h h') (ht : t = .boolean ∨ t = .byte ∨ t = .char ∨ t = .short) :
      Related covariant (.primitive t h) (.primitive .int h')
  | null_object (n) : Related covariant (.object n) .null
  | null_array (dims e) : Related covariant (.array dims e) .null
  /-- Interfaces are treated like `Object`. -/
  | object_object (n m) (hn : n.name = javaLangObject ∨ dict.IsInterface n.name) :
      Related covariant (.object n) (.object m)
  | object_array (n dims e) (hn : n.name = javaLangObject ∨ dict.IsInterface n.name) :
      Related covariant (.object n) (.array dims e)
  | subclass (n m) (h : dict.IsBelow m.name n.name) : Related covariant (.object n) (.object m)
  | array (dims e dims' e')
      (hallowed : covariant (JavaType.component dims e) (JavaType.component dims' e'))
      (hcomp : Related covariant (JavaType.component dims e) (JavaType.component dims' e')) :
      Related covariant (.array dims e) (.array dims' e')

/-- The specification: only references are covariant. -/
def Assignable : JavaType → JavaType → Prop :=
  dict.Related fun t u => t.IsReference ∧ u.IsReference

/-- What the verifier accepts: all components are treated like values. -/
def Accepted : JavaType → JavaType → Prop := dict.Related fun _ _ => True

end SystemDictionary

/-! ## Representations -/

namespace JavaType

variable (d : Nat)

theorem arrayText_succ (e : JavaElement) :
    arrayText (d + 1) e = JvmSignature.array :: arrayText d e := rfl

theorem arrayText_eq_cons (e : JavaElement) :
    ∃ s, arrayText d e = JvmSignature.array :: s ∧ s ≠ [] := by
  refine ⟨List.replicate d JvmSignature.array ++ e.text, rfl, ?_⟩
  cases e <;> simp [JavaElement.text]

theorem isArray_encode (e : JavaElement) : (array d e).encode.isArray = true := by
  obtain ⟨s, hs, hne⟩ := arrayText_eq_cons d e
  have hlen := List.length_pos_iff.mpr hne
  simp only [encode, VerificationType.isArray, hs]
  simp
  omega

theorem isObject_array (e : JavaElement) : (array d e).encode.isObject = false := by
  obtain ⟨s, hs, -⟩ := arrayText_eq_cons d e
  simp [encode, VerificationType.isObject, hs]

variable (n : JavaClassName)

theorem name_head : n.name[0]? ≠ some JvmSignature.array := by
  intro h
  exact n.no_array (List.mem_of_getElem? h)

theorem isObject_object : (object n).encode.isObject = true := by
  have hlen := List.length_pos_iff.mpr n.ne_nil
  simp only [encode, VerificationType.isObject, Bool.and_eq_true, bne_iff_ne, decide_eq_true_eq]
  exact ⟨hlen, name_head n⟩

theorem isArray_object : (object n).encode.isArray = false := by
  simp only [encode, VerificationType.isArray, Bool.and_eq_false_iff, beq_eq_false_iff_ne]
  exact .inr (name_head n)

/-- The component of a descriptor is the descriptor of the component. -/
theorem getComponent_arrayText (e : JavaElement) :
    VerificationType.getComponent (arrayText d e) = some (component d e).encode := by
  cases d with
  | zero =>
    cases e with
    | primitive t h =>
      have hletter : (arrayText 0 (.primitive t h))[1]? = some t.letter := rfl
      cases t with
      | object => cases h
      | array => cases h
      | void => cases h
      | _ => rfl
    | object n =>
      have hletter : (arrayText 0 (.object n))[1]? = some BasicType.object.letter := rfl
      simp only [VerificationType.getComponent, hletter, List.drop_one, Option.bind_eq_bind, some_bind,
        char2type_letter, Option.bind_some, Option.some.injEq]
      simp [arrayText, JavaElement.text, component, JavaElement.toType, encode]
  | succ d =>
    rfl

theorem nameLength_component (e : JavaElement) :
    (component d e).encode.nameLength < (array d e).encode.nameLength := by
  cases d with
  | zero =>
    cases e with
    | primitive t h =>
      cases t with
      | _ => simp [component, JavaElement.toType, encode, ofBasicType, VerificationType.nameLength,
          arrayText, JavaElement.text]
    | object n =>
      simp [component, JavaElement.toType, encode, VerificationType.nameLength, arrayText,
        JavaElement.text]
      omega
  | succ d => simp [component, encode, VerificationType.nameLength, arrayText_succ]

theorem ofBasicType_inj {t u : BasicType} (ht : t.isJavaPrimitive = true)
    (hu : u.isJavaPrimitive = true) (h : ofBasicType t = ofBasicType u) : t = u := by
  cases t <;> cases u <;> first | rfl | exact absurd h (by decide) | exact absurd ht (by decide)

theorem JavaClassName.ext_name {n m : JavaClassName} (h : n.name = m.name) : n = m := by
  obtain ⟨⟨name, _, _⟩, _, _⟩ := n
  obtain ⟨⟨name', _, _⟩, _, _⟩ := m
  obtain rfl : name = name' := h
  rfl

theorem text_eq_cons (e : JavaElement) : ∃ c s, e.text = c :: s ∧ c ≠ JvmSignature.array := by
  cases e with
  | primitive t h =>
    refine ⟨t.letter, [], rfl, fun heq => ?_⟩
    rw [@BasicType.letter_inj t .array heq] at h
    cases h
  | object n => exact ⟨JvmSignature.cls, _, rfl, by decide⟩

theorem text_inj {e e' : JavaElement} (h : e.text = e'.text) : e = e' := by
  cases e with
  | primitive t ht =>
    cases e' with
    | primitive u hu =>
      obtain rfl := BasicType.letter_inj (List.cons.inj h).1
      rfl
    | object m => simp [JavaElement.text] at h
  | object n =>
    cases e' with
    | primitive u hu => simp [JavaElement.text] at h
    | object m =>
      rw [JavaClassName.ext_name (List.append_cancel_right (List.cons.inj h).2)]

theorem arrayText_inj {d d' : Nat} {e e' : JavaElement}
    (h : arrayText d e = arrayText d' e') : d = d' ∧ e = e' := by
  induction d generalizing d' with
  | zero =>
    have htail := (List.cons.inj h).2
    cases d' with
    | zero => exact ⟨rfl, text_inj htail⟩
    | succ d' =>
      obtain ⟨c, s, hc, hne⟩ := text_eq_cons e
      have hhead : e.text = arrayText d' e' := htail
      rw [hc] at hhead
      exact absurd (List.cons.inj hhead).1 hne
  | succ d ih =>
    have htail := (List.cons.inj h).2
    cases d' with
    | zero =>
      obtain ⟨c, s, hc, hne⟩ := text_eq_cons e'
      have hhead : arrayText d e = e'.text := htail
      rw [hc] at hhead
      exact absurd (List.cons.inj hhead).1.symm hne
    | succ d' =>
      obtain ⟨rfl, rfl⟩ := ih htail
      exact ⟨rfl, rfl⟩

theorem name_ne_arrayText (d : Nat) (e : JavaElement) : n.name ≠ arrayText d e := by
  intro h
  have hhead := name_head n
  rw [h] at hhead
  exact hhead rfl

/-- A primitive type is not represented like any other type. -/
theorem encode_eq_primitive {t : BasicType} {h : t.isJavaPrimitive = true} {u : JavaType}
    (heq : u.encode = ofBasicType t) : u = .primitive t h := by
  cases u with
  | primitive t' h' =>
    obtain rfl := ofBasicType_inj h' h heq
    rfl
  | _ => cases t <;> nomatch heq

/-- Different types have different representations. -/
theorem encode_inj {t u : JavaType} (h : t.encode = u.encode) : t = u := by
  cases t with
  | primitive t ht => exact (encode_eq_primitive h.symm).symm
  | object n =>
    cases u with
    | primitive u hu => exact encode_eq_primitive h
    | object m => rw [JavaClassName.ext_name (VerificationType.reference.inj h)]
    | array d e => exact absurd (VerificationType.reference.inj h) (name_ne_arrayText n d e)
    | _ => cases h
  | array d e =>
    cases u with
    | primitive u hu => exact encode_eq_primitive h
    | object m =>
      exact absurd (VerificationType.reference.inj h).symm (name_ne_arrayText m d e)
    | array d' e' =>
      obtain ⟨rfl, rfl⟩ := arrayText_inj (VerificationType.reference.inj h)
      rfl
    | _ => cases h
  | _ =>
    cases u with
    | primitive u hu => exact encode_eq_primitive h
    | _ => cases h <;> rfl

end JavaType

/-! ## What the verifier accepts -/

namespace SystemDictionary

open VerificationType JavaType

variable {D : SystemDictionary}

theorem loop_self (t : VerificationType) (fuel : Nat) :
    assignableLoop D (fuel + 1) t t = some true :=
  if_pos (.inl rfl)

/-- Types that are neither references nor small integers are assignable from themselves only. -/
theorem loop_other {t u : VerificationType} (hne : t ≠ u) (hbogus : t ≠ .bogus)
    (hcheck : t.isCheck = false) (hsmall : t ≠ .boolean ∧ t ≠ .byte ∧ t ≠ .char ∧ t ≠ .short)
    (href : (t.isReference && u.isReference) = false) (fuel : Nat) :
    assignableLoop D (fuel + 1) t u = some false := by
  unfold assignableLoop isAssignableWith
  cases t <;> simp_all [isCheck, isReference]

/-- References with different names are handed on. -/
theorem loop_reference {name name' : Symbol} (hne : name ≠ name') (fuel : Nat) :
    assignableLoop D (fuel + 1) (.reference name) (.reference name') =
      if (reference name).isObject then if name = javaLangObject then some true
        else (D.resolveOrFail name).bind fun thisClass => if thisClass.isInterface then some true
          else if (reference name').isObject then (D.resolveOrFail name').bind fun fromClass =>
              some (isSubclassOf name' fromClass name) else some false
      else if (reference name).isArray && (reference name').isArray then
        (getComponent name).bind fun comp =>
          (getComponent name').bind fun comp' => assignableLoop D fuel comp comp'
      else some false := by
  have hother : ¬(reference name = reference name' ∨ reference name = bogus) := by simp [hne]
  have hhand : assignableLoop D (fuel + 1) (.reference name) (.reference name') =
      isReferenceAssignableWith (.reference name) D (assignableLoop D fuel)
        (.reference name') := if_neg hother
  rw [hhand]
  exact if_neg hne

theorem loop_null (name : Symbol) (fuel : Nat) :
    assignableLoop D (fuel + 1) (.reference name) .null = some true := rfl

theorem loop_object_object {n m : JavaClassName} (hne : n.name ≠ m.name) (fuel : Nat) :
    assignableLoop D (fuel + 1) (object n).encode (object m).encode = some true ↔
      n.name = javaLangObject ∨ D.IsInterface n.name ∨
      ((∃ info, D.resolveOrFail n.name = some info) ∧ D.IsBelow m.name n.name) := by
  have hobject := isObject_object n
  have hobject' := isObject_object m
  simp only [encode] at *
  rw [loop_reference hne, if_pos hobject, hobject']
  by_cases hjava : n.name = javaLangObject
  · simp [hjava]
  cases hres : D.resolveOrFail n.name with
  | none => simp [hjava, IsInterface, hres]
  | some info =>
    cases hinterface : info.isInterface with
    | true => simp [hjava, IsInterface, hres, hinterface]
    | false =>
      cases hres' : D.resolveOrFail m.name with
      | none => simp [hjava, IsInterface, hres, hinterface, IsBelow, hres']
      | some info' =>
        simp [hjava, IsInterface, hres, hinterface, IsBelow, hres', isSubclassOf, hne.symm]

variable {d : Nat} {e : JavaElement}

theorem loop_object_array {n : JavaClassName} (fuel : Nat) :
    assignableLoop D (fuel + 1) (object n).encode (array d e).encode =
      some true ↔ n.name = javaLangObject ∨ D.IsInterface n.name := by
  have hobject := isObject_object n
  have hobject' := isObject_array d e
  have hne := name_ne_arrayText n d e
  simp only [encode] at *
  rw [loop_reference hne, if_pos hobject, hobject']
  by_cases hjava : n.name = javaLangObject
  · simp [hjava]
  · cases hres : D.resolveOrFail n.name with
    | none => simp [hjava, IsInterface, hres]
    | some info => simp [hjava, IsInterface, hres]

theorem loop_array_object {m : JavaClassName} (fuel : Nat) :
    assignableLoop D (fuel + 1) (array d e).encode (object m).encode = some false := by
  have hobject := isObject_array d e
  have harray := isArray_object m
  have hne := name_ne_arrayText m d e
  simp only [encode] at *
  rw [loop_reference hne.symm, hobject, harray, Bool.and_false]
  rfl

variable {e' : JavaElement}

theorem loop_array_array {d' : Nat} (hne : arrayText d e ≠ arrayText d' e') (fuel : Nat) :
    assignableLoop D (fuel + 1) (array d e).encode (array d' e').encode =
      assignableLoop D fuel (component d e).encode (component d' e').encode := by
  have hobject := isObject_array d e
  have harray := isArray_encode d e
  have harray' := isArray_encode d' e'
  have hcomp := getComponent_arrayText d e
  have hcomp' := getComponent_arrayText d' e'
  simp only [encode] at *
  rw [loop_reference hne, hobject, harray, harray', hcomp, hcomp']
  rfl

/-- Small integers accept an `int`, too. -/
theorem loop_small {t : BasicType} (ht : t = .boolean ∨ t = .byte ∨ t = .char ∨ t = .short)
    {u : VerificationType} (hne : ofBasicType t ≠ u) (fuel : Nat) :
    assignableLoop D (fuel + 1) (ofBasicType t) u = some (decide (u = .integer)) := by
  have hother : ¬(ofBasicType t = u ∨ ofBasicType t = bogus) := by
    rcases ht with rfl | rfl | rfl | rfl <;> exact not_or.mpr ⟨hne, nofun⟩
  unfold assignableLoop isAssignableWith
  rw [if_neg hother]
  rcases ht with rfl | rfl | rfl | rfl <;> rfl

variable {u : JavaType}

/-- Primitive types accept themselves and the small ones an `int`. -/
theorem accepted_primitive {t : BasicType} {h : t.isJavaPrimitive = true} {fuel : Nat}
    (hloop : assignableLoop D (fuel + 1) (primitive t h).encode u.encode = some true) :
    D.Accepted (.primitive t h) u := by
  by_cases heq : (primitive t h).encode = u.encode
  · rw [encode_inj heq]
    exact .refl u
  by_cases hsmall : t = .boolean ∨ t = .byte ∨ t = .char ∨ t = .short
  · have hresult := (loop_small hsmall heq fuel).symm.trans hloop
    have hint : u.encode = ofBasicType .int :=
      of_decide_eq_true (Option.some.inj hresult)
    rw [@encode_eq_primitive .int rfl u hint]
    exact .int t h rfl hsmall
  · have hfalse : assignableLoop D (fuel + 1) (primitive t h).encode u.encode = some false := by
      cases t with
      | boolean => simp at hsmall
      | byte => simp at hsmall
      | char => simp at hsmall
      | short => simp at hsmall
      | object => cases h
      | array => cases h
      | void => cases h
      | _ => exact loop_other heq nofun rfl ⟨nofun, nofun, nofun, nofun⟩ rfl fuel
    rw [hfalse] at hloop
    cases hloop

variable {t : JavaType}

/-- A reference accepts references only. -/
theorem loop_not_reference (ht : t.IsReference) (hu : ¬u.IsReference) (fuel : Nat) :
    assignableLoop D (fuel + 1) t.encode u.encode = some false := by
  have hne : t.encode ≠ u.encode := fun heq => hu (encode_inj heq ▸ ht)
  have href : u.encode.isReference = false := by
    cases u with
    | primitive t h => cases t <;> rfl
    | null => exact absurd trivial hu
    | object n => exact absurd trivial hu
    | array d e => exact absurd trivial hu
    | _ => rfl
  cases t with
  | null => exact loop_other hne nofun rfl ⟨nofun, nofun, nofun, nofun⟩ (by simp [href]) fuel
  | object n => exact loop_other hne nofun rfl ⟨nofun, nofun, nofun, nofun⟩ (by simp [href]) fuel
  | array d e =>
    exact loop_other hne nofun rfl ⟨nofun, nofun, nofun, nofun⟩ (by simp [href]) fuel
  | _ => exact ht.elim

/-- The test accepts no more than the relation that is covariant in all components. -/
theorem accepted_of_loop {fuel : Nat}
    (hloop : assignableLoop D fuel t.encode u.encode = some true) : D.Accepted t u := by
  induction fuel generalizing t u with
  | zero => cases hloop
  | succ fuel ih =>
    by_cases heq : t.encode = u.encode
    · rw [encode_inj heq]
      exact .refl u
    by_cases hrefs : t.IsReference ∧ ¬u.IsReference
    · rw [loop_not_reference hrefs.1 hrefs.2] at hloop
      cases hloop
    cases t with
    | top => exact .top u
    | primitive t h => exact accepted_primitive hloop
    | object n =>
      cases u with
      | null => exact .null_object n
      | object m =>
        have hne : n.name ≠ m.name := fun h => heq (congrArg reference h)
        rcases (loop_object_object hne fuel).mp hloop with hjava | hinterface | ⟨-, hbelow⟩
        · exact .object_object n m (.inl hjava)
        · exact .object_object n m (.inr hinterface)
        · exact .subclass n m hbelow
      | array d e => exact .object_array n d e ((loop_object_array fuel).mp hloop)
      | _ => exact absurd ⟨trivial, id⟩ hrefs
    | array d e =>
      cases u with
      | null => exact .null_array d e
      | object m =>
        rw [loop_array_object] at hloop
        cases hloop
      | array d' e' =>
        have hne : arrayText d e ≠ arrayText d' e' :=
          fun h => heq (congrArg reference h)
        rw [loop_array_array hne] at hloop
        exact .array d e d' e' trivial (ih hloop)
      | _ => exact absurd ⟨trivial, id⟩ hrefs
    | null =>
      cases u with
      | null => exact absurd rfl heq
      | object m => cases hloop
      | array d e => cases hloop
      | _ => exact absurd ⟨trivial, id⟩ hrefs
    | _ =>
      rw [loop_other heq nofun rfl ⟨nofun, nofun, nofun, nofun⟩ rfl fuel] at hloop
      cases hloop

/-- If superclasses can be resolved, the test accepts all of that relation. -/
theorem loop_of_accepted (hdict : D.Consistent) (h : D.Accepted t u)
    {fuel : Nat} (hfuel : t.encode.nameLength ≤ fuel) :
    assignableLoop D (fuel + 1) t.encode u.encode = some true := by
  induction h generalizing fuel with
  | refl t => exact loop_self _ fuel
  | top t => exact if_pos (.inr rfl)
  | int t h h' ht =>
    have hne : ofBasicType t ≠ .integer := by
      rcases ht with rfl | rfl | rfl | rfl <;> nofun
    exact loop_small ht hne fuel
  | null_object n => exact loop_null _ fuel
  | null_array d e => exact loop_null _ fuel
  | object_object n m hn =>
    by_cases heq : n.name = m.name
    · rw [JavaClassName.ext_name heq]
      exact loop_self _ fuel
    · exact (loop_object_object heq fuel).mpr (hn.imp_right .inl)
  | object_array n d e hn => exact (loop_object_array fuel).mpr hn
  | subclass n m hbelow =>
    by_cases heq : n.name = m.name
    · rw [JavaClassName.ext_name heq]
      exact loop_self _ fuel
    · have hresolved := hdict.below_resolved _ _ hbelow
      exact (loop_object_object heq fuel).mpr (.inr (.inr ⟨hresolved, hbelow⟩))
  | array d e d' e' _ _ ih =>
    by_cases heq : arrayText d e = arrayText d' e'
    · obtain ⟨rfl, rfl⟩ := arrayText_inj heq
      exact loop_self _ fuel
    · have hshorter := (nameLength_component d e).trans_le hfuel
      obtain ⟨fuel, rfl⟩ := Nat.exists_eq_succ_of_ne_zero (Nat.ne_of_gt (Nat.zero_lt_of_lt hshorter))
      rw [loop_array_array heq]
      exact ih (Nat.le_of_lt_succ hshorter)

/-- What the verifier accepts, exactly. -/
theorem isAssignableFrom_iff (hdict : D.Consistent) (t u : JavaType) :
    t.encode.isAssignableFrom D u.encode = some true ↔ D.Accepted t u :=
  ⟨accepted_of_loop, fun h => loop_of_accepted hdict h le_rfl⟩

/-! ## Comparison with the specification -/

/-- An array of small integers and an array of as many dimensions of `int`. -/
def IntArrays : JavaType → JavaType → Prop
  | .array dims (.primitive t _), .array dims' (.primitive t' _) =>
    dims = dims' ∧ t' = .int ∧ (t = .boolean ∨ t = .byte ∨ t = .char ∨ t = .short)
  | _, _ => False

theorem intArrays_succ {d' : Nat} : IntArrays (.array (d + 1) e) (.array (d' + 1) e') ↔
      IntArrays (.array d e) (.array d' e') := by
  cases e with
  | primitive t h =>
    cases e' with
    | primitive t' h' => simp [IntArrays]
    | object m => exact Iff.rfl
  | object n => exact Iff.rfl

/-- A component is a reference, or it is primitive and there is only one dimension. -/
theorem component_cases (d : Nat) (e : JavaElement) :
    (component d e).IsReference ∨ (d = 0 ∧ ∃ t h, e = .primitive t h) := by
  cases d with
  | zero =>
    cases e with
    | primitive t h => exact .inr ⟨rfl, t, h, rfl⟩
    | object n => exact .inl trivial
  | succ d => exact .inl trivial

theorem not_assignable_primitive (ht : t.IsReference) {b : BasicType}
    {h : b.isJavaPrimitive = true} (hu : u = .primitive b h) : ¬D.Assignable t u := by
  rintro hassign
  cases hassign with
  | refl =>
    rw [hu] at ht
    exact ht
  | top => exact ht
  | int => exact ht
  | _ => cases hu

theorem not_assignable_reference {b : BasicType} {h : b.isJavaPrimitive = true}
    (ht : t = .primitive b h) (hu : u.IsReference) : ¬D.Assignable t u := by
  rintro hassign
  cases hassign with
  | refl =>
    rw [ht] at hu
    exact hu
  | int => exact hu
  | _ => cases ht

/-- Components of arrays that are related are references of any kind, or both are primitive and
then the same, or confused. -/
theorem array_of_component {d' : Nat} (h : D.Assignable (component d e) (component d' e') ∨
      IntArrays (component d e) (component d' e')) : D.Assignable (.array d e) (.array d' e') ∨
      IntArrays (.array d e) (.array d' e') := by
  rcases h with hassign | hint
  · rcases component_cases d e with href | ⟨rfl, t, ht, rfl⟩
    · rcases component_cases d' e' with href' | ⟨rfl, t', ht', rfl⟩
      · exact .inl (.array d e d' e' ⟨href, href'⟩ hassign)
      · exact absurd hassign (not_assignable_primitive href rfl)
    rcases component_cases d' e' with href' | ⟨rfl, t', ht', rfl⟩
    · exact absurd hassign (not_assignable_reference rfl href')
    · cases hassign with
      | refl => exact .inl (.refl _)
      | int _ _ _ hsmall => exact .inr ⟨rfl, rfl, hsmall⟩
  · cases d with
    | zero => cases e <;> exact hint.elim
    | succ d =>
      cases d' with
      | zero => cases e <;> cases e' <;> exact hint.elim
      | succ d' => exact .inr (intArrays_succ.mpr hint)

theorem accepted_cases (h : D.Accepted t u) : D.Assignable t u ∨ IntArrays t u := by
  induction h with
  | refl t => exact .inl (.refl t)
  | top t => exact .inl (.top t)
  | int t h h' ht => exact .inl (.int t h h' ht)
  | null_object n => exact .inl (.null_object n)
  | null_array d e => exact .inl (.null_array d e)
  | object_object n m hn => exact .inl (.object_object n m hn)
  | object_array n d e hn => exact .inl (.object_array n d e hn)
  | subclass n m hbelow => exact .inl (.subclass n m hbelow)
  | array d e d' e' _ _ ih => exact array_of_component ih

theorem accepted_of_intArrays (h : IntArrays t u) : D.Accepted t u := by
  match t, u, h with
  | .array d (.primitive t ht), .array _ (.primitive _ ht'), ⟨rfl, rfl, hsmall⟩ =>
    induction d with
    | zero => exact .array 0 _ 0 _ trivial (.int t ht ht' hsmall)
    | succ d ih => exact .array (d + 1) _ (d + 1) _ trivial ih

theorem not_assignable_of_intArrays (h : IntArrays t u) : ¬D.Assignable t u := by
  match t, u, h with
  | .array d (.primitive t ht), .array _ (.primitive _ ht'), ⟨rfl, rfl, hsmall⟩ =>
    induction d with
    | zero =>
      rintro hassign
      cases hassign with
      | refl => simp at hsmall
      | array _ _ _ _ href => exact href.1
    | succ d ih =>
      rintro hassign
      cases hassign with
      | refl => simp at hsmall
      | array _ _ _ _ _ hcomp => exact ih hcomp

/-- What is accepted is transitive. The induction is on the first pair. -/
theorem accepted_trans (hdict : D.Consistent) {v : JavaType} (h : D.Accepted t u)
    (h' : D.Accepted u v) : D.Accepted t v := by
  induction h generalizing v with
  | refl t => exact h'
  | top t => exact .top v
  | int t h h'' ht =>
    cases h' with
    | refl => exact .int t h h'' ht
    | int _ _ _ hint => simp at hint
  | null_object n =>
    cases h' with
    | refl => exact .null_object n
  | null_array d e =>
    cases h' with
    | refl => exact .null_array d e
  | object_object n m hn =>
    cases h' with
    | refl => exact .object_object n m hn
    | null_object => exact .null_object n
    | object_object _ k _ => exact .object_object n k hn
    | object_array _ d e _ => exact .object_array n d e hn
    | subclass _ k _ => exact .object_object n k hn
  | object_array n d e hn =>
    cases h' with
    | refl => exact .object_array n d e hn
    | null_array => exact .null_object n
    | array _ _ d' e' _ _ => exact .object_array n d' e' hn
  | subclass n m hbelow =>
    -- above `Object` there is nothing, and above an interface only `Object`
    have hroot : m.name = javaLangObject ∨ D.IsInterface m.name → n.name = javaLangObject := by
      rintro (hjava | hinterface)
      · rw [hjava] at hbelow
        exact absurd hbelow (hdict.object_below _)
      · exact hdict.interface_below _ _ hinterface hbelow
    cases h' with
    | refl => exact .subclass n m hbelow
    | null_object => exact .null_object n
    | object_object _ k hm => exact .object_object n k (.inl (hroot hm))
    | object_array _ d e hm => exact .object_array n d e (.inl (hroot hm))
    | subclass _ k hbelow' => exact .subclass n k (hdict.below_trans _ _ _ hbelow' hbelow)
  | array d e d' e' _ hcomp ih =>
    cases h' with
    | refl => exact .array d e d' e' trivial hcomp
    | null_array => exact .null_array d e
    | array _ _ dims'' e'' _ hcomp' => exact .array d e dims'' e'' trivial (ih hcomp')

/-- What the verifier accepts is allowed, except that an array of `int` is taken for an array of
small integers. For references the test is reflexive and transitive. -/
theorem isAssignableFrom_sound_iff (dict : SystemDictionary) (hdict : dict.Consistent) :
    (∀ t u : JavaType, (t.encode.isAssignableFrom dict u.encode = some true → dict.Assignable t u) ↔
      ¬IntArrays t u) ∧
    (∀ t : JavaType, t.IsReference → t.encode.isAssignableFrom dict t.encode = some true) ∧
    (∀ t u v : JavaType, t.IsReference → u.IsReference → v.IsReference →
      t.encode.isAssignableFrom dict u.encode = some true →
      u.encode.isAssignableFrom dict v.encode = some true →
      t.encode.isAssignableFrom dict v.encode = some true) := by
  refine ⟨fun t u => ?_, fun t _ => loop_self _ _, fun t u v _ _ _ h h' => ?_⟩
  · rw [isAssignableFrom_iff hdict]
    constructor
    · intro hsound hint
      exact not_assignable_of_intArrays hint (hsound (accepted_of_intArrays hint))
    · intro hnot haccepted
      exact (accepted_cases haccepted).resolve_right hnot
  · rw [isAssignableFrom_iff hdict] at h h' ⊢
    exact accepted_trans hdict h h'

/-- Only `Object` is loaded. -/
def objectOnly : SystemDictionary where
  resolveOrFail n := if n = javaLangObject then some ⟨false, []⟩ else none

theorem objectOnly_consistent : objectOnly.Consistent := by
  have hbelow : ∀ m n, ¬objectOnly.IsBelow m n := by
    rintro m n ⟨info, hres, hmem⟩
    simp only [objectOnly, Option.ite_none_right_eq_some] at hres
    rw [← Option.some.inj hres.2] at hmem
    cases hmem
  exact ⟨fun m n h => absurd h (hbelow m n), fun k m n h => absurd h (hbelow k m),
    fun n => hbelow _ n, fun m n _ h => absurd h (hbelow m n)⟩

def objectName : JavaClassName := ⟨⟨javaLangObject, by decide, by decide⟩, by decide, by decide⟩

theorem isAssignableFrom_sound_object :
    (JavaType.object objectName).encode.isAssignableFrom objectOnly
        (JavaType.array 1 (.primitive .char rfl)).encode = some true ∧
      objectOnly.Assignable (.object objectName) (.array 1 (.primitive .char rfl)) := by
  refine ⟨by decide, ?_⟩
  exact ((isAssignableFrom_sound_iff objectOnly objectOnly_consistent).1 (.object objectName)
    (.array 1 (.primitive .char rfl))).mpr id (by decide)

/-- An array of `int` is accepted as an array of `boolean`. -/
theorem boolean_array_from_int_array : objectOnly.Consistent ∧
      (JavaType.array 0 (.primitive .boolean rfl)).encode.isAssignableFrom objectOnly
        (JavaType.array 0 (.primitive .int rfl)).encode = some true ∧
      ¬objectOnly.Assignable (.array 0 (.primitive .boolean rfl)) (.array 0 (.primitive .int rfl)) :=
  ⟨objectOnly_consistent, by decide, not_assignable_of_intArrays ⟨rfl, rfl, .inl rfl⟩⟩

end SystemDictionary

end Hotspot
