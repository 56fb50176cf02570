-- SUMMARY: On accepted descriptors all walkers agree, with one exception.
import Hotspot.Runtime.Signature
import Hotspot.Classfile.ClassFileParser

/-!
# Agreement of the signature walkers

A walker at an index sees the rest of the descriptor from there on. Each lemma says what a
walker does when the rest begins with the text of a type, and the walks over whole
descriptors follow by induction over the parameters.

`iterate_returntype` is different: it looks for the first `)`, which may stand in the name of
a class.
-/

namespace Hotspot

open Signature JvmSignature ElementType SignatureIterator

open Nat

open List hiding tail

/-! ## Positions -/

namespace Signature

variable {sig s : List UChar} {i : Nat} {c : UChar}

theorem byteAt_of_drop (h : sig.drop i = c :: s) : byteAt sig i = .ok c := by
  have hget : sig[i]? = some c := by
    have hzero := congrArg (fun l : List UChar => l[0]?) h
    simpa using hzero
  simp [byteAt, hget]

theorem drop_succ (h : sig.drop i = c :: s) : sig.drop (i + 1) = s := by
  rw [← drop_drop, h]
  rfl

variable {a : List UChar}

theorem drop_append (h : sig.drop i = a ++ s) : sig.drop (i + a.length) = s := by
  rw [← drop_drop, h, drop_left]

theorem lt_length_of_drop (h : sig.drop i = c :: s) : i < sig.length := by
  by_contra hge
  rw [drop_eq_nil_of_le (not_lt.mp hge)] at h
  cases h

variable {p : UChar → Bool}

theorem countWhile_append (ha : ∀ x ∈ a, p x = true)
    (hc : p c = false) : countWhile p (a ++ c :: s) = .ok a.length := by
  induction a with
  | nil => simp [countWhile, hc]
  | cons x a ih =>
    have hx := ha x mem_cons_self
    have hrest := ih (fun y hy => ha y (mem_cons_of_mem x hy))
    simp [countWhile, hx, hrest]

theorem skipWhile_append (h : sig.drop i = a ++ c :: s)
    (ha : ∀ x ∈ a, p x = true) (hc : p c = false) : skipWhile p sig i = .ok (i + a.length) := by
  rw [skipWhile, h, countWhile_append ha hc, map_ok]

theorem skipWhile_stay (h : sig.drop i = c :: s) (hc : p c = false) : skipWhile p sig i = .ok i :=
  skipWhile_append (a := []) h nofun hc

theorem skipPast_append (h : sig.drop i = a ++ c :: s) (ha : c ∉ a) :
    skipPast c sig i = .ok (i + a.length + 1) := by
  have hskip : skipWhile (· ≠ c) sig i = .ok (i + a.length) := by
    refine skipWhile_append h (fun x hx => ?_) (by simp)
    rw [decide_eq_true_eq]
    rintro rfl
    exact ha hx
  rw [skipPast, hskip, map_ok]

/-- Skipping does not run past a character that stops it. -/
theorem skipWhile_of_mem (hmem : c ∈ sig.drop i) (hc : p c = false) :
    ∃ j, skipWhile p sig i = .ok j ∧ i ≤ j ∧ c ∈ sig.drop j := by
  have hcount : ∀ l : List UChar, c ∈ l → ∃ n, countWhile p l = .ok n ∧ c ∈ l.drop n := by
    intro l
    induction l with
    | nil => nofun
    | cons x l ih =>
      intro hl
      cases hx : p x with
      | false => exact ⟨0, by simp [countWhile, hx], hl⟩
      | true =>
        have hne : c ≠ x := by
          rintro rfl
          rw [hc] at hx
          cases hx
        obtain ⟨n, hn, hmem⟩ := ih ((mem_cons.mp hl).resolve_left hne)
        exact ⟨n + 1, by simp [countWhile, hx, hn], hmem⟩
  obtain ⟨n, hn, hmem'⟩ := hcount _ hmem
  refine ⟨i + n, by rw [skipWhile, hn, map_ok], le_add_right i n, ?_⟩
  rwa [← drop_drop]

theorem skipPast_of_mem (hmem : c ∈ sig.drop i) : ∃ j, skipPast c sig i = .ok j := by
  obtain ⟨j, hj, -, -⟩ := skipWhile_of_mem (p := (· ≠ c)) hmem (by simp)
  exact ⟨j + 1, by rw [skipPast, hj, map_ok]⟩

end Signature

theorem BasicType.letter_not_digit (t : BasicType) : isDigit t.letter = false := by
  cases t <;> rfl

/-! ## One type -/

/-- The call a `SignatureIterator` makes for a type at an index. -/
def FieldType.call (f : FieldType) (index : Nat) : Call :=
  match f.type with
  | .object => .object (index + 1) (index + f.text.length)
  | .array => .array (index + 1) (index + f.text.length)
  | t => .basic t

theorem FieldType.call_type (f : FieldType) (index : Nat) : (f.call index).type = f.type := by
  unfold call
  split
  next h => exact h.symm
  next h => exact h.symm
  · rfl

section

variable {sig s : List UChar} {skipSize : List UChar → Nat → Except Fault Nat}

/-- A size is skipped only where there is a digit. -/
def StaysOff (skipSize : List UChar → Nat → Except Fault Nat) (sig : List UChar) : Prop :=
  ∀ {i : Nat} {c : UChar} {s : List UChar}, sig.drop i = c :: s → isDigit c = false →
    skipSize sig i = .ok i

variable {e : ElementType} {i : Nat}

theorem StaysOff.dims (hstay : StaysOff skipSize sig) {d : Nat}
    (h : sig.drop i = List.replicate d array ++ e.text ++ s) : skipSize sig i = .ok i := by
  cases d with
  | zero => exact hstay (c := e.type.letter) h e.type.letter_not_digit
  | succ d => exact hstay (c := array) h rfl

theorem skipDims_text (hstay : StaysOff skipSize sig) {d fuel : Nat}
    (hfuel : d < fuel) (h : sig.drop i = List.replicate d array ++ e.text ++ s) :
    skipDims skipSize sig fuel i = .ok (i + d) := by
  induction d generalizing fuel i with
  | zero =>
    obtain ⟨fuel, rfl⟩ := exists_eq_succ_of_ne_zero hfuel.ne'
    have hne : e.type.letter ≠ array :=
      fun heq => e.type_ne_array (BasicType.letter_inj heq)
    rw [skipDims, byteAt_of_drop (c := e.type.letter) h]
    simp [hne]
  | succ d ih =>
    obtain ⟨fuel, rfl⟩ := exists_eq_succ_of_ne_zero (ne_of_gt (zero_lt_of_lt hfuel))
    have hnext := drop_succ (c := array) h
    rw [skipDims, byteAt_of_drop (c := array) h]
    simp only [hstay.dims hnext, ok_bind, pure_eq_ok, if_true]
    rw [ih (lt_of_succ_lt_succ hfuel) hnext, add_assoc, add_comm 1]

theorem dims_lt_fuel {d : Nat}
    (h : sig.drop i = List.replicate d array ++ e.text ++ s) : d < sig.length + 1 := by
  have hlength := congrArg length h
  simp only [length_drop, length_append, length_replicate] at hlength
  omega

theorem drop_dims {d : Nat} (h : sig.drop i = List.replicate d array ++ e.text ++ s) :
    sig.drop (i + d) = e.text ++ s := by
  rw [append_assoc] at h
  simpa using drop_append h

/-- The end of a class name, searched from its `L` on. -/
theorem skipPast_object {n : ClassName} (h : sig.drop i = (object n).text ++ s) :
    skipPast endclass sig i = .ok (i + (object n).text.length) := by
  have hsplit : sig.drop i = (cls :: n.name) ++ endclass :: s := by
    rw [h]
    simp [text, type, tail, BasicType.letter]
  have hnot : endclass ∉ cls :: n.name :=
    not_mem_cons_of_ne_of_not_mem (by decide) n.no_endclass
  rw [skipPast_append hsplit hnot]
  simp [text, tail, add_assoc]

end

namespace SignatureIterator

variable {sig s : List UChar}

theorem staysOff_skipOptionalSize : StaysOff skipOptionalSize sig :=
  fun h hc => skipWhile_stay h hc

theorem skipElement_text {e : ElementType} {i : Nat} (h : sig.drop i = e.text ++ s) :
    skipElement sig i = .ok (i + e.text.length) := by
  rw [skipElement, byteAt_of_drop (c := e.type.letter) h, ok_bind]
  cases e with
  | primitive t ht =>
    have hne : t.letter ≠ cls := by
      intro heq
      obtain rfl := BasicType.letter_inj (u := .object) heq
      cases ht
    simp [type, hne, text, tail]
  | object n => exact (if_pos rfl).trans (skipPast_object h)

theorem parseType_text {this : SignatureIterator} {f : FieldType}
    (h : sig.drop this.index = f.text ++ s) : parseType sig this =
      .ok (f.type.size, this.visit (f.call this.index) (this.index + f.text.length)) := by
  obtain ⟨dims, elem, hdims⟩ := f
  cases dims with
  | zero =>
    have hbyte := byteAt_of_drop (c := elem.type.letter) h
    unfold parseType
    rw [hbyte, ok_bind, char2type_letter]
    cases elem with
    | primitive t ht =>
      cases t with
      | object | array | void => cases ht
      | _ => rfl
    | object n =>
      have hname : sig.drop (this.index + 1) = n.name ++ endclass :: s := by
        rw [drop_succ (c := cls) h]
        simp [tail]
      have hlength : this.index + 1 + n.name.length + 1 =
          this.index + (FieldType.mk 0 (.object n) hdims).text.length := by
        simp [FieldType.text, text, tail]
        omega
      simp only [pure_eq_ok]
      rw [skipPast_append hname n.no_endclass, hlength]
      rfl
  | succ d =>
    have hnext : sig.drop (this.index + 1) = replicate d array ++ elem.text ++ s :=
      drop_succ (c := array) h
    have hstay := staysOff_skipOptionalSize.dims hnext
    have hloop := skipDims_text staysOff_skipOptionalSize (dims_lt_fuel hnext) hnext
    have helem := skipElement_text (drop_dims hnext)
    have hlength : this.index + 1 + d + elem.text.length =
        this.index + (FieldType.mk (d + 1) elem hdims).text.length := by
      simp [FieldType.text]
      omega
    unfold parseType
    rw [byteAt_of_drop (c := array) h, ok_bind, show array =
      BasicType.array.letter from rfl, char2type_letter]
    simp only [hstay, ok_bind, hloop, helem, hlength]
    rfl

variable (this : SignatureIterator)

theorem parseType_ret {m : MethodType} (h : sig.drop this.index = m.retText ++ s) :
    ∃ c : Call, c.type = m.retType ∧
      parseType sig this = .ok (m.retType.size, this.visit c (this.index + m.retText.length)) := by
  obtain ⟨params, ret⟩ := m
  cases ret with
  | none =>
    refine ⟨.basic .void, rfl, ?_⟩
    unfold parseType
    rw [byteAt_of_drop (c := BasicType.void.letter) h, ok_bind, char2type_letter]
    rfl
  | some f => exact ⟨f.call this.index, f.call_type _, parseType_text h⟩

theorem expect_ok {c : UChar} (h : sig.drop this.index = c :: s) :
    this.expect sig c = .ok (this.setIndex (this.index + 1)) := by
  simp [expect, byteAt_of_drop h]

/-! ## All parameters -/

/-- A `SignatureIterator` behind its visits to the parameters. -/
def visitParams (this : SignatureIterator) : List FieldType → SignatureIterator
  | [] => this
  | f :: fs =>
    visitParams ((this.visit (f.call this.index) (this.index + f.text.length)).setParameterIndex
      (this.parameterIndex + f.type.size)) fs

theorem visitParams_index (fs : List FieldType) :
    (this.visitParams fs).index = this.index + (fs.flatMap FieldType.text).length := by
  induction fs generalizing this with
  | nil => rfl
  | cons f fs ih => simp [visitParams, ih, visit, setParameterIndex, add_assoc]

/-- Types with their parameter indices, from an index on. -/
def indexed : Int → List BasicType → List (Int × BasicType)
  | _, [] => []
  | i, t :: ts => (i, t) :: indexed (i + t.size) ts

theorem map_snd_indexed (i : Int) (ts : List BasicType) : (indexed i ts).map Prod.snd = ts := by
  induction ts generalizing i with
  | nil => rfl
  | cons t ts ih => rw [indexed, map_cons, ih]

theorem visitParams_calls (fs : List FieldType) :
    (this.visitParams fs).calls.map (fun c => (c.1, c.2.type)) =
      this.calls.map (fun c => (c.1, c.2.type)) ++ indexed this.parameterIndex (fs.map FieldType.type) := by
  induction fs generalizing this with
  | nil => simp [visitParams, indexed]
  | cons f fs ih => simp [visitParams, ih, visit, setParameterIndex, f.call_type, indexed]

/-- A parameter starts with a letter or a bracket. -/
theorem letter_ne_endfunc (t : BasicType) : t.letter ≠ endfunc := by
  cases t <;> decide

theorem parameterLoop_text {this : SignatureIterator} {fs : List FieldType} {fuel : Nat}
    (hfuel : fs.length < fuel)
    (h : sig.drop this.index = fs.flatMap FieldType.text ++ endfunc :: s) :
    parameterLoop sig fuel this = .ok (this.visitParams fs) := by
  induction fs generalizing this fuel with
  | nil =>
    obtain ⟨fuel, rfl⟩ := exists_eq_succ_of_ne_zero hfuel.ne'
    simp [parameterLoop, byteAt_of_drop (c := endfunc) h, visitParams]
  | cons f fs ih =>
    obtain ⟨fuel, rfl⟩ := exists_eq_succ_of_ne_zero (ne_of_gt (zero_lt_of_lt hfuel))
    obtain ⟨u, hu⟩ := f.text_eq_cons
    rw [flatMap_cons, append_assoc] at h
    have hbyte : byteAt sig this.index = .ok f.type.letter := by
      rw [hu] at h
      exact byteAt_of_drop h
    rw [parameterLoop, hbyte, ok_bind, if_pos (letter_ne_endfunc _), parseType_text h, ok_bind]
    exact ih (lt_of_succ_lt_succ hfuel) (drop_append h)

section

variable (m : MethodType)

theorem drop_paramText : m.text.drop 1 = m.paramText ++ endfunc :: m.retText := rfl

theorem params_le_paramText : m.params.length ≤ m.paramText.length := by
  rw [MethodType.paramText, length_flatMap]
  refine (le_of_eq ?_).trans (sum_le_sum (f := fun _ => 1) ?_)
  · simp
  · intro f _
    obtain ⟨u, hu⟩ := f.text_eq_cons
    simp [hu]

theorem params_lt_fuel : m.params.length < m.text.length + 1 := by
  have hle := params_le_paramText m
  simp [MethodType.text]
  omega

/-- The iterator behind the parameters, at the closing parenthesis. -/
def afterParams : SignatureIterator := (init.setIndex 1).visitParams m.params

theorem expect_func : init.expect m.text func = .ok (init.setIndex 1) :=
  expect_ok init rfl

theorem parameterLoop_afterParams :
    parameterLoop m.text (m.text.length + 1) (init.setIndex 1) = .ok (afterParams m) :=
  parameterLoop_text (params_lt_fuel m) (drop_paramText m)

theorem drop_afterParams : m.text.drop (afterParams m).index = endfunc :: m.retText := by
  rw [afterParams, visitParams_index]
  exact drop_append (drop_paramText m)

theorem expect_endfunc : (afterParams m).expect m.text endfunc =
      .ok ((afterParams m).setIndex ((afterParams m).index + 1)) :=
  expect_ok _ (drop_afterParams m)

theorem afterParams_calls :
    (afterParams m).calls.map (fun c => (c.1, c.2.type)) = indexed 0 (m.params.map FieldType.type) := by
  simp [afterParams, visitParams_calls, init, setIndex]

theorem afterParams_types :
    (afterParams m).calls.map (fun c => c.2.type) = m.params.map FieldType.type := by
  have hcalls := congrArg (map Prod.snd) (afterParams_calls m)
  rwa [map_map, map_snd_indexed] at hcalls

theorem iterateParameters_text : ∃ it, iterateParameters m.text = .ok it ∧
      it.calls.map (fun c => c.2.type) = m.params.map FieldType.type ∧
      it.calls.map (fun c => (c.1, c.2.type)) = indexed 0 (m.params.map FieldType.type) := by
  refine ⟨((afterParams m).setIndex ((afterParams m).index + 1)).setParameterIndex 0, ?_,
    afterParams_types m, afterParams_calls m⟩
  simp [iterateParameters, expect_func, parameterLoop_afterParams, expect_endfunc]

/-- `iterate` visits the parameters and then the return type. -/
theorem iterate_text : ∃ it, iterate m.text = .ok it ∧ it.returnType = some m.retType ∧
      it.calls.map (fun c => c.2.type) = m.params.map FieldType.type ++ [m.retType] := by
  have hret : m.text.drop ((afterParams m).index + 1) = m.retText ++ [] := by
    rw [drop_succ (drop_afterParams m), append_nil]
  let this := ((afterParams m).setIndex ((afterParams m).index + 1)).setParameterIndex (-1)
  obtain ⟨c, hc, hparse⟩ := parseType_ret this hret
  refine ⟨(this.visit c (this.index + m.retText.length)).setParameterIndex 0, ?_, ?_, ?_⟩
  · simp only [iterate, expect_func, parameterLoop_afterParams, expect_endfunc, ok_bind, pure_eq_ok]
    rw [hparse, ok_bind]
  · simp [visit, hc, this, setParameterIndex]
  · simp [visit, hc, this, setParameterIndex, setIndex, ← afterParams_types]

end

end SignatureIterator

/-! ## SignatureStream -/

namespace SignatureStream

variable {sig s : List UChar}

theorem staysOff_skipSize : StaysOff skipSize sig := by
  intro i c s h hc
  simp [skipSize, byteAt_of_drop h, h, countSize, hc]

theorem skipElement_text {e : ElementType} {i : Nat} (h : sig.drop i = e.text ++ s) :
    skipElement sig i = .ok (i + e.text.length) := by
  rw [skipElement, byteAt_of_drop (c := e.type.letter) h, ok_bind, char2type_letter]
  cases e with
  | primitive t ht =>
    cases t with
    | object | array | void => cases ht
    | _ => rfl
  | object n => exact skipPast_object h

variable {this : SignatureStream} {fuel : Nat}

/-- The stream at a type. -/
theorem next_text {f : FieldType} (h : sig.drop this.stop = f.text ++ s) :
    next sig (fuel + 1) this =
      .ok ⟨this.stop, this.stop + f.text.length, some f.type, this.atReturnType⟩ := by
  obtain ⟨u, hu⟩ := f.text_eq_cons
  have hcons : sig.drop this.stop = f.type.letter :: (u ++ s) := by rw [h, hu]; rfl
  have hlt := lt_length_of_drop hcons
  rw [next, if_neg (not_le.mpr hlt)]
  simp only [byteAt_of_drop hcons, ok_bind, char2type_letter]
  obtain ⟨dims, elem, hdims⟩ := f
  cases dims with
  | zero =>
    cases elem with
    | primitive t ht =>
      cases t with
      | object | array | void => cases ht
      | _ => rfl
    | object n =>
      have hobject := skipPast_object (n := n) h
      simp only [FieldType.type, hobject]
      rfl
  | succ d =>
    have hstay := staysOff_skipSize.dims (d := d + 1) h
    have hloop := skipDims_text staysOff_skipSize (dims_lt_fuel h) h
    have helem := skipElement_text (drop_dims h)
    simp [FieldType.type, FieldType.text, add_assoc, hstay, hloop, helem]

variable {m : MethodType}

/-- The stream at a return type. -/
theorem next_ret (h : sig.drop this.stop = m.retText) : next sig (fuel + 1) this =
      .ok ⟨this.stop, this.stop + m.retText.length, some m.retType, this.atReturnType⟩ := by
  obtain ⟨params, ret⟩ := m
  cases ret with
  | none =>
    have hcons : sig.drop this.stop = BasicType.void.letter :: [] := h
    have hlt := lt_length_of_drop hcons
    rw [next, if_neg (not_le.mpr hlt)]
    simp only [byteAt_of_drop hcons, ok_bind, char2type_letter]
    rfl
  | some f => exact next_text (s := []) (by rw [h, append_nil]; rfl)

/-- The stream at the closing parenthesis goes on to the return type. -/
theorem next_endfunc (h : sig.drop this.stop = endfunc :: m.retText) : next sig (fuel + 2) this =
      .ok ⟨this.stop + 1, this.stop + 1 + m.retText.length, some m.retType, true⟩ := by
  have hlt := lt_length_of_drop h
  rw [next, if_neg (not_le.mpr hlt)]
  have htype : char2type endfunc = none := rfl
  simp only [byteAt_of_drop h, ok_bind, htype, if_true]
  rw [next_ret (m := m) (drop_succ h)]
  rfl

/-- What the stream shows at its positions. -/
def views (items : List SignatureStream) : List (Option BasicType × Bool) :=
  items.map fun i => (i.type, i.atReturnType)

theorem walkFrom_next (this : SignatureStream) {fs : List FieldType}
    (hfuel : fs.length + 2 ≤ fuel) (hlength : 1 ≤ sig.length) (hret : this.atReturnType = false)
    (h : sig.drop this.stop = fs.flatMap FieldType.text ++ endfunc :: m.retText) :
    ∃ items, (next sig (sig.length + 1) this >>= walkFrom sig fuel) = .ok items ∧
      views items = fs.map (fun f => (some f.type, false)) ++ [(some m.retType, true)] := by
  induction fs generalizing this fuel with
  | nil =>
    obtain ⟨fuel, rfl⟩ := Nat.exists_eq_add_of_le' hfuel
    obtain ⟨n, hn⟩ := Nat.exists_eq_add_of_le' hlength
    have hstop := congrArg length h
    simp only [flatMap_nil, nil_append, length_drop, length_cons] at hstop
    have hend : this.stop + 1 + m.retText.length = sig.length := by omega
    refine ⟨[⟨this.stop + 1, sig.length, some m.retType, true⟩], ?_, rfl⟩
    rw [show sig.length + 1 = n + 2 by omega, next_endfunc (m := m) h, ok_bind, hend]
    simp [walkFrom, isDone, next]
  | cons f fs ih =>
    obtain ⟨fuel, rfl⟩ := exists_eq_succ_of_ne_zero (show fuel ≠ 0 by omega)
    rw [flatMap_cons, append_assoc] at h
    rw [next_text h, ok_bind]
    have hrest := drop_append h
    have hle : this.stop + f.text.length ≤ sig.length := by
      have hlt : this.stop + f.text.length < sig.length := by
        by_contra hge
        rw [drop_eq_nil_of_le (not_lt.mp hge)] at hrest
        simp at hrest
      exact hlt.le
    have hrestFuel : fs.length + 2 ≤ fuel := by
      rw [length_cons] at hfuel
      omega
    obtain ⟨items, hitems, hviews⟩ := ih
      ⟨this.stop, this.stop + f.text.length, some f.type, this.atReturnType⟩ hrestFuel hret hrest
    refine ⟨⟨this.stop, this.stop + f.text.length, some f.type, this.atReturnType⟩ :: items, ?_, ?_⟩
    · rw [walkFrom, if_neg (by simpa [isDone] using hle)]
      obtain ⟨st, hst, hwalk⟩ := bind_eq_ok.mp hitems
      simp [hst, hwalk]
    · simp only [views, hret, map_cons, cons_append, cons.injEq, true_and] at hviews ⊢
      exact hviews

/-- The stream shows the types of the parameters and then the return type. -/
theorem walk_text (m : MethodType) : ∃ items, walk m.text = .ok items ∧
      views items = m.params.map (fun f => (some f.type, false)) ++ [(some m.retType, true)] := by
  refine walkFrom_next ⟨1, 1, none, false⟩ ?_ ?_ rfl (drop_paramText m)
  · have hlt := params_le_paramText m
    simp [MethodType.text]
    omega
  · simp [MethodType.text]

end SignatureStream

/-! ## The first closing parenthesis -/

variable {a : List UChar}

/-- A parenthesis in a type stands in the name of a class, before the semicolon. -/
theorem FieldType.endclass_mem {f : FieldType} {b : List UChar}
    (h : f.text = a ++ endfunc :: b) : endclass ∈ b := by
  obtain ⟨dims, elem, hdims⟩ := f
  have hmem : endfunc ∈ replicate dims array ++ elem.text := by
    rw [show replicate dims array ++ elem.text = _ from h]
    simp
  cases elem with
  | primitive t ht =>
    simp only [ElementType.text, ElementType.type, tail, mem_append,
      mem_replicate, mem_singleton] at hmem
    obtain ⟨-, hbad⟩ | hbad := hmem
    · exact absurd hbad (by decide)
    · exact absurd hbad.symm (letter_ne_endfunc t)
  | object n =>
    -- the text ends with the semicolon, so what stands behind the parenthesis does
    have hend : (replicate dims array ++ cls :: n.name) ++
        [endclass] = a ++ endfunc :: b := by
      rw [← h]
      simp [FieldType.text, ElementType.text, tail, ElementType.type, BasicType.letter]
    obtain rfl | ⟨b', x, hb⟩ := eq_nil_or_concat b
    · exact absurd (append_inj' hend rfl).2 (by decide)
    rw [concat_eq_append] at hb
    subst hb
    have hsplit : a ++ endfunc :: (b' ++ [x]) = (a ++ endfunc :: b') ++ [x] := by simp
    rw [hsplit] at hend
    have hx := (append_inj' hend rfl).2
    rw [← hx]
    simp

theorem params_endclass_mem {fs : List FieldType} {b : List UChar}
    (h : fs.flatMap FieldType.text = a ++ endfunc :: b) : endclass ∈ b := by
  induction fs generalizing a with
  | nil => simp at h
  | cons f fs ih =>
    obtain ⟨a', rfl, hrest⟩ | ⟨c', hf, hrest⟩ := append_eq_append_iff.mp h
    · exact ih hrest
    cases c' with
    | nil => exact ih (a := []) hrest.symm
    | cons x c' =>
      obtain ⟨rfl, rfl⟩ := cons.inj hrest
      exact mem_append_left _ (f.endclass_mem hf)

/-- What stands behind the first closing parenthesis. -/
def behindParen (sig : List UChar) : List UChar := (sig.dropWhile (· ≠ JvmSignature.endfunc)).drop 1

theorem behindParen_append {u : List UChar} (ha : endfunc ∉ a) :
    behindParen (a ++ endfunc :: u) = u := by
  have hall : ∀ x ∈ a, (x ≠ endfunc : Bool) = true := by
    intro x hx
    rw [decide_eq_true_eq]
    rintro rfl
    exact ha hx
  rw [behindParen, dropWhile_append_of_pos hall]
  simp

/-- The first closing parenthesis is the one behind the parameters, or some type ends behind it. -/
theorem exists_behindParen (m : MethodType) : ∃ a u, m.text = func :: (a ++ endfunc :: u) ∧
      endfunc ∉ a ∧ behindParen m.text = u ∧ (u = m.retText ∨ endclass ∈ u) := by
  have hmem : endfunc ∈ m.paramText ++ endfunc :: m.retText := by simp
  obtain ⟨a, u, hsplit, ha⟩ := eq_append_cons_of_mem hmem
  have htext : m.text = func :: (a ++ endfunc :: u) := by
    rw [MethodType.text, hsplit]
  refine ⟨a, u, htext, ha, ?_, ?_⟩
  · rw [htext, ← cons_append]
    exact behindParen_append (not_mem_cons_of_ne_of_not_mem (by decide) ha)
  obtain ⟨a', rfl, hrest⟩ | ⟨c', hp, hrest⟩ := append_eq_append_iff.mp hsplit
  · cases a' with
    | nil => exact .inl (cons.inj hrest).2.symm
    | cons x a' =>
      obtain ⟨rfl, -⟩ := cons.inj hrest
      exact absurd (mem_append_right _ mem_cons_self) ha
  · cases c' with
    | nil => exact .inl (cons.inj hrest).2
    | cons x c' =>
      obtain ⟨rfl, rfl⟩ := cons.inj hrest
      exact .inr (mem_append_left _ (params_endclass_mem hp))

namespace SignatureIterator

variable {sig s : List UChar}

theorem skipDims_of_mem {fuel i : Nat} (hfuel : (sig.drop i).length < fuel)
    (hmem : endclass ∈ sig.drop i) :
    ∃ j, skipDims skipOptionalSize sig fuel i = .ok j ∧ endclass ∈ sig.drop j := by
  induction fuel generalizing i with
  | zero => exact absurd hfuel (not_lt_zero _)
  | succ fuel ih =>
    obtain ⟨c, s, hcons⟩ := exists_cons_of_ne_nil (ne_nil_of_mem hmem)
    by_cases hc : c = array
    · subst hc
      rw [hcons] at hmem hfuel
      have hmem' : endclass ∈ sig.drop (i + 1) := by
        rw [drop_succ hcons]
        exact (mem_cons.mp hmem).resolve_left (by decide)
      obtain ⟨j, hj, hle, hmem''⟩ := skipWhile_of_mem (p := isDigit) hmem' rfl
      have hlength : (sig.drop j).length < fuel := by
        have hs := congrArg length hcons
        simp only [length_drop, length_cons] at hs hfuel ⊢
        omega
      obtain ⟨j', hj', hmem'''⟩ := ih hlength hmem''
      refine ⟨j', ?_, hmem'''⟩
      simp [skipDims, byteAt_of_drop hcons, skipOptionalSize, hj, hj']
    · exact ⟨i, by simp [skipDims, byteAt_of_drop hcons, hc], hmem⟩

/-- A type is found wherever one seems to start and a semicolon follows. -/
theorem parseType_of_mem {this : SignatureIterator} {t : BasicType}
    (h : sig.drop this.index = t.letter :: s) (hmem : endclass ∈ s) :
    ∃ (n : Nat) (c : Call) (index : Nat), c.type = t ∧
      parseType sig this = .ok (n, this.visit c index) := by
  have hmem' : endclass ∈ sig.drop (this.index + 1) := by rwa [drop_succ h]
  unfold parseType
  rw [byteAt_of_drop h, ok_bind, char2type_letter]
  cases t with
  | object =>
    obtain ⟨j, hj⟩ := skipPast_of_mem hmem'
    exact ⟨_, .object (this.index + 1) j, j, rfl, by simp [hj]; rfl⟩
  | array =>
    obtain ⟨j, hj, -, hmemj⟩ := skipWhile_of_mem (p := isDigit) hmem' rfl
    have hfuel : (sig.drop j).length < sig.length + 1 := by
      rw [length_drop]
      omega
    obtain ⟨k, hk, hmemk⟩ := skipDims_of_mem hfuel hmemj
    obtain ⟨c, s', hcons⟩ := exists_cons_of_ne_nil (ne_nil_of_mem hmemk)
    have helement : ∃ l, skipElement sig k = .ok l := by
      rw [skipElement, byteAt_of_drop hcons, ok_bind]
      split
      · exact skipPast_of_mem hmemk
      · exact ⟨k + 1, rfl⟩
    obtain ⟨l, hl⟩ := helement
    refine ⟨BasicType.array.size, .array (this.index + 1) l, l, rfl, ?_⟩
    simp only [skipOptionalSize, hj, ok_bind]
    rw [hk, ok_bind, hl]
    rfl
  | _ => exact ⟨_, .basic _, _, rfl, rfl⟩

/-- `iterate_returntype` parses behind the first closing parenthesis. -/
theorem iterateReturntype_eq {a u : List UChar} (ha : endfunc ∉ a)
    (hsig : sig = func :: (a ++ endfunc :: u)) :
    ∃ this : SignatureIterator, sig.drop this.index = u ∧ this.parameterIndex = -1 ∧
      iterateReturntype sig = (parseType sig this).map fun r => r.2.setParameterIndex 0 := by
  have hfunc : init.expect sig func = .ok (init.setIndex 1) :=
    expect_ok init hsig
  have hdrop : sig.drop 1 = a ++ endfunc :: u := by rw [hsig]; rfl
  have hskip : skipWhile (· ≠ endfunc) sig 1 = .ok (1 + a.length) := by
    refine skipWhile_append hdrop (fun x hx => ?_) (by simp)
    rw [decide_eq_true_eq]
    rintro rfl
    exact ha hx
  have hend : (init.setIndex (1 + a.length)).expect sig endfunc =
      .ok (init.setIndex (1 + a.length + 1)) :=
    expect_ok (init.setIndex (1 + a.length)) (drop_append hdrop)
  refine ⟨(init.setIndex (1 + a.length + 1)).setParameterIndex (-1), drop_succ (drop_append hdrop),
    rfl, ?_⟩
  rw [iterateReturntype, hfunc, ok_bind]
  have hindex : (init.setIndex 1).index = 1 := rfl
  simp only [hindex, hskip, ok_bind]
  rw [show (init.setIndex 1).setIndex (1 + a.length) = init.setIndex (1 + a.length) from rfl, hend,
    ok_bind]
  cases parseType sig ((init.setIndex (1 + a.length + 1)).setParameterIndex (-1)) <;> rfl

end SignatureIterator


/-! ## Agreement -/

/-- All walkers get to the end of the signature, visit the same types, and find the same
return type. -/
def WalkersAgree (sig : List UChar) : Prop :=
  ∃ it ps items rt, SignatureIterator.iterate sig = .ok it ∧
    SignatureIterator.iterateParameters sig = .ok ps ∧ SignatureStream.walk sig = .ok items ∧
    SignatureIterator.iterateReturntype sig = .ok rt ∧ rt.returnType = it.returnType ∧
    items.map SignatureStream.type = it.calls.map (fun c => some c.2.type) ∧
    it.calls.map (fun c => c.2.type) = ps.calls.map (fun c => c.2.type) ++ it.returnType.toList

/-- Behind the first closing parenthesis stands the first character of the return type. -/
def ReturnTypeFound (sig : List UChar) : Prop :=
  ∃ m : MethodType, sig = m.text ∧ (behindParen sig).head? = m.retText.head?

theorem SignatureIterator.iterateReturntype_text (m : MethodType) :
    (∃ rt, iterateReturntype m.text = .ok rt ∧ rt.returnType = some m.retType) ↔
      (behindParen m.text).head? = some m.retType.letter := by
  obtain ⟨a, u, htext, ha, hbehind, hu⟩ := exists_behindParen m
  obtain ⟨this, hdrop, hindex, hiter⟩ := iterateReturntype_eq ha htext
  rw [hiter, hbehind]
  have hneg : this.parameterIndex < 0 := by rw [hindex]; decide
  obtain rfl | hmem := hu
  · obtain ⟨c, hc, hparse⟩ := parseType_ret (s := []) (m := m) this
      (by rw [hdrop, append_nil])
    obtain ⟨s, hs⟩ := m.retText_eq_cons
    refine iff_of_true ⟨_, by rw [hparse, map_ok], ?_⟩ (by rw [hs]; rfl)
    simp [setParameterIndex, visit, hneg, hc]
  · obtain ⟨x, s, rfl⟩ := exists_cons_of_ne_nil (ne_nil_of_mem hmem)
    rw [head?_cons, Option.some.injEq]
    cases htype : char2type x with
    | none =>
      -- the walk ends in the name of a class
      have hparse : parseType m.text this = .error .shouldNotReachHere := by
        rw [parseType, byteAt_of_drop hdrop, ok_bind, htype]
        rfl
      rw [hparse]
      refine iff_of_false (fun ⟨_, hbad, _⟩ => by cases hbad) ?_
      rintro rfl
      rw [char2type_letter] at htype
      cases htype
    | some t =>
      obtain rfl := char2type_eq_some.mp htype
      have hmem' : endclass ∈ s :=
        (mem_cons.mp hmem).resolve_left (by cases t <;> decide)
      obtain ⟨n, c, index, hc, hparse⟩ := parseType_of_mem hdrop hmem'
      rw [hparse, map_ok]
      constructor
      · rintro ⟨rt, hrt, htypes⟩
        obtain rfl := Except.ok.inj hrt
        simp only [setParameterIndex, visit, hneg, if_true, Option.some.injEq] at htypes
        rw [← hc, htypes]
      · intro hletter
        refine ⟨_, rfl, ?_⟩
        simp [setParameterIndex, visit, hneg, hc, BasicType.letter_inj hletter]

theorem walkersAgree_text (m : MethodType) :
    WalkersAgree m.text ↔ (behindParen m.text).head? = m.retText.head? := by
  obtain ⟨it, hit, hret, htypes⟩ := iterate_text m
  obtain ⟨ps, hps, hptypes, -⟩ := iterateParameters_text m
  obtain ⟨items, hitems, hviews⟩ := SignatureStream.walk_text m
  obtain ⟨s, hs⟩ := m.retText_eq_cons
  rw [hs, head?_cons, ← iterateReturntype_text]
  constructor
  · rintro ⟨it', -, -, rt, hit', -, -, hrt, heq, -⟩
    rw [hit] at hit'
    obtain rfl := Except.ok.inj hit'
    exact ⟨rt, hrt, heq.trans hret⟩
  · rintro ⟨rt, hrt, heq⟩
    refine ⟨it, ps, items, rt, hit, hps, hitems, hrt, heq.trans hret.symm, ?_, ?_⟩
    · have hfst := congrArg (map Prod.fst) hviews
      have hsome := congrArg (map some) htypes
      simp only [SignatureStream.views, map_map, map_append] at hfst hsome
      rw [show items.map SignatureStream.type = items.map (Prod.fst ∘ fun i =>
        (i.type, i.atReturnType)) from rfl, hfst]
      exact hsome.symm
    · rw [htypes, hptypes, hret]
      rfl

/-- On a descriptor that the class file parser has accepted, all walkers succeed and agree
exactly if the character behind the first closing parenthesis is that of the return type. -/
theorem walkersAgree_iff (parser : ClassFileParser) (hverify : parser.needVerify = true)
    (name sig : List UChar) (argsSize : Int)
    (h : parser.verifyLegalMethodSignature name sig = .ok argsSize) :
    WalkersAgree sig ↔ ReturnTypeFound sig := by
  obtain ⟨m, rfl, -⟩ := ClassFileParser.verifyLegalMethodSignature_eq_ok hverify h
  constructor
  · intro hagree
    exact ⟨m, rfl, (walkersAgree_text m).mp hagree⟩
  · rintro ⟨m', htext, hfound⟩
    rw [htext] at hfound ⊢
    exact (walkersAgree_text m').mpr hfound

/-- The class file parser counts the words of the parameters like `ArgumentSizeComputer`, and wherever it
skips a type, `parse_type` goes to the same place. -/
theorem argumentSize_of_accepted (parser : ClassFileParser) (hverify : parser.needVerify = true)
    (name sig : List UChar) (argsSize : Int) (h : parser.verifyLegalMethodSignature name sig = .ok argsSize) :
    (∃ n, ArgumentSizeComputer.size sig = .ok n ∧ argsSize = n) ∧
      ∀ (this : SignatureIterator) (nextp : List UChar),
        parser.skipOverFieldSignature (sig.drop this.index ++ [0#8]) false (sig.length - this.index) = .ok (some nextp) →
        ∃ size this', SignatureIterator.parseType sig this = .ok (size, this') ∧ nextp = sig.drop this'.index ++ [0#8] := by
  obtain ⟨m, rfl, rfl⟩ := ClassFileParser.verifyLegalMethodSignature_eq_ok hverify h
  refine ⟨⟨m.paramSize, ?_, rfl⟩, fun this nextp hskip => ?_⟩
  · obtain ⟨it, hit, htypes, -⟩ := iterateParameters_text m
    have hsizes := congrArg (map BasicType.size) htypes
    simp only [map_map] at hsizes
    rw [ArgumentSizeComputer.size, hit, ok_bind, MethodType.paramSize]
    exact congrArg (fun l => Except.ok l.sum) hsizes
  · rw [← length_drop] at hskip
    obtain ⟨f, t', ht, rfl⟩ := ClassFileParser.skipOverFieldSignature_eq_some hskip
    refine ⟨_, _, parseType_text ht, ?_⟩
    rw [visit, drop_append ht]

/-- The descriptor `(JLa;)V` in a class file of version 48. -/
theorem argumentSize_of_accepted_long :
    ∃ n, ArgumentSizeComputer.size [0x28#8, 0x4A#8, 0x4C#8, 0x61#8, 0x3B#8, 0x29#8, 0x56#8] = .ok n ∧ (3 : Int) = n :=
  (argumentSize_of_accepted ⟨48, true, [0x41#8], ⟨fun _ => some true, fun _ => some true⟩⟩ rfl [0x66#8] _ 3 rfl).1

/-- The descriptor `(ILa;)V`. -/
theorem walkersAgree_plain :
    WalkersAgree [0x28#8, 0x49#8, 0x4C#8, 0x61#8, 0x3B#8, 0x29#8, 0x56#8] := by
  have haccepted : ClassFileParser.verifyLegalMethodSignature
      ⟨49, true, [0x41#8], ⟨fun _ => some true, fun _ => some true⟩⟩ [0x66#8]
      [0x28#8, 0x49#8, 0x4C#8, 0x61#8, 0x3B#8, 0x29#8, 0x56#8] = .ok 2 := rfl
  refine (walkersAgree_iff _ rfl _ _ _ haccepted).mpr ?_
  refine ⟨⟨[⟨0, .primitive .int rfl, by decide⟩,
    ⟨0, .object ⟨[0x61#8], by decide, by decide⟩, by decide⟩], none⟩, rfl, rfl⟩

/-- The descriptors `(La)I;)V` and `(La)x;)V` are accepted, and return nothing. In the first
one `iterate_returntype` finds an int, in the second one it ends in a fatal error. -/
theorem returntype_in_class_name : ClassFileParser.verifyLegalMethodSignature
        ⟨49, true, [0x41#8], ⟨fun _ => some true, fun _ => some true⟩⟩ [0x66#8]
        [0x28#8, 0x4C#8, 0x61#8, 0x29#8, 0x49#8, 0x3B#8, 0x29#8, 0x56#8] = .ok 1 ∧
      (SignatureIterator.iterate
        [0x28#8, 0x4C#8, 0x61#8, 0x29#8, 0x49#8, 0x3B#8, 0x29#8, 0x56#8]).map (·.returnType) =
        .ok (some .void) ∧ (SignatureIterator.iterateReturntype
        [0x28#8, 0x4C#8, 0x61#8, 0x29#8, 0x49#8, 0x3B#8, 0x29#8, 0x56#8]).map (·.returnType) =
        .ok (some .int) ∧ ClassFileParser.verifyLegalMethodSignature
        ⟨49, true, [0x41#8], ⟨fun _ => some true, fun _ => some true⟩⟩ [0x66#8]
        [0x28#8, 0x4C#8, 0x61#8, 0x29#8, 0x78#8, 0x3B#8, 0x29#8, 0x56#8] = .ok 1 ∧
      SignatureIterator.iterateReturntype
        [0x28#8, 0x4C#8, 0x61#8, 0x29#8, 0x78#8, 0x3B#8, 0x29#8, 0x56#8] =
        .error .shouldNotReachHere :=
  ⟨rfl, rfl, rfl, rfl, rfl⟩

end Hotspot
