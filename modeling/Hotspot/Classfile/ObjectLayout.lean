-- SUMMARY: When the layout of a chain of classes is sound for the collector.
import Hotspot.Classfile.MachineOffsets
import Hotspot.Classfile.OopMapBlocks

/-!
# Object layout

In unbounded arithmetic every class of every chain has a sound layout. With the types of the code it
has one exactly if the end of the fields is an `int` and the blocks of the oop map can be stored.
-/

namespace Hotspot.FieldLayout

open List Arithmetic

/-- What the collector relies on. -/
structure Sound (width : RefWidth) (k : KlassLayout) : Prop where
  apart : (k.fields.map (fieldRange width)).Pairwise ByteRange.Apart
  aligned : ∀ field ∈ k.fields, ((field.1.size width : Nat) : Int) ∣ field.2
  bounds : ∀ field ∈ k.fields, (width.baseOffset : Int) ≤ field.2 ∧
    field.2 + field.1.size width ≤ k.instanceSize * width.wordSize
  oopMaps : ∀ o, Covered width.heapOopSize k.oopMaps o ↔ (.oop, o) ∈ k.fields

/-- The types of the code can hold the layout of the class. -/
structure Fits (flags : Flags) (super : Option KlassLayout) (cf : ClassFields) : Prop where
  endOffset : endOffset .exact flags super cf < 2 ^ 31
  oopMaps : ∀ b ∈ (layoutFields .exact flags super cf).oopMaps, b.offset < 2 ^ 16 ∧
    b.length < 2 ^ 16

def superFields (super : Option KlassLayout) : List (FieldKind × Int) :=
  super.elim [] KlassLayout.fields

/-- The layout of a superclass, in its own terms. -/
structure Laid (width : RefWidth) (super : Option KlassLayout) : Prop where
  fieldSize : 0 ≤ superFieldSize super
  apart : ((superFields super).map (fieldRange width)).Pairwise ByteRange.Apart
  aligned : ∀ field ∈ superFields super, ((field.1.size width : Nat) : Int) ∣ field.2
  bounds : ∀ field ∈ superFields super, (width.baseOffset : Int) ≤ field.2 ∧
    field.2 + field.1.size width ≤ width.baseOffset + superFieldSize super * width.heapOopSize
  oopMaps : ∀ o, Covered width.heapOopSize (superMaps super) o ↔ (.oop, o) ∈ superFields super
  blocks : ∀ b ∈ superMaps super, 0 < b.length ∧ 0 ≤ b.offset

theorem laid_none (width : RefWidth) : Laid width none where
  fieldSize := le_rfl
  apart := .nil
  aligned := forall_mem_nil _
  bounds := forall_mem_nil _
  oopMaps o := ⟨fun h => absurd h not_covered_nil, fun h => by cases h⟩
  blocks := forall_mem_nil _

/-! ## The layout in unbounded arithmetic -/

section Exact

variable {f : Flags} {s : Option KlassLayout} {cf : ClassFields}

theorem RefWidth.dvd_baseOffset (width : RefWidth) :
    (width.heapOopSize : Int) ∣ width.baseOffset := by
  cases width <;> decide

theorem firstFieldOffset_exact : firstFieldOffset .exact f s =
    f.width.baseOffset + superFieldSize s * f.width.heapOopSize := rfl

theorem dvd_firstFieldOffset : (f.width.heapOopSize : Int) ∣ firstFieldOffset .exact f s := by
  exact Int.dvd_add f.width.dvd_baseOffset (dvd_mul_left _ _)

/-- Where the declared fields begin. -/
def declaredOffset (flags : Flags) (super : Option KlassLayout) (cf : ClassFields) : Int :=
  firstFieldOffset .exact flags super + cf.fakeOopFields * flags.width.heapOopSize

theorem dvd_declaredOffset : (f.width.heapOopSize : Int) ∣ declaredOffset f s cf :=
  Int.dvd_add dvd_firstFieldOffset (dvd_mul_left _ _)

variable (f s cf) in
theorem firstFieldOffset_le_declaredOffset : firstFieldOffset .exact f s ≤ declaredOffset f s cf :=
  le_add_of_nonneg_right (mul_nonneg (Int.natCast_nonneg _) (Int.natCast_nonneg _))

/-- Where the fields end. -/
abbrev fieldsEnd (flags : Flags) (super : Option KlassLayout) (cf : ClassFields) : Int :=
  (fieldStarts .exact flags super cf).notalignedOffset

theorem fieldStarts_exact : fieldStarts .exact f s cf =
    computeStarts .exact f.width.heapOopSize (cf.allocationStyle f) (cf.compactFields f)
      (declaredOffset f s cf) cf.fields.count := rfl

variable (f s cf) in
theorem declaredOffset_le : declaredOffset f s cf ≤ fieldsEnd f s cf :=
  sectionBound_monotone f.width.heapOopSize_cases dvd_declaredOffset (Nat.zero_le 10)

theorem mem_fakeFields {fd : FieldKind × Int} {heapOopSize : Nat} {first : Int} :
    fd ∈ fakeFields .exact cf heapOopSize first ↔
      ∃ i < cf.fakeOopFields, fd = (.oop, first + i * heapOopSize) := by
  simp [fakeFields, exact_int, eq_comm]

/-- Ranges that end before the sections begin. -/
theorem taken_of_before {ι : Type} [DecidableEq ι] {S : Sections ι} {lo next hi : Int}
    {rs : List ByteRange}
    (hS : S.Placed next hi) (hlo : lo ≤ next) (hhi : next ≤ hi)
    (hpairwise : rs.Pairwise ByteRange.Apart)
    (haligned : ∀ r ∈ rs, (r.size : Int) ∣ r.start)
    (hbounds : ∀ r ∈ rs, lo ≤ r.start ∧ r.start + r.size ≤ next) :
    S.Taken lo hi rs where
  placed := hS.mono hlo
  pairwise := hpairwise
  aligned := haligned
  bounds r hr := ⟨(hbounds r hr).1, (hbounds r hr).2.trans hhi⟩
  apart r hr q hq := .inl ((hbounds r hr).2.trans (hS.bounds q hq).1)

theorem baseOffset_le_firstFieldOffset (h : Laid f.width s) :
    (f.width.baseOffset : Int) ≤ firstFieldOffset .exact f s := by
  have hnonneg := mul_nonneg h.fieldSize (Int.natCast_nonneg f.width.heapOopSize)
  rw [firstFieldOffset_exact]
  omega

theorem fakeFields_apart {first : Int} :
    ((fakeFields .exact cf f.width.heapOopSize first).map (fieldRange f.width)).Pairwise
      ByteRange.Apart := by
  rw [fakeFields, map_map, pairwise_map]
  refine pairwise_lt_range.imp fun {i j} hlt => .inl ?_
  show first + i * f.width.heapOopSize + f.width.heapOopSize ≤ first + j * f.width.heapOopSize
  have hmul :=
    Int.mul_le_mul_of_nonneg_right (show (i : Int) + 1 ≤ j by omega)
    (Int.natCast_nonneg f.width.heapOopSize)
  rw [add_mul] at hmul
  omega

/-- The inherited and the fake fields come before the declared ones. -/
theorem startSections_taken (h : Laid f.width s) :
    (sections f.width (fieldStarts .exact f s cf).cursor cf.fields.count).Taken f.width.baseOffset
      (fieldsEnd f s cf) ((superFields s).map (fieldRange f.width) ++
        (fakeFields .exact cf f.width.heapOopSize (firstFieldOffset .exact f s)).map
    (fieldRange f.width)) := by
  have hplaced : (sections f.width (fieldStarts .exact f s cf).cursor cf.fields.count).Placed
      (declaredOffset f s cf) (fieldsEnd f s cf) :=
    startSections_placed dvd_declaredOffset
  have hbase := baseOffset_le_firstFieldOffset h
  have hfirst := firstFieldOffset_le_declaredOffset f s cf
  have hfakes : ∀ fd ∈ fakeFields .exact cf f.width.heapOopSize (firstFieldOffset .exact f s),
      firstFieldOffset .exact f s ≤ fd.2 ∧ fd.2 + fd.1.size f.width ≤ declaredOffset f s cf ∧
        ((fd.1.size f.width : Nat) : Int) ∣ fd.2 := by
    intro fd hfield
    obtain ⟨i, hi, rfl⟩ := mem_fakeFields.mp hfield
    have hmul := Int.mul_le_mul_of_nonneg_right (show (i : Int) + 1 ≤ cf.fakeOopFields by omega)
      (Int.natCast_nonneg f.width.heapOopSize)
    have hnonneg : (0 : Int) ≤ i * f.width.heapOopSize :=
      mul_nonneg (Int.natCast_nonneg _) (Int.natCast_nonneg _)
    rw [add_mul] at hmul
    simp only [FieldKind.size, declaredOffset]
    exact ⟨by omega, by omega, Int.dvd_add dvd_firstFieldOffset (dvd_mul_left _ _)⟩
  have hsuper : ∀ fd ∈ superFields s, fd.2 + fd.1.size f.width ≤ firstFieldOffset .exact f s :=
    fun fd hfield => (h.bounds fd hfield).2
  refine taken_of_before hplaced (hbase.trans hfirst) (declaredOffset_le f s cf) ?_ ?_ ?_
  · refine pairwise_append.mpr ⟨h.apart, fakeFields_apart, fun r hr r' hr' => .inl ?_⟩
    obtain ⟨fd, hfield, rfl⟩ := mem_map.mp hr
    obtain ⟨field', hfield', rfl⟩ := mem_map.mp hr'
    exact (hsuper fd hfield).trans (hfakes field' hfield').1
  · refine forall_mem_append.mpr ⟨forall_mem_map.mpr h.aligned,
      forall_mem_map.mpr fun fd hfield => ?_⟩
    exact (hfakes fd hfield).2.2
  · refine forall_mem_append.mpr ⟨forall_mem_map.mpr fun fd hfield => ?_,
      forall_mem_map.mpr fun fd hfield => ?_⟩
    · exact ⟨(h.bounds fd hfield).1, (hsuper fd hfield).trans hfirst⟩
    · exact ⟨hbase.trans (hfakes fd hfield).1, (hfakes fd hfield).2.1⟩

theorem layoutFields_fields (ar : Arithmetic) :
    (layoutFields ar f s cf).fields = superFields s ++ (assignFields ar f s cf).fields := rfl

/-- The fields up to the end of the class, before it is aligned. -/
structure FieldsPlaced (width : RefWidth) (fields : List (FieldKind × Int)) (stop : Int) :
    Prop where
  apart : (fields.map (fieldRange width)).Pairwise ByteRange.Apart
  aligned : ∀ field ∈ fields, ((field.1.size width : Nat) : Int) ∣ field.2
  bounds : ∀ field ∈ fields, (width.baseOffset : Int) ≤ field.2 ∧
    field.2 + field.1.size width ≤ stop

variable (cf) in
theorem fieldsPlaced (h : Laid f.width s) : FieldsPlaced f.width (layoutFields .exact f s cf).fields
    (fieldsEnd f s cf) := by
  have hstart : (sections f.width (fieldStarts .exact f s cf).cursor cf.fields.count).Taken _ _ _ :=
    startSections_taken h
  obtain ⟨S, htaken⟩ := Taken.foldl_place
    (a := ⟨_, initialMaps .exact cf (firstFieldOffset .exact f s), _⟩) hstart
  rw [← map_append] at htaken
  refine ⟨htaken.pairwise, fun fd hfield => ?_, fun fd hfield => ?_⟩
  · exact htaken.aligned _ (mem_map_of_mem hfield)
  · exact htaken.bounds _ (mem_map_of_mem hfield)

variable (f s cf) in
/-- The end of the fields, in units of `heapOopSize`. -/
theorem nonstaticFieldSize_exact : f.width.baseOffset +
    (layoutFields .exact f s cf).nonstaticFieldSize * f.width.heapOopSize =
      alignSizeUp (fieldsEnd f s cf) f.width.heapOopSize := by
  have hdvd : (f.width.heapOopSize : Int) ∣
      alignSizeUp (fieldsEnd f s cf) f.width.heapOopSize -
        firstFieldOffset .exact f s := Int.dvd_sub (dvd_alignSizeUp _ _) dvd_firstFieldOffset
  have hcancel := Int.tdiv_mul_cancel hdvd
  have hsize : (layoutFields .exact f s cf).nonstaticFieldSize = superFieldSize s +
    (alignSizeUp (fieldsEnd f s cf) f.width.heapOopSize -
        firstFieldOffset .exact f s).tdiv f.width.heapOopSize := rfl
  rw [hsize, add_mul, hcancel, firstFieldOffset_exact]
  ring

theorem RefWidth.wordSize_pos (width : RefWidth) : 0 < width.wordSize := by cases width <;> decide

variable (f s cf) in
theorem fieldsEnd_le_endOffset : fieldsEnd f s cf ≤ endOffset .exact f s cf :=
  le_alignSizeUp _ f.width.wordSize_pos

theorem alignSizeUp_le_endOffset :
    alignSizeUp (fieldsEnd f s cf) f.width.heapOopSize ≤ endOffset .exact f s cf := by
  show _ ≤ alignSizeUp (fieldsEnd f s cf) _
  unfold alignSizeUp
  cases f.width
  all_goals
    simp only [RefWidth.heapOopSize, RefWidth.wordSize]
    omega

theorem endOffset_le_instanceSize : endOffset .exact f s cf ≤
    (layoutFields .exact f s cf).instanceSize * f.width.wordSize := by
  have hdvd : (f.width.wordSize : Int) ∣ endOffset .exact f s cf := dvd_alignSizeUp _ _
  have hcancel := Int.tdiv_mul_cancel hdvd
  have hpos : 0 < f.width.minObjAlignment := by cases f.width <;> decide
  have hle := le_alignSizeUp ((endOffset .exact f s cf).tdiv f.width.wordSize) hpos
  have hmul := Int.mul_le_mul_of_nonneg_right hle (Int.natCast_nonneg f.width.wordSize)
  rw [hcancel] at hmul
  exact hmul

/-! ### The oop maps -/

variable (cf) in
theorem initialMaps_exact (hfirst : 0 < firstFieldOffset .exact f s) :
    (initialMaps .exact cf (firstFieldOffset .exact f s)).Valid ∧
      ∀ o, Covered f.width.heapOopSize (initialMaps .exact cf (firstFieldOffset .exact f s)).blocks
        o ↔
        (.oop, o) ∈ fakeFields .exact cf f.width.heapOopSize (firstFieldOffset .exact f s) := by
  simp only [mem_fakeFields, Prod.mk.injEq, true_and]
  unfold initialMaps ClassFields.fakeOopFields
  split
  · refine ⟨⟨?_, ?_, ?_⟩, fun o => ?_⟩
    · exact forall_mem_singleton.mpr ⟨by simp, hfirst.le⟩
    · intro b hb
      cases hb
      exact ⟨hfirst, rfl⟩
    · intro hnil
      cases hnil
    · rw [covered_cons, or_iff_left not_covered_nil]
      simp [OopMapBlock.Covers]
  · refine ⟨⟨forall_mem_nil _, ?_, fun _ => rfl⟩, fun o => ⟨fun h => absurd h not_covered_nil, ?_⟩⟩
    · intro b hb
      cases hb
    · rintro ⟨i, hi, -⟩
      omega

/-- The declared fields, in the order of the loop. -/
structure Declared (flags : Flags) (super : Option KlassLayout) (cf : ClassFields)
    (declared : List (FieldKind × Int)) :
    Prop where
  fields : (assignFields .exact flags super cf).fields =
    fakeFields .exact cf flags.width.heapOopSize (firstFieldOffset .exact flags super) ++ declared
  maps : (assignFields .exact flags super cf).maps = (oopOffsets declared).foldl
    (OopMaps.add .exact flags.width.heapOopSize)
      (initialMaps .exact cf (firstFieldOffset .exact flags super))
  ascending :
    Ascending flags.width.heapOopSize (declaredOffset flags super cf) (oopOffsets declared)

theorem exists_declared (f : Flags) (s : Option KlassLayout) (cf : ClassFields) :
    ∃ dc, Declared f s cf dc := by
  obtain ⟨a, ha⟩ : ∃ a : Assignment, a = ⟨(fieldStarts .exact f s cf).cursor,
    initialMaps .exact cf (firstFieldOffset .exact f s),
    fakeFields .exact cf f.width.heapOopSize (firstFieldOffset .exact f s)⟩ := ⟨_, rfl⟩
  have hahead : (a.cursor .oop).Ahead f.width.heapOopSize (declaredOffset f s cf) := by
    rw [ha]
    exact computeStarts_ahead dvd_declaredOffset le_rfl
  obtain ⟨dc, hfields, hmaps⟩ := foldl_place_maps .exact f.width cf.fields a
  obtain ⟨declared', hfields', hasc⟩ := foldl_place_ascending cf.fields hahead
  obtain rfl := append_cancel_left (hfields.symm.trans hfields')
  rw [ha] at hfields hmaps
  exact ⟨dc, hfields, hmaps, hasc⟩

theorem RefWidth.baseOffset_pos (width : RefWidth) :
    0 < width.baseOffset := by cases width <;> decide

theorem firstFieldOffset_pos (h : Laid f.width s) : 0 < firstFieldOffset .exact f s := by
  have := baseOffset_le_firstFieldOffset h
  have := f.width.baseOffset_pos
  omega

theorem Declared.pos {dc : List (FieldKind × Int)} (hd : Declared f s cf dc) (h : Laid f.width s) :
    ∀ o ∈ oopOffsets dc, 0 < o := by
  intro o ho
  have hplaced := fieldsPlaced cf h
  have hmem : (.oop, o) ∈ (layoutFields .exact f s cf).fields := by
    rw [layoutFields_fields, hd.fields]
    exact mem_append_right _ (mem_append_right _ (mem_oopOffsets.mp ho))
  have := (hplaced.bounds _ hmem).1
  have := f.width.baseOffset_pos
  omega

section

variable (h : Laid f.width s)

include h

variable (cf) in
theorem assignFields_maps : (assignFields .exact f s cf).maps.Valid ∧
    ∀ o, Covered f.width.heapOopSize (assignFields .exact f s cf).maps.blocks o ↔
      (.oop, o) ∈ (assignFields .exact f s cf).fields := by
  obtain ⟨dc, hd⟩ := exists_declared f s cf
  obtain ⟨hinit, hcovered⟩ := initialMaps_exact cf (firstFieldOffset_pos h)
  obtain ⟨hvalid, hadded⟩ := OopMaps.foldl_add f.width.heapOopSize hinit (hd.pos h)
  rw [hd.maps, hd.fields]
  refine ⟨hvalid, fun o => ?_⟩
  rw [hadded, hcovered, mem_oopOffsets, mem_append]

theorem layoutFields_covered (o : Int) :
    Covered f.width.heapOopSize (layoutFields .exact f s cf).oopMaps o ↔
      (.oop, o) ∈ (layoutFields .exact f s cf).fields := by
  obtain ⟨hvalid, hcovered⟩ := assignFields_maps cf h
  rw [layoutFields_fields, mem_append, ← h.oopMaps, ← hcovered]
  exact covered_fillOopMaps (fun b hb => (h.blocks b hb).1) hvalid

theorem layoutFields_blocks :
    ∀ b ∈ (layoutFields .exact f s cf).oopMaps, 0 < b.length ∧ 0 ≤ b.offset := by
  have hvalid := (assignFields_maps cf h).1.length
  have hsuper := h.blocks
  show ∀ b ∈ klassMaps _ _ _ _, _
  rcases fillOopMaps_cases .exact f.width.heapOopSize (superMaps s)
    (assignFields .exact f s cf).maps with
    ⟨bs, last, first, rest, heq_super, hblocks, -, heq⟩ | ⟨-, heq⟩ <;> rw [heq]
  · rw [heq_super, forall_mem_append, forall_mem_singleton] at hsuper
    rw [hblocks, forall_mem_cons] at hvalid
    refine forall_mem_append.mpr ⟨hsuper.1, forall_mem_cons.mpr ⟨?_, hvalid.2⟩⟩
    simp only [exact_ushort]
    omega
  · exact forall_mem_append.mpr ⟨hsuper, hvalid⟩

theorem sound_exact : Sound f.width (layoutFields .exact f s cf) := by
  have hplaced := fieldsPlaced cf h
  refine ⟨hplaced.apart, hplaced.aligned, fun fd hfield => ?_, layoutFields_covered h⟩
  obtain ⟨hlo, hhi⟩ := hplaced.bounds fd hfield
  exact ⟨hlo, hhi.trans ((fieldsEnd_le_endOffset f s cf).trans endOffset_le_instanceSize)⟩

theorem Laid.step : Laid f.width (some (layoutFields .exact f s cf)) := by
  have hplaced := fieldsPlaced cf h
  have hoop := f.width.heapOopSize_cases
  have hpos : 0 < f.width.heapOopSize := by omega
  have hstop := le_alignSizeUp (fieldsEnd f s cf) hpos
  have hbase := baseOffset_le_firstFieldOffset h
  have hfirst := firstFieldOffset_le_declaredOffset f s cf
  have hdeclared := declaredOffset_le f s cf
  have hsize := nonstaticFieldSize_exact f s cf
  refine ⟨?_, hplaced.apart, hplaced.aligned,
    fun fd hfield => ?_, layoutFields_covered h, layoutFields_blocks h⟩
  · show 0 ≤ (layoutFields .exact f s cf).nonstaticFieldSize
    by_contra hneg
    have := mul_neg_of_neg_of_pos (show (layoutFields .exact f s cf).nonstaticFieldSize <
      0 by omega)
      (show (0 : Int) < f.width.heapOopSize by omega)
    omega
  · obtain ⟨hlo, hhi⟩ := hplaced.bounds fd hfield
    refine ⟨hlo, ?_⟩
    show _ ≤ f.width.baseOffset + (layoutFields .exact f s cf).nonstaticFieldSize *
      f.width.heapOopSize
    omega

end

end Exact

/-! ## The layout in the types of the code -/

section Machine

variable {f : Flags} {s : Option KlassLayout} {cf : ClassFields}

/-- The layout of the superclass is in the types of the code. -/
structure Small (flags : Flags) (super : Option KlassLayout) : Prop where
  endOffset : alignSizeUp (firstFieldOffset .exact flags super) flags.width.wordSize < 2 ^ 31
  oopMaps : ∀ b ∈ superMaps super, b.offset < 2 ^ 16 ∧ b.length < 2 ^ 16

theorem small_none (f : Flags) : Small f none := by
  refine ⟨?_, forall_mem_nil _⟩
  rw [firstFieldOffset_exact]
  cases f.width <;> decide

theorem RefWidth.wordSize_cases (width : RefWidth) : width.wordSize = 4 ∨ width.wordSize = 8 := by
  cases width <;> simp [wordSize]

theorem firstFieldOffset_machine (f : Flags) (s : Option KlassLayout) :
    firstFieldOffset .machine f s = machine.int (firstFieldOffset .exact f s) :=
  machine_int_add_right _ _

theorem fieldStarts_machine (f : Flags) (s : Option KlassLayout) (cf : ClassFields) :
    fieldStarts .machine f s cf =
      computeStarts .machine f.width.heapOopSize (cf.allocationStyle f) (cf.compactFields f)
        (machine.int (declaredOffset f s cf)) cf.fields.count := by
  unfold fieldStarts
  rw [firstFieldOffset_machine, machine_int_add]
  rfl

theorem endOffset_machine (f : Flags) (s : Option KlassLayout) (cf : ClassFields) :
    endOffset .machine f s cf = machine.int (endOffset .exact f s cf) := by
  unfold endOffset
  rw [fieldStarts_machine, notalignedOffset_machine f.width.heapOopSize_cases,
    machine_int_alignSizeUp _ f.width.wordSize_cases]
  rfl

theorem assignFields_machine (f : Flags) (s : Option KlassLayout) (cf : ClassFields) :
    (assignFields .machine f s cf).fields = (assignFields .exact f s cf).fields.map wrapField := by
  refine foldl_place_machine (fun kind => ?_) ?_
  · simp only [fieldStarts_machine]
    exact cursor_machine f.width.heapOopSize_cases kind
  · simp only [fakeFields, firstFieldOffset_machine, map_map, machine_int_add]
    rfl

/-! ### Overflow of `int` -/

theorem length_foldl_place (ar : Arithmetic) (width : RefWidth) (kinds : List FieldKind)
    (a : Assignment) :
    (kinds.foldl (Assignment.place ar width) a).fields.length = a.fields.length + kinds.length := by
  induction kinds generalizing a with
  | nil => rfl
  | cons kind kinds ih =>
    rw [foldl_cons, ih, place_fields kinds, length_append, length_singleton, length_cons]
    omega

theorem length_assignFields (ar : Arithmetic) :
    (assignFields ar f s cf).fields.length = cf.fakeOopFields + cf.fields.length := by
  rw [assignFields, length_foldl_place]
  simp [fakeFields]

variable (cf) in
theorem endOffset_lt (hs : Small f s) : endOffset .exact f s cf < 2 ^ 32 := by
  have hcount : ∀ kind, cf.fields.count kind < 2 ^ 16 :=
    fun kind => count_le_length.trans_lt cf.legal
  have hend := hs.endOffset
  have hlt : fieldsEnd f s cf < declaredOffset f s cf + 2 ^ 22 :=
    notalignedOffset_lt f.width.heapOopSize_cases hcount
  have hword := f.width.wordSize_cases
  have hle := le_alignSizeUp (firstFieldOffset .exact f s) f.width.wordSize_pos
  have halign := alignSizeUp_lt (fieldsEnd f s cf) f.width.wordSize_pos
  have hfake : (cf.fakeOopFields : Int) * f.width.heapOopSize ≤ 24 := by
    have hoop := f.width.heapOopSize_cases
    unfold ClassFields.fakeOopFields
    rcases hoop with hoop | hoop <;> rw [hoop] <;> split <;> omega
  have hdeclared : declaredOffset f s cf =
    firstFieldOffset .exact f s + cf.fakeOopFields * f.width.heapOopSize := rfl
  show alignSizeUp (fieldsEnd f s cf) _ < _
  omega

/-- If the end of the fields overflows, the size is not positive. -/
theorem instanceSize_of_overflow (hs : Small f s) (hge : 2 ^ 31 ≤ endOffset .exact f s cf) :
    (layoutFields .machine f s cf).instanceSize ≤ 0 := by
  have hlt := endOffset_lt cf hs
  have hsize : (layoutFields .machine f s cf).instanceSize = machine.int
    (alignSizeUp ((endOffset .machine f s cf).tdiv f.width.wordSize) f.width.minObjAlignment) := rfl
  rw [hsize, endOffset_machine, machine_int_overflow hge hlt]
  obtain ⟨n, hn⟩ : ∃ n : Nat, endOffset .exact f s cf - 2 ^ 32 = -n :=
    ⟨(2 ^ 32 - endOffset .exact f s cf).toNat, by omega⟩
  rw [hn, Int.neg_tdiv]
  obtain ⟨d, hd⟩ : ∃ d, d = (n : Int).tdiv f.width.wordSize := ⟨_, rfl⟩
  have hdiv : (0 : Int) ≤ (n : Int).tdiv f.width.wordSize ∧
      (n : Int).tdiv f.width.wordSize ≤ n := by
    rw [Int.tdiv_eq_ediv_of_nonneg (by omega)]
    rcases f.width.wordSize_cases with h | h <;> rw [h] <;> omega
  rw [← hd] at hdiv ⊢
  have hsmall : alignSizeUp (-d) f.width.minObjAlignment ≤ 0 ∧
      -2 ^ 31 ≤ alignSizeUp (-d) f.width.minObjAlignment := by
    unfold alignSizeUp
    cases f.width <;> simp [RefWidth.minObjAlignment, RefWidth.wordSize] <;> omega
  show Int.bmod _ _ ≤ 0
  rw [Int.bmod_eq_of_le] <;> omega

theorem fields_ne_nil_of_overflow (hs : Small f s) (hge : 2 ^ 31 ≤ endOffset .exact f s cf) :
    (layoutFields .machine f s cf).fields ≠ [] := by
  intro hnil
  have hlength := congrArg List.length hnil
  rw [layoutFields_fields, length_append, length_assignFields, length_nil] at hlength
  have hfields : cf.fields = [] := length_eq_zero_iff.mp (by omega)
  have hdeclared : declaredOffset f s cf = firstFieldOffset .exact f s := by
    rw [declaredOffset, show cf.fakeOopFields = 0 by omega]
    omega
  have hend : fieldsEnd f s cf = firstFieldOffset .exact f s := by
    rw [fieldsEnd, fieldStarts_exact, hdeclared]
    exact notalignedOffset_of_count_eq_zero fun kind => by rw [hfields, count_nil]
  have hlt := hs.endOffset
  rw [← hend] at hlt
  exact absurd hlt (not_lt.mpr hge)

theorem not_sound_of_overflow (hs : Small f s) (hge : 2 ^ 31 ≤ endOffset .exact f s cf) :
    ¬ Sound f.width (layoutFields .machine f s cf) := by
  intro hsound
  obtain ⟨fd, hfield⟩ := exists_mem_of_ne_nil _ (fields_ne_nil_of_overflow hs hge)
  obtain ⟨hlo, hhi⟩ := hsound.bounds fd hfield
  have hsize := instanceSize_of_overflow hs hge
  have hpos := f.width.baseOffset_pos
  have hmul : (layoutFields .machine f s cf).instanceSize * f.width.wordSize ≤ 0 :=
    mul_nonpos_of_nonpos_of_nonneg hsize (Int.natCast_nonneg _)
  omega

/-! ### No overflow of `int` -/

section InRange

variable (h : Laid f.width s) (hend : endOffset .exact f s cf < 2 ^ 31)
include h hend

theorem offsets_lt : 0 < firstFieldOffset .exact f s ∧
    firstFieldOffset .exact f s ≤ fieldsEnd f s cf ∧ fieldsEnd f s cf < 2 ^ 31 := by
  have hle := fieldsEnd_le_endOffset f s cf
  have hfirst := firstFieldOffset_le_declaredOffset f s cf
  have hdeclared := declaredOffset_le f s cf
  exact ⟨firstFieldOffset_pos h, by omega, by omega⟩

theorem firstFieldOffset_in_range :
    firstFieldOffset .machine f s = firstFieldOffset .exact f s := by
  obtain ⟨hpos, hle, hlt⟩ := offsets_lt h hend
  rw [firstFieldOffset_machine, machine_int (by omega) (by omega)]

theorem fields_in_range :
    (assignFields .machine f s cf).fields = (assignFields .exact f s cf).fields := by
  obtain ⟨hpos, hle, hlt⟩ := offsets_lt h hend
  have hplaced := fieldsPlaced cf h
  rw [assignFields_machine]
  refine (map_congr_left fun fd hfield => ?_).trans (map_id _)
  obtain ⟨hlo, hhi⟩ := hplaced.bounds fd (mem_append_right _ hfield)
  rw [wrapField, machine_int (by omega) (by omega)]
  rfl

theorem nonstaticFieldSize_in_range :
    (layoutFields .machine f s cf).nonstaticFieldSize =
    (layoutFields .exact f s cf).nonstaticFieldSize := by
  obtain ⟨hpos, hle, hlt⟩ := offsets_lt h hend
  have hoop := f.width.heapOopSize_cases
  have hpos' : 0 < f.width.heapOopSize := by omega
  have halign : alignSizeUp (fieldsEnd f s cf) f.width.heapOopSize < 2 ^ 31 :=
    alignSizeUp_le_endOffset.trans_lt hend
  have hle' := le_alignSizeUp (fieldsEnd f s cf) hpos'
  have htype :
    machine.int (alignSizeUp (fieldStarts .machine f s cf).notalignedOffset f.width.heapOopSize) =
      alignSizeUp (fieldsEnd f s cf) f.width.heapOopSize := by
    rw [fieldStarts_machine, notalignedOffset_machine hoop, machine_int_alignSizeUp _ hoop,
      ← fieldStarts_exact]
    exact machine_int (hpos.le.trans (hle.trans hle')) halign
  have hsize := nonstaticFieldSize_exact f s cf
  have hnonneg : 0 ≤ (layoutFields .exact f s cf).nonstaticFieldSize := (Laid.step h).fieldSize
  have hmul := Int.mul_le_mul_of_nonneg_left (show (1 : Int) ≤ f.width.heapOopSize by omega) hnonneg
  have heq : (layoutFields .machine f s cf).nonstaticFieldSize =
      machine.int (layoutFields .exact f s cf).nonstaticFieldSize := by
    simp only [layoutFields, htype, firstFieldOffset_in_range h hend, exact_int]
    rw [machine_int (x := _ - _) (by omega) (by omega)]
  rw [heq, machine_int hnonneg (by omega)]

theorem instanceSize_in_range :
    (layoutFields .machine f s cf).instanceSize = (layoutFields .exact f s cf).instanceSize := by
  obtain ⟨hpos, hle, hlt⟩ := offsets_lt h hend
  have hend' := fieldsEnd_le_endOffset f s cf
  have hmin : 0 < f.width.minObjAlignment ∧
      f.width.minObjAlignment ≤ 2 := by cases f.width <;> decide
  have hdiv : 0 ≤ (endOffset .exact f s cf).tdiv f.width.wordSize ∧
      (endOffset .exact f s cf).tdiv f.width.wordSize < 2 ^ 30 := by
    rw [Int.tdiv_eq_ediv_of_nonneg (by omega)]
    rcases f.width.wordSize_cases with h | h <;> rw [h] <;> omega
  have hlo := le_alignSizeUp ((endOffset .exact f s cf).tdiv f.width.wordSize) hmin.1
  have hhi := alignSizeUp_lt ((endOffset .exact f s cf).tdiv f.width.wordSize) hmin.1
  have heq : (layoutFields .machine f s cf).instanceSize =
      machine.int (layoutFields .exact f s cf).instanceSize := by
    simp only [layoutFields, endOffset_machine, exact_int]
    rw [machine_int (by omega) hend]
  have hsize : (layoutFields .exact f s cf).instanceSize =
    alignSizeUp ((endOffset .exact f s cf).tdiv f.width.wordSize) f.width.minObjAlignment := rfl
  rw [heq, hsize, machine_int (by omega) (by omega)]

/-- The maps of the class with 16 bits, made from the same references. -/
theorem maps_in_range {dc : List (FieldKind × Int)} (hd : Declared f s cf dc) :
    (assignFields .machine f s cf).maps = (oopOffsets dc).foldl
    (OopMaps.add .machine f.width.heapOopSize)
      (initialMaps .exact cf (firstFieldOffset .exact f s)).trunc := by
  obtain ⟨declared', hfields, hmaps⟩ := foldl_place_maps .machine f.width cf.fields
    ⟨(fieldStarts .machine f s cf).cursor, initialMaps .machine cf (firstFieldOffset .machine f s),
      fakeFields .machine cf f.width.heapOopSize (firstFieldOffset .machine f s)⟩
  have hfields : (assignFields .machine f s cf).fields = _ := hfields
  have hmaps : (assignFields .machine f s cf).maps = _ := hmaps
  have hlength :
    (fakeFields .machine cf f.width.heapOopSize (firstFieldOffset .machine f s)).length =
      (fakeFields .exact cf f.width.heapOopSize
        (firstFieldOffset .exact f s)).length := by simp [fakeFields]
  rw [fields_in_range h hend, hd.fields] at hfields
  obtain ⟨-, rfl⟩ := append_inj hfields hlength.symm
  rw [hmaps, firstFieldOffset_in_range h hend]
  congr 1
  unfold initialMaps
  split <;> rfl

end InRange

/-! ### One class -/

theorem Laid.superMaps (h : Laid f.width s) (hs : Small f s) :
    SuperMaps f.width.heapOopSize (superMaps s) (firstFieldOffset .exact f s) := by
  refine ⟨h.blocks, hs.oopMaps, fun b hb => ?_⟩
  have hlast := (h.oopMaps _).mp ⟨b, hb, covers_last (h.blocks b hb).1⟩
  have hbound := (h.bounds _ hlast).2
  rw [firstFieldOffset_exact]
  simp only [FieldKind.size] at hbound
  omega

variable (f cf) in
theorem initialMaps_narrow (first : Int) : (initialMaps .exact cf first).Narrow ∧
    (initialMaps .exact cf first).Sorted f.width.heapOopSize ∧
    (initialMaps .exact cf first).EndsBy f.width.heapOopSize
    (first + cf.fakeOopFields * f.width.heapOopSize) ∧
    ∀ b ∈ (initialMaps .exact cf first).blocks, first ≤ b.offset := by
  unfold initialMaps ClassFields.fakeOopFields
  split
  · refine ⟨⟨?_, forall_mem_nil _⟩, pairwise_singleton _ _, ?_, ?_⟩
    · exact forall_mem_singleton.mpr (by simp)
    · exact forall_mem_singleton.mpr le_rfl
    · exact forall_mem_singleton.mpr le_rfl
  · exact ⟨⟨forall_mem_nil _, forall_mem_nil _⟩, .nil, forall_mem_nil _, forall_mem_nil _⟩

theorem oopMaps_machine {maps : OopMaps} (hmaps : (assignFields .machine f s cf).maps = maps) :
    (layoutFields .machine f s cf).oopMaps =
      klassMaps .machine f.width.heapOopSize (FieldLayout.superMaps s) maps := by
  rw [← hmaps]
  rfl

/-- If the types of the code can hold the layout, it is the exact one. -/
theorem layoutFields_machine (h : Laid f.width s) (hf : Fits f s cf) :
    layoutFields .machine f s cf = layoutFields .exact f s cf := by
  obtain ⟨hend, hmaps⟩ := hf
  obtain ⟨dc, hd⟩ := exists_declared f s cf
  obtain ⟨hinit, -⟩ := initialMaps_exact cf (firstFieldOffset_pos h)
  obtain ⟨-, -, hends, -⟩ := initialMaps_narrow f cf (firstFieldOffset .exact f s)
  obtain ⟨hvalid, -⟩ := assignFields_maps cf h
  obtain ⟨hnarrow, hfill⟩ := fillOopMaps_machine (fun b hb => (h.blocks b hb).1) hvalid hmaps
  have htrunc : (assignFields .machine f s cf).maps = (assignFields .exact f s cf).maps.trunc := by
    rw [hd.maps] at hnarrow ⊢
    rw [maps_in_range h hend hd]
    exact OopMaps.foldl_add_machine hinit (hd.pos h) hnarrow hends hd.ascending
  have hfields := nonstaticFieldSize_in_range h hend
  have hsize := instanceSize_in_range h hend
  have hoopMaps : (layoutFields .machine f s cf).oopMaps =
      (layoutFields .exact f s cf).oopMaps := by
    rw [oopMaps_machine htrunc]
    exact hfill
  rw [KlassLayout.mk.injEq]
  refine ⟨hfields, hsize, ?_, hoopMaps⟩
  rw [layoutFields_fields, layoutFields_fields, fields_in_range h hend]

theorem fits_of_sound (h : Laid f.width s) (hs : Small f s)
    (hsound : Sound f.width (layoutFields .machine f s cf)) : Fits f s cf := by
  have hend : endOffset .exact f s cf < 2 ^ 31 := by
    by_contra hge
    exact not_sound_of_overflow hs (not_lt.mp hge) hsound
  have hoop := f.width.heapOopSize_cases
  obtain ⟨dc, hd⟩ := exists_declared f s cf
  obtain ⟨hinit, -⟩ := initialMaps_exact cf (firstFieldOffset_pos h)
  obtain ⟨hnarrow, hsorted, hends, hoffsets⟩ :=
    initialMaps_narrow f cf (firstFieldOffset .exact f s)
  have hsuper := h.superMaps hs
  have hdeclared : ∀ o ∈ oopOffsets dc, firstFieldOffset .exact f s ≤ o := by
    intro o ho
    exact (firstFieldOffset_le_declaredOffset f s cf).trans (hd.ascending.le o ho)
  -- what is covered are the references of the class
  have hcovered : ∀ o, (.oop, o) ∈ (assignFields .exact f s cf).fields →
      Covered f.width.heapOopSize (layoutFields .machine f s cf).oopMaps o := by
    intro o ho
    refine (hsound.oopMaps o).mpr ?_
    rw [layoutFields_fields, fields_in_range h hend]
    exact mem_append_right _ ho
  refine ⟨hend, ?_⟩
  rcases OopMaps.foldl_add_narrow_or_behind (by omega) hinit hsorted hends hnarrow
    (hd.pos h) hd.ascending with
    hnarrow | ⟨o, ho, hbehind⟩
  · obtain ⟨hvalid, hrefs⟩ := assignFields_maps cf h
    have htrunc : (assignFields .machine f s cf).maps =
        (assignFields .exact f s cf).maps.trunc := by
      rw [hd.maps, maps_in_range h hend hd]
      exact OopMaps.foldl_add_machine hinit (hd.pos h) hnarrow hends hd.ascending
    rw [← hd.maps] at hnarrow
    have hsorted' : (assignFields .exact f s cf).maps.Sorted f.width.heapOopSize := by
      rw [hd.maps]
      exact hsorted.foldl_add hends hd.ascending
    have hoffsets' : ∀ b ∈ (assignFields .exact f s cf).maps.blocks,
        firstFieldOffset .exact f s ≤ b.offset := by
      rw [hd.maps]
      exact OopMaps.le_offset_foldl_add hoffsets hdeclared
    refine fits_of_covered (by omega) hsuper hvalid hsorted' hnarrow hoffsets' fun o ho => ?_
    rw [← oopMaps_machine htrunc]
    exact hcovered o ((hrefs o).mp ho)
  · exfalso
    refine hbehind.not_covered (by omega) hsuper (hdeclared o ho) ?_
    rw [← oopMaps_machine (maps_in_range h hend hd)]
    refine hcovered o ?_
    rw [hd.fields]
    exact mem_append_right _ (mem_oopOffsets.mp ho)

theorem sound_iff_fits (h : Laid f.width s) (hs : Small f s) :
    Sound f.width (layoutFields .machine f s cf) ↔ Fits f s cf := by
  refine ⟨fits_of_sound h hs, fun hf => ?_⟩
  rw [layoutFields_machine h hf]
  exact sound_exact h

theorem Fits.small (hf : Fits f s cf) : Small f (some (layoutFields .exact f s cf)) := by
  refine ⟨?_, hf.oopMaps⟩
  have hend : alignSizeUp (fieldsEnd f s cf) f.width.wordSize < 2 ^ 31 := hf.endOffset
  have hsize := nonstaticFieldSize_exact f s cf
  rw [firstFieldOffset_exact, superFieldSize, Option.elim_some, hsize]
  unfold alignSizeUp at hend ⊢
  revert hend
  cases f.width <;> simp [RefWidth.heapOopSize, RefWidth.wordSize] <;> omega

end Machine

/-! ## Chains of classes -/

theorem layoutChain_concat (ar : Arithmetic) (f : Flags) (chain : List ClassFields)
    (cf : ClassFields) :
    layoutChain ar f (chain ++ [cf]) = some (layoutFields ar f (layoutChain ar f chain) cf) := by
  rw [layoutChain, foldl_concat]

theorem forall_prefix_concat {α : Type} {P : List α → α → Prop} (l : List α) (a : α) :
    (∀ l' b, l' ++ [b] <+: l ++ [a] → P l' b) ↔ (∀ l' b, l' ++ [b] <+: l → P l' b) ∧ P l a := by
  constructor
  · exact fun h => ⟨fun l' b hl' => h l' b (hl'.trans (prefix_append l [a])), h l a (prefix_refl _)⟩
  rintro ⟨h, ha⟩ l' b hl'
  rcases prefix_concat_iff.mp hl' with heq | hl'
  · obtain ⟨rfl, hb⟩ := append_inj' heq rfl
    cases hb
    exact ha
  · exact h l' b hl'

/-- A chain whose classes all fit. -/
theorem laid_of_fits (f : Flags) (chain : List ClassFields)
    (hf : ∀ supers cf, supers ++ [cf] <+: chain → Fits f (layoutChain .machine f supers) cf) :
    Laid f.width (layoutChain .machine f chain) ∧ Small f (layoutChain .machine f chain) := by
  induction chain using List.reverseRecOn with
  | nil => exact ⟨laid_none _, small_none f⟩
  | append_singleton chain cf ih =>
    obtain ⟨hf, hfits⟩ := (forall_prefix_concat chain cf).mp hf
    obtain ⟨h, hs⟩ := ih hf
    rw [layoutChain_concat, layoutFields_machine h hfits]
    exact ⟨h.step, hfits.small⟩

/-- Every class of a chain has a sound layout exactly if for every class the layout can be held by
the types of the code. -/
theorem layoutChain_sound_iff (flags : Flags) (chain : List ClassFields) :
    (∀ supers cf, supers ++ [cf] <+: chain →
      Sound flags.width (layoutFields .machine flags (layoutChain .machine flags supers) cf)) ↔
    ∀ supers cf, supers ++ [cf] <+: chain → Fits flags (layoutChain .machine flags supers) cf := by
  induction chain using List.reverseRecOn with
  | nil =>
    refine ⟨fun _ supers cf hprefix => ?_, fun _ supers cf hprefix => ?_⟩ <;>
      exact absurd (prefix_nil.mp hprefix) (by simp)
  | append_singleton chain cf ih =>
    rw [forall_prefix_concat, forall_prefix_concat, ih]
    refine and_congr_right fun hf => ?_
    obtain ⟨h, hs⟩ := laid_of_fits flags chain hf
    exact sound_iff_fits h hs

/-! ### A reference above 64K -/

theorem foldl_place_replicate (ar : Arithmetic) (width : RefWidth) {kind : FieldKind}
    (hkind : .oop ≠ kind) (n : Nat)
    (a : Assignment) :
    ((List.replicate n kind).foldl (Assignment.place ar width) a).cursor .oop = a.cursor .oop ∧
      ((List.replicate n kind).foldl (Assignment.place ar width) a).maps = a.maps := by
  induction n generalizing a with
  | zero => exact ⟨rfl, rfl⟩
  | succ n ih =>
    obtain ⟨hcursor, hmaps⟩ := ih (a.place ar width kind)
    rw [replicate_succ, foldl_cons, hcursor, hmaps, place_cursor_of_ne hkind]
    exact ⟨rfl, if_neg (Ne.symm hkind)⟩

/-- 8190 longs and a reference. -/
def wideClass : ClassFields where
  fields := List.replicate 8190 .double ++ [.oop]
  isJavaLangClass := false
  hasHardCodedOffsets := false
  legal := by
    rw [List.length_append, List.length_replicate, List.length_singleton]
    omega

theorem wideClass_cursor :
    (fieldStarts .machine ⟨.word64, 1, true⟩ none wideClass).cursor .oop = ⟨0, 0, 65536⟩ := by
  have hcount : wideClass.fields.count =
      fun | .oop => 1 | .double => 8190 | .byte => 0 | .short => 0 | .word => 0 := by
    funext kind
    rw [wideClass, count_append, count_replicate]
    cases kind <;> rfl
  unfold fieldStarts
  rw [hcount]
  decide

/-- The reference is at 65536. Its block has the offset 0, where the mark word is. -/
theorem wideClass_oopMaps :
    (.oop, 65536) ∈ (layoutFields .machine ⟨.word64, 1, true⟩ none wideClass).fields ∧
      (layoutFields .machine ⟨.word64, 1, true⟩ none wideClass).oopMaps = [⟨0, 1⟩] := by
  obtain ⟨a, ha⟩ :
    ∃ a, a = (List.replicate 8190 FieldKind.double).foldl (Assignment.place .machine .word64)
    ⟨(fieldStarts .machine ⟨.word64, 1, true⟩ none wideClass).cursor, ⟨[], 0⟩, []⟩ := ⟨_, rfl⟩
  have hassign : assignFields .machine ⟨.word64, 1, true⟩ none wideClass =
      a.place .machine .word64 .oop := by
    rw [ha]
    exact foldl_concat _ _ _ _
  obtain ⟨hcursor, hmaps⟩ :=
    foldl_place_replicate .machine .word64 (show FieldKind.oop ≠ .double by decide) 8190
    ⟨(fieldStarts .machine ⟨.word64, 1, true⟩ none wideClass).cursor, ⟨[], 0⟩, []⟩
  rw [← ha] at hcursor hmaps
  have hcursor : a.cursor .oop = ⟨0, 0, 65536⟩ := hcursor.trans wideClass_cursor
  constructor
  · rw [layoutFields_fields, hassign]
    refine mem_append_right _ (mem_append_right _ ?_)
    rw [hcursor]
    exact mem_singleton_self _
  · simp only [layoutFields, hassign, Assignment.place, hcursor, hmaps]
    decide

theorem not_sound_wideClass :
    ¬ Sound .word64 (layoutFields .machine ⟨.word64, 1, true⟩ none wideClass) := by
  intro hsound
  obtain ⟨hmem, hmaps⟩ := wideClass_oopMaps
  have hcovered := (hsound.oopMaps 65536).mpr hmem
  rw [hmaps, covered_cons, covers_single, or_iff_left not_covered_nil] at hcovered
  omega

end Hotspot.FieldLayout
