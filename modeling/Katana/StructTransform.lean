/-
  Katana.StructTransform — what the transformer of a struct has for each field (patchwrite/typediff.c).

  The loop decides by the kind of a field alone: a struct or union is always gone into, a base type or an enum never.
  Only for a pointer or const field is it asked whether there is a transformer. A field that is gone has the index
  FIELD_DELETED, with which the new type's fields are read all the same.

  Proved, for every graph of types:
  - `fieldsRight_iff`: which comparisons give every field its new offset and the right transformation.
-/
import Katana.CyclicTypes

namespace Katana

open Lib Lib.Run

variable {T : Type} (types : T → TypeInfo T)

/-! ## Right transformers -/

def needsTransform (st' : TypediffState T) (field : TypeField T) : Bool :=
  match (types field.type).type with
  | .pointer | .const => ((types field.type).pointedType.bind st'.transformer).isSome
  | _ => (st'.transformer field.type).isSome

/-- The field's new offset and its transformation, if the new type has a field of that name and kind. -/
def rightField (st' : TypediffState T) (b : T) (field : TypeField T) : Int32 × FieldTransformType :=
  match newField types b field with
  | some new =>
    if (types field.type).type = (types new.type).type then
      (new.offset, if needsTransform types st' field then .recurse else .copy)
    else (fieldDeleted, .delete)
  | none => (fieldDeleted, .delete)

/-- The transformer of every struct that differs is right field by field. -/
structure FieldsRight (st' : TypediffState T) : Prop where
  freed : NothingFreed st'
  fields : ∀ a b, st'.diffAgainst a = some b → st'.typediffStatus a = .differed → (types a).type = .struct →
    ∃ t, st'.transformer a = some t ∧ t.toType = b ∧ t.fields = (types a).fields.map (rightField types st' b)

/-- At no pointer or const field that comes to point to another kind has the old pointed type not come out as different
by then. -/
def NothingGivenUp (start : T × T) : Prop := ¬ GivenUp types start

/-- No field is gone; those of structs differ where they are structs or unions, and do not where they are base types
or enums. -/
structure FieldsTransformable (start : T × T) : Prop where
  kept : ∀ x y field, ComesTo types start (x, y) → SameKind types x y → Differs types x y → field ∈ (types x).fields →
    newField types y field ≠ none
  nested : ∀ x y field new, ComesTo types start (x, y) → KeptField types x y field new → (types x).type = .struct →
    (types field.type).type = .struct ∨ (types field.type).type = .union → Differs types field.type new.type
  based : ∀ x y field new z, ComesTo types start (x, y) → KeptField types x y field new → (types x).type = .struct →
    (types field.type).type = .base ∨ (types field.type).type = .enum → ComesTo types start (field.type, z) →
    ¬ Differs types field.type z

section
variable {types} {start : T × T} {st : TypediffState T} {a b : T} {field new : TypeField T} {x : Int32 × FieldTransformType}

theorem getOffsetForField_newField (h : newField types b field = some new) :
    getOffsetForField (types b) field.name = new.offset := by
  have hfind : (types b).fields.find? (fun f => f.name == field.name) = some new := by
    rw [List.find?_eq_bind_findIdx?_getElem?]
    exact h
  unfold getOffsetForField
  rw [hfind]

theorem rightField_kept (hkept : KeptField types a b field new) : rightField types st b field =
    (getOffsetForField (types b) field.name, if needsTransform types st field then .recurse else .copy) := by
  have hkind : (types field.type).type = (types new.type).type := hkept.kept
  unfold rightField
  rw [hkept.found]
  simp only [hkind, if_true, getOffsetForField_newField hkept.found]

theorem needsTransform_pointer (hpointer : IsPointer types field.type) {y : T}
    (hy : (types field.type).pointedType = some y) :
    needsTransform types st field = (st.transformer y).isSome := by
  unfold needsTransform
  rcases hpointer with hkind | hkind
  · rw [hkind, hy]
    rfl
  · rw [hkind, hy]
    rfl

theorem needsTransform_nested (hstruct : (types field.type).type = .struct ∨ (types field.type).type = .union) :
    needsTransform types st field = (st.transformer field.type).isSome := by
  unfold needsTransform
  rcases hstruct with hkind | hkind
  · rw [hkind]
  · rw [hkind]

theorem needsTransform_based (hbase : (types field.type).type = .base ∨ (types field.type).type = .enum) :
    needsTransform types st field = (st.transformer field.type).isSome := by
  unfold needsTransform
  rcases hbase with hkind | hkind
  · rw [hkind]
  · rw [hkind]

/-- What the loop does with a field is right, if it is right for structs and unions to be gone into and for others
not to be. -/
theorem FieldSettled.right (h : FieldSettled types st b field x) (hkind : SameKind types a b) (hdiffers : Differs types a b)
    (hmem : field ∈ (types a).fields)
    (hnested : ∀ new, KeptField types a b field new → (types field.type).type = .struct ∨ (types field.type).type = .union →
      (st.transformer field.type).isSome)
    (hbased : ∀ new, KeptField types a b field new → (types field.type).type = .base ∨ (types field.type).type = .enum →
      st.transformer field.type = none) : x = rightField types st b field := by
  cases h with
  | deleted hfound hne =>
    have hne : ¬ (types field.type).type = _ := hne
    unfold rightField
    rw [hfound]
    simp only [hne, if_false]
  | copied hfound hkept hbase =>
    have hfield : KeptField types a b field _ := ⟨hkind, hdiffers, hmem, hfound, hkept⟩
    rw [rightField_kept hfield, needsTransform_based hbase, hbased _ hfield hbase]
    rfl
  | nested hfound hkept hstruct hmet =>
    have hfield : KeptField types a b field _ := ⟨hkind, hdiffers, hmem, hfound, hkept⟩
    rw [rightField_kept hfield, needsTransform_nested hstruct, hnested _ hfield hstruct]
    rfl
  | pointsToSame hfound hkept hpointer hy hz hmet hnone =>
    have hfield : KeptField types a b field _ := ⟨hkind, hdiffers, hmem, hfound, hkept⟩
    rw [rightField_kept hfield, needsTransform_pointer hpointer hy, hnone]
    rfl
  | pointsToTransformed hfound hkept hpointer hy hz hmet hsome hfieldMet =>
    have hfield : KeptField types a b field _ := ⟨hkind, hdiffers, hmem, hfound, hkept⟩
    rw [rightField_kept hfield, needsTransform_pointer hpointer hy, hsome]
    rfl

theorem FieldSettled.found (h : FieldSettled types st b field x) : ∃ new, newField types b field = some new := by
  cases h with
  | deleted hfound _ => exact ⟨_, hfound⟩
  | copied hfound _ _ => exact ⟨_, hfound⟩
  | nested hfound _ _ _ => exact ⟨_, hfound⟩
  | pointsToSame hfound _ _ _ _ _ _ => exact ⟨_, hfound⟩
  | pointsToTransformed hfound _ _ _ _ _ _ _ => exact ⟨_, hfound⟩

/-- By the kind of the field alone. -/
theorem FieldSettled.recurse (h : FieldSettled types st b field x) (hkept : KeptField types a b field new)
    (hstruct : (types field.type).type = .struct ∨ (types field.type).type = .union) : x.2 = .recurse := by
  cases h with
  | deleted hfound hkind =>
    cases hkept.found.symm.trans hfound
    exact absurd hkept.kept hkind
  | copied _ _ hbase => rcases hstruct with hkind | hkind <;> simp [hkind] at hbase
  | nested => rfl
  | pointsToSame _ _ hpointer => rcases hstruct with hkind | hkind <;> simp [IsPointer, hkind] at hpointer
  | pointsToTransformed => rfl

theorem FieldSettled.copy (h : FieldSettled types st b field x) (hkept : KeptField types a b field new)
    (hbase : (types field.type).type = .base ∨ (types field.type).type = .enum) : x.2 = .copy := by
  cases h with
  | deleted hfound hkind =>
    cases hkept.found.symm.trans hfound
    exact absurd hkept.kept hkind
  | copied => rfl
  | nested _ _ hstruct => rcases hbase with hkind | hkind <;> simp [hkind] at hstruct
  | pointsToSame => rfl
  | pointsToTransformed _ _ hpointer => rcases hbase with hkind | hkind <;> simp [IsPointer, hkind] at hpointer

/-- And conversely: what is right is so for structs and unions because they have a transformer, and for others because
they have none. -/
theorem FieldSettled.of_right (h : FieldSettled types st b field (rightField types st b field))
    (hkept : KeptField types a b field new) :
    ((types field.type).type = .struct ∨ (types field.type).type = .union → (st.transformer field.type).isSome) ∧
      ((types field.type).type = .base ∨ (types field.type).type = .enum → st.transformer field.type = none) := by
  refine ⟨?_, ?_⟩
  · intro hstruct
    have hrecurse := h.recurse hkept hstruct
    rw [rightField_kept hkept, needsTransform_nested hstruct] at hrecurse
    by_cases hsome : (st.transformer field.type).isSome
    · exact hsome
    · simp [hsome] at hrecurse
  · intro hbase
    have hcopy := h.copy hkept hbase
    rw [rightField_kept hkept, needsTransform_based hbase] at hcopy
    by_cases hsome : (st.transformer field.type).isSome
    · simp [hsome] at hcopy
    · simpa using hsome

/-! ## Whole transformers -/

/-- Field by field. -/
theorem fields_right {xs : List (Int32 × FieldTransformType)} {fields : List (TypeField T)}
    (h : List.Forall₂ (FieldSettled types st b) fields xs)
    (hright : ∀ field ∈ fields, ∀ x, FieldSettled types st b field x → x = rightField types st b field) :
    xs = fields.map (rightField types st b) := by
  have hall : List.Forall₂ (fun field x => field ∈ fields ∧ FieldSettled types st b field x) fields xs :=
    (List.forall₂_and_left _ _).mpr ⟨fun field hmem => hmem, h⟩
  have heq : List.Forall₂ (fun field x => x = rightField types st b field) fields xs :=
    hall.imp fun field x hx => hright field hx.1 x hx.2
  rw [← List.forall₂_eq_eq_eq, List.forall₂_map_right_iff]
  exact heq.flip

end

section
variable [DecidableEq T] {types} {a b : T} {fuel : Nat} {same : Bool} {st' : TypediffState T}

/-- What every returned comparison has to say of the types it was given. -/
theorem fieldsRight_of_transformable [Finite T] (hgiven : NothingGivenUp types (a, b)) (h : FieldsTransformable types (a, b))
    (hrun : compareTypesAndGenTransforms types fuel a b .fresh = .ok same st') : FieldsRight types st' := by
  have hreturns := compare_returns hrun
  have hfreed := (nothingFreed_iff hrun).mpr hgiven
  refine ⟨hfreed, ?_⟩
  intro x y hxy hstatus hstruct
  obtain ⟨hkind, hpath⟩ := hreturns.consistent.reached x y hxy
  have hsettled := hreturns.advances.settled x y rfl hxy
  have hdiffers := (hreturns.consistent.differed hsettled.met).mp hstatus
  obtain ⟨t, ht, htype, ⟨-, hall⟩ | ⟨hgaveUp, -⟩⟩ := hsettled.fields hdiffers
  · refine ⟨t, ht, htype, fields_right hall ?_⟩
    intro field hmem z hfield
    refine hfield.right hkind hdiffers hmem ?_ ?_
    · intro new hkept hnested
      exact (hreturns.consistent.isSome (hfield.nested_met hkept hnested)).mpr
        (h.nested x y field new hpath hkept hstruct hnested)
    · intro new hkept hbased
      cases htransformer : st'.transformer field.type with
      | none => rfl
      | some t' =>
        obtain ⟨w, hmet⟩ := hreturns.consistent.transformed
          (show (st'.transformer field.type).isSome by rw [htransformer]; rfl)
        have hreached := (hreturns.consistent.reached _ w hmet.1).2
        have hchanged := (hreturns.consistent.isSome hmet).mp (by rw [htransformer]; rfl)
        exact absurd hchanged (h.based x y field new w hpath hkept hstruct hbased hreached)
  · rw [hfreed x t ht] at hgaveUp
    cases hgaveUp

/-- Whatever a comparison that gave nothing up can come to it came to. -/
theorem met_of_comesTo [Finite T] (hrun : compareTypesAndGenTransforms types fuel a b .fresh = .ok same st')
    (hfreed : NothingFreed st')
    {x y : T} (hpath : ComesTo types (a, b) (x, y)) (hkind : SameKind types x y) : Met st' x y := by
  have hreturns := compare_returns hrun
  by_cases hstart : SameKind types a b
  · exact hreturns.advances.closed hreturns.consistent hfreed (fun _ _ _ _ => rfl) (hreturns.met hstart) hpath
  · cases comesTo_of_not_sameKind hstart hpath
    exact absurd hkind hstart

omit [DecidableEq T] in
/-- A right transformer has what is right for each field. -/
theorem FieldsRight.atField (h : FieldsRight types st') {x y : T} (hsettled : Settled types st' x y)
    (hstatus : st'.typediffStatus x = .differed)
    (hdiffers : Differs types x y) (hstruct : (types x).type = .struct) {field : TypeField T}
    (hmem : field ∈ (types x).fields) :
    FieldSettled types st' y field (rightField types st' y field) := by
  obtain ⟨t, ht, -, hfields⟩ := h.fields x y hsettled.met.1 hstatus hstruct
  obtain ⟨t', ht', -, ⟨-, hall⟩ | ⟨hgaveUp, -⟩⟩ := hsettled.fields hdiffers
  · cases ht.symm.trans ht'
    rw [hfields, List.forall₂_map_right_iff, List.forall₂_same] at hall
    exact hall field hmem
  · rw [h.freed x t' ht'] at hgaveUp
    cases hgaveUp

theorem transformable_of_fieldsRight [Finite T] (hrun : compareTypesAndGenTransforms types fuel a b .fresh = .ok same st')
    (hright : FieldsRight types st') : FieldsTransformable types (a, b) := by
  have hreturns := compare_returns hrun
  have hmet : ∀ {x y}, ComesTo types (a, b) (x, y) → SameKind types x y → Met st' x y := fun hpath hkind =>
    met_of_comesTo hrun hright.freed hpath hkind
  have hsettled : ∀ {x y}, ComesTo types (a, b) (x, y) → SameKind types x y → Settled types st' x y := fun hpath hkind =>
    hreturns.advances.settled _ _ rfl (hmet hpath hkind).1
  have hfield : ∀ {x y field new}, ComesTo types (a, b) (x, y) → KeptField types x y field new → (types x).type = .struct →
      FieldSettled types st' y field (rightField types st' y field) := by
    intro x y field new hpath hkept hstruct
    have hstatus := (hreturns.consistent.differed (hmet hpath hkept.kind)).mpr hkept.differs
    exact hright.atField (hsettled hpath hkept.kind) hstatus hkept.differs hstruct hkept.mem
  refine ⟨?_, ?_, ?_⟩
  · intro x y field hpath hkind hdiffers hmem
    obtain ⟨z, hz⟩ := (hsettled hpath hkind).atField (hright.freed x) hdiffers hmem
    obtain ⟨new, hnew⟩ := hz.found
    simp [hnew]
  · intro x y field new hpath hkept hstruct hnested
    have hsome := ((hfield hpath hkept hstruct).of_right hkept).1 hnested
    exact (hreturns.consistent.isSome ((hfield hpath hkept hstruct).nested_met hkept hnested)).mp hsome
  · intro x y field new z hpath hkept hstruct hbased hreached hchanged
    have hnone := ((hfield hpath hkept hstruct).of_right hkept).2 hbased
    have hstart : SameKind types a b := by
      by_contra hstart
      cases comesTo_of_not_sameKind hstart hpath
      exact hstart hkept.kind
    have hsome := (hreturns.consistent.isSome (hmet hreached (hreached.sameKind hstart))).mpr hchanged
    rw [hnone] at hsome
    cases hsome

/-- Where no field is gone and nothing is given up, nothing outside the new type is read. -/
theorem FieldsTransformable.defined [Finite T] (h : FieldsTransformable types (a, b)) (hgiven : NothingGivenUp types (a, b))
    (hpoints : ∀ x, LooksThrough types x → (types x).pointedType.isSome) :
    compareTypesAndGenTransforms types fuel a b .fresh ≠ .error (.fault .undefined) st' := by
  intro hrun
  have hon : ∀ {x y}, LooksThrough types x → SameKind types x y → PointsOn types x y := by
    intro x y hthrough hkind
    have hthrough' : LooksThrough types y := by
      unfold LooksThrough
      rw [← hkind]
      exact hthrough
    obtain ⟨x', hx⟩ := Option.isSome_iff_exists.mp (hpoints x hthrough)
    obtain ⟨y', hy⟩ := Option.isSome_iff_exists.mp (hpoints y hthrough')
    exact ⟨x', y', hx, hy⟩
  cases compare_outside hrun with
  | pointsNowhere hkind hthrough hnot => exact hnot (hon hthrough hkind)
  | fieldRemoved hpath hkind hdiffers hmem hnone => exact h.kept _ _ _ hpath hkind hdiffers hmem hnone
  | givenUp hup => exact hgiven hup

/-- **A comparison gets every field right exactly when none is gone, the structs and unions that are kept differ, no base
type or enum that is kept came out different, and nothing is given up**; then it reads no field that is not there either. -/
theorem fieldsRight_iff [Finite T] (a b : T) :
    (∀ fuel same st', compareTypesAndGenTransforms types fuel a b .fresh = .ok same st' →
      (FieldsRight types st' ↔ FieldsTransformable types (a, b) ∧ NothingGivenUp types (a, b))) ∧
    (FieldsTransformable types (a, b) → NothingGivenUp types (a, b) →
      (∀ x, LooksThrough types x → (types x).pointedType.isSome) →
      ∀ fuel st', compareTypesAndGenTransforms types fuel a b .fresh ≠ .error (.fault .undefined) st') := by
  refine ⟨?_, fun h hgiven hpoints fuel st' => h.defined hgiven hpoints⟩
  intro fuel same st' hrun
  refine ⟨?_, fun ⟨h, hgiven⟩ => fieldsRight_of_transformable hgiven h hrun⟩
  intro hright
  exact ⟨transformable_of_fieldsRight hrun hright, (nothingFreed_iff hrun).mp hright.freed⟩

end

/-! ## Structs that get longer -/

/-- `struct s { struct t *q; struct t *p; }` becomes `struct s { struct t *q; int *p; int n; }`, and the struct that they
pointed to gets longer. -/
def secondPointer : Fin 9 → TypeInfo (Fin 9)
  | 0 => ⟨"s", .struct, 16, [⟨"q", 0, 1⟩, ⟨"p", 8, 2⟩], none, []⟩
  | 1 => ⟨"t *", .pointer, 8, [], some 3, []⟩
  | 2 => ⟨"t *", .pointer, 8, [], some 3, []⟩
  | 3 => ⟨"t", .struct, 4, [⟨"n", 0, 4⟩], none, []⟩
  | 4 => ⟨"int", .base, 4, [], none, []⟩
  | 5 => ⟨"s", .struct, 24, [⟨"q", 0, 6⟩, ⟨"p", 8, 7⟩, ⟨"n", 16, 4⟩], none, []⟩
  | 6 => ⟨"t *", .pointer, 8, [], some 8, []⟩
  | 7 => ⟨"int *", .pointer, 8, [], some 4, []⟩
  | 8 => ⟨"t", .struct, 8, [⟨"n", 0, 4⟩], none, []⟩

def secondPointerTransformer : Fin 9 → Option (TypeTransform (Fin 9))
  | 0 => some ⟨5, false, [(0, .recurse), (8, .recurse)], false⟩
  | 1 => some ⟨6, false, [], false⟩
  | 2 => some ⟨7, false, [], false⟩
  | 3 => some ⟨8, false, [(0, .copy)], false⟩
  | _ => none

/-- The pointed struct's transformer is there from the first pointer when the second one asks for it. -/
theorem secondPointer_transforms : ∃ st', compareTypesAndGenTransforms secondPointer 10 0 5 .fresh = .ok false st' ∧
    (∀ x, st'.transformer x = secondPointerTransformer x) ∧
    (∀ x y, st'.diffAgainst x = some y → (secondPointer x).type = .struct → (x, y) = (0, 5) ∨ (x, y) = (3, 8)) :=
  ⟨_, rfl, by decide, by decide⟩

/-- All fields are right, so that nothing was given up, though the second pointer comes to point to another kind. -/
theorem secondPointer_fieldsRight :
    (∃ st', compareTypesAndGenTransforms secondPointer 10 0 5 .fresh = .ok false st' ∧ FieldsRight secondPointer st') ∧
      ∀ fuel st', compareTypesAndGenTransforms secondPointer fuel 0 5 .fresh ≠ .error (.fault .undefined) st' := by
  obtain ⟨⟨status, against, transformer⟩, hrun, htransformer, hdiff⟩ := secondPointer_transforms
  obtain rfl : transformer = secondPointerTransformer := funext htransformer
  have hkept : ∀ x t, secondPointerTransformer x = some t → t.freed = false := by decide
  have hright : FieldsRight secondPointer ⟨status, against, secondPointerTransformer⟩ := by
    refine ⟨hkept, ?_⟩
    intro x y hxy _ hstruct
    rcases hdiff x y hxy hstruct with heq | heq
    · cases heq
      exact ⟨_, rfl, rfl, rfl⟩
    · cases heq
      exact ⟨_, rfl, rfl, rfl⟩
  obtain ⟨hfields, hgiven⟩ := ((fieldsRight_iff 0 5).1 10 false _ hrun).mp hright
  exact ⟨⟨_, hrun, hright⟩, (fieldsRight_iff 0 5).2 hfields hgiven (by unfold LooksThrough; decide)⟩

/-- A struct that gets longer, around one that stays. -/
def unchangedInner : Fin 6 → TypeInfo (Fin 6)
  | 0 => ⟨"s", .struct, 4, [⟨"in", 0, ⟨2, by decide⟩⟩], none, []⟩
  | 1 => ⟨"s", .struct, 8, [⟨"in", 4, ⟨4, by decide⟩⟩], none, []⟩
  | 2 => ⟨"inner", .struct, 4, [⟨"n", 0, ⟨3, by decide⟩⟩], none, []⟩
  | 3 => ⟨"int", .base, 4, [], none, []⟩
  | 4 => ⟨"inner", .struct, 4, [⟨"n", 0, ⟨5, by decide⟩⟩], none, []⟩
  | 5 => ⟨"int", .base, 4, [], none, []⟩

/-- It is gone into all the same. -/
theorem unchangedInner_recurses : ∃ st', compareTypesAndGenTransforms unchangedInner 7 0 1 .fresh = .ok false st' ∧
    st'.diffAgainst 0 = some 1 ∧ st'.typediffStatus 0 = .differed ∧
    st'.transformer 0 = some ⟨1, false, [(4, .recurse)], false⟩ ∧ st'.transformer 2 = none := ⟨_, rfl, rfl, rfl, rfl, rfl⟩

theorem not_fieldsRight : ¬ ∀ (types : Fin 6 → TypeInfo (Fin 6)) (fuel : Nat) (a b : Fin 6) (st' : TypediffState (Fin 6)),
    compareTypesAndGenTransforms types fuel a b .fresh = .ok false st' → FieldsRight types st' := by
  intro h
  obtain ⟨st', hrun, hdiff, hstatus, htransformer, hnone⟩ := unchangedInner_recurses
  obtain ⟨t, ht, -, hfields⟩ := (h unchangedInner 7 0 1 st' hrun).fields 0 1 hdiff hstatus rfl
  cases htransformer.symm.trans ht
  have hright : rightField unchangedInner st' 1 ⟨"in", 0, 2⟩ = (4, .copy) := by
    have hneeds : needsTransform unchangedInner st' ⟨"in", 0, 2⟩ = false := by
      rw [needsTransform_nested (.inl rfl), hnone]
      rfl
    show ((4 : Int32), if needsTransform unchangedInner st'
      ⟨"in", 0, 2⟩ then FieldTransformType.recurse else .copy) = (4, .copy)
    rw [hneeds]
    rfl
  have hlist : [((4 : Int32), FieldTransformType.recurse)] = [rightField unchangedInner st' 1 ⟨"in", 0, 2⟩] := hfields
  rw [hright] at hlist
  cases hlist

def lostField : Fin 3 → TypeInfo (Fin 3)
  | 0 => ⟨"s", .struct, 8, [⟨"n", 0, ⟨2, by decide⟩⟩, ⟨"m", 4, ⟨2, by decide⟩⟩], none, []⟩
  | 1 => ⟨"s", .struct, 4, [⟨"n", 0, ⟨2, by decide⟩⟩], none, []⟩
  | _ => ⟨"int", .base, 4, [], none, []⟩

/-- Its type in the new struct is read from in front of the array. -/
example : ∃ st', compareTypesAndGenTransforms lostField 4 0 1 .fresh = .error (.fault .undefined) st' := ⟨_, rfl⟩

end Katana
