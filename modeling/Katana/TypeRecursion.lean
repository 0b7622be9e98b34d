/-
  Katana.TypeRecursion — what one comparison of types comes to, in a graph with cycles (patchwrite/typediff.c).

  `compareTypesAndGenTransforms` marks a type with what it is compared with before it goes on, and records how that came
  out later: a type that points on only after what it points to, a struct before the types of its fields. A call for a type
  whose comparison has begun and has no status stops the program.
-/
import Katana.TypeWalk
import Katana.Lib.Marks

namespace Katana

open Lib Lib.Run

variable {T : Type} (types : T → TypeInfo T)

/-! ## Calls -/

/-- A field of a type that differs, and the field it becomes. -/
structure KeptField (a b : T) (field new : TypeField T) : Prop where
  kind : SameKind types a b
  differs : Differs types a b
  mem : field ∈ (types a).fields
  found : newField types b field = some new
  kept : SameKind types field.type new.type

/-- The comparison of the first two goes on with the second two, which are of one kind. -/
inductive Calls : T × T → T × T → Prop
  | pointed {a b x y : T} : SameKind types a b → LooksThrough types a → (types a).pointedType = some x →
    (types b).pointedType = some y → SameKind types x y → Calls (a, b) (x, y)
  | nested {a b : T} {field new : TypeField T} : KeptField types a b field new →
    (types field.type).type = .struct ∨ (types field.type).type = .union → Calls (a, b) (field.type, new.type)
  | pointedField {a b x y : T} {field new : TypeField T} : KeptField types a b field new → IsPointer types field.type →
    (types field.type).pointedType = some x → (types new.type).pointedType = some y → SameKind types x y →
    Calls (a, b) (x, y)
  | pointerField {a b x y : T} {field new : TypeField T} : KeptField types a b field new → IsPointer types field.type →
    (types field.type).pointedType = some x → (types new.type).pointedType = some y → Differs types x y →
    Calls (a, b) (field.type, new.type)

/-- What a comparison can come to. -/
def ComesTo (start z : T × T) : Prop := Relation.ReflTransGen (Calls types) start z

def Behind (a b : T) (z : T × T) : Prop :=
  LooksThrough types a ∧ ∃ x y, (types a).pointedType = some x ∧ (types b).pointedType = some y ∧ SameKind types x y ∧
    ComesTo types (x, y) z

/-- What `a` points to comes back to `a`. -/
def LoopsBack (a b : T) : Prop := SameKind types a b ∧ ∃ b', SameKind types a b' ∧ Behind types a b (a, b')

/-- A pointer or const field whose old and new pointed types are of different kinds: there is no transformer. -/
def GivesUp (a b : T) : Prop :=
  ∃ field new x y, KeptField types a b field new ∧ IsPointer types field.type ∧ (types field.type).pointedType = some x ∧
    (types new.type).pointedType = some y ∧ ¬ SameKind types x y

def PointsOn (a b : T) : Prop := ∃ x y, (types a).pointedType = some x ∧ (types b).pointedType = some y

/-- Why a comparison does not return. -/
inductive Stops (fueled : Prop) (start : T × T) : Halt → Prop
  | outOfFuel : ¬ fueled → Stops fueled start .outOfFuel
  | loopsBack {a b : T} : ComesTo types start (a, b) → LoopsBack types a b → Stops fueled start (.fault .assertion)
  | pointsNowhere {a b : T} : ComesTo types start (a, b) → SameKind types a b → LooksThrough types a → ¬ PointsOn types a b →
    Stops fueled start (.fault .undefined)
  | fieldPointsNowhere {a b : T} {field new : TypeField T} : ComesTo types start (a, b) → KeptField types a b field new →
    IsPointer types field.type → ¬ PointsOn types field.type new.type → Stops fueled start (.fault .undefined)
  | fieldRemoved {a b : T} {field : TypeField T} : ComesTo types start (a, b) → SameKind types a b → Differs types a b →
    field ∈ (types a).fields → newField types b field = none → Stops fueled start (.fault .undefined)
  | gaveUp {a b : T} : ComesTo types start (a, b) → GivesUp types a b → Stops fueled start (.fault .undefined)
  | twoTypes {a b b' : T} {msg : String} : ComesTo types start (a, b) → ComesTo types start (a, b') → b ≠ b' →
    Stops fueled start (.fault (.death msg))
  | fieldTwoTypes {a b b' : T} {field new : TypeField T} {msg : String} :
      ComesTo types start (a, b) → KeptField types a b field new →
    ComesTo types start (field.type, b') → b' ≠ new.type → Stops fueled start (.fault (.death msg))
  | bounds {a b : T} {msg : String} : ComesTo types start (a, b) → SameKind types a b → (types a).type = .array →
    (types a).bounds.length ≠ (types b).bounds.length ∨
    (∀ same, boundsUnchanged (types a).bounds (types b).bounds ≠ .ok same) →
    Stops fueled start (.fault (.death msg))
  | unsupported {a b : T} {field new : TypeField T} {msg : String} : ComesTo types start (a, b) →
      KeptField types a b field new →
    (types field.type).type = .array ∨ (types field.type).type = .void ∨ (types field.type).type = .subroutineType →
    Stops fueled start (.fault (.death msg))
  | unionMember {a b : T} {field new : TypeField T} {msg : String} : ComesTo types start (a, b) →
      KeptField types a b field new →
    (types a).type = .union → Differs types field.type new.type → Stops fueled start (.fault (.death msg))

/-- Why something is read that is not there: at a field at which the comparison gives up, what it freed is. -/
inductive ReadsOutside (start : T × T) : Prop where
  | pointsNowhere {a b : T} : SameKind types a b → LooksThrough types a → ¬ PointsOn types a b → ReadsOutside start
  | fieldRemoved {a b : T} {field : TypeField T} : ComesTo types start (a, b) → SameKind types a b → Differs types a b →
    field ∈ (types a).fields → newField types b field = none → ReadsOutside start
  | givenUp : GivenUp types start → ReadsOutside start

structure Halts (fueled : Prop) (start : T × T) (e : Halt) : Prop where
  stops : Stops types fueled start e
  outside : e = .fault .undefined → ReadsOutside types start

/-! ## What has been compared -/

/-- A comparison whose outcome is recorded. -/
def Met (st : TypediffState T) (a b : T) : Prop := st.diffAgainst a = some b ∧ st.typediffStatus a ≠ .notDone

/-- What a status stands for. -/
def Recorded (st : TypediffState T) (a b : T) : Prop :=
  match st.typediffStatus a with
  | .notDone => st.transformer a = none
  | .same => ¬ Differs types a b ∧ st.transformer a = none
  | .differed => Differs types a b ∧ ∃ t, st.transformer a = some t ∧ t.toType = b ∧ (t.freed = true → GivesUp types a b)

structure Consistent (start : T × T) (st : TypediffState T) : Prop where
  fresh : ∀ a, st.diffAgainst a = none → st.typediffStatus a = .notDone ∧ st.transformer a = none
  reached : ∀ a b, st.diffAgainst a = some b → SameKind types a b ∧ ComesTo types start (a, b)
  recorded : ∀ a b, st.diffAgainst a = some b → Recorded types st a b

/-- What the transformer has for a field, by what has been compared. -/
inductive FieldSettled (st : TypediffState T) (b : T) (field : TypeField T) : Int32 × FieldTransformType → Prop
  | deleted {new : TypeField T} : newField types b field = some new → ¬ SameKind types field.type new.type →
    FieldSettled st b field (fieldDeleted, .delete)
  | copied {new : TypeField T} : newField types b field = some new → SameKind types field.type new.type →
    (types field.type).type = .base ∨ (types field.type).type = .enum →
    FieldSettled st b field (getOffsetForField (types b) field.name, .copy)
  | nested {new : TypeField T} : newField types b field = some new → SameKind types field.type new.type →
    (types field.type).type = .struct ∨ (types field.type).type = .union → Met st field.type new.type →
    FieldSettled st b field (getOffsetForField (types b) field.name, .recurse)
  | pointsToSame {new : TypeField T} {x y : T} : newField types b field = some new → SameKind types field.type new.type →
    IsPointer types field.type → (types field.type).pointedType = some x → (types new.type).pointedType = some y →
    Met st x y → st.transformer x = none → FieldSettled st b field (getOffsetForField (types b) field.name, .copy)
  | pointsToTransformed {new : TypeField T} {x y : T} : newField types b field = some new →
      SameKind types field.type new.type →
    IsPointer types field.type → (types field.type).pointedType = some x → (types new.type).pointedType = some y →
    (SameKind types x y → Met st x y) → (st.transformer x).isSome → Met st field.type new.type →
    FieldSettled st b field (getOffsetForField (types b) field.name, .recurse)

/-- A transformer with something for every field, or one that was given up. -/
def FieldsSettled (st : TypediffState T) (a b : T) : Prop :=
  ∃ t, st.transformer a = some t ∧ t.toType = b ∧
    ((t.freed = false ∧ List.Forall₂ (FieldSettled types st b) (types a).fields t.fields) ∨
    (t.freed = true ∧ GivesUp types a b))

/-- A comparison that is over, and what it went on with. -/
structure Settled (st : TypediffState T) (a b : T) : Prop where
  met : Met st a b
  pointed : LooksThrough types a → ∃ x y, (types a).pointedType = some x ∧ (types b).pointedType = some y ∧
    (SameKind types x y → Met st x y)
  fields : Differs types a b → FieldsSettled types st a b

/-- What was recorded stays, but for the transformers of some. -/
structure Preserves (own : T → Prop) (st st' : TypediffState T) : Prop where
  met : ∀ a b, Met st a b → Met st' a b
  transformer : ∀ a b, Met st a b → ¬ own a → st'.transformer a = st.transformer a
  isSome : ∀ a b, Met st a b → (st'.transformer a).isSome = (st.transformer a).isSome

/-- What was begun is as it was, and what was not is settled. -/
structure Advances (own : T → Prop) (st st' : TypediffState T) : Prop extends Preserves own st st' where
  unchanged : Unchanged st st'
  settled : ∀ a b, st.diffAgainst a = none → st'.diffAgainst a = some b → Settled types st' a b

section
variable {types}

theorem Differs.sameKind_or {a b : T} (h : ¬ Differs types a b) : SameKind types a b := by
  by_cases hkind : SameKind types a b
  · exact hkind
  · exact absurd (.kind hkind) h

theorem Stops.halts {fueled : Prop} {start : T × T} {e : Halt} (h : Stops types fueled start e) (hdefined : e ≠ .fault .undefined) :
    Halts types fueled start e := ⟨h, fun hundefined => absurd hundefined hdefined⟩

theorem differs_iff {a b : T} (hkind : SameKind types a b) (hthrough : ¬ LooksThrough types a) :
    Differs types a b ↔ ContentsChanged types a b := by
  refine ⟨?_, .contents hkind⟩
  intro h
  cases h with
  | kind hne => exact absurd hkind hne
  | contents _ hchanged => exact hchanged
  | pointed _ hlooks => exact absurd hlooks hthrough

theorem differs_iff_through {a b x y : T} (hkind : SameKind types a b) (hthrough : LooksThrough types a)
    (hx : (types a).pointedType = some x) (hy : (types b).pointedType = some y) :
    Differs types a b ↔ ContentsChanged types a b ∨ Differs types x y := by
  refine ⟨?_, ?_⟩
  · intro h
    cases h with
    | kind hne => exact absurd hkind hne
    | contents _ hchanged => exact .inl hchanged
    | pointed _ _ hx' hy' hdiffers =>
      cases hx.symm.trans hx'
      cases hy.symm.trans hy'
      exact .inr hdiffers
  · intro h
    rcases h with hchanged | hdiffers
    · exact .contents hkind hchanged
    · exact .pointed hkind hthrough hx hy hdiffers

/-! ## Recorded outcomes -/

variable {start : T × T} {st st' st1 : TypediffState T} {own : T → Prop} {a b : T}

theorem Consistent.differed (h : Consistent types start st) (hmet : Met st a b) :
    st.typediffStatus a = .differed ↔ Differs types a b := by
  have hrecorded := h.recorded a b hmet.1
  unfold Recorded at hrecorded
  cases hstatus : st.typediffStatus a with
  | notDone => exact absurd hstatus hmet.2
  | same =>
    rw [hstatus] at hrecorded
    simp [hrecorded.1]
  | differed =>
    rw [hstatus] at hrecorded
    simp [hrecorded.1]

theorem Consistent.isSome (h : Consistent types start st) (hmet : Met st a b) :
    (st.transformer a).isSome ↔ Differs types a b := by
  have hrecorded := h.recorded a b hmet.1
  unfold Recorded at hrecorded
  cases hstatus : st.typediffStatus a with
  | notDone => exact absurd hstatus hmet.2
  | same =>
    rw [hstatus] at hrecorded
    simp [hrecorded.1, hrecorded.2]
  | differed =>
    rw [hstatus] at hrecorded
    obtain ⟨hdiffers, t, ht, -⟩ := hrecorded
    simp [hdiffers, ht]

/-- Only types that were compared have a transformer. -/
theorem Consistent.transformed (h : Consistent types start st) (hsome : (st.transformer a).isSome) : ∃ b, Met st a b := by
  cases hdiff : st.diffAgainst a with
  | none =>
    rw [(h.fresh a hdiff).2] at hsome
    cases hsome
  | some b =>
    refine ⟨b, hdiff, ?_⟩
    intro hstatus
    have hrecorded := h.recorded a b hdiff
    unfold Recorded at hrecorded
    rw [hstatus] at hrecorded
    rw [show st.transformer a = none from hrecorded] at hsome
    cases hsome

theorem FieldSettled.mono (h : Preserves own st st') (hst : Consistent types start st) {field : TypeField T}
    {x : Int32 × FieldTransformType}
    (hx : FieldSettled types st b field x) : FieldSettled types st' b field x := by
  cases hx with
  | deleted hnew hkind => exact .deleted hnew hkind
  | copied hnew hkind hbase => exact .copied hnew hkind hbase
  | nested hnew hkind hstruct hmet => exact .nested hnew hkind hstruct (h.met _ _ hmet)
  | pointsToSame hnew hkind hpointer hx hy hmet hnone =>
    refine .pointsToSame hnew hkind hpointer hx hy (h.met _ _ hmet) ?_
    have hsome := h.isSome _ _ hmet
    rw [hnone] at hsome
    simpa using hsome
  | pointsToTransformed hnew hkind hpointer hx hy hmet hsome hfield =>
    obtain ⟨z, hz⟩ := hst.transformed hsome
    refine .pointsToTransformed hnew hkind hpointer hx hy (fun hxy => h.met _ _ (hmet hxy)) ?_ (h.met _ _ hfield)
    rw [h.isSome _ z hz]
    exact hsome

theorem Settled.mono (h : Preserves own st st') (hst : Consistent types start st) (hown : ¬ own a)
    (ha : Settled types st a b) :
    Settled types st' a b := by
  refine ⟨h.met _ _ ha.met, ?_, ?_⟩
  · intro hthrough
    obtain ⟨x, y, hx, hy, hmet⟩ := ha.pointed hthrough
    exact ⟨x, y, hx, hy, fun hxy => h.met _ _ (hmet hxy)⟩
  · intro hdiffers
    obtain ⟨t, ht, htype, hfields⟩ := ha.fields hdiffers
    refine ⟨t, by rw [h.transformer a b ha.met hown]; exact ht, htype, ?_⟩
    rcases hfields with ⟨hfreed, hall⟩ | hgaveUp
    · exact .inl ⟨hfreed, hall.imp fun field x hx => hx.mono h hst⟩
    · exact .inr hgaveUp

theorem Preserves.refl (st : TypediffState T) : Preserves own st st := ⟨fun _ _ h => h, fun _ _ _ _ => rfl, fun _ _ _ => rfl⟩

theorem Preserves.trans (h : Preserves own st st1) (h' : Preserves own st1 st') : Preserves own st st' := by
  refine ⟨fun a b hab => h'.met a b (h.met a b hab), ?_, ?_⟩
  · intro a b hab ha
    rw [h'.transformer a b (h.met a b hab) ha, h.transformer a b hab ha]
  · intro a b hab
    rw [h'.isSome a b (h.met a b hab), h.isSome a b hab]

theorem Preserves.weaken (h : Preserves (fun _ => False) st st') : Preserves own st st' :=
  ⟨h.met, fun a b hab _ => h.transformer a b hab id, h.isSome⟩

theorem Advances.refl (st : TypediffState T) : Advances types own st st := by
  refine ⟨.refl st, .refl st, ?_⟩
  intro a b hnone hsome
  rw [hnone] at hsome
  cases hsome

theorem Advances.weaken (h : Advances types (fun _ => False) st st') : Advances types own st st' :=
  ⟨h.toPreserves.weaken, h.unchanged, h.settled⟩

theorem Advances.begun (h : Advances types own st st') (ha : (st.diffAgainst a).isSome) : (st'.diffAgainst a).isSome := by
  obtain ⟨b, hb⟩ := Option.isSome_iff_exists.mp ha
  rw [(h.unchanged a b hb).1]
  rfl

theorem Advances.trans (h : Advances types own st st1) (h' : Advances types own st1 st') (hst1 : Consistent types start st1)
    (hown : ∀ x, own x → (st.diffAgainst x).isSome) : Advances types own st st' := by
  refine ⟨h.toPreserves.trans h'.toPreserves, h.unchanged.trans h'.unchanged, ?_⟩
  intro a b hnone hsome
  cases hmiddle : st1.diffAgainst a with
  | none => exact h'.settled a b hmiddle hsome
  | some b' =>
    have hnot : ¬ own a := by
      intro ha
      have hbegun := hown a ha
      rw [hnone] at hbegun
      cases hbegun
    have hkeep := (h'.unchanged a b' hmiddle).1
    cases hkeep.symm.trans hsome
    exact (h.settled a b hnone hmiddle).mono h'.toPreserves hst1 hnot

end

/-! ## Calls -/

section
variable [Fintype T]

def compared (st : TypediffState T) (a : T) : Bool := (st.diffAgainst a).isSome

/-- A comparison of `a` and `b` may begin: whatever has no status leads to it. -/
structure CallReady (fueled : Prop) (start : T × T) (n : Nat) (st : TypediffState T) (a b : T) : Prop where
  consistent : Consistent types start st
  reached : SameKind types a b → ComesTo types start (a, b)
  pending : SameKind types a b → ∀ x y, st.diffAgainst x = some y → st.typediffStatus x = .notDone → Behind types x y (a, b)
  fuel : fueled → unmarked (compared st) < n

/-- The comparison of `a` and `b` is at work. -/
structure Working (fueled : Prop) (start : T × T) (n : Nat) (st : TypediffState T) (a b : T) : Prop where
  consistent : Consistent types start st
  kind : SameKind types a b
  reached : ComesTo types start (a, b)
  begun : st.diffAgainst a = some b
  pending : ∀ x y, st.diffAgainst x = some y → st.typediffStatus x = .notDone → x ≠ a → Behind types x y (a, b)
  fuel : fueled → unmarked (compared st) < n

/-- What a call returns with. -/
structure CallReturns (start : T × T) (st : TypediffState T) (a b : T) (same : Bool) (st' : TypediffState T) : Prop where
  advances : Advances types (fun _ => False) st st'
  consistent : Consistent types start st'
  same : same = true ↔ ¬ Differs types a b
  met : SameKind types a b → Met st' a b

/-- What the recursion is used for. -/
def CallsSettle (fueled : Prop) (start : T × T) (n : Nat) (recur : T → T → TypediffM T Bool) : Prop :=
  ∀ st a b tasks, CallReady types fueled start n st a b → WalkAt types start st (.compare a b :: tasks) →
    Ensures (recur a b) st (fun same st' => CallReturns types start st a b same st' ∧ WalkAt types start st' tasks)
      (Halts types fueled start)

end

section
variable [Fintype T] {types} {fueled : Prop} {start : T × T} {n : Nat} {st st' : TypediffState T}
  {own : T → Prop} {a b x y : T}

theorem Working.advance (h : Working types fueled start n st a b) (hadvances : Advances types own st st')
    (hst' : Consistent types start st') : Working types fueled start n st' a b := by
  refine ⟨hst', h.kind, h.reached, (hadvances.unchanged a b h.begun).1, ?_, ?_⟩
  · intro x y hxy hstatus hxa
    cases hbegun : st.diffAgainst x with
    | none => exact absurd hstatus (hadvances.settled x y hbegun hxy).met.2
    | some y' =>
      obtain ⟨hkeep, hsame⟩ := hadvances.unchanged x y' hbegun
      cases hkeep.symm.trans hxy
      exact h.pending x y hbegun (hsame.symm.trans hstatus) hxa
  · intro hfueled
    exact lt_of_le_of_lt (unmarked_mono fun x hx => hadvances.begun hx) (h.fuel hfueled)

theorem Working.ready (h : Working types fueled start n st a b) (hcall : SameKind types x y → Calls types (a, b) (x, y))
    (hself : st.typediffStatus a = .notDone → SameKind types x y → Behind types a b (x, y)) :
    CallReady types fueled start n st x y := by
  refine ⟨h.consistent, fun hxy => h.reached.tail (hcall hxy), ?_, h.fuel⟩
  intro hxy z w hz hstatus
  by_cases hza : z = a
  · subst hza
    cases h.begun.symm.trans hz
    exact hself hstatus hxy
  · obtain ⟨hthrough, z', w', hz', hw', hkind, hpath⟩ := h.pending z w hz hstatus hza
    exact ⟨hthrough, z', w', hz', hw', hkind, hpath.tail (hcall hxy)⟩

/-! ## What a type points to -/

variable {recur : T → T → TypediffM T Bool} {tasks : List (DiffTask T)}

/-- What a type points to was compared, and whether it came out the same. -/
def PointedCompared (types : T → TypeInfo T) (st' : TypediffState T) (a b : T) (same : Bool) : Prop :=
  ∃ x y, (types a).pointedType = some x ∧ (types b).pointedType = some y ∧ (same = true ↔ ¬ Differs types x y) ∧
    (SameKind types x y → Met st' x y)

theorem comparePointed_ensures (hrec : CallsSettle types fueled start n recur) (h : Working types fueled start n st a b)
    (hthrough : LooksThrough types a) (hwalk : WalkAt types start st (.contents a b :: tasks)) :
    Ensures (comparePointed types recur a b) st
      (fun same st' => Advances types (fun _ => False) st st' ∧ Consistent types start st' ∧
      PointedCompared types st' a b same ∧ WalkAt types start st' tasks)
      (Halts types fueled start) := by
  have hnowhere : ¬ PointsOn types a b → Ensures (fault .undefined : TypediffM T Bool) st
      (fun same st' => Advances types (fun _ => False) st st' ∧ Consistent types start st' ∧
      PointedCompared types st' a b same ∧ WalkAt types start st' tasks)
      (Halts types fueled start) := fun hnot =>
    ensures_throw ⟨.pointsNowhere h.reached h.kind hthrough hnot, fun _ => .pointsNowhere h.kind hthrough hnot⟩
  unfold comparePointed
  cases hx : (types a).pointedType with
  | none =>
    refine hnowhere ?_
    intro ⟨x, y, hx', _⟩
    rw [hx] at hx'
    cases hx'
  | some x =>
    cases hy : (types b).pointedType with
    | none =>
      refine hnowhere ?_
      intro ⟨x, y, _, hy'⟩
      rw [hy] at hy'
      cases hy'
    | some y =>
      have hready : CallReady types fueled start n st x y :=
        h.ready (.pointed h.kind hthrough hx hy) fun _ hxy => ⟨hthrough, x, y, hx, hy, hxy, .refl⟩
      exact (hrec st x y tasks hready (hwalk.here (next_pointed hthrough hx hy))).imp fun same st' ⟨hcall, hwalk'⟩ =>
        ⟨hcall.advances, hcall.consistent, ⟨x, y, hx, hy, hcall.same, hcall.met⟩, hwalk'⟩

/-- What a type has been compared by, before its status is recorded. -/
structure ContentsCompared (types : T → TypeInfo T) (start : T × T) (st : TypediffState T) (a b : T) (same : Bool)
    (st' : TypediffState T) : Prop where
  advances : Advances types (fun _ => False) st st'
  consistent : Consistent types start st'
  same : same = true ↔ ¬ Differs types a b
  pointed : LooksThrough types a → ∃ x y, (types a).pointedType = some x ∧ (types b).pointedType = some y ∧
    (SameKind types x y → Met st' x y)

/-- Types that do not point on. -/
theorem contentsCompared_pure (h : Working types fueled start n st a b) (hthrough : ¬ LooksThrough types a) {same : Bool}
    (hsame : same = true ↔ ¬ ContentsChanged types a b) : ContentsCompared types start st a b same st :=
  ⟨.refl st, h.consistent, by rw [differs_iff h.kind hthrough]; exact hsame, fun hlooks => absurd hlooks hthrough⟩

omit [Fintype T] in
theorem contentsCompared_through (hkind : SameKind types a b) (hthrough : LooksThrough types a) {same pointed : Bool}
    (hadvances : Advances types (fun _ => False) st st') (hst' : Consistent types start st')
    (hpointed : PointedCompared types st' a b pointed) (hsame : same = true ↔ ¬ ContentsChanged types a b ∧ pointed = true) :
    ContentsCompared types start st a b same st' := by
  obtain ⟨x, y, hx, hy, hdiffers, hmet⟩ := hpointed
  refine ⟨hadvances, hst', ?_, fun _ => ⟨x, y, hx, hy, hmet⟩⟩
  rw [hsame, hdiffers, differs_iff_through hkind hthrough hx hy, not_or]

omit [Fintype T] in
theorem boundsUnchanged_error {l m : List (Int32 × Int32)} {f : Fault} (h : boundsUnchanged l m = .error f) :
    ∃ msg, f = .death msg := by
  induction l generalizing m with
  | nil => cases h
  | cons x l ih =>
    cases m with
    | nil => cases h
    | cons y m =>
      unfold boundsUnchanged at h
      split at h
      · exact ⟨_, (Except.error.inj h).symm⟩
      · split at h
        · cases h
        · exact ih h

theorem compareContents_ensures (hrec : CallsSettle types fueled start n recur) (h : Working types fueled start n st a b)
    (hwalk : WalkAt types start st (.contents a b :: tasks)) :
    Ensures (compareContents types recur a b (HeaderSame types a b)) st
      (fun same st' => ContentsCompared types start st a b same st' ∧ WalkAt types start st' tasks)
      (Halts types fueled start) := by
  have hpointer : (types a).type = .pointer ∨ (types a).type = .const → Ensures
      (comparePointed types recur a b >>= fun pointed => pure (decide (HeaderSame types a b) && pointed)) st
      (fun same st' => ContentsCompared types start st a b same st' ∧ WalkAt types start st' tasks)
      (Halts types fueled start) := by
    intro hkind
    have hthrough : LooksThrough types a := .inr hkind
    refine (comparePointed_ensures hrec h hthrough hwalk).bind ?_
    intro pointed st' ⟨hadvances, hst', hpointed, hwalk'⟩
    refine ensures_pure ⟨contentsCompared_through h.kind hthrough hadvances hst' hpointed ?_, hwalk'⟩
    unfold ContentsChanged
    rcases hkind with hkind | hkind
    · simp [hkind]
    · simp [hkind]
  have hhere : ¬ LooksThrough types a → ∀ same, (same = true ↔ ¬ ContentsChanged types a b) →
      Ensures (pure same : TypediffM T Bool) st
        (fun same st' => ContentsCompared types start st a b same st' ∧ WalkAt types start st' tasks)
        (Halts types fueled start) := fun hthrough same hsame =>
    ensures_pure ⟨contentsCompared_pure h hthrough hsame, hwalk.here (next_contents hthrough)⟩
  unfold compareContents
  cases hkind : (types a).type with
  | array =>
    dsimp only
    have hthrough : LooksThrough types a := .inl hkind
    by_cases hdepth : (types a).bounds.length = (types b).bounds.length
    · rw [if_neg (not_not.mpr hdepth)]
      cases hbounds : boundsUnchanged (types a).bounds (types b).bounds with
      | error f =>
        obtain ⟨msg, hmsg⟩ := boundsUnchanged_error hbounds
        rw [hmsg] at hbounds ⊢
        have hstops : Stops types fueled start (.fault (.death msg)) :=
          .bounds h.reached h.kind hkind (.inr (by simp [hbounds]))
        exact ensures_throw (hstops.halts (by simp))
      | ok bounds =>
        refine (comparePointed_ensures hrec h hthrough hwalk).bind ?_
        intro pointed st' ⟨hadvances, hst', hpointed, hwalk'⟩
        refine ensures_pure ⟨contentsCompared_through h.kind hthrough hadvances hst' hpointed ?_, hwalk'⟩
        unfold ContentsChanged
        simp [hkind, hbounds]
    · rw [if_pos hdepth]
      exact ensures_throw (Stops.halts (.bounds h.reached h.kind hkind (.inl hdepth)) (by simp))
  | pointer => exact hpointer (.inl hkind)
  | const => exact hpointer (.inr hkind)
  | struct => exact hhere (by simp [LooksThrough, hkind]) _ (by simp [ContentsChanged, hkind])
  | union => exact hhere (by simp [LooksThrough, hkind]) _ (by simp [ContentsChanged, hkind])
  | subroutineType => exact hhere (by simp [LooksThrough, hkind]) _ (by simp [ContentsChanged, hkind])
  | base => exact hhere (by simp [LooksThrough, hkind]) _ (by simp [ContentsChanged, hkind])
  | void => exact hhere (by simp [LooksThrough, hkind]) _ (by simp [ContentsChanged, hkind])
  | enum => exact hhere (by simp [LooksThrough, hkind]) _ (by simp [ContentsChanged, hkind])

/-! ## What becomes of a field -/

/-- How a field is transformed; none when its transformer is given up. -/
def HowSettled (types : T → TypeInfo T) (st' : TypediffState T) (field new : TypeField T) : Option FieldTransformType → Prop
  | none => IsPointer types field.type ∧ ∃ x y, (types field.type).pointedType = some x ∧
      (types new.type).pointedType = some y ∧ ¬ SameKind types x y
  | some .delete => False
  | some .copy => ((types field.type).type = .base ∨ (types field.type).type = .enum) ∨
      (IsPointer types field.type ∧ ∃ x y, (types field.type).pointedType = some x ∧ (types new.type).pointedType = some y ∧
        Met st' x y ∧ st'.transformer x = none)
  | some .recurse => ((types field.type).type = .struct ∨ (types field.type).type = .union) ∨
      (IsPointer types field.type ∧ ∃ x y, (types field.type).pointedType = some x ∧ (types new.type).pointedType = some y ∧
        (SameKind types x y → Met st' x y) ∧ (st'.transformer x).isSome)

/-- Where the walk is then. -/
def HowWalked (types : T → TypeInfo T) (start : T × T) (st' : TypediffState T) (field new : TypeField T)
    (tasks : List (DiffTask T)) : Option FieldTransformType → Prop
  | none => GivenUp types start
  | some .recurse => WalkAt types start st' (.compare field.type new.type :: tasks)
  | some _ => WalkAt types start st' tasks

/-- What a step of the loop over the fields keeps. -/
structure FieldReturns (types : T → TypeInfo T) (start : T × T) (st st' : TypediffState T) : Prop where
  advances : Advances types (fun _ => False) st st'
  consistent : Consistent types start st'

variable {field new : TypeField T}

theorem pointedTransform_ensures (hrec : CallsSettle types fueled start n recur) (h : Working types fueled start n st a b)
    (hstatus : st.typediffStatus a ≠ .notDone) (hkept : KeptField types a b field new)
    (hpointer : IsPointer types field.type) (hwalk : WalkAt types start st (.field b field :: tasks)) :
    Ensures (pointedTransform types recur field.type new.type) st
      (fun how st' => FieldReturns types start st st' ∧ HowSettled types st' field new how ∧
        HowWalked types start st' field new tasks how) (Halts types fueled start) := by
  have hnowhere : ¬ PointsOn types field.type new.type →
    Ensures (fault .undefined : TypediffM T (Option FieldTransformType)) st
      (fun how st' => FieldReturns types start st st' ∧ HowSettled types st' field new how ∧
        HowWalked types start st' field new tasks how) (Halts types fueled start) :=
    fun hnot => ensures_throw ⟨.fieldPointsNowhere h.reached hkept hpointer hnot, fun _ =>
      .pointsNowhere hkept.kept (.inr hpointer) hnot⟩
  unfold pointedTransform
  cases hx : (types field.type).pointedType with
  | none =>
    refine hnowhere ?_
    intro ⟨x, y, hx', _⟩
    rw [hx] at hx'
    cases hx'
  | some x =>
    cases hy : (types new.type).pointedType with
    | none =>
      refine hnowhere ?_
      intro ⟨x, y, _, hy'⟩
      rw [hy] at hy'
      cases hy'
    | some y =>
      have hready : CallReady types fueled start n st x y :=
        h.ready (.pointedField hkept hpointer hx hy) fun hnot => absurd hnot hstatus
      refine (hrec st x y _ hready (hwalk.here (next_pointer hkept.found hkept.kept hpointer hx hy))).bind ?_
      intro same st' ⟨hcall, hwalk'⟩
      have hreturns : FieldReturns types start st st' := ⟨hcall.advances, hcall.consistent⟩
      refine ensures_get ?_
      cases hsome : st'.transformer x with
      | some t =>
        have hchanged : (st'.transformer x).isSome := by
          rw [hsome]
          rfl
        have hdiffers : Differs types x y := by
          by_cases hxy : SameKind types x y
          · exact (hcall.consistent.isSome (hcall.met hxy)).mp hchanged
          · exact .kind hxy
        exact ensures_pure ⟨hreturns, .inr ⟨hpointer, x, y, hx, hy, hcall.met, hchanged⟩,
          hwalk'.here (next_pointsToChanged hdiffers hchanged)⟩
      | none =>
        have hnot : SameKind types x y → ¬ Differs types x y := by
          intro hxy hdiffers
          rw [← hcall.consistent.isSome (hcall.met hxy), hsome] at hdiffers
          cases hdiffers
        cases hsame : same with
        | true =>
          have hunchanged := hcall.same.mp hsame
          have hmet := hcall.met (Differs.sameKind_or hunchanged)
          exact ensures_pure ⟨hreturns, .inr ⟨hpointer, x, y, hx, hy, hmet, hsome⟩, hwalk'.here (next_pointsToSame hunchanged)⟩
        | false =>
          have hkind : ¬ SameKind types x y := by
            intro hxy
            have htrue := hcall.same.mpr (hnot hxy)
            rw [hsame] at htrue
            cases htrue
          refine ensures_pure ⟨hreturns, ⟨hpointer, x, y, hx, hy, hkind⟩, ?_⟩
          exact hwalk'.givenUp ⟨_, _, x, y, tasks, rfl, hkind, by simp [TypediffState.walk, hsome]⟩

theorem fieldTransformType_ensures (hrec : CallsSettle types fueled start n recur) (h : Working types fueled start n st a b)
    (hstatus : st.typediffStatus a ≠ .notDone) (hkept : KeptField types a b field new)
    (hwalk : WalkAt types start st (.field b field :: tasks)) :
    Ensures (fieldTransformType types recur field.type new.type) st
      (fun how st' => FieldReturns types start st st' ∧ HowSettled types st' field new how ∧
        HowWalked types start st' field new tasks how) (Halts types fueled start) := by
  have hhere : FieldReturns types start st st := ⟨.refl st, h.consistent⟩
  unfold fieldTransformType
  cases hkind : (types field.type).type with
  | base =>
    have hbase : (types field.type).type = .base ∨ (types field.type).type = .enum := .inl hkind
    exact ensures_pure ⟨hhere, .inl hbase, hwalk.here (next_based hkept.found hkept.kept hbase)⟩
  | enum =>
    have hbase : (types field.type).type = .base ∨ (types field.type).type = .enum := .inr hkind
    exact ensures_pure ⟨hhere, .inl hbase, hwalk.here (next_based hkept.found hkept.kept hbase)⟩
  | struct =>
    have hstruct : (types field.type).type = .struct ∨ (types field.type).type = .union := .inl hkind
    exact ensures_pure ⟨hhere, .inl hstruct, hwalk.here (next_nested hkept.found hkept.kept hstruct)⟩
  | union =>
    have hstruct : (types field.type).type = .struct ∨ (types field.type).type = .union := .inr hkind
    exact ensures_pure ⟨hhere, .inl hstruct, hwalk.here (next_nested hkept.found hkept.kept hstruct)⟩
  | pointer => exact pointedTransform_ensures hrec h hstatus hkept (.inl hkind) hwalk
  | const => exact pointedTransform_ensures hrec h hstatus hkept (.inr hkind) hwalk
  | array => exact ensures_throw (Stops.halts (.unsupported h.reached hkept (.inl hkind)) (by simp))
  | void => exact ensures_throw (Stops.halts (.unsupported h.reached hkept (.inr (.inl hkind))) (by simp))
  | subroutineType => exact ensures_throw (Stops.halts (.unsupported h.reached hkept (.inr (.inr hkind))) (by simp))

variable [DecidableEq T]

theorem checkTransformer_ensures (h : Working types fueled start n st a b) (hkept : KeptField types a b field new)
    (hwalk : WalkAt types start st tasks) :
    Ensures (checkTransformer field.type new.type) st (fun _ st' => st' = st) (Halts types fueled start) := by
  refine ensures_get ?_
  cases ht : st.transformer field.type with
  | none => exact ensures_pure rfl
  | some t =>
    obtain ⟨b', hmet⟩ := h.consistent.transformed (show (st.transformer field.type).isSome by rw [ht]; rfl)
    have hreached := (h.consistent.reached _ _ hmet.1).2
    have hdiffers : Differs types field.type b' := (h.consistent.isSome hmet).mp (by rw [ht]; rfl)
    have hrecorded := h.consistent.recorded _ _ hmet.1
    unfold Recorded at hrecorded
    rw [(h.consistent.differed hmet).mpr hdiffers] at hrecorded
    obtain ⟨-, t', ht', htype, hgaveUp⟩ := hrecorded
    cases ht.symm.trans ht'
    dsimp only
    by_cases hfreed : t.freed = true
    · rw [if_pos hfreed]
      have hgiven := hwalk.of_freed fun hnothing => absurd (hnothing _ t ht) (by simp [hfreed])
      exact ensures_throw ⟨.gaveUp hreached (hgaveUp hfreed), fun _ => .givenUp hgiven⟩
    · rw [if_neg hfreed]
      by_cases hto : t.toType ≠ new.type
      · rw [if_pos hto]
        rw [htype] at hto
        exact ensures_throw (Stops.halts (.fieldTwoTypes h.reached hkept hreached hto) (by simp))
      · rw [if_neg hto]
        exact ensures_pure rfl

omit [DecidableEq T] in
theorem recurseIntoField_ensures (hrec : CallsSettle types fueled start n recur) (h : Working types fueled start n st a b)
    (hstatus : st.typediffStatus a ≠ .notDone) (hkept : KeptField types a b field new)
    (hhow : HowSettled types st field new (some .recurse))
    (hwalk : WalkAt types start st (.compare field.type new.type :: tasks)) :
    Ensures (recurseIntoField types recur a field.type new.type) st
      (fun transformable st' => FieldReturns types start st st' ∧ transformable = true ∧ Met st' field.type new.type ∧
        WalkAt types start st' tasks) (Halts types fueled start) := by
  have hcall : Calls types (a, b) (field.type, new.type) := by
    rcases hhow with hstruct | ⟨hpointer, x, y, hx, hy, hmet, hsome⟩
    · exact .nested hkept hstruct
    · refine .pointerField hkept hpointer hx hy ?_
      by_cases hxy : SameKind types x y
      · exact (h.consistent.isSome (hmet hxy)).mp hsome
      · exact .kind hxy
  have hready : CallReady types fueled start n st field.type new.type :=
    h.ready (fun _ => hcall) fun hnot => absurd hnot hstatus
  refine (hrec st _ _ tasks hready hwalk).bind ?_
  intro same st' ⟨hreturns, hwalk'⟩
  have hmet := hreturns.met hkept.kept
  have hreturned : FieldReturns types start st st' := ⟨hreturns.advances, hreturns.consistent⟩
  refine ensures_get ?_
  by_cases hsame : same = true
  · rw [if_pos hsame]
    exact ensures_pure ⟨hreturned, rfl, hmet, hwalk'⟩
  · rw [if_neg hsame]
    have hdiffers : Differs types field.type new.type := by
      by_contra hnot
      exact hsame (hreturns.same.mpr hnot)
    have hsome := (hreturns.consistent.isSome hmet).mpr hdiffers
    rw [if_neg (by simpa using Option.isSome_iff_ne_none.mp hsome)]
    by_cases hunion : (types a).type = .union
    · rw [if_pos hunion]
      exact ensures_throw (Stops.halts (.unionMember h.reached hkept hunion hdiffers) (by simp))
    · rw [if_neg hunion]
      exact ensures_pure ⟨hreturned, rfl, hmet, hwalk'⟩

omit [Fintype T] [DecidableEq T] in
/-- What is known of a field when it has been gone into. -/
theorem HowSettled.settled {how : FieldTransformType} (hkept : KeptField types a b field new)
    (hhow : HowSettled types st field new (some how)) (hmet : how = .recurse → Met st field.type new.type) :
    FieldSettled types st b field (getOffsetForField (types b) field.name, how) := by
  cases how with
  | delete => exact hhow.elim
  | copy =>
    rcases hhow with hbase | ⟨hpointer, x, y, hx, hy, hxy, hnone⟩
    · exact .copied hkept.found hkept.kept hbase
    · exact .pointsToSame hkept.found hkept.kept hpointer hx hy hxy hnone
  | recurse =>
    rcases hhow with hstruct | ⟨hpointer, x, y, hx, hy, hxy, hsome⟩
    · exact .nested hkept.found hkept.kept hstruct (hmet rfl)
    · exact .pointsToTransformed hkept.found hkept.kept hpointer hx hy hxy hsome (hmet rfl)

omit [DecidableEq T] [Fintype T] in
theorem HowSettled.mono {how : Option FieldTransformType} (h : Preserves own st st') (hst : Consistent types start st)
    (hhow : HowSettled types st field new how) : HowSettled types st' field new how := by
  cases how with
  | none => exact hhow
  | some how =>
    cases how with
    | delete => exact hhow
    | copy =>
      rcases hhow with hbase | ⟨hpointer, x, y, hx, hy, hxy, hnone⟩
      · exact .inl hbase
      · refine .inr ⟨hpointer, x, y, hx, hy, h.met _ _ hxy, ?_⟩
        have hsome := h.isSome _ _ hxy
        rw [hnone] at hsome
        simpa using hsome
    | recurse =>
      rcases hhow with hstruct | ⟨hpointer, x, y, hx, hy, hxy, hsome⟩
      · exact .inl hstruct
      · obtain ⟨z, hz⟩ := hst.transformed hsome
        refine .inr ⟨hpointer, x, y, hx, hy, fun hkind => h.met _ _ (hxy hkind), ?_⟩
        rw [h.isSome _ z hz]
        exact hsome

omit [Fintype T] [DecidableEq T] in
theorem HowWalked.at {how : FieldTransformType} (h : HowWalked types start st field new tasks (some how)) :
    ∃ here, WalkAt types start st here := by
  cases how with
  | delete => exact ⟨tasks, h⟩
  | copy => exact ⟨tasks, h⟩
  | recurse => exact ⟨_, h⟩

omit [Fintype T] [DecidableEq T] in
theorem HowWalked.rest {how : FieldTransformType} (h : HowWalked types start st field new tasks (some how))
    (hrecurse : how ≠ .recurse) : WalkAt types start st tasks := by
  cases how with
  | delete => exact h
  | copy => exact h
  | recurse => exact absurd rfl hrecurse

/-- What becomes of a field; none when the transformer is given up. -/
def FieldDone (types : T → TypeInfo T) (st' : TypediffState T) (a b : T) (field : TypeField T) :
    Option (Int32 × FieldTransformType) → Prop
  | none => GivesUp types a b
  | some x => FieldSettled types st' b field x

/-- Where the walk is then. -/
def FieldWalked (types : T → TypeInfo T) (start : T × T) (st' : TypediffState T) (tasks : List (DiffTask T)) :
    Option (Int32 × FieldTransformType) → Prop
  | none => GivenUp types start
  | some _ => WalkAt types start st' tasks

theorem fieldTransform_ensures (hrec : CallsSettle types fueled start n recur) (h : Working types fueled start n st a b)
    (hstatus : st.typediffStatus a ≠ .notDone) (hdiffers : Differs types a b) (hmem : field ∈ (types a).fields)
    (hwalk : WalkAt types start st (.field b field :: tasks)) :
    Ensures (fieldTransform types recur a b field) st
      (fun x st' => FieldReturns types start st st' ∧ FieldDone types st' a b field x ∧ FieldWalked types start st' tasks x)
      (Halts types fueled start) := by
  unfold fieldTransform
  cases hnew : (getIndexForField (types b) field.name).bind ((types b).fields[·]?) with
  | none => exact ensures_throw ⟨.fieldRemoved h.reached h.kind hdiffers hmem hnew, fun _ =>
      .fieldRemoved h.reached h.kind hdiffers hmem hnew⟩
  | some new =>
    dsimp only
    by_cases hkept : (types field.type).type = (types new.type).type
    · have hkeptField : KeptField types a b field new := ⟨h.kind, hdiffers, hmem, hnew, hkept⟩
      rw [if_neg (not_not.mpr hkept)]
      refine (fieldTransformType_ensures hrec h hstatus hkeptField hwalk).bind ?_
      intro how st1 ⟨hreturns, hhow, hwalk1⟩
      cases how with
      | none =>
        obtain ⟨hpointer, x, y, hx, hy, hxy⟩ := hhow
        exact ensures_pure ⟨hreturns, ⟨field, new, x, y, hkeptField, hpointer, hx, hy, hxy⟩, hwalk1⟩
      | some how =>
        have hw := h.advance hreturns.advances hreturns.consistent
        have hstatus1 : st1.typediffStatus a ≠ .notDone := by
          rw [(hreturns.advances.unchanged a b h.begun).2]
          exact hstatus
        obtain ⟨here, hwalkHere⟩ := hwalk1.at
        refine (checkTransformer_ensures hw hkeptField hwalkHere).bind ?_
        intro _ st2 hst2
        rw [hst2]
        by_cases hrecurse : how = .recurse
        · rw [if_pos hrecurse]
          rw [hrecurse] at hhow hwalk1
          refine (recurseIntoField_ensures hrec hw hstatus1 hkeptField hhow hwalk1).bind ?_
          intro transformable st' ⟨hreturns', htrue, hmet, hwalk'⟩
          rw [htrue]
          refine ensures_pure ⟨⟨?_, hreturns'.consistent⟩, ?_, hwalk'⟩
          · exact hreturns.advances.trans hreturns'.advances hreturns.consistent fun _ => False.elim
          · rw [hrecurse]
            exact HowSettled.settled hkeptField (hhow.mono hreturns'.advances.toPreserves hreturns.consistent) fun _ => hmet
        · rw [if_neg hrecurse]
          exact ensures_pure ⟨hreturns, hhow.settled hkeptField fun hnot => absurd hnot hrecurse, hwalk1.rest hrecurse⟩
    · rw [if_pos hkept]
      exact ensures_pure ⟨⟨.refl st, h.consistent⟩, .deleted hnew hkept, hwalk.here (next_deleted hnew hkept)⟩

/-! ## The loop over the fields -/

omit [Fintype T] [DecidableEq T] in
/-- What is recorded of one type is all that changes. -/
theorem Consistent.record (hst : Consistent types start st) (hbegun : st.diffAgainst a = some b)
    (hdiff : st'.diffAgainst = st.diffAgainst) (hstatus : ∀ x, x ≠ a → st'.typediffStatus x = st.typediffStatus x)
    (htransformer : ∀ x, x ≠ a → st'.transformer x = st.transformer x) (hrecorded : Recorded types st' a b) :
    Consistent types start st' := by
  refine ⟨?_, ?_, ?_⟩
  · intro x hnone
    rw [hdiff] at hnone
    have hx : x ≠ a := by
      intro heq
      rw [heq, hbegun] at hnone
      cases hnone
    rw [hstatus x hx, htransformer x hx]
    exact hst.fresh x hnone
  · rw [hdiff]
    exact hst.reached
  · intro x y hxy
    rw [hdiff] at hxy
    by_cases hx : x = a
    · subst hx
      cases hbegun.symm.trans hxy
      exact hrecorded
    · have hold := hst.recorded x y hxy
      unfold Recorded at hold ⊢
      rw [hstatus x hx, htransformer x hx]
      exact hold

omit [Fintype T] in
theorem setTransformer_consistent {f : TypeTransform T → TypeTransform T} {t : TypeTransform T}
    (hst : Consistent types start st)
    (hbegun : st.diffAgainst a = some b) (ht : st.transformer a = some t) (hdiffers : Differs types a b)
    (hstatus : st.typediffStatus a = .differed) (htype : (f t).toType = b)
    (hgaveUp : (f t).freed = true → GivesUp types a b) :
    Consistent types start { st with transformer := Function.update st.transformer a ((st.transformer a).map f) } := by
  refine hst.record hbegun rfl (fun _ _ => rfl) (fun x hx => by simp [hx]) ?_
  unfold Recorded
  simp only [hstatus]
  exact ⟨hdiffers, f t, by simp [ht], htype, hgaveUp⟩

omit [Fintype T] in
theorem setTransformer_advances (f : TypeTransform T → TypeTransform T) :
    Advances types (fun x => x = a) st
      { st with transformer := Function.update st.transformer a ((st.transformer a).map f) } := by
  refine ⟨⟨fun x y h => h, ?_, ?_⟩, fun x y h => ⟨h, rfl⟩, ?_⟩
  · intro x y _ hx
    simp [hx]
  · intro x y _
    by_cases hx : x = a
    · simp [hx]
    · simp [hx]
  · intro x y hnone hsome
    rw [show st.diffAgainst x = some y from hsome] at hnone
    cases hnone

omit [Fintype T] in
/-- A transformer that stays as it was, but for its fields. -/
theorem WalkAt.setTransformer {f : TypeTransform T → TypeTransform T} {t : TypeTransform T} (h : WalkAt types start st tasks)
    (ht : st.transformer a = some t) (hfreed : (f t).freed = t.freed) :
    WalkAt types start { st with transformer := Function.update st.transformer a ((st.transformer a).map f) } tasks := by
  have hwalk : ({ st with transformer := Function.update st.transformer a ((st.transformer a).map f) } :
      TypediffState T).walk tasks = st.walk tasks := by
    unfold TypediffState.walk
    congr 1
    ext x
    by_cases hx : x = a
    · simp [hx]
    · simp [hx]
  have hsame : NothingFreed ({ st with transformer := Function.update st.transformer a ((st.transformer a).map f) } :
      TypediffState T) ↔ NothingFreed st := by
    refine forall_congr' fun x => ?_
    by_cases hx : x = a
    · simp [hx, ht, hfreed]
    · simp [hx]
  rcases h with ⟨hgiven, hup⟩ | ⟨hnothing, hreaches⟩
  · exact .inl ⟨fun hnot => hgiven (hsame.mp hnot), hup⟩
  · exact .inr ⟨hsame.mpr hnothing, by rw [hwalk]; exact hreaches⟩

omit [Fintype T] in
/-- One that is freed was given up. -/
theorem GivenUp.walkAt {f : TypeTransform T → TypeTransform T} {t : TypeTransform T} (h : GivenUp types start)
    (ht : st.transformer a = some t) (hfreed : (f t).freed = true) :
    WalkAt types start { st with transformer := Function.update st.transformer a ((st.transformer a).map f) } tasks := by
  refine .inl ⟨fun hnothing => ?_, h⟩
  have hnot := hnothing a (f t) (by simp [ht])
  rw [hfreed] at hnot
  cases hnot

/-- What the loop returns with. -/
structure LoopReturns (types : T → TypeInfo T) (start : T × T) (st : TypediffState T) (a b : T) (same : Bool)
    (st' : TypediffState T) : Prop where
  advances : Advances types (fun x => x = a) st st'
  consistent : Consistent types start st'
  same : same = false
  fields : FieldsSettled types st' a b

/-- The loop, over the fields that are left. -/
theorem transformFields_ensures (hrec : CallsSettle types fueled start n recur) {done fields : List (TypeField T)}
    (h : Working types fueled start n st a b) (hstatus : st.typediffStatus a = .differed) (hdiffers : Differs types a b)
    (hall : done ++ fields = (types a).fields) {t : TypeTransform T} (ht : st.transformer a = some t) (htype : t.toType = b)
    (hfreed : t.freed = false) (hdone : List.Forall₂ (FieldSettled types st b) done t.fields)
    (hwalk : WalkAt types start st (fields.map (.field b) ++ tasks)) :
    Ensures (transformFields types recur a b fields) st
      (fun same st' => LoopReturns types start st a b same st' ∧ WalkAt types start st' tasks) (Halts types fueled start) := by
  induction fields generalizing st done t with
  | nil =>
    rw [List.append_nil] at hall
    rw [hall] at hdone
    exact ensures_pure ⟨⟨.refl st, h.consistent, rfl, t, ht, htype, .inl ⟨hfreed, hdone⟩⟩, hwalk⟩
  | cons field fields ih =>
    have hmem : field ∈ (types a).fields := by
      rw [← hall]
      simp
    have hmet : Met st a b := ⟨h.begun, by rw [hstatus]; simp⟩
    refine (fieldTransform_ensures hrec h hmet.2 hdiffers hmem hwalk).bind ?_
    intro x st1 ⟨hreturns, hx, hwalk1⟩
    have hw := h.advance hreturns.advances hreturns.consistent
    have ht1 : st1.transformer a = some t := by
      rw [hreturns.advances.transformer a b hmet id]
      exact ht
    have hstatus1 : st1.typediffStatus a = .differed := by
      rw [(hreturns.advances.unchanged a b h.begun).2]
      exact hstatus
    cases x with
    | none =>
      have hconsistent := setTransformer_consistent
        (f := fun t => { t with freed := true }) hreturns.consistent hw.begun ht1 hdiffers
        hstatus1 htype fun _ => hx
      refine ensures_modify (ensures_pure ⟨⟨?_, hconsistent, rfl, { t with freed := true }, by simp [ht1], htype,
        .inr ⟨rfl, hx⟩⟩, GivenUp.walkAt hwalk1 ht1 rfl⟩)
      exact hreturns.advances.weaken.trans (setTransformer_advances _) hreturns.consistent fun y hy => by
        rw [hy, h.begun]
        rfl
    | some x =>
      have hset : Advances types (fun x => x = a) st1 _ := setTransformer_advances fun t =>
        { t with fields := t.fields ++ [x] }
      have hconsistent := setTransformer_consistent
        (f := fun t => { t with fields := t.fields ++ [x] }) hreturns.consistent hw.begun ht1
        hdiffers hstatus1 htype fun hnot => by
          rw [show t.freed = true from hnot] at hfreed
          cases hfreed
      refine ensures_modify ?_
      set st2 : TypediffState T := { st1 with transformer := Function.update st1.transformer a _ } with hst2
      have ht2 : st2.transformer a = some { t with fields := t.fields ++ [x] } := by simp [hst2, ht1]
      have hkept : ∀ f z, FieldSettled types st b f z → FieldSettled types st2 b f z :=
        fun f z hz => (hz.mono hreturns.advances.toPreserves h.consistent).mono hset.toPreserves hreturns.consistent
      have hx2 : FieldSettled types st2 b field x := hx.mono hset.toPreserves hreturns.consistent
      have hall2 : (done ++ [field]) ++ fields = (types a).fields := by simp [hall]
      have hdone2 : List.Forall₂ (FieldSettled types st2 b) (done ++ [field]) (t.fields ++ [x]) :=
        List.rel_append (hdone.imp hkept) (.cons hx2 .nil)
      have hwalk2 : WalkAt types start st2 (fields.map (.field b) ++ tasks) := WalkAt.setTransformer hwalk1 ht1 rfl
      refine (ih (hw.advance hset hconsistent) hstatus1 hall2 ht2 htype hfreed hdone2 hwalk2).imp ?_
      intro same st' ⟨hloop, hwalk'⟩
      have hbegun : ∀ y, y = a → (st.diffAgainst y).isSome := by
        intro y hy
        rw [hy, h.begun]
        rfl
      have hfirst := hreturns.advances.weaken.trans hset hreturns.consistent hbegun
      exact ⟨⟨hfirst.trans hloop.advances hconsistent hbegun, hloop.consistent, hloop.same, hloop.fields⟩, hwalk'⟩

/-! ## One comparison -/

def begin (a b : T) (st : TypediffState T) : TypediffState T :=
    { st with diffAgainst := Function.update st.diffAgainst a (some b) }

def recordSame (a : T) (st : TypediffState T) : TypediffState T :=
  { st with typediffStatus := Function.update st.typediffStatus a .same }

/-- The transformer is there before its fields are. -/
def publish (types : T → TypeInfo T) (a b : T) (st : TypediffState T) : TypediffState T :=
  { st with
    typediffStatus := Function.update st.typediffStatus a .differed
    transformer := Function.update st.transformer a
      (some ⟨b, (types a).type = .union ∨ (types a).type = .enum ∨ (types a).type = .array, [], false⟩) }

omit [Fintype T] in
/-- What was compared on the way, and then `a` itself. -/
theorem Advances.finish {st2 : TypediffState T} (hnone : st.diffAgainst a = none)
    (hfirst : Advances types (fun _ => False) (begin a b st) st2) (hst2 : Consistent types start st2)
    (hrest : Preserves (fun x => x = a) st2 st')
    (hunchanged : ∀ x y, x ≠ a → st2.diffAgainst x = some y →
      st'.diffAgainst x = some y ∧ st'.typediffStatus x = st2.typediffStatus x)
    (hsettled : ∀ x y, x ≠ a → st2.diffAgainst x = none → st'.diffAgainst x = some y → Settled types st' x y)
    (ha : Settled types st' a b) : Advances types (fun _ => False) st st' := by
  have hbegin : ∀ x, x ≠ a → (begin a b st).diffAgainst x = st.diffAgainst x := by
    intro x hx
    simp [begin, hx]
  have hne : ∀ x y, st.diffAgainst x = some y → x ≠ a := by
    intro x y hxy heq
    rw [heq, hnone] at hxy
    cases hxy
  have hmet : ∀ x y, Met st x y → x ≠ a ∧ Met (begin a b st) x y := by
    intro x y hxy
    have hx := hne x y hxy.1
    exact ⟨hx, (hbegin x hx).trans hxy.1, hxy.2⟩
  refine ⟨⟨?_, ?_, ?_⟩, ?_, ?_⟩
  · intro x y hxy
    exact hrest.met x y (hfirst.met x y (hmet x y hxy).2)
  · intro x y hxy _
    obtain ⟨hx, hxy1⟩ := hmet x y hxy
    exact (hrest.transformer x y (hfirst.met x y hxy1) hx).trans (hfirst.transformer x y hxy1 id)
  · intro x y hxy
    obtain ⟨-, hxy1⟩ := hmet x y hxy
    exact (hrest.isSome x y (hfirst.met x y hxy1)).trans (hfirst.isSome x y hxy1)
  · intro x y hxy
    have hx := hne x y hxy
    obtain ⟨hdiff, hstatus⟩ := hfirst.unchanged x y ((hbegin x hx).trans hxy)
    obtain ⟨hdiff', hstatus'⟩ := hunchanged x y hx hdiff
    exact ⟨hdiff', hstatus'.trans hstatus⟩
  · intro x y hx hxy
    by_cases hxa : x = a
    · subst hxa
      cases ha.met.1.symm.trans hxy
      exact ha
    · cases hmiddle : st2.diffAgainst x with
      | none => exact hsettled x y hxa hmiddle hxy
      | some y' =>
        cases (hunchanged x y' hxa hmiddle).1.symm.trans hxy
        exact (hfirst.settled x y ((hbegin x hxa).trans hx) hmiddle).mono hrest hst2 hxa

omit [Fintype T] [DecidableEq T] in
theorem Preserves.record (hnot : st.typediffStatus a = .notDone) (hdiff : st'.diffAgainst = st.diffAgainst)
    (hstatus : ∀ x, x ≠ a → st'.typediffStatus x = st.typediffStatus x)
    (htransformer : ∀ x, x ≠ a → st'.transformer x = st.transformer x) : Preserves own st st' := by
  have hne : ∀ x y, Met st x y → x ≠ a := by
    intro x y hxy heq
    rw [heq] at hxy
    exact hxy.2 hnot
  refine ⟨?_, ?_, ?_⟩
  · intro x y hxy
    exact ⟨by rw [hdiff]; exact hxy.1, by rw [hstatus x (hne x y hxy)]; exact hxy.2⟩
  · exact fun x y hxy _ => htransformer x (hne x y hxy)
  · intro x y hxy
    rw [htransformer x (hne x y hxy)]

/-- The comparison has begun: nothing else has changed. -/
theorem CallReady.begin (h : CallReady types fueled start (n + 1) st a b) (hkind : SameKind types a b)
    (hnone : st.diffAgainst a = none) :
    Working types fueled start n (begin a b st) a b := by
  have hbegun : (Katana.begin a b st).diffAgainst a = some b := by simp [Katana.begin]
  have hother : ∀ x, x ≠ a → (Katana.begin a b st).diffAgainst x = st.diffAgainst x := by
    intro x hx
    simp [Katana.begin, hx]
  refine ⟨⟨?_, ?_, ?_⟩, hkind, h.reached hkind, hbegun, ?_, ?_⟩
  · intro x hx
    have hxa : x ≠ a := by
      intro heq
      rw [heq, hbegun] at hx
      cases hx
    rw [hother x hxa] at hx
    exact h.consistent.fresh x hx
  · intro x y hxy
    by_cases hxa : x = a
    · subst hxa
      cases hbegun.symm.trans hxy
      exact ⟨hkind, h.reached hkind⟩
    · rw [hother x hxa] at hxy
      exact h.consistent.reached x y hxy
  · intro x y hxy
    by_cases hxa : x = a
    · subst hxa
      obtain ⟨hstatus, htransformer⟩ := h.consistent.fresh x hnone
      have hstatus : (Katana.begin x b st).typediffStatus x = .notDone := hstatus
      unfold Recorded
      rw [hstatus]
      exact htransformer
    · rw [hother x hxa] at hxy
      exact h.consistent.recorded x y hxy
  · intro x y hxy hstatus hxa
    rw [hother x hxa] at hxy
    exact h.pending hkind x y hxy hstatus
  · intro hfueled
    have hless : unmarked (compared (Katana.begin a b st)) < unmarked (compared st) := by
      refine unmarked_mark ?_ (a := a) (by simp [compared, hnone]) (by simp [compared, hbegun])
      intro x hx
      by_cases hxa : x = a
      · simp [compared, hxa, hbegun]
      · rw [compared, hother x hxa]
        exact hx
    have hfuel := h.fuel hfueled
    omega

omit [Fintype T] in
theorem WalkAt.begin (h : WalkAt types start st (.compare a b :: tasks)) (hkind : SameKind types a b)
    (hnone : st.diffAgainst a = none) :
    WalkAt types start (Katana.begin a b st) (.contents a b :: .conclude a b :: tasks) := by
  have hbegun : { x | ((Katana.begin a b st).diffAgainst x).isSome } = insert a { x | (st.diffAgainst x).isSome } := by
    ext x
    by_cases hx : x = a
    · simp [Katana.begin, hx]
    · simp [Katana.begin, hx]
  refine h.step ?_ .rfl
  have hnot : a ∉ { x | (st.diffAgainst x).isSome } := by simp [hnone]
  unfold TypediffState.walk
  rw [next_compare hkind hnot, hbegun]
  rfl

omit [Fintype T] in
theorem WalkAt.publish (h : WalkAt types start st (.conclude a b :: tasks)) (hdiffers : Differs types a b)
    (hnone : st.transformer a = none) :
    WalkAt types start (Katana.publish types a b st) ((types a).fields.map (.field b) ++ tasks) := by
  have hchanged : { x | ((Katana.publish types a b st).transformer x).isSome } =
      insert a { x | (st.transformer x).isSome } := by
    ext x
    by_cases hx : x = a
    · simp [Katana.publish, hx]
    · simp [Katana.publish, hx]
  have hfreed : NothingFreed (Katana.publish types a b st) ↔ NothingFreed st := by
    refine forall_congr' fun x => ?_
    by_cases hx : x = a
    · rw [hx, hnone]
      simp [Katana.publish]
    · simp [Katana.publish, hx]
  refine h.step ?_ hfreed
  unfold TypediffState.walk
  rw [next_differs hdiffers, hchanged]
  rfl

/-- What is left of a comparison whose contents have been compared. -/
theorem finish_ensures (hrec : CallsSettle types fueled start n recur) (h : Working types fueled start n (begin a b st) a b)
    (hnone : st.diffAgainst a = none) (hfresh : st.typediffStatus a = .notDone) {retval : Bool} {st2 : TypediffState T}
    (hcontents : ContentsCompared types start (begin a b st) a b retval st2)
    (hwalk : WalkAt types start st2 (.conclude a b :: tasks)) :
    Ensures (if retval then do
        modify (recordSame a)
        pure true
      else genTransform types recur a b) st2
      (fun same st' => CallReturns types start st a b same st' ∧ WalkAt types start st' tasks) (Halts types fueled start) := by
  have hw := h.advance hcontents.advances hcontents.consistent
  have hnot : st2.typediffStatus a = .notDone := (hcontents.advances.unchanged a b h.begun).2.trans hfresh
  have hrecorded : st2.transformer a = none := by
    have hrecorded := hcontents.consistent.recorded a b hw.begun
    unfold Recorded at hrecorded
    rw [hnot] at hrecorded
    exact hrecorded
  by_cases hretval : retval = true
  · rw [if_pos hretval]
    have hsame := hcontents.same.mp hretval
    have hkeep : Preserves (fun x => x = a) st2 (recordSame a st2) :=
      .record hnot rfl (fun x hx => by simp [recordSame, hx]) fun x _ => rfl
    have hmet : Met (recordSame a st2) a b := ⟨hw.begun, by simp [recordSame]⟩
    have hconsistent : Consistent types start (recordSame a st2) := by
      refine hcontents.consistent.record hw.begun rfl (fun x hx => by simp [recordSame, hx]) (fun x _ => rfl) ?_
      unfold Recorded
      simp only [recordSame, Function.update_self]
      exact ⟨hsame, hrecorded⟩
    have hsettled : Settled types (recordSame a st2) a b := by
      refine ⟨hmet, ?_, fun hdiffers => absurd hdiffers hsame⟩
      intro hthrough
      obtain ⟨x, y, hx, hy, hxy⟩ := hcontents.pointed hthrough
      exact ⟨x, y, hx, hy, fun hkind => hkeep.met x y (hxy hkind)⟩
    refine ensures_modify (ensures_pure ⟨⟨?_, hconsistent, by simp [hsame], fun _ => hmet⟩,
      hwalk.step (next_same hsame) .rfl⟩)
    refine hcontents.advances.finish hnone hcontents.consistent hkeep ?_ ?_ hsettled
    · intro x y hx hxy
      exact ⟨hxy, by simp [recordSame, hx]⟩
    · intro x y _ hx hxy
      rw [show st2.diffAgainst x = some y from hxy] at hx
      cases hx
  · rw [if_neg hretval]
    have hdiffers : Differs types a b := by
      by_contra hsame
      exact hretval (hcontents.same.mpr hsame)
    have hpublish : Preserves (fun x => x = a) st2 (publish types a b st2) :=
      .record hnot rfl (fun x hx => by simp [publish, hx]) fun x hx => by simp [publish, hx]
    have hconsistent : Consistent types start (publish types a b st2) := by
      refine hcontents.consistent.record hw.begun rfl (fun x hx => by simp [publish, hx])
        (fun x hx => by simp [publish, hx]) ?_
      unfold Recorded
      simp only [publish, Function.update_self]
      exact ⟨hdiffers, _, rfl, rfl, by simp⟩
    have hworking : Working types fueled start n (publish types a b st2) a b := by
      refine ⟨hconsistent, hw.kind, hw.reached, hw.begun, ?_, hw.fuel⟩
      intro x y hxy hstatus hx
      refine hw.pending x y hxy ?_ hx
      rw [← hstatus]
      simp [publish, hx]
    have hstatus : (publish types a b st2).typediffStatus a = .differed := by simp [publish]
    unfold genTransform
    refine ensures_modify ?_
    refine (transformFields_ensures hrec hworking hstatus hdiffers (List.nil_append _)
      (by simp [publish]; rfl) rfl rfl .nil (hwalk.publish hdiffers hrecorded)).imp ?_
    intro same st' ⟨hloop, hwalk'⟩
    have hkeep := hpublish.trans hloop.advances.toPreserves
    obtain ⟨hbegun, hdone⟩ := hloop.advances.unchanged a b hworking.begun
    have hmet : Met st' a b := ⟨hbegun, by rw [hdone, hstatus]; simp⟩
    have hsettled : Settled types st' a b := by
      refine ⟨hmet, ?_, fun _ => hloop.fields⟩
      intro hthrough
      obtain ⟨x, y, hx, hy, hxy⟩ := hcontents.pointed hthrough
      exact ⟨x, y, hx, hy, fun hkind => hkeep.met x y (hxy hkind)⟩
    refine ⟨⟨?_, hloop.consistent, by simp [hloop.same, hdiffers], fun _ => hmet⟩, hwalk'⟩
    refine hcontents.advances.finish hnone hcontents.consistent hkeep ?_ ?_ hsettled
    · intro x y hx hxy
      obtain ⟨hdiff, hstatus'⟩ := hloop.advances.unchanged x y hxy
      exact ⟨hdiff, hstatus'.trans (by simp [publish, hx])⟩
    · intro x y _ hx hxy
      exact hloop.advances.settled x y hx hxy

/-- **What a comparison returns with, and why it stops when it does not return.** -/
theorem compare_ensures (fueled : Prop) (start : T × T) (fuel : Nat) :
    CallsSettle types fueled start fuel (compareTypesAndGenTransforms types fuel) := by
  induction fuel with
  | zero =>
    intro st a b tasks h _
    exact ensures_throw (Stops.halts (.outOfFuel fun hfueled => absurd (h.fuel hfueled) (Nat.not_lt_zero _)) (by simp))
  | succ fuel ih =>
    intro st a b tasks h hwalk
    unfold compareTypesAndGenTransforms
    refine ensures_get ?_
    by_cases hkind : (types a).type = (types b).type
    · rw [if_neg (not_not.mpr hkind)]
      cases hbegun : st.diffAgainst a with
      | some b' =>
        dsimp only
        obtain ⟨hkind', hreached⟩ := h.consistent.reached a b' hbegun
        by_cases hstatus : st.typediffStatus a = .notDone
        · rw [if_pos hstatus]
          have hloops : LoopsBack types a b' := ⟨hkind', b, hkind, h.pending hkind a b' hbegun hstatus⟩
          exact ensures_throw (Stops.halts (.loopsBack hreached hloops) (by simp))
        · rw [if_neg hstatus]
          by_cases hb : b' ≠ b
          · rw [if_pos hb]
            exact ensures_throw (Stops.halts (.twoTypes hreached (h.reached hkind) hb) (by simp))
          · rw [if_neg hb]
            have hmet : Met st a b := ⟨by rw [hbegun, not_not.mp hb], hstatus⟩
            have hcompared : ¬ (SameKind types a b ∧ a ∉ { x | (st.diffAgainst x).isSome }) := by simp [hbegun]
            refine ensures_pure ⟨⟨.refl st, h.consistent, ?_, fun _ => hmet⟩, hwalk.here (next_compared hcompared)⟩
            rw [← h.consistent.differed hmet]
            simp
      | none =>
        have hw := h.begin hkind hbegun
        have hfresh := (h.consistent.fresh a hbegun).1
        refine ensures_modify ((compareContents_ensures ih hw (hwalk.begin hkind hbegun)).bind ?_)
        intro retval st2 hcompared
        exact finish_ensures ih hw hbegun hfresh hcompared.1 hcompared.2
    · rw [if_pos hkind]
      have hdiffers : Differs types a b := .kind hkind
      refine ensures_pure ⟨⟨.refl st, h.consistent, ?_, fun hsame => absurd hsame hkind⟩,
        hwalk.here (next_compared fun hboth => hkind hboth.1)⟩
      simp [hdiffers]

end

end Katana
