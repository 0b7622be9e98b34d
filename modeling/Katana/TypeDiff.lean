/-
  Katana.TypeDiff — whether a type changed, and how its objects are transformed (patchwrite/typediff.c).

  Types are a graph, which may be cyclic. A type remembers what it was compared with and how that came out, and
  a changed one gets a transformer. A struct or union is compared by the names and lengths of its fields and
  their types alone; what fields are of is only gone into for a transformer.

  The recursion is given fuel.

  Proved, for every graph and everything that was compared before:
  - `compare_accounted`: every pair that came out the same agrees in what the code looks at, and so does what
    the two point to.
  - `compareTypes_iff`: types that come out the same are layout-identical exactly when the structs and unions
    they point to agree in their fields' offsets and layouts, and the function types in their lengths.
-/
import Katana.DwarfVm

namespace Katana

open Lib Lib.Run

/-! ## Types -/

inductive TypeType where
  | struct | base | pointer | array | union | enum | subroutineType | const | void
  deriving DecidableEq, Repr

def TypeType.toNat : TypeType → Nat
  | struct => 1 | base => 2 | pointer => 3 | array => 4 | union => 5 | enum => 6 | subroutineType =>
      7 | const => 8 | void => 9

structure TypeField (T : Type) where
  name : String
  offset : Int32
  type : T
  deriving DecidableEq, Repr

structure TypeInfo (T : Type) where
  name : String
  type : TypeType
  length : Int32
  fields : List (TypeField T)
  pointedType : Option T
  /-- `lowerBounds` and `upperBounds`; there are `depth` of them. -/
  bounds : List (Int32 × Int32)
  deriving DecidableEq, Repr

inductive TypediffStatus where
  | notDone | differed | same
  deriving DecidableEq, Repr

inductive FieldTransformType where
  | delete | copy | recurse
  deriving DecidableEq, Repr

structure TypeTransform (T : Type) where
  toType : T
  straightCopy : Bool
  /-- `fieldOffsets` and `fieldTransformTypes`, as far as they are filled. -/
  fields : List (Int32 × FieldTransformType)
  /-- `freeTypeTransform` was called, and the type still points to it. -/
  freed : Bool
  deriving DecidableEq, Repr

/-- What a comparison changes of the types. -/
structure TypediffState (T : Type) where
  typediffStatus : T → TypediffStatus
  diffAgainst : T → Option T
  transformer : T → Option (TypeTransform T)

abbrev TypediffM (T : Type) := EStateM Halt (TypediffState T)

variable {T : Type}

def TypediffState.fresh : TypediffState T := ⟨fun _ => .notDone, fun _ => none, fun _ => none⟩

def orFault {α : Type} (x : Except Fault α) : TypediffM T α := fromExcept (x.mapError .fault)

def fault {α : Type} (f : Fault) : TypediffM T α := throw (.fault f)

/-! ## The comparison -/

def fieldDeleted : Int32 := -2

def getIndexForField (type : TypeInfo T) (name : String) : Option Nat := type.fields.findIdx? (·.name == name)

def getOffsetForField (type : TypeInfo T) (name : String) : Int32 :=
  match type.fields.find? (·.name == name) with
  | some field => field.offset
  | none => fieldDeleted

def isAnonymous (name : String) : Bool := "anon_".toList.isPrefixOf name.toList

variable (types : T → TypeInfo T)

/-- Fields of one place: their names and those of their types, and the lengths of these. Another name is allowed to an
anonymous type. -/
def fieldUnchanged (f g : TypeField T) : Bool :=
  ((types f.type).length == (types g.type).length && (types f.type).name == (types g.type).name && f.name == g.name) ||
    (isAnonymous (types f.type).name && (types f.type).type == (types g.type).type && f.name == g.name &&
      (types f.type).length == (types g.type).length)

def fieldsUnchanged (a b : T) : Bool :=
  ((types a).fields.zip (types b).fields).all fun fields => fieldUnchanged types fields.1 fields.2

/-- The loop over the bounds of arrays of one depth. -/
def boundsUnchanged : List (Int32 × Int32) → List (Int32 × Int32) → Except Fault Bool
  | (lower, upper) :: bounds, (lower', upper') :: bounds' =>
    if lower ≠ lower' then
      .error (.death ("haven't actually figured out how to properly write a type transformer for arrays changing lower bound yet. " ++
        "Poke James to do this\n"))
    else if upper ≠ upper' then .ok false
    else boundsUnchanged bounds bounds'
  | _, _ => .ok true

def comparePointed (recur : T → T → TypediffM T Bool) (a b : T) : TypediffM T Bool :=
  match (types a).pointedType, (types b).pointedType with
  | some pointed, some pointed' => recur pointed pointed'
  | _, _ => fault .undefined

/-- The `switch`, from what `retval` is before it. -/
def compareContents (recur : T → T → TypediffM T Bool) (a b : T) (retval : Bool) : TypediffM T Bool :=
  match (types a).type with
  | .union | .struct => pure (retval && fieldsUnchanged types a b)
  | .array => do
    if (types a).bounds.length ≠ (types b).bounds.length then
      fault (.death "Array type changed dimensionality. Can't handle this. Bailing\n")
    else
      let bounds ← orFault (boundsUnchanged (types a).bounds (types b).bounds)
      let pointed ← comparePointed types recur a b
      pure (retval && bounds && pointed)
  | .pointer | .const => do
    let pointed ← comparePointed types recur a b
    pure (retval && pointed)
  | .base | .void | .enum => pure retval
  | .subroutineType => pure true

variable [DecidableEq T]

/-! ## The transformer -/

/-- A pointer or const field, by whether what it points to has a transformer; none when that has to have one. -/
def pointedTransform (recur : T → T → TypediffM T Bool) (fieldTypeOld fieldTypeNew : T) :
    TypediffM T (Option FieldTransformType) :=
  match (types fieldTypeOld).pointedType, (types fieldTypeNew).pointedType with
  | some pointed, some pointed' => do
    let same ← recur pointed pointed'
    let st ← get
    match st.transformer pointed with
    | some _ => pure (some .recurse)
    | none => pure (if same then some .copy else none)
  | _, _ => fault .undefined

def fieldTransformType (recur : T → T → TypediffM T Bool) (fieldTypeOld fieldTypeNew : T) :
    TypediffM T (Option FieldTransformType) :=
  match (types fieldTypeOld).type with
  | .base | .enum => pure (some .copy)
  | .struct | .union => pure (some .recurse)
  | .pointer | .const => pointedTransform types recur fieldTypeOld fieldTypeNew
  | type => fault (.death ("unsupported type " ++ toString type.toNat ++
      " in generating transform in compareTypes. Poke james to write in support\n"))

/-- A type that has a transformer already is transformed to one type only. -/
def checkTransformer (fieldTypeOld fieldTypeNew : T) : TypediffM T Unit := do
  let st ← get
  match st.transformer fieldTypeOld with
  | some transform =>
    if transform.freed then fault .undefined
    else if transform.toType ≠ fieldTypeNew then fault (.death "Cannot transform a type to two different types\n")
    else pure ()
  | none => pure ()

/-- The type of a field that is gone into; whether there is a way to transform it. -/
def recurseIntoField (recur : T → T → TypediffM T Bool) (a fieldTypeOld fieldTypeNew : T) : TypediffM T Bool := do
  let same ← recur fieldTypeOld fieldTypeNew
  let st ← get
  if same then pure true
  else if (st.transformer fieldTypeOld).isNone then pure false
  else if (types a).type = .union then
    fault (.death ("Cannot generate transformation for union type " ++ (types a).name ++ " because its member type " ++
      (types fieldTypeNew).name ++ " has changed and there is no way to know how to apply fixups when the type is unknown\n"))
  else pure true

/-- What becomes of a field; none when the transformer is given up. A field that is gone has its new type read from
in front of
the array. -/
def fieldTransform (recur : T → T → TypediffM T Bool) (a b : T) (field : TypeField T) :
    TypediffM T (Option (Int32 × FieldTransformType)) := do
  match (getIndexForField (types b) field.name).bind ((types b).fields[·]?) with
  | none => fault .undefined
  | some fieldNew =>
    if (types field.type).type ≠ (types fieldNew.type).type then pure (some (fieldDeleted, .delete))
    else
      match ← fieldTransformType types recur field.type fieldNew.type with
      | none => pure none
      | some transformType =>
        checkTransformer field.type fieldNew.type
        let transformable ←
          if transformType = .recurse then recurseIntoField types recur a field.type fieldNew.type else pure true
        pure (if transformable then some (getOffsetForField (types b) field.name, transformType) else none)

def setTransformer (a : T) (f : TypeTransform T → TypeTransform T) : TypediffM T Unit :=
  modify fun st => { st with transformer := Function.update st.transformer a ((st.transformer a).map f) }

def transformFields (recur : T → T → TypediffM T Bool) (a b : T) : List (TypeField T) → TypediffM T Bool
  | [] => pure false
  | field :: fields => do
    match ← fieldTransform types recur a b field with
    | none => do
      setTransformer a fun transform => { transform with freed := true }
      pure false
    | some x => do
      setTransformer a fun transform => { transform with fields := transform.fields ++ [x] }
      transformFields recur a b fields

/-- The types differ: a transformer is built. -/
def genTransform (recur : T → T → TypediffM T Bool) (a b : T) : TypediffM T Bool := do
  let straightCopy := (types a).type = .union ∨ (types a).type = .enum ∨ (types a).type = .array
  modify fun st => { st with
    typediffStatus := Function.update st.typediffStatus a .differed
    transformer := Function.update st.transformer a (some ⟨b, straightCopy, [], false⟩) }
  transformFields types recur a b (types a).fields

/-- Whether the types are the same. -/
def compareTypesAndGenTransforms : Nat → T → T → TypediffM T Bool
  | 0, _, _ => throw .outOfFuel
  | fuel + 1, a, b => do
    let st ← get
    if (types a).type ≠ (types b).type then pure false
    else
      match st.diffAgainst a with
      | some diffAgainst =>
        if st.typediffStatus a = .notDone then fault .assertion
        else if diffAgainst ≠ b then fault (.death "cannot transform a type to two different types\n")
        else pure (st.typediffStatus a ≠ .differed)
      | none => do
        modify fun st => { st with diffAgainst := Function.update st.diffAgainst a (some b) }
        let unchanged := (types a).name = (types b).name ∧ (types a).fields.length = (types b).fields.length ∧
          (types a).length = (types b).length
        let retval ← compareContents types (compareTypesAndGenTransforms fuel) a b unchanged
        if retval then do
          modify fun st => { st with typediffStatus := Function.update st.typediffStatus a .same }
          pure true
        else genTransform types (compareTypesAndGenTransforms fuel) a b

/-! ## Layouts -/

/-- What two types of one layout agree in; `R` is asked of the types of their fields and of what they point to. -/
def LayoutStep (R : T → T → Prop) (a b : T) : Prop :=
  (types a).type = (types b).type ∧ (types a).length = (types b).length ∧
    match (types a).type with
    | .struct | .union =>
      List.Forall₂ (fun f g => f.name = g.name ∧ f.offset = g.offset ∧ R f.type g.type) (types a).fields (types b).fields
    | .array => (types a).bounds = (types b).bounds ∧ Option.Rel R (types a).pointedType (types b).pointedType
    | .pointer | .const => Option.Rel R (types a).pointedType (types b).pointedType
    | _ => True

/-- However deep one looks. -/
def LayoutIdentical (a b : T) : Prop := ∃ R : T → T → Prop, R a b ∧ ∀ x y, R x y → LayoutStep types R x y

/-- A type that is compared with what it points to. -/
def LooksThrough (a : T) : Prop := (types a).type = .array ∨ (types a).type = .pointer ∨ (types a).type = .const

/-- What two types point to, any number of times. -/
inductive PointTo (a b : T) : T → T → Prop
  | here : PointTo a b a b
  | step {x y x' y' : T} : PointTo a b x y → LooksThrough types x → (types x).pointedType = some x' →
    (types y).pointedType = some y' → PointTo a b x' y'

/-- What is not looked at: the offsets and the types of fields, and the length of a function type. -/
def ContentsAgree (x y : T) : Prop :=
  ((types x).type = .struct ∨ (types x).type = .union →
    List.Forall₂ (fun f g => f.name = g.name ∧ f.offset = g.offset ∧ LayoutIdentical types f.type g.type)
      (types x).fields (types y).fields) ∧
  ((types x).type = .subroutineType → (types x).length = (types y).length)

section
variable {types}

omit [DecidableEq T]

theorem rel_mono {R S : T → T → Prop} (h : ∀ x y, R x y → S x y) {x y : Option T} (hrel : Option.Rel R x y) :
    Option.Rel S x y := by
  cases hrel with
  | some hxy => exact .some (h _ _ hxy)
  | none => exact .none

theorem LayoutStep.mono {R S : T → T → Prop} (h : ∀ x y, R x y → S x y) {a b : T} (hstep : LayoutStep types R a b) :
    LayoutStep types S a b := by
  obtain ⟨htype, hlength, hparts⟩ := hstep
  refine ⟨htype, hlength, ?_⟩
  cases hkind : (types a).type with
  | struct =>
    rw [hkind] at hparts
    exact hparts.imp fun f g hfg => ⟨hfg.1, hfg.2.1, h _ _ hfg.2.2⟩
  | union =>
    rw [hkind] at hparts
    exact hparts.imp fun f g hfg => ⟨hfg.1, hfg.2.1, h _ _ hfg.2.2⟩
  | array =>
    rw [hkind] at hparts
    exact ⟨hparts.1, rel_mono h hparts.2⟩
  | pointer =>
    rw [hkind] at hparts
    exact rel_mono h hparts
  | const =>
    rw [hkind] at hparts
    exact rel_mono h hparts
  | _ => exact trivial

theorem LayoutIdentical.step {a b : T} (h : LayoutIdentical types a b) : LayoutStep types (LayoutIdentical types) a b := by
  obtain ⟨R, hab, hR⟩ := h
  exact (hR a b hab).mono fun x y hxy => ⟨R, hxy, hR⟩

/-- Identical layouts go on behind pointers. -/
theorem LayoutIdentical.pointTo {a b x y : T} (h : LayoutIdentical types a b) (hpoint : PointTo types a b x y) :
    LayoutIdentical types x y := by
  induction hpoint with
  | here => exact h
  | step _ hthrough hx hy ih =>
    rename_i x y x' y' _
    obtain ⟨-, -, hparts⟩ := ih.step
    have hrel : Option.Rel (LayoutIdentical types) (types x).pointedType (types y).pointedType := by
      rcases hthrough with hkind | hkind | hkind
      · rw [hkind] at hparts
        exact hparts.2
      · rw [hkind] at hparts
        exact hparts
      · rw [hkind] at hparts
        exact hparts
    rw [hx, hy] at hrel
    cases hrel with
    | some hrel => exact hrel

end

/-! ## What came out the same -/

/-- A pair that came out the same. -/
def Accepted (st : TypediffState T) (a b : T) : Prop := st.diffAgainst a = some b ∧ st.typediffStatus a = .same

/-- What the code looks at itself. -/
def LooksSame (a b : T) : Prop :=
  (types a).type = (types b).type ∧ ((types a).type ≠ .subroutineType → (types a).length = (types b).length) ∧
    ((types a).type = .array → (types a).bounds = (types b).bounds)

/-- What two types point to came out the same. -/
def PointedAccepted (st : TypediffState T) (a b : T) : Prop :=
  ∃ x y, (types a).pointedType = some x ∧ (types b).pointedType = some y ∧ Accepted st x y

structure Compared (st : TypediffState T) : Prop where
  untouched : ∀ a, st.diffAgainst a = none → st.typediffStatus a = .notDone
  looks : ∀ a b, Accepted st a b → LooksSame types a b
  pointed : ∀ a b, Accepted st a b → LooksThrough types a → PointedAccepted types st a b

/-- What had been compared stays as it was. -/
def Unchanged (st st' : TypediffState T) : Prop :=
  ∀ a b, st.diffAgainst a = some b → st'.diffAgainst a = some b ∧ st'.typediffStatus a = st.typediffStatus a

section
variable {types}

omit [DecidableEq T]

theorem Unchanged.refl (st : TypediffState T) : Unchanged st st := fun _ _ h => ⟨h, rfl⟩

theorem Unchanged.trans {st st1 st' : TypediffState T} (h : Unchanged st st1) (h' : Unchanged st1 st') :
    Unchanged st st' := by
  intro a b hab
  obtain ⟨hab1, hstatus1⟩ := h a b hab
  obtain ⟨hab', hstatus'⟩ := h' a b hab1
  exact ⟨hab', hstatus'.trans hstatus1⟩

theorem Unchanged.accepted {st st' : TypediffState T} (h : Unchanged st st') {a b : T} (hab : Accepted st a b) :
    Accepted st' a b := by
  obtain ⟨hdiff, hstatus⟩ := h a b hab.1
  exact ⟨hdiff, hstatus.trans hab.2⟩

theorem Unchanged.pointed {st st' : TypediffState T} (h : Unchanged st st') {a b : T} (hab : PointedAccepted types st a b) :
    PointedAccepted types st' a b := by
  obtain ⟨x, y, hx, hy, hxy⟩ := hab
  exact ⟨x, y, hx, hy, h.accepted hxy⟩

variable (types) in
/-- A computation that leaves what had been compared, and accounts for what it compares. -/
def Compares {α : Type} (x : TypediffM T α) : Prop :=
  ∀ st r st', Compared types st → x st = .ok r st' → Unchanged st st' ∧ Compared types st'

theorem compares_pure {α : Type} (r : α) : Compares types (pure r : TypediffM T α) := by
  intro st r' st' hst h
  obtain ⟨-, hst'⟩ := pure_ok.mp h
  rw [hst']
  exact ⟨.refl st, hst⟩

theorem compares_fault {α : Type} (f : Fault) : Compares types (fault f : TypediffM T α) := by
  intro st r st' hst h
  cases h

theorem compares_orFault {α : Type} (x : Except Fault α) : Compares types (orFault x : TypediffM T α) := by
  intro st r st' hst h
  obtain ⟨-, hst'⟩ := fromExcept_ok.mp h
  rw [hst']
  exact ⟨.refl st, hst⟩

theorem compares_get : Compares types (get : TypediffM T (TypediffState T)) := by
  intro st r st' hst h
  cases h
  exact ⟨.refl _, hst⟩

theorem Compares.bind {α β : Type} {x : TypediffM T α} {f : α → TypediffM T β} (hx : Compares types x)
    (hf : ∀ r, Compares types (f r)) : Compares types (x >>= f) := by
  intro st r st' hst h
  obtain ⟨r1, st1, h1, h2⟩ := run_bind_ok.mp h
  obtain ⟨hfirst, hst1⟩ := hx st r1 st1 hst h1
  obtain ⟨hsecond, hst'⟩ := hf r1 st1 r st' hst1 h2
  exact ⟨hfirst.trans hsecond, hst'⟩

/-- A transformer is not looked at. -/
theorem Compared.congr {st st' : TypediffState T} (hst : Compared types st) (hdiff : st'.diffAgainst = st.diffAgainst)
    (hstatus : st'.typediffStatus = st.typediffStatus) : Unchanged st st' ∧ Compared types st' := by
  have hsame : ∀ a b, Accepted st' a b ↔ Accepted st a b := by
    intro a b
    unfold Accepted
    rw [hdiff, hstatus]
  refine ⟨fun a b hab => ⟨by rw [hdiff]; exact hab, by rw [hstatus]⟩, ⟨?_, ?_, ?_⟩⟩
  · rw [hdiff, hstatus]
    exact hst.untouched
  · exact fun a b hab => hst.looks a b ((hsame a b).mp hab)
  · intro a b hab hthrough
    obtain ⟨x, y, hx, hy, hxy⟩ := hst.pointed a b ((hsame a b).mp hab) hthrough
    exact ⟨x, y, hx, hy, (hsame x y).mpr hxy⟩

variable (types) in
/-- What the recursion is used for. -/
structure Recurses (recur : T → T → TypediffM T Bool) : Prop where
  compares : ∀ a b, Compares types (recur a b)
  accepts : ∀ a b st st', Compared types st → recur a b st = .ok true st' → Accepted st' a b

variable {recur : T → T → TypediffM T Bool}

theorem comparePointed_compares (hrec : Recurses types recur) (a b : T) :
    Compares types (comparePointed types recur a b) := by
  unfold comparePointed
  cases (types a).pointedType with
  | none => exact compares_fault _
  | some pointed =>
    cases (types b).pointedType with
    | none => exact compares_fault _
    | some pointed' => exact hrec.compares pointed pointed'

theorem comparePointed_accepts (hrec : Recurses types recur) {a b : T} {st st' : TypediffState T} (hst : Compared types st)
    (h : comparePointed types recur a b st = .ok true st') : PointedAccepted types st' a b := by
  unfold comparePointed at h
  cases hx : (types a).pointedType with
  | none =>
    rw [hx] at h
    cases h
  | some x =>
    cases hy : (types b).pointedType with
    | none =>
      rw [hx, hy] at h
      cases h
    | some y =>
      rw [hx, hy] at h
      exact ⟨x, y, hx, hy, hrec.accepts x y st st' hst h⟩

theorem boundsUnchanged_true {l m : List (Int32 × Int32)} (hlength : l.length = m.length)
    (h : boundsUnchanged l m = .ok true) : l = m := by
  induction l generalizing m with
  | nil => exact (List.length_eq_zero_iff.mp hlength.symm).symm
  | cons x l ih =>
    cases m with
    | nil => cases hlength
    | cons y m =>
      unfold boundsUnchanged at h
      split at h
      · cases h
      · rename_i hlower
        split at h
        · cases h
        · rename_i hupper
          rw [ih (Nat.succ_injective hlength) h, Prod.ext (not_not.mp hlower) (not_not.mp hupper)]

theorem compareContents_compares (hrec : Recurses types recur) (a b : T) (retval : Bool) :
    Compares types (compareContents types recur a b retval) := by
  unfold compareContents
  cases (types a).type with
  | array =>
    dsimp only
    split
    · exact compares_fault _
    · exact (compares_orFault _).bind fun bounds => (comparePointed_compares hrec a b).bind fun pointed => compares_pure _
  | pointer => exact (comparePointed_compares hrec a b).bind fun pointed => compares_pure _
  | const => exact (comparePointed_compares hrec a b).bind fun pointed => compares_pure _
  | _ => exact compares_pure _

/-- Contents that are the same, and the part of them that is behind a pointer. -/
theorem compareContents_true (hrec : Recurses types recur) {a b : T} {retval : Bool} {st st' : TypediffState T}
    (hst : Compared types st) (h : compareContents types recur a b retval st = .ok true st') :
    ((types a).type ≠ .subroutineType → retval = true) ∧ ((types a).type = .array → (types a).bounds = (types b).bounds) ∧
      (LooksThrough types a → PointedAccepted types st' a b) := by
  unfold compareContents at h
  unfold LooksThrough
  cases hkind : (types a).type with
  | array =>
    rw [hkind] at h
    dsimp only at h
    split at h
    · cases h
    · rename_i hdepth
      obtain ⟨bounds, st1, hbounds, h⟩ := run_bind_ok.mp h
      obtain ⟨pointed, st2, hpointed, h⟩ := run_bind_ok.mp h
      obtain ⟨hbounds, hst1⟩ := fromExcept_ok.mp hbounds
      obtain ⟨hall, hst'⟩ := pure_ok.mp h
      simp only [Bool.true_eq, Bool.and_eq_true] at hall
      obtain ⟨⟨hretval, hbounds'⟩, hpointed'⟩ := hall
      rw [hbounds'] at hbounds
      rw [hpointed', ← hst', hst1] at hpointed
      have hsame : boundsUnchanged (types a).bounds (types b).bounds = .ok true := by
        cases hb : boundsUnchanged (types a).bounds (types b).bounds with
        | error e =>
          rw [hb] at hbounds
          cases hbounds
        | ok same =>
          rw [hb] at hbounds
          exact congrArg _ (Except.ok.inj hbounds)
      exact ⟨fun _ => hretval, fun _ => boundsUnchanged_true (not_not.mp hdepth) hsame,
        fun _ => comparePointed_accepts hrec hst hpointed⟩
  | pointer =>
    rw [hkind] at h
    obtain ⟨pointed, st1, hpointed, h⟩ := run_bind_ok.mp h
    obtain ⟨hall, hst'⟩ := pure_ok.mp h
    simp only [Bool.true_eq, Bool.and_eq_true] at hall
    rw [hall.2, ← hst'] at hpointed
    exact ⟨fun _ => hall.1, nofun, fun _ => comparePointed_accepts hrec hst hpointed⟩
  | const =>
    rw [hkind] at h
    obtain ⟨pointed, st1, hpointed, h⟩ := run_bind_ok.mp h
    obtain ⟨hall, hst'⟩ := pure_ok.mp h
    simp only [Bool.true_eq, Bool.and_eq_true] at hall
    rw [hall.2, ← hst'] at hpointed
    exact ⟨fun _ => hall.1, nofun, fun _ => comparePointed_accepts hrec hst hpointed⟩
  | subroutineType => exact ⟨fun hne => absurd rfl hne, nofun, by simp⟩
  | struct =>
    rw [hkind] at h
    obtain ⟨hall, -⟩ := pure_ok.mp h
    simp only [Bool.true_eq, Bool.and_eq_true] at hall
    exact ⟨fun _ => hall.1, nofun, by simp⟩
  | union =>
    rw [hkind] at h
    obtain ⟨hall, -⟩ := pure_ok.mp h
    simp only [Bool.true_eq, Bool.and_eq_true] at hall
    exact ⟨fun _ => hall.1, nofun, by simp⟩
  | _ =>
    rw [hkind] at h
    obtain ⟨hretval, -⟩ := pure_ok.mp h
    exact ⟨fun _ => hretval.symm, nofun, by simp⟩

end

section
variable {types} {recur : T → T → TypediffM T Bool}

omit [DecidableEq T] in
theorem pointedTransform_compares (hrec : Recurses types recur) (old new : T) :
    Compares types (pointedTransform types recur old new) := by
  unfold pointedTransform
  cases (types old).pointedType with
  | none => exact compares_fault _
  | some pointed =>
    cases (types new).pointedType with
    | none => exact compares_fault _
    | some pointed' =>
      refine (hrec.compares pointed pointed').bind fun same => compares_get.bind fun st => ?_
      cases st.transformer pointed with
      | none => exact compares_pure _
      | some transform => exact compares_pure _

omit [DecidableEq T] in
theorem fieldTransformType_compares (hrec : Recurses types recur) (old new : T) :
    Compares types (fieldTransformType types recur old new) := by
  unfold fieldTransformType
  cases (types old).type with
  | pointer => exact pointedTransform_compares hrec old new
  | const => exact pointedTransform_compares hrec old new
  | base => exact compares_pure _
  | enum => exact compares_pure _
  | struct => exact compares_pure _
  | union => exact compares_pure _
  | _ => exact compares_fault _

theorem checkTransformer_compares (old new : T) : Compares types (checkTransformer old new) := by
  refine compares_get.bind fun st => ?_
  cases st.transformer old with
  | none => exact compares_pure _
  | some transform =>
    dsimp only
    split
    · exact compares_fault _
    · split
      · exact compares_fault _
      · exact compares_pure _

omit [DecidableEq T] in
theorem recurseIntoField_compares (hrec : Recurses types recur) (a old new : T) :
    Compares types (recurseIntoField types recur a old new) := by
  refine (hrec.compares old new).bind fun same => compares_get.bind fun st => ?_
  split
  · exact compares_pure _
  · split
    · exact compares_pure _
    · split
      · exact compares_fault _
      · exact compares_pure _

theorem fieldTransform_compares (hrec : Recurses types recur) (a b : T) (field : TypeField T) :
    Compares types (fieldTransform types recur a b field) := by
  unfold fieldTransform
  cases (getIndexForField (types b) field.name).bind ((types b).fields[·]?) with
  | none => exact compares_fault _
  | some fieldNew =>
    dsimp only
    split
    · exact compares_pure _
    · refine (fieldTransformType_compares hrec _ _).bind fun how => ?_
      cases how with
      | none => exact compares_pure _
      | some transformType =>
        refine (checkTransformer_compares _ _).bind fun _ => ?_
        split
        · exact (recurseIntoField_compares hrec _ _ _).bind fun transformable => compares_pure _
        · exact (compares_pure _).bind fun transformable => compares_pure _

theorem setTransformer_compares (a : T) (f : TypeTransform T → TypeTransform T) : Compares types (setTransformer a f) := by
  intro st r st' hst h
  cases h
  exact hst.congr rfl rfl

theorem transformFields_compares (hrec : Recurses types recur) (a b : T) (fields : List (TypeField T)) :
    Compares types (transformFields types recur a b fields) := by
  induction fields with
  | nil => exact compares_pure _
  | cons field fields ih =>
    refine (fieldTransform_compares hrec a b field).bind fun x => ?_
    cases x with
    | none => exact (setTransformer_compares _ _).bind fun _ => compares_pure _
    | some x => exact (setTransformer_compares _ _).bind fun _ => ih

theorem transformFields_false {a b : T} {fields : List (TypeField T)} {st st' : TypediffState T}
    (h : transformFields types recur a b fields st = .ok true st') : False := by
  induction fields generalizing st with
  | nil =>
    obtain ⟨hfalse, -⟩ := pure_ok.mp h
    cases hfalse
  | cons field fields ih =>
    obtain ⟨x, st1, -, h⟩ := run_bind_ok.mp h
    cases x with
    | none =>
      obtain ⟨-, st2, -, h⟩ := run_bind_ok.mp h
      obtain ⟨hfalse, -⟩ := pure_ok.mp h
      cases hfalse
    | some x =>
      obtain ⟨-, st2, -, h⟩ := run_bind_ok.mp h
      exact ih h

/-! ## One comparison -/

/-- A type whose comparison has begun: it is not accepted, whatever it is compared with. -/
theorem Compared.begin {st : TypediffState T} (hst : Compared types st) {a b : T} (hnew : st.diffAgainst a = none) :
    Unchanged st { st with diffAgainst := Function.update st.diffAgainst a (some b) } ∧
      Compared types { st with diffAgainst := Function.update st.diffAgainst a (some b) } := by
  have hsame : ∀ x y, Accepted { st with diffAgainst := Function.update st.diffAgainst a (some b) } x y ↔
    Accepted st x y := by
    intro x y
    unfold Accepted
    by_cases hx : x = a
    · have hnot := hst.untouched a hnew
      rw [hx]
      simp [hnew, hnot]
    · simp [Function.update_of_ne hx]
  refine ⟨?_, ⟨?_, ?_, ?_⟩⟩
  · intro x y hxy
    have hx : x ≠ a := by
      intro heq
      rw [heq, hnew] at hxy
      cases hxy
    exact ⟨by simp [Function.update_of_ne hx, hxy], rfl⟩
  · intro x hnone
    by_cases hx : x = a
    · rw [hx]
      exact hst.untouched a hnew
    · have hother : Function.update st.diffAgainst a (some b) x = none := hnone
      rw [Function.update_of_ne hx] at hother
      exact hst.untouched x hother
  · exact fun x y hxy => hst.looks x y ((hsame x y).mp hxy)
  · intro x y hxy hthrough
    obtain ⟨x', y', hx', hy', hxy'⟩ := hst.pointed x y ((hsame x y).mp hxy) hthrough
    exact ⟨x', y', hx', hy', (hsame x' y').mpr hxy'⟩

/-- A comparison that has begun comes to an end: with a pair that is accounted for, or with one that is not accepted. -/
theorem Compared.finish {st : TypediffState T} (hst : Compared types st) {a b : T} {status : TypediffStatus}
    {transformer : T → Option (TypeTransform T)} (hbegun : st.diffAgainst a = some b) (hnot : st.typediffStatus a = .notDone)
    (hlooks : status = .same → LooksSame types a b)
    (hpointed : status = .same → LooksThrough types a → PointedAccepted types st a b) :
    Compared types { st with typediffStatus := Function.update st.typediffStatus a status, transformer } := by
  -- the pairs there were are those of other types
  have hold : ∀ x y, Accepted st x y →
    Accepted { st with typediffStatus := Function.update st.typediffStatus a status, transformer } x y := by
    intro x y hxy
    have hx : x ≠ a := by
      intro heq
      rw [heq] at hxy
      rw [hxy.2] at hnot
      cases hnot
    exact ⟨hxy.1, by simp [Function.update_of_ne hx, hxy.2]⟩
  have hnew : ∀ x y, Accepted { st with typediffStatus := Function.update st.typediffStatus a status, transformer } x y →
      Accepted st x y ∨ x = a ∧ y = b ∧ status = .same := by
    intro x y hxy
    by_cases hx : x = a
    · subst hx
      have hstatus := hxy.2
      simp only [Function.update_self] at hstatus
      have hdiff : st.diffAgainst x = some y := hxy.1
      rw [hbegun] at hdiff
      exact .inr ⟨rfl, (Option.some.inj hdiff).symm, hstatus⟩
    · have hstatus := hxy.2
      simp only [Function.update_of_ne hx] at hstatus
      exact .inl ⟨hxy.1, hstatus⟩
  refine ⟨?_, ?_, ?_⟩
  · intro x hnone
    have hx : x ≠ a := by
      intro heq
      rw [heq] at hnone
      rw [show st.diffAgainst a = none from hnone] at hbegun
      cases hbegun
    show Function.update st.typediffStatus a status x = _
    rw [Function.update_of_ne hx]
    exact hst.untouched x hnone
  · intro x y hxy
    rcases hnew x y hxy with hxy | ⟨hx, hy, hstatus⟩
    · exact hst.looks x y hxy
    · rw [hx, hy]
      exact hlooks hstatus
  · intro x y hxy hthrough
    rcases hnew x y hxy with hxy | ⟨hx, hy, hstatus⟩
    · obtain ⟨x', y', hx', hy', hxy'⟩ := hst.pointed x y hxy hthrough
      exact ⟨x', y', hx', hy', hold x' y' hxy'⟩
    · rw [hx] at hthrough
      obtain ⟨x', y', hx', hy', hxy'⟩ := hpointed hstatus hthrough
      rw [hx, hy]
      exact ⟨x', y', hx', hy', hold x' y' hxy'⟩

/-- **A comparison accounts for every pair that comes out the same**: the pair itself agrees in what is looked at, and what
it points to came out the same before it. -/
theorem compare_accounted (fuel : Nat) : Recurses types (compareTypesAndGenTransforms types fuel) := by
  suffices hall : ∀ a b st r st', Compared types st → compareTypesAndGenTransforms types fuel a b st = .ok r st' →
      Unchanged st st' ∧ Compared types st' ∧ (r = true → Accepted st' a b) from
    ⟨fun a b st r st' hst h => ⟨(hall a b st r st' hst h).1, (hall a b st r st' hst h).2.1⟩,
      fun a b st st' hst h => (hall a b st true st' hst h).2.2 rfl⟩
  induction fuel with
  | zero =>
    intro a b st r st' hst h
    cases h
  | succ fuel ih =>
    have hrec : Recurses types (compareTypesAndGenTransforms types fuel) :=
      ⟨fun a b st r st' hst h => ⟨(ih a b st r st' hst h).1, (ih a b st r st' hst h).2.1⟩,
        fun a b st st' hst h => (ih a b st true st' hst h).2.2 rfl⟩
    intro a b st r st' hst h
    unfold compareTypesAndGenTransforms at h
    rw [run_bind_of_ok (get_run st)] at h
    by_cases hkind : (types a).type = (types b).type
    · rw [if_neg (not_not.mpr hkind)] at h
      cases hdiff : st.diffAgainst a with
      | some diffAgainst =>
        rw [hdiff] at h
        dsimp only at h
        split at h
        · cases h
        · rename_i hdone
          split at h
          · cases h
          · rename_i hagainst
            obtain ⟨hr, hst'⟩ := pure_ok.mp h
            rw [hst']
            refine ⟨.refl st, hst, ?_⟩
            intro htrue
            rw [htrue] at hr
            refine ⟨by rw [hdiff, not_not.mp hagainst], ?_⟩
            cases hstatus : st.typediffStatus a with
            | same => rfl
            | differed => simp [hstatus] at hr
            | notDone => exact absurd hstatus hdone
      | none =>
        rw [hdiff] at h
        dsimp only at h
        rw [run_bind_of_ok (modify_run _ _)] at h
        obtain ⟨hbegin, hst1⟩ := hst.begin (b := b) hdiff
        obtain ⟨retval, st2, hcontents, h⟩ := run_bind_ok.mp h
        obtain ⟨hkept, hst2⟩ := compareContents_compares hrec a b _ _ _ _ hst1 hcontents
        obtain ⟨hbegun, hstatus⟩ := hkept a b (by simp)
        have hnot : st2.typediffStatus a = .notDone := hstatus.trans (hst.untouched a hdiff)
        -- what ends the comparison leaves the other types alone
        have hend : ∀ status transformer, Unchanged st
            { st2 with typediffStatus := Function.update st2.typediffStatus a status, transformer } := by
          intro status transformer x y hxy
          have hx : x ≠ a := by
            intro heq
            rw [heq, hdiff] at hxy
            cases hxy
          obtain ⟨hdiff2, hstatus2⟩ := hbegin.trans hkept x y hxy
          exact ⟨hdiff2, by simp [Function.update_of_ne hx, hstatus2]⟩
        cases retval with
        | true =>
          rw [if_pos rfl, run_bind_of_ok (modify_run _ _)] at h
          obtain ⟨hr, hst'⟩ := pure_ok.mp h
          obtain ⟨houtside, hbounds, hpointed⟩ := compareContents_true hrec hst1 hcontents
          have hlooks : LooksSame types a b := by
            refine ⟨hkind, ?_, hbounds⟩
            intro hsub
            exact (of_decide_eq_true (houtside hsub)).2.2
          rw [hst']
          refine ⟨hend _ _, hst2.finish hbegun hnot (fun _ => hlooks) fun _ => hpointed, fun _ => ⟨hbegun, by simp⟩⟩
        | false =>
          rw [if_neg Bool.false_ne_true] at h
          unfold genTransform at h
          rw [run_bind_of_ok (modify_run _ _)] at h
          obtain ⟨hkept', hst'⟩ := transformFields_compares hrec a b _ _ _ _ (hst2.finish hbegun hnot (by simp) (by simp)) h
          refine ⟨(hend _ _).trans hkept', hst', ?_⟩
          intro htrue
          rw [htrue] at h
          exact (transformFields_false h).elim
    · rw [if_pos hkind] at h
      obtain ⟨hr, hst'⟩ := pure_ok.mp h
      rw [hst', hr]
      exact ⟨.refl st, hst, nofun⟩

/-! ## Any number of comparisons -/

variable (types) in
/-- The states a patch is generated through: nothing is compared, and then one pair after the other. -/
inductive TypediffRun : TypediffState T → Prop
  | fresh : TypediffRun .fresh
  | compare {st st' : TypediffState T} {fuel : Nat} {a b : T} {r : Bool} :
    TypediffRun st → compareTypesAndGenTransforms types fuel a b st = .ok r st' → TypediffRun st'

theorem TypediffRun.compared {st : TypediffState T} (h : TypediffRun types st) : Compared types st := by
  induction h with
  | fresh =>
    have hnone : ∀ a b : T, ¬ Accepted .fresh a b := by
      intro a b hab
      cases hab.1
    exact ⟨fun a _ => rfl, fun a b hab => absurd hab (hnone a b), fun a b hab => absurd hab (hnone a b)⟩
  | compare _ hcompare ih => exact ((compare_accounted _).compares _ _ _ _ _ ih hcompare).2

omit [DecidableEq T] in
/-- What types that came out the same point to came out the same. -/
theorem PointTo.accepted {st : TypediffState T} (hst : Compared types st) {a b x y : T} (hab : Accepted st a b)
    (h : PointTo types a b x y) : Accepted st x y := by
  induction h with
  | here => exact hab
  | step _ hthrough hx hy ih =>
    obtain ⟨x', y', hx', hy', hxy'⟩ := hst.pointed _ _ ih hthrough
    rw [hx] at hx'
    rw [hy] at hy'
    cases hx'
    cases hy'
    exact hxy'

/-- **Types that come out the same are of one layout exactly when what they point to is where the code does not look**:
the offsets and the layouts of fields, and the lengths of function types. -/
theorem compareTypes_iff {st st' : TypediffState T} {fuel : Nat} {a b : T} (hrun : TypediffRun types st)
    (h : compareTypesAndGenTransforms types fuel a b st = .ok true st') :
    LayoutIdentical types a b ↔ ∀ x y, PointTo types a b x y → ContentsAgree types x y := by
  have hst' : Compared types st' := (hrun.compare h).compared
  have hab : Accepted st' a b := (compare_accounted fuel).accepts a b st st' hrun.compared h
  refine ⟨?_, ?_⟩
  · intro hsame x y hpoint
    obtain ⟨-, hlength, hparts⟩ := (hsame.pointTo hpoint).step
    refine ⟨?_, fun _ => hlength⟩
    intro hkind
    rcases hkind with hkind | hkind
    · rw [hkind] at hparts
      exact hparts
    · rw [hkind] at hparts
      exact hparts
  · intro hagree
    refine ⟨fun x y => PointTo types a b x y ∨ LayoutIdentical types x y, .inl .here, ?_⟩
    intro x y hxy
    rcases hxy with hpoint | hsame
    · have haccepted := hpoint.accepted hst' hab
      obtain ⟨htype, hlength, hbounds⟩ := hst'.looks x y haccepted
      obtain ⟨hfields, hfunction⟩ := hagree x y hpoint
      have hpointed : LooksThrough types x → Option.Rel (fun x y => PointTo types a b x y ∨ LayoutIdentical types x y)
          (types x).pointedType (types y).pointedType := by
        intro hthrough
        obtain ⟨x', y', hx, hy, -⟩ := hst'.pointed x y haccepted hthrough
        rw [hx, hy]
        exact .some (.inl (.step hpoint hthrough hx hy))
      have hall : (types x).type = .struct ∨ (types x).type = .union →
          List.Forall₂ (fun f g => f.name = g.name ∧ f.offset = g.offset ∧
            (PointTo types a b f.type g.type ∨ LayoutIdentical types f.type g.type)) (types x).fields (types y).fields :=
        fun hkind => (hfields hkind).imp fun f g hfg => ⟨hfg.1, hfg.2.1, .inr hfg.2.2⟩
      have hsize : (types x).length = (types y).length := by
        by_cases hsub : (types x).type = .subroutineType
        · exact hfunction hsub
        · exact hlength hsub
      refine ⟨htype, hsize, ?_⟩
      cases hkind : (types x).type with
      | struct => exact hall (.inl hkind)
      | union => exact hall (.inr hkind)
      | array => exact ⟨hbounds hkind, hpointed (.inl hkind)⟩
      | pointer => exact hpointed (.inr (.inl hkind))
      | const => exact hpointed (.inr (.inr hkind))
      | _ => exact trivial
    · exact hsame.step.mono fun _ _ h => .inr h

end

/-! ## Two structs -/

/-- Two structs of an int, the second's at another offset, and the int. -/
def structPair (offset : Int32) : Nat → TypeInfo Nat
  | 0 => ⟨"counter", .struct, 8, [⟨"value", 4, 2⟩], none, []⟩
  | 1 => ⟨"counter", .struct, 8, [⟨"value", offset, 2⟩], none, []⟩
  | _ => ⟨"int", .base, 4, [], none, []⟩

/-- They come out the same. -/
theorem structPair_same (offset : Int32) :
    ∃ st', compareTypesAndGenTransforms (structPair offset) 1 0 1 .fresh = .ok true st' := ⟨_, rfl⟩

theorem structPair_identical : LayoutIdentical (structPair 4) 0 1 := by
  obtain ⟨st', h⟩ := structPair_same 4
  refine (compareTypes_iff .fresh h).mpr ?_
  intro x y hpoint
  have hhere : x = 0 ∧ y = 1 := by
    induction hpoint with
    | here => exact ⟨rfl, rfl⟩
    | step _ hthrough _ _ ih =>
      rw [ih.1] at hthrough
      rcases hthrough with hkind | hkind | hkind
      · cases hkind
      · cases hkind
      · cases hkind
  rw [hhere.1, hhere.2]
  refine ⟨fun _ => ?_, nofun⟩
  refine .cons ⟨rfl, rfl, ?_⟩ .nil
  exact ⟨fun x y => x = 2 ∧ y = 2, ⟨rfl, rfl⟩, fun x y hxy => by rw [hxy.1, hxy.2]; exact ⟨rfl, rfl, trivial⟩⟩

/-- A field at another offset. -/
theorem not_layoutIdentical : ¬ ∀ (types : Nat → TypeInfo Nat) (fuel a b : Nat) (st' : TypediffState Nat),
    compareTypesAndGenTransforms types fuel a b .fresh = .ok true st' → LayoutIdentical types a b := by
  intro h
  obtain ⟨st', hsame⟩ := structPair_same 0
  obtain ⟨-, -, hfields⟩ := (h _ _ _ _ _ hsame).step
  have hoffset : (4 : Int32) = 0 := by
    cases hfields with
    | cons hfield _ => exact hfield.2.1
  exact absurd hoffset (by decide)

end Katana
