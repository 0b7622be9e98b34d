/-
  Katana.ArrayTypes — the length of an array type (readAttributeAsInt, getRangeFromDie and
  addArrayTypeFromDie in dwarftypes.c).

  The bounds are inclusive, one pair for each subrange below the DIE. The length adds up the element's
  length times the difference of each pair, in ints, where overflow is undefined.

  Proved, for every array DIE that can be read:
  - `arrayLength_iff`: the length is that sum, if no int overflows.
  - `sum_differences_iff`: when the sum of the differences is the product of the extents.
  - `arrayRight_iff`: the length is that of the elements exactly if these are empty, or the array is and
    the differences cancel.
-/
import Mathlib.Algebra.BigOperators.Group.List.Basic
import Mathlib.Algebra.BigOperators.Ring.List
import Mathlib.Algebra.Order.BigOperators.Group.List
import Mathlib.Tactic.Linarith
import Katana.TransformWriter

namespace Katana

open Lib

/-! ## Attributes -/

inductive DwForm where
  | data1 | data2 | data4 | flag | flagPresent
  | other (form : Nat)
  deriving DecidableEq, Repr

/-- The form of an attribute, and the value that libdwarf gives for it. -/
structure DwAttribute where
  form : DwForm
  data : UInt64
  deriving DecidableEq, Repr

def readAttributeAsInt (attr : DwAttribute) : Except Fault Int32 :=
  match attr.form with
  | .data1 | .data2 | .data4 => .ok attr.data.toUInt32.toInt32
  | .flag => .ok (if attr.data = 0 then 0 else 1)
  | .flagPresent => .ok 1
  -- `death(NULL)`
  | .other _ => .error (.death "")

/-! ## getRangeFromDie -/

structure ArrayChild where
  isSubrange : Bool
  lowerBound : Option DwAttribute
  upperBound : Option DwAttribute
  deriving DecidableEq, Repr

/-- A bound that is not given is 0. -/
def readBound : Option DwAttribute → Except Fault Int32
  | some attr => readAttributeAsInt attr
  | none => .ok 0

/-- The lower and the upper bounds, of as many levels. Children of another kind are passed over. -/
def getRangeFromDie (children : List ArrayChild) : Except Fault (List (Int32 × Int32)) :=
  (children.filter ArrayChild.isSubrange).mapM fun child => do
    let lower ← readBound child.lowerBound
    let upper ← readBound child.upperBound
    .ok (lower, upper)

/-! ## addArrayTypeFromDie -/

def FitsInt (z : Int) : Prop := -2 ^ 31 ≤ z ∧ z < 2 ^ 31

instance (z : Int) : Decidable (FitsInt z) := inferInstanceAs (Decidable (_ ∧ _))

def intResult (z : Int) : Except Fault Int := do
  defined (FitsInt z)
  .ok z

/-- `type->length+=type->pointedType->length*(type->upperBounds[i]-type->lowerBounds[i])`. -/
def addLevel (elementLength : Int32) (length : Int) (bounds : Int32 × Int32) : Except Fault Int := do
  let difference ← intResult (bounds.2.toInt - bounds.1.toInt)
  let size ← intResult (elementLength.toInt * difference)
  intResult (length + size)

def arrayLength (elementLength : Int32) (bounds : List (Int32 × Int32)) : Except Fault Int :=
  bounds.foldlM (addLevel elementLength) 0

structure ArrayDie (T : Type) where
  name : String
  pointedType : Option T
  children : List ArrayChild
  mipsFde : Option DwAttribute

/-- With the `fde` that is to transform it. -/
structure ArrayType (T : Type) extends TypeInfo T where
  fde : Int32

variable {T : Type}

def addArrayTypeFromDie (types : T → TypeInfo T) (die : ArrayDie T) : Except Fault (ArrayType T) := do
  match die.pointedType with
  | none => .error (.death "ERROR: cannot add array with no type\n")
  | some pointedType =>
    let bounds ← getRangeFromDie die.children
    let length ← arrayLength (types pointedType).length bounds
    let fde ← readBound die.mipsFde
    .ok { name := die.name, type := .array, length := Int32.ofInt length, fields := [], pointedType := some pointedType,
          bounds := bounds, fde := fde }

/-! ## What is computed -/

def differences (bounds : List (Int32 × Int32)) : List Int := bounds.map fun b => b.2.toInt - b.1.toInt

/-- The numbers of elements, from the lower bounds to the upper ones. -/
def extents (bounds : List (Int32 × Int32)) : List Int := bounds.map fun b => b.2.toInt - b.1.toInt + 1

/-- Every int on the way from `length` on is one. -/
def IntsFit (elementLength : Int) : Int → List Int → Prop
  | _, [] => True
  | length, d :: ds => FitsInt d ∧ FitsInt (elementLength * d) ∧ FitsInt (length + elementLength * d) ∧
      IntsFit elementLength (length + elementLength * d) ds

instance decidableIntsFit (elementLength : Int) :
    ∀ (length : Int) (ds : List Int), Decidable (IntsFit elementLength length ds)
  | _, [] => isTrue trivial
  | length, d :: ds =>
    have := decidableIntsFit elementLength (length + elementLength * d) ds
    inferInstanceAs (Decidable (_ ∧ _))

theorem intResult_iff (z r : Int) : intResult z = .ok r ↔ FitsInt z ∧ r = z := by
  unfold intResult
  by_cases h : FitsInt z
  · rw [defined_of h, bind_ok]
    constructor
    · intro hr
      exact ⟨h, (Except.ok.inj hr).symm⟩
    · rintro ⟨-, rfl⟩
      rfl
  · rw [defined_not h, bind_error]
    exact iff_of_false (fun hr => by cases hr) (fun hr => h hr.1)

theorem addLevel_iff (elementLength : Int32) (length : Int) (bounds : Int32 × Int32) (r : Int) :
    addLevel elementLength length bounds = .ok r ↔
      FitsInt (bounds.2.toInt - bounds.1.toInt) ∧ FitsInt (elementLength.toInt * (bounds.2.toInt - bounds.1.toInt)) ∧
      FitsInt (length + elementLength.toInt * (bounds.2.toInt - bounds.1.toInt)) ∧
      r = length + elementLength.toInt * (bounds.2.toInt - bounds.1.toInt) := by
  unfold addLevel
  constructor
  · intro h
    obtain ⟨d, hd, h⟩ := bind_eq_ok.mp h
    obtain ⟨s, hs, h⟩ := bind_eq_ok.mp h
    obtain ⟨hfits, rfl⟩ := (intResult_iff _ _).mp hd
    obtain ⟨hsize, rfl⟩ := (intResult_iff _ _).mp hs
    obtain ⟨hsum, rfl⟩ := (intResult_iff _ _).mp h
    exact ⟨hfits, hsize, hsum, rfl⟩
  · rintro ⟨hfits, hsize, hsum, rfl⟩
    rw [(intResult_iff _ _).mpr ⟨hfits, rfl⟩, bind_ok, (intResult_iff _ _).mpr ⟨hsize, rfl⟩, bind_ok]
    exact (intResult_iff _ _).mpr ⟨hsum, rfl⟩

/-- **The differences are added up**, if all of it fits ints. -/
theorem arrayLength_iff (elementLength : Int32) (bounds : List (Int32 × Int32)) (length r : Int) :
    bounds.foldlM (addLevel elementLength) length = .ok r ↔
      IntsFit elementLength.toInt length (differences bounds) ∧
        r = length + elementLength.toInt * (differences bounds).sum := by
  induction bounds generalizing length with
  | nil =>
    show (Except.ok length : Except Fault Int) = _ ↔ _
    simp [differences, IntsFit, eq_comm]
  | cons b bounds ih =>
    rw [List.foldlM_cons, bind_eq_ok]
    simp only [differences, List.map_cons, List.sum_cons, IntsFit] at ih ⊢
    constructor
    · rintro ⟨l, hl, hrest⟩
      obtain ⟨hfits, hsize, hsum, rfl⟩ := (addLevel_iff _ _ _ _).mp hl
      obtain ⟨hints, rfl⟩ := (ih _).mp hrest
      exact ⟨⟨hfits, hsize, hsum, hints⟩, by ring⟩
    · rintro ⟨⟨hfits, hsize, hsum, hints⟩, rfl⟩
      exact ⟨_, (addLevel_iff _ _ _ _).mpr ⟨hfits, hsize, hsum, rfl⟩, (ih _).mpr ⟨hints, by ring⟩⟩

/-- Whatever fits before the last sum, the sum does. -/
theorem IntsFit.fits {elementLength length : Int} {ds : List Int} (h : IntsFit elementLength length ds)
    (hlength : FitsInt length) : FitsInt (length + elementLength * ds.sum) := by
  induction ds generalizing length with
  | nil => simpa using hlength
  | cons d ds ih =>
    obtain ⟨-, -, hsum, hrest⟩ := h
    have := ih hrest hsum
    rwa [List.sum_cons, mul_add, ← add_assoc]

/-! ## Sum and product -/

/-- Where no dimension is empty, the product of the extents is greater than the sum of the differences. -/
theorem sum_lt_prod {ds : List Int} (h : ∀ d ∈ ds, 0 ≤ d) : ds.sum < (ds.map (· + 1)).prod := by
  induction ds with
  | nil => simp
  | cons d ds ih =>
    have hd : 0 ≤ d := h d List.mem_cons_self
    have hds : ∀ x ∈ ds, 0 ≤ x := fun x hx => h x (List.mem_cons_of_mem _ hx)
    have hsum : 0 ≤ ds.sum := List.sum_nonneg hds
    have hprod := ih hds
    rw [List.sum_cons, List.map_cons, List.prod_cons]
    nlinarith

/-- The sum of the differences is the product of the extents only where both are zero. -/
theorem sum_differences_iff {ds : List Int} (h : ∀ d ∈ ds, -1 ≤ d) :
    ds.sum = (ds.map (· + 1)).prod ↔ -1 ∈ ds ∧ ds.sum = 0 := by
  by_cases hempty : -1 ∈ ds
  · have hzero : (0 : Int) ∈ ds.map (· + 1) := List.mem_map.mpr ⟨-1, hempty, rfl⟩
    rw [List.prod_eq_zero hzero]
    exact (and_iff_right hempty).symm
  · have hnonneg : ∀ d ∈ ds, 0 ≤ d := by
      intro d hd
      have hne : d ≠ -1 := fun heq => hempty (heq ▸ hd)
      have hle := h d hd
      omega
    exact iff_of_false (sum_lt_prod hnonneg).ne (fun hboth => hempty hboth.1)

/-! ## The length of an array -/

/-- The length is that of all elements, and a straight copy of the array copies as many bytes. -/
def ArrayRight (types : T → TypeInfo T) (die : ArrayDie T) (pointedType : T) (bounds : List (Int32 × Int32)) : Prop :=
  ∃ type, addArrayTypeFromDie types die = .ok type ∧
    type.length.toInt = (types pointedType).length.toInt * (extents bounds).prod ∧
    ∀ (g : TransformGraph T) (a : T) (transform : TypeTransform T) (steps : List (TransformStep T)),
      g.types a = type.toTypeInfo → transform.straightCopy = true → transformSteps g a transform = .ok steps →
        ∃ arg1Bytes, steps = [.register arg1Bytes
          (shortReg false (Int32.ofInt ((types pointedType).length.toInt * (extents bounds).prod)))]

theorem addArray_iff {types : T → TypeInfo T} {die : ArrayDie T} {pointedType : T} {bounds : List (Int32 × Int32)}
    {fde : Int32}
    (hpointed : die.pointedType = some pointedType) (hrange : getRangeFromDie die.children = .ok bounds)
    (hfde : readBound die.mipsFde = .ok fde) (type : ArrayType T) :
    addArrayTypeFromDie types die = .ok type ↔ ∃ length, arrayLength (types pointedType).length bounds = .ok length ∧
      type = { name := die.name, type := .array, length := Int32.ofInt length, fields := [], pointedType := some pointedType,
               bounds := bounds, fde := fde } := by
  unfold addArrayTypeFromDie
  rw [hpointed]
  dsimp only
  rw [hrange, bind_ok, bind_eq_ok]
  refine exists_congr fun length => and_congr_right fun _ => ?_
  rw [hfde, bind_ok]
  constructor
  · intro h
    exact (Except.ok.inj h).symm
  · rintro rfl
    rfl

theorem toInt_ofInt_of_fits {z : Int} (h : FitsInt z) : (Int32.ofInt z).toInt = z := by
  obtain ⟨hlo, hhi⟩ := h
  rw [Int32.toInt_ofInt]
  exact Int.bmod_eq_of_le (by norm_num; omega) (by norm_num; omega)

theorem straightCopy_steps {g : TransformGraph T} {a : T} {transform : TypeTransform T} {steps : List (TransformStep T)}
    (hcopy : transform.straightCopy = true) (h : transformSteps g a transform = .ok steps) :
    steps = [.register (shortReg true (g.types transform.toType).length) (shortReg false (g.types a).length)] := by
  unfold transformSteps at h
  rw [if_pos hcopy] at h
  obtain ⟨-, -, h⟩ := bind_eq_ok.mp h
  exact (Except.ok.inj h).symm

/-- **The length is right** exactly if all ints fit and either an element has no length, or a dimension is empty and the
differences add up to nothing. -/
theorem arrayRight_iff (types : T → TypeInfo T) (die : ArrayDie T) (pointedType : T) (bounds : List (Int32 × Int32))
    (fde : Int32)
    (hpointed : die.pointedType = some pointedType) (hrange : getRangeFromDie die.children = .ok bounds)
    (hfde : readBound die.mipsFde = .ok fde) (hbounds : ∀ b ∈ bounds, b.1.toInt - 1 ≤ b.2.toInt) :
    ArrayRight types die pointedType bounds ↔
      IntsFit (types pointedType).length.toInt 0 (differences bounds) ∧
        ((types pointedType).length = 0 ∨ (-1 ∈ differences bounds ∧ (differences bounds).sum = 0)) := by
  have hextents : extents bounds = (differences bounds).map (· + 1) := by
    simp [extents, differences]
  have hge : ∀ d ∈ differences bounds, -1 ≤ d := by
    intro d hd
    obtain ⟨b, hb, rfl⟩ := List.mem_map.mp hd
    have hle := hbounds b hb
    omega
  have hzero : (types pointedType).length = 0 ↔ (types pointedType).length.toInt = 0 := by
    rw [← Int32.toInt_inj]
    rfl
  unfold ArrayRight
  rw [hextents, hzero, ← sum_differences_iff hge]
  constructor
  · rintro ⟨type, hadd, hlength, -⟩
    obtain ⟨length, hrun, rfl⟩ := (addArray_iff hpointed hrange hfde type).mp hadd
    obtain ⟨hints, rfl⟩ := (arrayLength_iff _ _ _ _).mp hrun
    have hfits := hints.fits (by decide)
    dsimp only at hlength
    rw [toInt_ofInt_of_fits hfits, zero_add] at hlength
    exact ⟨hints, (mul_eq_mul_left_iff.mp hlength).symm⟩
  · rintro ⟨hints, hright⟩
    have hfits := hints.fits (by decide)
    have hlength := mul_eq_mul_left_iff.mpr hright.symm
    refine ⟨_, (addArray_iff hpointed hrange hfde _).mpr ⟨_, (arrayLength_iff _ _ _ _).mpr ⟨hints, rfl⟩, rfl⟩, ?_, ?_⟩
    · dsimp only
      rw [toInt_ofInt_of_fits hfits, zero_add, hlength]
    · intro g a transform steps ha hcopy hsteps
      refine ⟨shortReg true (g.types transform.toType).length, ?_⟩
      rw [straightCopy_steps hcopy hsteps, ha, ← hlength, zero_add]

def emptyArray : ArrayDie Unit where
  name := "a"
  pointedType := some ()
  children := [⟨true, none, some ⟨.data1, 1⟩⟩, ⟨true, some ⟨.data1, 1⟩, some ⟨.data1, 0⟩⟩]
  mipsFde := none

def charType : Unit → TypeInfo Unit := fun _ => ⟨"char", .base, 1, [], none, []⟩

theorem emptyArray_right : ArrayRight charType emptyArray () [(0, 1), (1, 0)] :=
  (arrayRight_iff charType emptyArray () [(0, 1), (1, 0)] 0 rfl rfl rfl
    (List.forall_mem_cons.mpr ⟨by decide, List.forall_mem_singleton.mpr (by decide)⟩)).mpr (by decide)

def fourChars : ArrayDie Unit := ⟨"a", some (), [⟨true, none, some ⟨.data1, 3⟩⟩], none⟩

/-- Its length is 3. -/
theorem not_arrayRight : ¬ ∀ (types : Unit → TypeInfo Unit) (die : ArrayDie Unit) (bounds : List (Int32 × Int32)),
    die.pointedType = some () → getRangeFromDie die.children = .ok bounds → (∀ b ∈ bounds, b.1.toInt - 1 ≤ b.2.toInt) →
      ArrayRight types die () bounds := by
  intro h
  obtain ⟨type, hadd, hlength, -⟩ := h charType fourChars [(0, 3)] rfl rfl (List.forall_mem_singleton.mpr (by decide))
  have hrun : addArrayTypeFromDie charType fourChars = .ok ⟨⟨"a", .array, 3, [], some (), [(0, 3)]⟩, 0⟩ := rfl
  cases hrun.symm.trans hadd
  exact absurd hlength (by decide)

end Katana
