/-
  Katana.FieldCopies — the copies that the transformer of a plain struct stands for, from the types to the rules.

  A plain struct has base types and enums for its fields. What its old and its new version have in common is copied
  field by field: as many bytes as the field had, from its old place to its new one; a field that became another kind is
  left out. Each copy is written as one instruction for two registers, the new one with the old size, and read back
  as a rule. The rules are in a table by the names of the new registers, so that of two copies to one place, of one
  size, the later one is left, in the place of the first; and they are gone through in the order of the table.

  Proved, for every pair of plain structs:
  - `compare_plain`: a transformer is made exactly if the structs differ, and only if no field is gone.
  - `write_plain` / `plainBytes_ok`: its instructions, and their bytes, as long as an int counts them.
  - `parse_plain` / `evaluate_plain`: the instructions are read back, and give the rules of the table.
-/
import Katana.StructTransform
import Katana.TransformWriter
import Katana.Dwarf.FdeRead
import Katana.Rules

namespace Katana

open Lib Lib.Run

variable {T : Type} (types : T → TypeInfo T)

/-! ## Copies -/

/-- A struct of base types and enums. -/
structure PlainStruct (a : T) : Prop where
  kind : (types a).type = .struct
  based : ∀ field ∈ (types a).fields, (types field.type).type = .base ∨ (types field.type).type = .enum
  named : ((types a).fields.map (·.name)).Nodup

/-- No field is gone. -/
def FieldsKept (a b : T) : Prop := ∀ field ∈ (types a).fields, ∃ new, newField types b field = some new

def StructSame (a b : T) : Prop := HeaderSame types a b ∧ fieldsUnchanged types a b = true

instance (a b : T) : Decidable (StructSame types a b) := inferInstanceAs (Decidable (_ ∧ _))

/-- So many bytes, from an offset in the old object to one in the new object. -/
structure FieldCopy where
  size : Int32
  dest : Int32
  src : Int32
  deriving DecidableEq, Repr

/-- The copy of a field that is of its kind in the new struct too. -/
def copyOf (b : T) (field : TypeField T) : Option FieldCopy :=
  match newField types b field with
  | none => none
  | some new =>
    if (types field.type).type = (types new.type).type then some ⟨(types field.type).length, new.offset, field.offset⟩
    else none

def copiesOf (a b : T) : List FieldCopy := (types a).fields.filterMap (copyOf types b)

def fieldEntry (b : T) (field : TypeField T) : Int32 × FieldTransformType :=
  match copyOf types b field with
  | none => (fieldDeleted, .delete)
  | some c => (c.dest, .copy)

namespace FieldCopy

def step (c : FieldCopy) : TransformStep T := .register (longReg true c.size c.dest) (longReg false c.size c.src)

def instruction (c : FieldCopy) : TransformInstruction :=
  ⟨{ DwarfInstruction.blank .register with
    arg1Bytes := longReg true c.size c.dest, arg2Bytes := longReg false c.size c.src }, 0⟩

def newReg (c : FieldCopy) : PoReg := ⟨.currTargNew, c.size, c.dest⟩

def oldReg (c : FieldCopy) : PoReg := ⟨.currTargOld, c.size, c.src⟩

def regInstruction (c : FieldCopy) : RegInstruction :=
  { RegInstruction.blank .register with arg1Reg := c.newReg, arg2Reg := c.oldReg }

def rule (c : FieldCopy) : PoRegRule := ⟨c.newReg, .register, c.oldReg, 0, 0⟩

def key (c : FieldCopy) : String :=
  "\x7bCURR_TARG_NEW,0x" ++ hex c.size.toUInt32.toNat ++ " bytes,0x" ++ hex c.dest.toUInt32.toNat ++ " off\x7d"

def bytes (c : FieldCopy) : List UInt8 := 0x09 :: (longReg true c.size c.dest ++ longReg false c.size c.src)

end FieldCopy

/-- Another copy in the table: in the place of the one of its name, or where it is inserted. -/
def putCopy (nodes : List (String × FieldCopy)) (c : FieldCopy) : List (String × FieldCopy) :=
  if c.key ∈ nodes.map (·.1) then nodes.map fun n => if c.key = n.1 then (n.1, c) else n
  else insertAt (dictKeying 100) (c.key, c) nodes

/-- The copies that are left, in the order of the table. -/
def tableCopies (copies : List FieldCopy) : List FieldCopy := (copies.foldl putCopy []).map (·.2)

/-! ## The transformer -/

section
variable {types} {a b : T} {field new : TypeField T} {st : TypediffState T} {recur : T → T → TypediffM T Bool}

theorem copyOf_kept (hnew : newField types b field = some new) (hkind : (types field.type).type = (types new.type).type) :
    copyOf types b field = some ⟨(types field.type).length, new.offset, field.offset⟩ := by
  unfold copyOf
  rw [hnew]
  exact if_pos hkind

theorem copyOf_changed (hnew : newField types b field = some new)
    (hkind : (types field.type).type ≠ (types new.type).type) : copyOf types b field = none := by
  unfold copyOf
  rw [hnew]
  exact if_neg hkind

theorem copyOf_eq_some {c : FieldCopy} : copyOf types b field = some c ↔ ∃ new, newField types b field = some new ∧
    (types field.type).type = (types new.type).type ∧ c = ⟨(types field.type).length, new.offset, field.offset⟩ := by
  unfold copyOf
  cases newField types b field with
  | none => simp
  | some new =>
    by_cases hkind : (types field.type).type = (types new.type).type
    · simp [hkind, eq_comm]
    · simp [hkind]

variable [DecidableEq T]

theorem fieldTransform_plain (hbased : (types field.type).type = .base ∨ (types field.type).type = .enum)
    (hnone : st.transformer field.type = none) (hnew : newField types b field = some new) :
    fieldTransform types recur a b field st = .ok (some (fieldEntry types b field)) st := by
  unfold fieldTransform
  rw [show (getIndexForField (types b) field.name).bind ((types b).fields[·]?) = some new from hnew]
  dsimp only
  by_cases hkind : (types field.type).type = (types new.type).type
  · have hhow : fieldTransformType types recur field.type new.type st = .ok (some .copy) st := by
      unfold fieldTransformType
      rcases hbased with hbased | hbased
      · rw [hbased]
        rfl
      · rw [hbased]
        rfl
    have hcheck : checkTransformer field.type new.type st = .ok () st := by
      unfold checkTransformer
      rw [run_bind_of_ok (get_run st), hnone]
      rfl
    unfold fieldEntry
    rw [if_neg (not_not_intro hkind), run_bind_of_ok hhow, copyOf_kept hnew hkind]
    dsimp only
    rw [run_bind_of_ok hcheck, getOffsetForField_newField hnew]
    rfl
  · unfold fieldEntry
    rw [if_pos hkind, copyOf_changed hnew hkind]
    rfl

theorem fieldTransform_lost (hnew : newField types b field = none) :
    fieldTransform types recur a b field st = .error (.fault .undefined) st := by
  unfold fieldTransform
  rw [show (getIndexForField (types b) field.name).bind ((types b).fields[·]?) = none from hnew]
  rfl

def TypediffState.filled (st : TypediffState T) (a : T) (x : Int32 × FieldTransformType) : TypediffState T :=
  ⟨st.typediffStatus, st.diffAgainst, Function.update st.transformer a
    ((st.transformer a).map fun transform => { transform with fields := transform.fields ++ [x] })⟩

theorem TypediffState.filled_of_ne {a x : T} (st : TypediffState T) (hx : x ≠ a) (entry : Int32 × FieldTransformType) :
    (st.filled a entry).transformer x = st.transformer x := Function.update_of_ne hx _ _

theorem TypediffState.filled_self {t : TypeTransform T} (ht : st.transformer a = some t)
    (entry : Int32 × FieldTransformType) :
    (st.filled a entry).transformer a = some { t with fields := t.fields ++ [entry] } := by
  refine (Function.update_self _ _ _).trans ?_
  rw [ht]
  rfl

/-- The transformer is filled field by field. -/
theorem transformFields_plain {fields : List (TypeField T)} {t : TypeTransform T}
    (hbased : ∀ field ∈ fields, (types field.type).type = .base ∨ (types field.type).type = .enum)
    (hother : ∀ field ∈ fields, field.type ≠ a) (hnone : ∀ x, x ≠ a → st.transformer x = none)
    (ht : st.transformer a = some t) (hkept : ∀ field ∈ fields, ∃ new, newField types b field = some new) :
    ∃ st', transformFields types recur a b fields st = .ok false st' ∧
      st'.transformer a = some { t with fields := t.fields ++ fields.map (fieldEntry types b) } := by
  induction fields generalizing st t with
  | nil => exact ⟨st, rfl, by rw [ht]; simp⟩
  | cons field fields ih =>
    have hfield : field ∈ field :: fields := List.mem_cons_self
    obtain ⟨new, hfound⟩ := hkept field hfield
    unfold transformFields
    rw [run_bind_of_ok (fieldTransform_plain (hbased field hfield) (hnone _ (hother field hfield)) hfound)]
    dsimp only
    unfold setTransformer
    rw [run_bind_of_ok (modify_run _ _)]
    obtain ⟨st', hrun, htransformer⟩ := ih
      (fun x hx => hbased x (List.mem_cons_of_mem _ hx)) (fun x hx => hother x (List.mem_cons_of_mem _ hx))
      (fun x hx => (st.filled_of_ne hx (fieldEntry types b field)).trans (hnone x hx)) (st.filled_self ht _)
      (fun x hx => hkept x (List.mem_cons_of_mem _ hx))
    refine ⟨st', hrun, ?_⟩
    rw [htransformer]
    simp

/-- It is given up at the first field that is gone. -/
theorem transformFields_lost {fields : List (TypeField T)}
    (hbased : ∀ field ∈ fields, (types field.type).type = .base ∨ (types field.type).type = .enum)
    (hother : ∀ field ∈ fields, field.type ≠ a) (hnone : ∀ x, x ≠ a → st.transformer x = none)
    (hlost : ∃ field ∈ fields, newField types b field = none) :
    ∃ st', transformFields types recur a b fields st = .error (.fault .undefined) st' := by
  induction fields generalizing st with
  | nil =>
    obtain ⟨field, hfield, -⟩ := hlost
    cases hfield
  | cons field fields ih =>
    have hfield : field ∈ field :: fields := List.mem_cons_self
    unfold transformFields
    cases hfound : newField types b field with
    | none => exact ⟨st, run_bind_of_error (fieldTransform_lost hfound)⟩
    | some new =>
      rw [run_bind_of_ok (fieldTransform_plain (hbased field hfield) (hnone _ (hother field hfield)) hfound)]
      dsimp only
      unfold setTransformer
      rw [run_bind_of_ok (modify_run _ _)]
      refine ih (fun x hx => hbased x (List.mem_cons_of_mem _ hx)) (fun x hx => hother x (List.mem_cons_of_mem _ hx))
        (fun x hx => (st.filled_of_ne hx (fieldEntry types b field)).trans (hnone x hx)) ?_
      obtain ⟨lost, hmem, hlost⟩ := hlost
      rcases List.mem_cons.mp hmem with rfl | hmem
      · rw [hfound] at hlost
        cases hlost
      · exact ⟨lost, hmem, hlost⟩

omit [DecidableEq T] in
theorem PlainStruct.type_ne (ha : PlainStruct types a) (hfield : field ∈ (types a).fields) : field.type ≠ a := by
  intro heq
  have hbased := ha.based field hfield
  rw [heq, ha.kind] at hbased
  rcases hbased with hbased | hbased
  · cases hbased
  · cases hbased

/-- The comparison up to where the transformer is built. -/
theorem compare_start (ha : PlainStruct types a) (hb : PlainStruct types b) (fuel : Nat) :
    compareTypesAndGenTransforms types (fuel + 1) a b .fresh =
      if StructSame types a b then .ok true (recordSame a (begin a b .fresh))
      else genTransform types (compareTypesAndGenTransforms types fuel) a b (begin a b .fresh) := by
  have hkind : (types a).type = (types b).type := ha.kind.trans hb.kind.symm
  have hcontents : compareContents types (compareTypesAndGenTransforms types fuel) a b (HeaderSame types a b)
      (begin a b .fresh) = .ok (decide (StructSame types a b)) (begin a b .fresh) := by
    have hretval : (decide (HeaderSame types a b) && fieldsUnchanged types a b) = decide (StructSame types a b) := by
      rw [Bool.eq_iff_iff, Bool.and_eq_true, decide_eq_true_iff, decide_eq_true_iff]
      rfl
    unfold compareContents
    rw [ha.kind, ← hretval]
    rfl
  unfold compareTypesAndGenTransforms
  rw [run_bind_of_ok (get_run _), if_neg (not_not_intro hkind)]
  dsimp only [TypediffState.fresh]
  rw [run_bind_of_ok (modify_run _ _)]
  refine (run_bind_of_ok hcontents).trans ?_
  by_cases hsame : StructSame types a b
  · rw [if_pos hsame, decide_eq_true hsame]
    rfl
  · rw [if_neg hsame, decide_eq_false hsame]
    rfl

/-- The state before the loop over the fields. -/
theorem genTransform_plain (ha : PlainStruct types a) (b : T) (recur : T → T → TypediffM T Bool) :
    ∃ st1 : TypediffState T, st1.transformer a = some ⟨b, false, [], false⟩ ∧ (∀ x, x ≠ a → st1.transformer x = none) ∧
      genTransform types recur a b (begin a b .fresh) = transformFields types recur a b (types a).fields st1 := by
  have hcopy : decide ((types a).type = .union ∨ (types a).type = .enum ∨ (types a).type = .array) = false := by
    rw [ha.kind]
    rfl
  unfold genTransform
  rw [run_bind_of_ok (modify_run _ _), hcopy]
  exact ⟨_, Function.update_self _ _ _, fun x hx => Function.update_of_ne hx _ _, rfl⟩

theorem compare_differs (ha : PlainStruct types a) (hb : PlainStruct types b) (hdiffers : ¬ StructSame types a b)
    (hkept : FieldsKept types a b) (fuel : Nat) :
    ∃ st', compareTypesAndGenTransforms types (fuel + 1) a b .fresh = .ok false st' ∧
      st'.transformer a = some ⟨b, false, (types a).fields.map (fieldEntry types b), false⟩ := by
  obtain ⟨st1, htransformer, hnone, hgen⟩ := genTransform_plain ha b (compareTypesAndGenTransforms types fuel)
  rw [compare_start ha hb, if_neg hdiffers, hgen]
  exact transformFields_plain ha.based (fun field hfield => ha.type_ne hfield) hnone htransformer hkept

theorem compare_lost (ha : PlainStruct types a) (hb : PlainStruct types b) (hdiffers : ¬ StructSame types a b)
    (hlost : ¬ FieldsKept types a b) (fuel : Nat) :
    ∃ st', compareTypesAndGenTransforms types (fuel + 1) a b .fresh = .error (.fault .undefined) st' := by
  obtain ⟨st1, -, hnone, hgen⟩ := genTransform_plain ha b (compareTypesAndGenTransforms types fuel)
  have hlost' : ∃ field ∈ (types a).fields, newField types b field = none := by
    unfold FieldsKept at hlost
    push Not at hlost
    obtain ⟨field, hfield, hnew⟩ := hlost
    exact ⟨field, hfield, Option.eq_none_iff_forall_ne_some.mpr fun new => hnew new⟩
  rw [compare_start ha hb, if_neg hdiffers, hgen]
  exact transformFields_lost ha.based (fun field hfield => ha.type_ne hfield) hnone hlost'

end

/-! ## The instructions -/

/-- What libdwarf does: the number it gives to an FDE when so many have been added, and the bytes of its instructions that
are there when it is read. -/
structure Libdwarf where
  addFrameFde : Nat → Nat
  stored : List UInt8 → List UInt8

def Libdwarf.Stores (dwarf : Libdwarf) : Prop := ∀ instrs, dwarf.stored instrs = instrs

/-- The types of the structs have been written before. -/
def transformGraph (dwarf : Libdwarf) (st : TypediffState T) : TransformGraph T where
  types := types
  transformer := st.transformer
  die _ := true
  dwarfAddFrameFde := dwarf.addFrameFde

section
variable {types} {a b : T} {dwarf : Libdwarf} {st : TypediffState T}

theorem fieldStep_plain (b : T) (field : TypeField T) :
    fieldStep (transformGraph types dwarf st) field (fieldEntry types b field).1 (fieldEntry types b field).2 =
      (copyOf types b field).map FieldCopy.step := by
  unfold fieldEntry
  cases hcopy : copyOf types b field with
  | none => rfl
  | some c =>
    obtain ⟨new, -, -, rfl⟩ := copyOf_eq_some.mp hcopy
    rfl

theorem fieldSteps_plain (b : T) (fields : List (TypeField T)) :
    fieldSteps (transformGraph types dwarf st) fields (fields.map (fieldEntry types b)) =
      (fields.filterMap (copyOf types b)).map FieldCopy.step := by
  induction fields with
  | nil => rfl
  | cons field fields ih =>
    unfold fieldSteps
    rw [List.map_cons, List.headD_cons, List.tail_cons, ih, List.filterMap_cons]
    dsimp only
    rw [fieldStep_plain]
    cases copyOf types b field with
    | none => rfl
    | some c => rfl

theorem writeSteps_plain (recur : T → TransformWriterM T Unit) (copies : List FieldCopy) (w : TransformWriter T) :
    writeSteps (transformGraph types dwarf st) recur (copies.map FieldCopy.step) w =
      .ok (copies.map FieldCopy.instruction) w := by
  induction copies with
  | nil => rfl
  | cons c copies ih =>
    have hstep : writeStep (transformGraph types dwarf st) recur c.step w = .ok c.instruction w := rfl
    rw [List.map_cons, writeSteps, run_bind_of_ok hstep, run_bind_of_ok ih]
    rfl

variable [DecidableEq T]

/-- One FDE, with an instruction for every copy. -/
theorem write_plain (ha : PlainStruct types a)
    (htransformer : st.transformer a = some ⟨b, false, (types a).fields.map (fieldEntry types b), false⟩) (fuel : Nat) :
    ∃ w, writeTransformationToDwarf (transformGraph types dwarf st) (fuel + 1) a .fresh = .ok () w ∧
      w.fdes = [⟨a, b, (types b).length, (copiesOf types a b).map FieldCopy.instruction⟩] := by
  have hsteps : transformSteps (transformGraph types dwarf st) a ⟨b, false, (types a).fields.map (fieldEntry types b), false⟩ =
      .ok ((copiesOf types a b).map FieldCopy.step) := by
    unfold transformSteps
    rw [if_neg Bool.false_ne_true, show ((transformGraph types dwarf st).types a).type = .struct from ha.kind]
    exact congrArg Except.ok (fieldSteps_plain b _)
  have hborrows : borrowsIndex (transformGraph types dwarf st) a
      ⟨b, false, (types a).fields.map (fieldEntry types b), false⟩ = false := by
    unfold borrowsIndex
    rw [show ((transformGraph types dwarf st).types a).type = .struct from ha.kind]
    rfl
  unfold writeTransformationToDwarf
  rw [show (transformGraph types dwarf st).transformer a = some ⟨b, false, (types a).fields.map (fieldEntry types b), false⟩ from
    htransformer]
  dsimp only
  rw [if_neg Bool.false_ne_true, run_bind_of_ok (get_run _), if_neg (by exact Bool.false_ne_true),
    run_bind_of_ok (modify_run _ _), hborrows, if_neg Bool.false_ne_true]
  unfold writeFde
  rw [run_bind_of_ok (get_run _)]
  have hdie : ∀ w : TransformWriter T, (faultOr (assert ((transformGraph types dwarf st).die b)) : TransformWriterM T Unit) w =
      .ok () w := by
    intro w
    rfl
  have hgiven : ∀ w : TransformWriter T, (faultOr (transformSteps (transformGraph types dwarf st) a
      ⟨b, false, (types a).fields.map (fieldEntry types b), false⟩) : TransformWriterM T _) w =
        .ok ((copiesOf types a b).map FieldCopy.step) w := by
    intro w
    rw [hsteps]
    rfl
  rw [run_bind_of_ok (hdie _), run_bind_of_ok (modify_run _ _), run_bind_of_ok (hgiven _),
    run_bind_of_ok (writeSteps_plain _ _ _)]
  exact ⟨_, rfl, rfl⟩

end

/-! ## Their bytes -/

def addInstructions (instrs : List TransformInstruction) (buf : DwarfInstructions) : Except Fault DwarfInstructions :=
  instrs.foldlM (fun buf inst => addInstruction buf inst.instr) buf

theorem longReg_length (new : Bool) (size offset : Int32) : (longReg new size offset).length = 11 := by
  unfold longReg
  rw [encodeNoOptimization_unsigned, length_mark, length_fixed]
  simp [longRegBytes, shortRegBytes, numSeptetsFor]

theorem FieldCopy.bytes_length (c : FieldCopy) : c.bytes.length = 23 := by
  simp [FieldCopy.bytes, longReg_length]

/-- So many instructions of 23 bytes are in a buffer of so many bytes, which has doubled until an int does not count it. -/
def Filled (n allocated : Nat) : Prop :=
  (n = 0 ∧ allocated = 0) ∨ ∃ k ≤ 25, allocated = 46 * 2 ^ k ∧ 2 ^ k ≤ n ∧ n ≤ 2 ^ (k + 1)

theorem Filled.add {n : Nat} {buf : DwarfInstructions} (hlen : buf.instrs.length = 23 * n) (h : Filled n buf.allocated)
    {data : List UInt8} (hdata : data.length = 23) :
    (n < 2 ^ 26 → ∃ allocated, addBytes buf data = .ok ⟨buf.instrs ++ data, allocated⟩ ∧ Filled (n + 1) allocated) ∧
      (¬ n < 2 ^ 26 → addBytes buf data = .error .undefined) := by
  unfold addBytes
  rw [hlen, hdata]
  rcases h with ⟨rfl, hzero⟩ | ⟨k, hk, hallocated, hlow, hhigh⟩
  · rw [hzero]
    refine ⟨fun _ => ⟨46, rfl, .inr ⟨0, by omega, rfl, Nat.le_refl _, by norm_num⟩⟩, fun hmany => absurd (by norm_num) hmany⟩
  · rw [hallocated]
    have hpos : 1 ≤ 2 ^ k := Nat.one_le_two_pow
    rw [pow_succ] at hhigh
    by_cases hfits : n < 2 ^ k * 2
    · have hroom : ¬ 46 * 2 ^ k - 23 * n < 23 := by omega
      have hfew : n < 2 ^ 26 := by
        have hle : 2 ^ k ≤ 2 ^ 25 := Nat.pow_le_pow_right (by norm_num) hk
        omega
      rw [if_neg hroom]
      refine ⟨fun _ => ⟨_, rfl, .inr ⟨k, hk, rfl, by omega, by rw [pow_succ]; omega⟩⟩, fun hmany => absurd hfew hmany⟩
    · have hfull : 46 * 2 ^ k - 23 * n < 23 := by omega
      have hmax : max (46 * 2 ^ k * 2) (46 * 2 ^ k + 23 * 2) = 46 * 2 ^ (k + 1) := by
        rw [pow_succ]
        omega
      rw [if_pos hfull]
      dsimp only
      rw [hmax]
      by_cases hlast : k = 25
      · subst hlast
        rw [defined_not (by norm_num)]
        refine ⟨fun hfew => ?_, fun _ => rfl⟩
        omega
      · have hnext : 2 ^ (k + 1) ≤ 2 ^ 25 := Nat.pow_le_pow_right (by norm_num) (by omega)
        have hless : 46 * 2 ^ (k + 1) < 2 ^ 31 := by omega
        rw [defined_of hless]
        refine ⟨fun _ => ⟨_, rfl, .inr ⟨k + 1, by omega, rfl, ?_, ?_⟩⟩, fun hmany => ?_⟩
        · rw [pow_succ]
          omega
        · rw [pow_succ, pow_succ]
          omega
        · have hle : 2 ^ k * 2 ≤ 2 ^ 25 := by
            rw [← pow_succ]
            exact hnext
          omega

/-- The bytes of the instructions, as long as an int counts the buffer. -/
theorem addInstructions_plain {copies : List FieldCopy} {n : Nat} {buf : DwarfInstructions}
    (hlen : buf.instrs.length = 23 * n) (h : Filled n buf.allocated) (hn : n ≤ 2 ^ 26) :
    (n + copies.length ≤ 2 ^ 26 → ∃ allocated, addInstructions (copies.map FieldCopy.instruction) buf =
      .ok ⟨buf.instrs ++ copies.flatMap FieldCopy.bytes, allocated⟩) ∧
    (¬ n + copies.length ≤ 2 ^ 26 → addInstructions (copies.map FieldCopy.instruction) buf = .error .undefined) := by
  induction copies generalizing n buf with
  | nil =>
    refine ⟨fun _ => ⟨buf.allocated, ?_⟩, fun hmany => absurd hn hmany⟩
    rw [List.flatMap_nil, List.append_nil]
    rfl
  | cons c copies ih =>
    have hstep : addInstructions ((c :: copies).map FieldCopy.instruction) buf =
        (addBytes buf c.bytes >>= addInstructions (copies.map FieldCopy.instruction)) := rfl
    obtain ⟨hroom, hfull⟩ := h.add hlen c.bytes_length
    rw [hstep, List.length_cons, List.flatMap_cons]
    by_cases hfew : n < 2 ^ 26
    · obtain ⟨allocated, hadd, hfilled⟩ := hroom hfew
      have hlen' : (DwarfInstructions.mk (buf.instrs ++ c.bytes) allocated).instrs.length = 23 * (n + 1) := by
        rw [List.length_append, hlen, c.bytes_length]
        omega
      have hrest := ih hlen' hfilled hfew
      rw [hadd, bind_ok, show n + (copies.length + 1) = n + 1 + copies.length by omega]
      simpa only [List.append_assoc] using hrest
    · rw [hfull hfew]
      exact ⟨fun hle => absurd hle (by omega), fun _ => rfl⟩

theorem addInstructions_fresh (copies : List FieldCopy) :
    (copies.length ≤ 2 ^ 26 → ∃ allocated, addInstructions (copies.map FieldCopy.instruction) ⟨[], 0⟩ =
      .ok ⟨copies.flatMap FieldCopy.bytes, allocated⟩) ∧
    (¬ copies.length ≤ 2 ^ 26 → addInstructions (copies.map FieldCopy.instruction) ⟨[], 0⟩ = .error .undefined) := by
  have hplain : (0 + copies.length ≤ 2 ^ 26 → ∃ allocated, addInstructions (copies.map FieldCopy.instruction) ⟨[], 0⟩ =
      .ok ⟨[] ++ copies.flatMap FieldCopy.bytes, allocated⟩) ∧
      (¬ 0 + copies.length ≤ 2 ^ 26 → addInstructions (copies.map FieldCopy.instruction) ⟨[], 0⟩ = .error .undefined) :=
    addInstructions_plain (n := 0) rfl (.inl ⟨rfl, rfl⟩) (Nat.zero_le _)
  simpa only [Nat.zero_add, List.nil_append] using hplain

/-! ## Their rules -/

theorem longReg_read (new : Bool) (size offset : Int32) (rest : List UInt8) :
    readRegFromLEB128 (longReg new size offset ++ rest) = .ok (⟨currTarg new, size, offset⟩, 11) := by
  have hread := (patchReg_roundTrips new size offset rest).2
  have hlen := longReg_length new size offset
  unfold longReg at hlen ⊢
  rw [hread, hlen]

theorem parse_copy (c : FieldCopy) (rest : List UInt8) :
    parseInstruction 0x09 (longReg true c.size c.dest ++ longReg false c.size c.src ++ rest) =
      .ok (some c.regInstruction, 22) := by
  have hparse := parse_register2 (longReg true c.size c.dest ++ longReg false c.size c.src ++ rest)
    (show CfaOp.register = .register from rfl)
  refine hparse.trans ?_
  rw [List.append_assoc, longReg_read, bind_ok]
  dsimp only
  rw [List.drop_left' (longReg_length _ _ _), longReg_read]
  rfl

/-- The instructions are read back. -/
theorem parseLoop_plain (copies : List FieldCopy) {fuel : Nat} (hfuel : copies.length ≤ fuel) (rest : List UInt8) :
    parseFDELoop fuel (copies.flatMap FieldCopy.bytes ++ rest) (23 * copies.length) =
      .ok (copies.map FieldCopy.regInstruction, rest) := by
  induction copies generalizing fuel with
  | nil =>
    unfold parseFDELoop
    rfl
  | cons c copies ih =>
    obtain ⟨fuel, rfl⟩ := Nat.exists_eq_add_of_le' (show 1 ≤ fuel by simp at hfuel; omega)
    have hbytes : (c :: copies).flatMap FieldCopy.bytes ++ rest =
        0x09 :: (longReg true c.size c.dest ++ longReg false c.size c.src ++ (copies.flatMap FieldCopy.bytes ++ rest)) := by
      simp [FieldCopy.bytes]
    have hdrop : (longReg true c.size c.dest ++ longReg false c.size c.src ++
        (copies.flatMap FieldCopy.bytes ++ rest)).drop 22 = copies.flatMap FieldCopy.bytes ++ rest :=
      List.drop_left' (by simp [longReg_length])
    have hleft : (23 * ((c :: copies).length : Nat) : Int) - (22 : Nat) - 1 = 23 * (copies.length : Nat) := by
      rw [List.length_cons]
      omega
    have hmore : ¬ (23 * ((c :: copies).length : Nat) : Int) ≤ 0 := by
      rw [List.length_cons]
      omega
    rw [hbytes, parseFDELoop, if_neg hmore, parse_copy, bind_ok]
    dsimp only
    rw [hdrop, hleft, ih (by simpa using hfuel), bind_ok]
    rfl

theorem parse_copies (copies : List FieldCopy) :
    parseFDEInstructions (copies.flatMap FieldCopy.bytes) (copies.flatMap FieldCopy.bytes).length =
      .ok (copies.map FieldCopy.regInstruction, []) := by
  have hlen : (copies.flatMap FieldCopy.bytes).length = 23 * copies.length := by
    induction copies with
    | nil => rfl
    | cons c copies ih =>
      rw [List.flatMap_cons, List.length_append, ih, c.bytes_length, List.length_cons]
      omega
  have hloop := parseLoop_plain copies (show copies.length ≤ (copies.flatMap FieldCopy.bytes).length + 1 by omega) []
  rw [List.append_nil] at hloop
  unfold parseFDEInstructions
  rw [← hloop, hlen]
  rfl

/-! ## The table -/

theorem FieldCopy.strForReg_newReg (c : FieldCopy) : strForReg c.newReg = .ok c.key := rfl

theorem FieldCopy.newReg_of_key {c c' : FieldCopy} (h : c.key = c'.key) : c.newReg = c'.newReg :=
  strForReg_injective rfl rfl (by rw [c.strForReg_newReg, c'.strForReg_newReg, h])

theorem FieldCopy.key_ne_cfa (c : FieldCopy) : c.key ≠ "\x7bCFA\x7d" := by
  intro h
  have hname := congrArg (fun name => name.toList[2]?) h
  unfold FieldCopy.key at hname
  simp at hname

/-- The rules are those of the copies, in their order. -/
def RulesOf (nodes : List (String × FieldCopy)) (rules : Dictionary PoRegRule) : Prop :=
  (∀ n ∈ nodes, n.1 = n.2.key) ∧ ∃ table : Table (dictKeying 100) PoRegRule, rules = ⟨100, table⟩ ∧
    table.nodes = nodes.map fun n => (n.1, n.2.rule)

section
variable {nodes : List (String × FieldCopy)} {rules : Dictionary PoRegRule} {c : FieldCopy}

theorem mem_insertAt {K V : Type} {κ : Keying K} {n m : K × V} {l : List (K × V)} :
    m ∈ insertAt κ n l ↔ m = n ∨ m ∈ l := (insertAt_perm n l).mem_iff.trans List.mem_cons

theorem putCopy_keys (hnodes : ∀ n ∈ nodes, n.1 = n.2.key) : ∀ n ∈ putCopy nodes c, n.1 = n.2.key := by
  intro n hn
  unfold putCopy at hn
  split at hn
  · obtain ⟨m, hm, rfl⟩ := List.mem_map.mp hn
    split
    · rename_i hkey
      exact hkey.symm
    · exact hnodes m hm
  · rcases mem_insertAt.mp hn with rfl | hn
    · rfl
    · exact hnodes n hn

theorem RulesOf.get_eq_none (h : RulesOf nodes rules) {key : String} :
    dictGet rules key = none ↔ key ∉ nodes.map (·.1) := by
  obtain ⟨-, table, rfl, hnodes⟩ := h
  have hget := Table.get_eq_none_iff (t := table) (k := key)
  rw [hnodes, List.forall_mem_map] at hget
  refine hget.trans ?_
  simp only [matches_dictKeying, List.mem_map, not_exists, not_and]
  exact forall₂_congr fun n _ => not_congr eq_comm

theorem RulesOf.rule_of_get (h : RulesOf nodes rules) {rule : PoRegRule} (hget : dictGet rules c.key = some rule) :
    { rule with type := .register, regRH := c.oldReg } = c.rule := by
  obtain ⟨hkeys, table, rfl, hnodes⟩ := h
  obtain ⟨n, hn, hmatch, rfl⟩ := Table.get_eq_some_iff.mp hget
  rw [hnodes] at hn
  obtain ⟨m, hm, rfl⟩ := List.mem_map.mp hn
  have hreg : c.newReg = m.2.newReg := FieldCopy.newReg_of_key ((matches_dictKeying.mp hmatch).trans (hkeys m hm))
  unfold FieldCopy.rule
  rw [hreg]

/-- The rule of one copy. -/
theorem evaluate_copy (cie : CIE) {st : RuleState} (h : RulesOf nodes st.rules) (c : FieldCopy) :
    ∃ rules, evaluateInstruction cie c.regInstruction st = .ok { st with rules } ∧ RulesOf (putCopy nodes c) rules := by
  have htype : c.regInstruction.type = .register := rfl
  have hname : strForReg (ruleRegister c.regInstruction) = .ok c.key := rfl
  have hreg : ruleRegister c.regInstruction = c.newReg := rfl
  simp only [evaluateInstruction, htype, hname, bind_ok]
  cases hget : dictGet st.rules c.key with
  | some rule =>
    have hmem : c.key ∈ nodes.map (·.1) := by
      by_contra hmem
      rw [h.get_eq_none.mpr hmem] at hget
      cases hget
    have hrule := h.rule_of_get hget
    obtain ⟨hkeys, table, hrules, hnodes⟩ := h
    refine ⟨dictAssign st.rules c.key c.rule, ?_, putCopy_keys hkeys, table.update c.key fun _ => c.rule, ?_, ?_⟩
    · have hset : setRule cie c.regInstruction rule = .ok c.rule := congrArg Except.ok hrule
      dsimp only
      rw [hset, bind_ok]
    · rw [hrules]
      rfl
    · unfold Table.update putCopy
      dsimp only
      rw [if_pos hmem, hnodes, List.map_map, List.map_map]
      refine List.map_congr_left fun n _ => ?_
      dsimp only [Function.comp]
      simp only [matches_dictKeying]
      split
      · rfl
      · rfl
  | none =>
    have hmem := h.get_eq_none.mp hget
    obtain ⟨hkeys, table, hrules, hnodes⟩ := h
    have hnone : table.get c.key = none := by
      rw [hrules] at hget
      exact hget
    have hinsert : dictInsert st.rules c.key (.blank c.newReg) = .ok ⟨100, table.insert c.key (.blank c.newReg) hnone⟩ := by
      rw [hrules]
      exact dif_pos hnone
    refine ⟨⟨100, (table.insert c.key (.blank c.newReg) hnone).update c.key fun _ => c.rule⟩, ?_, putCopy_keys hkeys,
      _, rfl, ?_⟩
    · have hset : setRule cie c.regInstruction (.blank c.newReg) = .ok c.rule := rfl
      dsimp only
      rw [hreg, hinsert, bind_ok, hset, bind_ok]
      rfl
    · unfold putCopy
      rw [if_neg hmem, Table.update_insert, hnodes]
      exact (insertAt_map FieldCopy.rule (c.key, c) nodes).symm

/-- The rules of all of them, one after the other. -/
theorem evaluateLoop_copies (cie : CIE) (stopLocation : Int32) (copies : List FieldCopy) {st : RuleState}
    (h : RulesOf nodes st.rules) :
    ∃ rules, evaluateLoop cie stopLocation (copies.map FieldCopy.regInstruction) st = .ok ({ st with rules }, true) ∧
      RulesOf (copies.foldl putCopy nodes) rules := by
  induction copies generalizing nodes st with
  | nil => exact ⟨st.rules, rfl, h⟩
  | cons c copies ih =>
    obtain ⟨rules, heval, hrules⟩ := evaluate_copy cie h c
    obtain ⟨rules', hloop, hrules'⟩ := ih (show RulesOf _ (RuleState.mk rules st.stateStack st.loc).rules from hrules)
    refine ⟨rules', ?_, hrules'⟩
    have hadvance : advance cie.codeAlign stopLocation c.regInstruction st.loc = .other := rfl
    rw [List.map_cons, evaluateLoop, hadvance]
    dsimp only
    rw [heval, bind_ok, hloop]

end

/-- **The rules of the instructions are those of the table, in its order.** -/
theorem evaluate_plain (cie : CIE) (copies : List FieldCopy) (stateStack : List (Dictionary PoRegRule))
    (startLocation stopLocation : Int32) :
    ∃ rules, evaluateInstructionsToRules cie (copies.map FieldCopy.regInstruction) (dictCreate 100) stateStack startLocation
        stopLocation = .ok ⟨rules, stateStack, startLocation⟩ ∧
      dictValues rules = (tableCopies copies).map FieldCopy.rule ∧ dictGet rules "\x7bCFA\x7d" = none := by
  have hempty : RulesOf [] (dictCreate 100) := ⟨by simp, .empty, rfl, rfl⟩
  obtain ⟨rules, hloop, hrules⟩ := evaluateLoop_copies cie stopLocation copies
    (show RulesOf [] (RuleState.mk (dictCreate 100) stateStack startLocation).rules from hempty)
  refine ⟨rules, ?_, ?_, ?_⟩
  · unfold evaluateInstructionsToRules
    rw [hloop]
    rfl
  · obtain ⟨-, table, rfl, hnodes⟩ := hrules
    show table.nodes.map (·.2) = _
    rw [hnodes, tableCopies, List.map_map, List.map_map]
    rfl
  · rw [hrules.get_eq_none]
    intro hmem
    obtain ⟨n, hn, hkey⟩ := List.mem_map.mp hmem
    exact n.2.key_ne_cfa ((hrules.1 n hn).symm.trans hkey)

/-! ### What is left in it -/

theorem putCopy_mem {nodes : List (String × FieldCopy)} {c : FieldCopy} {n : String × FieldCopy} (hn : n ∈ putCopy nodes c) :
    n.2 = c ∨ n ∈ nodes := by
  unfold putCopy at hn
  split at hn
  · obtain ⟨m, hm, rfl⟩ := List.mem_map.mp hn
    split
    · exact .inl rfl
    · exact .inr hm
  · rcases mem_insertAt.mp hn with rfl | hn
    · exact .inl rfl
    · exact .inr hn

/-- Names stay, and the new one is there. -/
theorem putCopy_names {nodes : List (String × FieldCopy)} {c : FieldCopy} {name : String} :
    name ∈ (putCopy nodes c).map (·.1) ↔ name = c.key ∨ name ∈ nodes.map (·.1) := by
  unfold putCopy
  split
  · rename_i hkey
    have hsame : (nodes.map fun n => if c.key = n.1 then (n.1, c) else n).map (·.1) = nodes.map (·.1) := by
      rw [List.map_map]
      refine List.map_congr_left fun n _ => ?_
      dsimp only [Function.comp]
      split
      · rfl
      · rfl
    rw [hsame]
    refine ⟨.inr, fun h => ?_⟩
    rcases h with rfl | h
    · exact hkey
    · exact h
  · rw [((insertAt_perm (c.key, c) nodes).map (·.1)).mem_iff, List.map_cons, List.mem_cons]

/-- Nothing is left that was not there, and of each name one is. -/
theorem mem_tableCopies (copies : List FieldCopy) :
    (∀ c ∈ tableCopies copies, c ∈ copies) ∧ ∀ c ∈ copies, ∃ c' ∈ tableCopies copies, c'.newReg = c.newReg := by
  have hall : (∀ n ∈ copies.foldl putCopy [], n.1 = n.2.key ∧ n.2 ∈ copies) ∧
      ∀ c ∈ copies, c.key ∈ (copies.foldl putCopy []).map (·.1) := by
    induction copies using List.reverseRecOn with
    | nil => exact ⟨by simp, by simp⟩
    | append_singleton copies c ih =>
      rw [List.foldl_append]
      refine ⟨fun n hn => ⟨putCopy_keys (fun m hm => (ih.1 m hm).1) n hn, ?_⟩, fun c' hc' => ?_⟩
      · rcases putCopy_mem hn with hc | hn
        · simp [hc]
        · exact List.mem_append_left _ (ih.1 n hn).2
      · refine putCopy_names.mpr ?_
        rcases List.mem_append.mp hc' with hc' | hc'
        · exact .inr (ih.2 c' hc')
        · exact .inl (by rw [List.mem_singleton.mp hc'])
  refine ⟨fun c hc => ?_, fun c hc => ?_⟩
  · obtain ⟨n, hn, rfl⟩ := List.mem_map.mp hc
    exact (hall.1 n hn).2
  · obtain ⟨n, hn, hname⟩ := List.mem_map.mp (hall.2 c hc)
    exact ⟨n.2, List.mem_map.mpr ⟨n, hn, rfl⟩, FieldCopy.newReg_of_key ((hall.1 n hn).1.symm.trans hname)⟩

end Katana
