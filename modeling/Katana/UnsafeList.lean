/-
  Katana.UnsafeList — the functions that must not be active at patch time, for one compilation unit (patchwrite/patchwrite.c).

  The old and the new unit have types of their own, each of which refers to types of its version only. The old types of
  global variables are compared with the new ones, and where they differ the old type gets the transformer. A function is
  put on the list if its text changed, if it takes any number of parameters, or if a type it uses has a transformer. What
  it uses is looked up in the new unit: the types of its parameters and locals, and those of the variables that its
  relocations are found to refer to.

  Of what is written to the patch only the list is kept, with the functions themselves in place of their symbols.

  Proved, for every two versions, every pair of units and everything that was compared before:
  - `compare_oldOnly` / `PatchRun.oldOnly`: only types of the old version have transformers.
  - `mem_unsafe_iff`: a function is on the list exactly if its text changed or it takes any number of parameters.
  - `listComplete_iff`: so no function that uses a transformed type is missing exactly if all of these do.
-/
import Katana.TypeDiff
import Katana.CodeDiff
import Katana.PatchTables

namespace Katana

open Lib Lib.Run

variable {T : Type} {arch : Arch}

/-! ## Units -/

/-- The types of both versions. Each version was read by itself, and its types refer to its own. -/
structure Versions (T : Type) where
  types : T → TypeInfo T
  isNew : T → Bool
  pointed : ∀ a x, (types a).pointedType = some x → isNew x = isNew a
  fields : ∀ a, ∀ field ∈ (types a).fields, isNew field.type = isNew a

structure VarInfo (T : Type) where
  name : List UInt8
  type : T

/-- `SubprogramInfo` with the types of its parameters and locals. -/
structure UnitSubprogram (arch : Arch) (T : Type) extends SubprogramInfo arch where
  typesHead : List T
  hasVariableParams : Bool

/-- The file of a unit, with `sh_type` of its sections. -/
structure UnitElf (arch : Arch) extends CodeElf arch where
  shType : Nat → UInt32

/-- A compilation unit; the dictionaries as the values in their order. -/
structure UnitInfo (arch : Arch) (T : Type) where
  name : Option String
  elf : UnitElf arch
  globalVars : List (VarInfo T)
  subprograms : List (UnitSubprogram arch T)

/-- A unit of the old or of the new version. -/
structure VersionUnit (g : Versions T) (arch : Arch) (new : Bool) extends UnitInfo arch T where
  varTypes : ∀ var ∈ globalVars, g.isNew var.type = new
  usedTypes : ∀ sub ∈ subprograms, ∀ t ∈ sub.typesHead, g.isNew t = new
  distinct : (subprograms.map (·.name)).Nodup

namespace UnitInfo

def getVar (cu : UnitInfo arch T) (name : List UInt8) : Option (VarInfo T) := cu.globalVars.find? (·.name = name)

end UnitInfo

def getSubprogram (subprograms : List (UnitSubprogram arch T)) (name : List UInt8) : Option (UnitSubprogram arch T) :=
  subprograms.find? (·.name = name)

def nameText (name : List UInt8) : String := String.ofList (name.map fun b => Char.ofNat b.toNat)

/-! ## The file -/

def textStart : List UInt8 := [46, 116, 101, 120, 116]

def shtNobits : UInt32 := 8

namespace CodeElf
variable (e : CodeElf arch)

/-- What the lookup finds in the names (`TableOf.lookup`). -/
def getSymtabIdx (symbolName : List UInt8) : Nat := firstIdx (e.symtab.map (·.name)) symbolName

/-- The relocations of one section that refer to the symbol, with the index of the section they apply to. -/
def relocationsIn (symIdx : Nat) (scn : CodeScn arch) : Except Fault (List (UInt32 × RelocInfo arch)) :=
  ((scn.entries.getD []).filter (·.symIdx = symIdx)).mapM fun entry => do
    let reloc ← relocOf (e.symbolAndScn scn.shInfo) entry
    .ok (scn.shInfo, reloc)

def getRelocationItemsFor (symIdx : Nat) : Except Fault (List (UInt32 × RelocInfo arch)) := do
  let _ ← e.getSymbol symIdx
  let relocs ← (e.sections.drop 1).mapM (e.relocationsIn symIdx)
  .ok relocs.flatten

def findFunction (addr : arch.Addr) (scnIdx : UInt32) : Nat :=
  symbolContaining (e.symtab.map (·.toElfSym)) (UInt64.ofNat addr.toNat) sttFunc scnIdx

end CodeElf

/-- `getDataAtAbs(scn,addr,IN_MEM)`; the offset is an `uint`. -/
def dataAt (scn : CodeScn arch) (addr : arch.Addr) : Except Fault (List UInt8) := do
  let offset := placeOf scn.shAddr addr % 2 ^ 32
  assert (offset ≤ scn.data.length)
  .ok (scn.data.drop offset)

/-- What `memcmp` finds of that many bytes. -/
def memcmpDiffers (x y : List UInt8) (length : Int32) : Except Fault Bool := do
  defined (0 ≤ length ∧ length.toInt.toNat ≤ x.length ∧ length.toInt.toNat ≤ y.length)
  .ok (decide (x.take length.toInt.toNat ≠ y.take length.toInt.toNat))

/-- The section of a symbol, with its type. -/
def UnitElf.symbolScn (e : UnitElf arch) (sym : CodeSym) : Except Fault (CodeScn arch × UInt32) :=
  match e.sections[sym.stShndx.toNat]? with
  | none => .error (.death "gelf_getshdr failed\n")
  | some scn => .ok (scn, e.shType sym.stShndx.toNat)

/-- Whether what a variable of this length starts with has changed. -/
def initializerChanged (elfOld elfNew : UnitElf arch) (name : List UInt8) (length : Int32) : Except Fault Bool := do
  let symIdxOld := elfOld.getSymtabIdx name
  let symIdxNew := elfNew.getSymtabIdx name
  -- without one of the symbols there is only a warning
  if symIdxOld = 0 ∨ symIdxNew = 0 then .ok false
  else do
    let symOld ← elfOld.getSymbol symIdxOld
    let symNew ← elfNew.getSymbol symIdxNew
    if ¬ Special symOld ∧ ¬ Special symNew then do
      let scnOld ← elfOld.symbolScn symOld
      let scnNew ← elfNew.symbolScn symNew
      if scnOld.2 ≠ shtNobits ∧ scnNew.2 ≠ shtNobits then do
        let initializerOld ← dataAt scnOld.1 (arch.addr symOld.stValue)
        let initializerNew ← dataAt scnNew.1 (arch.addr symNew.stValue)
        memcmpDiffers initializerOld initializerNew length
      else .ok (decide (scnOld.2 ≠ scnNew.2))
    else if symOld.stShndx ≠ symNew.stShndx then
      .error (.death "This isn't implemented yet, poke James to implement it\n")
    else .ok false

/-! ## getTypeTransformationInfoForCU -/

/-- A variable of the new unit, with the old type whose transformer is used; none for a const one. -/
structure VarTransformation (T : Type) where
  var : VarInfo T
  transform : Option T

section
variable [DecidableEq T] (g : Versions T) (fuel : Nat) (cuOld cuNew : UnitInfo arch T)

def varNeedsTransform (var patchedVar : VarInfo T) : TypediffM T Bool := do
  let st ← get
  if (st.transformer var.type).isSome then pure true
  else do
    let same ← compareTypesAndGenTransforms g.types fuel var.type patchedVar.type
    if same then do
      let changed ← orFault (initializerChanged cuOld.elf cuNew.elf var.name (g.types var.type).length)
      pure (changed && (g.types var.type).type = .const)
    else do
      let st ← get
      -- `abort()`, behind a message of its own
      if (st.transformer var.type).isNone then
        fault (.death ("Error, cannot generate type transformation for variable " ++ nameText var.name ++ "\n"))
      else pure true

def varTransformation (var : VarInfo T) : TypediffM T (Option (VarTransformation T)) :=
  match cuNew.getVar var.name with
  | none => pure none
  | some patchedVar => do
    let needsTransform ← varNeedsTransform g fuel cuOld cuNew var patchedVar
    let st ← get
    if ¬ needsTransform then pure none
    else if (g.types patchedVar.type).type = .const then pure (some ⟨patchedVar, none⟩)
    else if (st.transformer var.type).isNone then
      fault (.death "the transformation info for that variable doesn't exist!\n")
    else pure (some ⟨patchedVar, some var.type⟩)

def varTransformations : List (VarInfo T) → TypediffM T (List (VarTransformation T))
  | [] => pure []
  | var :: vars => do
    let first ← varTransformation g fuel cuOld cuNew var
    let rest ← varTransformations vars
    pure (first.toList ++ rest)

def getTypeTransformationInfoForCU : TypediffM T (List (VarTransformation T)) :=
  varTransformations g fuel cuOld cuNew cuOld.globalVars

end

/-! ## writeUnsafety -/

/-- `listAppend` to the types of the function of that name. -/
def addUsedType (name : List UInt8) (type : T) (sub : UnitSubprogram arch T) : UnitSubprogram arch T :=
  if sub.name = name then { sub with typesHead := sub.typesHead ++ [type] } else sub

/-- A relocation that refers to a variable: the function that it lies in uses the type. -/
def markFunction (cuNew : UnitInfo arch T) (var : VarInfo T) (subprograms : List (UnitSubprogram arch T))
    (reloc : UInt32 × RelocInfo arch) : Except Fault (List (UnitSubprogram arch T)) :=
  match cuNew.elf.sections[reloc.1.toNat]? with
  | none => .error (.death "gelf_getshdr failed\n")
  | some scn =>
    if scn.name.take 5 = textStart then
      let funcSymIdx := cuNew.elf.findFunction reloc.2.rOffset reloc.1
      if funcSymIdx = 0 then .ok subprograms
      else do
        let funcSym ← cuNew.elf.getSymbol funcSymIdx
        match getSubprogram subprograms funcSym.name with
        | none =>
          .error (.death ("Function " ++ nameText funcSym.name ++ " expected in compilation unit " ++
            cuNew.name.getD "(null)" ++ " but its info structure was not found\n"))
        | some _ => .ok (subprograms.map (addUsedType funcSym.name var.type))
    else .ok subprograms

def markFunctions (cuNew : UnitInfo arch T) (subprograms : List (UnitSubprogram arch T))
    (transformation : VarTransformation T) : Except Fault (List (UnitSubprogram arch T)) :=
  let var := transformation.var
  let symIdx := cuNew.elf.getSymtabIdx var.name
  if symIdx = 0 then .error (.death ("Could not find symbol for variable " ++ nameText var.name ++ "\n"))
  else do
    let relocations ← cuNew.elf.getRelocationItemsFor symIdx
    relocations.foldlM (markFunction cuNew var) subprograms

/-- The functions of the new unit, with what they use. -/
def writeUnsafety (cuNew : UnitInfo arch T) (varTransformsList : List (VarTransformation T)) :
    Except Fault (List (UnitSubprogram arch T)) :=
  varTransformsList.foldlM (markFunctions cuNew) cuNew.subprograms

/-! ## writeFuncTransformationInfoForCU -/

/-- A function without a symbol cannot be put on the list. -/
def addUnsafeSubprogram (cuNew : UnitInfo arch T) (sub : UnitSubprogram arch T) : Except Fault (List (List UInt8)) := do
  assert (cuNew.elf.getSymtabIdx sub.name ≠ 0)
  .ok [sub.name]

/-- The loop over the types that a function uses. -/
def usesTransformer (st : TypediffState T) (sub : UnitSubprogram arch T) : Bool :=
  sub.typesHead.any fun type => (st.transformer type).isSome

def writeFuncTransformationInfo (st : TypediffState T) (cuOld cuNew : UnitInfo arch T)
    (subprograms : List (UnitSubprogram arch T)) (func : UnitSubprogram arch T) : Except Fault (List (List UInt8)) :=
  match getSubprogram subprograms func.name with
  | none => .ok []
  | some patchedFunc => do
    let identical ← areSubprogramsIdentical cuOld.elf.toCodeElf cuNew.elf.toCodeElf func.toSubprogramInfo
      patchedFunc.toSubprogramInfo
    if ¬ identical then addUnsafeSubprogram cuNew patchedFunc
    else if func.hasVariableParams then addUnsafeSubprogram cuNew patchedFunc
    else if usesTransformer st patchedFunc then addUnsafeSubprogram cuNew patchedFunc
    else .ok []

/-- The names of the functions that are put on the list. -/
def writeFuncTransformationInfoForCU (st : TypediffState T) (cuOld cuNew : UnitInfo arch T)
    (subprograms : List (UnitSubprogram arch T)) : Except Fault (List (List UInt8)) := do
  let names ← cuOld.subprograms.mapM (writeFuncTransformationInfo st cuOld cuNew subprograms)
  .ok names.flatten

/-- What is done for a pair of units, as far as the list is concerned. -/
def unsafeOfUnit [DecidableEq T] (g : Versions T) (fuel : Nat) (cuOld cuNew : UnitInfo arch T) :
    TypediffM T (List (List UInt8)) := do
  let varTransformsList ← getTypeTransformationInfoForCU g fuel cuOld cuNew
  let subprograms ← orFault (writeUnsafety cuNew varTransformsList)
  let st ← get
  orFault (writeFuncTransformationInfoForCU st cuOld cuNew subprograms)

/-! ## What the list is for -/

/-- The old version of a type has a transformer to it. -/
def Transformed (st : TypediffState T) (type : T) : Prop :=
  ∃ old transform, st.transformer old = some transform ∧ transform.toType = type

/-- A relocation within the function's symbol refers to the variable. -/
def RefersTo (e : CodeElf arch) (sub : SubprogramInfo arch) (var : VarInfo T) : Prop :=
  e.getSymtabIdx var.name ≠ 0 ∧ ∃ scn ∈ e.sections.drop 1, ∃ entry ∈ scn.entries.getD [],
    entry.symIdx = e.getSymtabIdx var.name ∧
    (∃ text, e.sections[scn.shInfo.toNat]? = some text ∧ text.name.take 5 = textStart) ∧
    e.findFunction entry.rOffset scn.shInfo ≠ 0 ∧
    ∃ sym, e.symtab[e.findFunction entry.rOffset scn.shInfo]? = some sym ∧ sym.name = sub.name

/-- By a parameter or a local, or by a relocation to a variable. -/
def UsesTransformed (st : TypediffState T) (cuNew : UnitInfo arch T) (sub : UnitSubprogram arch T) : Prop :=
  (∃ type ∈ sub.typesHead, Transformed st type) ∨
    ∃ var ∈ cuNew.globalVars, RefersTo cuNew.elf.toCodeElf sub.toSubprogramInfo var ∧ Transformed st var.type

/-- A function that both units have, and the verdict on its text. -/
def Judged (cuOld cuNew : UnitInfo arch T) (func patchedFunc : UnitSubprogram arch T) (identical : Bool) : Prop :=
  func ∈ cuOld.subprograms ∧ patchedFunc ∈ cuNew.subprograms ∧ func.name = patchedFunc.name ∧
    areSubprogramsIdentical cuOld.elf.toCodeElf cuNew.elf.toCodeElf func.toSubprogramInfo
      patchedFunc.toSubprogramInfo = .ok identical

/-- **No function that uses a transformed type is missing**, and none whose text changed. -/
def ListComplete (st : TypediffState T) (cuOld cuNew : UnitInfo arch T) (names : List (List UInt8)) : Prop :=
  ∀ func patchedFunc, (Judged cuOld cuNew func patchedFunc true → UsesTransformed st cuNew patchedFunc →
    patchedFunc.name ∈ names) ∧ (Judged cuOld cuNew func patchedFunc false → patchedFunc.name ∈ names)

/-- The states a patch is written through: nothing is compared, and then what there is in one pair of units after the
other. -/
inductive PatchRun [DecidableEq T] (g : Versions T) (arch : Arch) : TypediffState T → Prop
  | fresh : PatchRun g arch .fresh
  | unit {st st' : TypediffState T} {fuel : Nat} {cuOld : VersionUnit g arch false} {cuNew : VersionUnit g arch true}
      {names : List (List UInt8)} : PatchRun g arch st →
    unsafeOfUnit g fuel cuOld.toUnitInfo cuNew.toUnitInfo st = .ok names st' → PatchRun g arch st'

/-! ## Only old types have transformers -/

def OldOnly (g : Versions T) (st : TypediffState T) : Prop := ∀ a, g.isNew a = true → st.transformer a = none

section
variable {g : Versions T} {st st' : TypediffState T}

theorem OldOnly.congr (h : OldOnly g st) (htransformer : st'.transformer = st.transformer) : OldOnly g st' := by
  intro a ha
  rw [htransformer]
  exact h a ha

theorem keeps_orFault {α : Type} (x : Except Fault α) : Keeps (OldOnly g) (orFault x : TypediffM T α) :=
  keeps_fromExcept _

theorem keeps_fault {α : Type} (f : Fault) : Keeps (OldOnly g) (fault f : TypediffM T α) := keeps_throw _

theorem Versions.field_old {a : T} (ha : g.isNew a = false) {field : TypeField T} (h : field ∈ (g.types a).fields) :
    g.isNew field.type = false := (g.fields a field h).trans ha

theorem Versions.pointed_old {a x : T} (ha : g.isNew a = false) (h : (g.types a).pointedType = some x) :
    g.isNew x = false := (g.pointed a x h).trans ha

variable [DecidableEq T] {recur : T → T → TypediffM T Bool}

def OldKeeps (g : Versions T) (recur : T → T → TypediffM T Bool) : Prop :=
  ∀ a b, g.isNew a = false → Keeps (OldOnly g) (recur a b)

omit [DecidableEq T] in
theorem OldOnly.update {a : T} (h : OldOnly g st) (ha : g.isNew a = false) (transformer : Option (TypeTransform T))
    [DecidableEq T] (htransformer : st'.transformer = Function.update st.transformer a transformer) : OldOnly g st' := by
  intro x hx
  have hne : x ≠ a := by
    intro heq
    rw [heq, ha] at hx
    cases hx
  rw [htransformer, Function.update_of_ne hne]
  exact h x hx

omit [DecidableEq T] in
theorem comparePointed_keeps (hrec : OldKeeps g recur) {a b : T} (ha : g.isNew a = false) :
    Keeps (OldOnly g) (comparePointed g.types recur a b) := by
  unfold comparePointed
  split
  · rename_i pointed pointed' hpointed _
    exact hrec pointed pointed' (Versions.pointed_old ha hpointed)
  · exact keeps_fault _

omit [DecidableEq T] in
theorem compareContents_keeps (hrec : OldKeeps g recur) {a b : T} (ha : g.isNew a = false) (retval : Bool) :
    Keeps (OldOnly g) (compareContents g.types recur a b retval) := by
  have hpointed := comparePointed_keeps (b := b) hrec ha
  unfold compareContents
  cases (g.types a).type with
  | array =>
    dsimp only
    split
    · exact keeps_fault _
    · exact (keeps_orFault _).bind fun bounds => hpointed.bind fun pointed => keeps_pure _
  | pointer => exact hpointed.bind fun pointed => keeps_pure _
  | const => exact hpointed.bind fun pointed => keeps_pure _
  | _ => exact keeps_pure _

theorem setTransformer_keeps {a : T} (ha : g.isNew a = false) (f : TypeTransform T → TypeTransform T) :
    Keeps (OldOnly g) (setTransformer a f) := fun _ hst => hst.update ha _ rfl

omit [DecidableEq T] in
theorem fieldTransformType_keeps (hrec : OldKeeps g recur) {x y : T} (hx : g.isNew x = false) :
    Keeps (OldOnly g) (fieldTransformType g.types recur x y) := by
  have hpointer : Keeps (OldOnly g) (pointedTransform g.types recur x y) := by
    unfold pointedTransform
    split
    · rename_i pointed pointed' hpointed _
      refine (hrec pointed pointed' (Versions.pointed_old hx hpointed)).bind fun same => ?_
      refine keeps_get.bind fun st => ?_
      split
      · exact keeps_pure _
      · exact keeps_pure _
    · exact keeps_fault _
  unfold fieldTransformType
  split
  · exact keeps_pure _
  · exact keeps_pure _
  · exact keeps_pure _
  · exact keeps_pure _
  · exact hpointer
  · exact hpointer
  · exact keeps_fault _

omit [DecidableEq T] in
theorem recurseIntoField_keeps (hrec : OldKeeps g recur) (a : T) {x y : T} (hx : g.isNew x = false) :
    Keeps (OldOnly g) (recurseIntoField g.types recur a x y) := by
  refine (hrec x y hx).bind fun same => keeps_get.bind fun st => ?_
  split
  · exact keeps_pure _
  · split
    · exact keeps_pure _
    · split
      · exact keeps_fault _
      · exact keeps_pure _

theorem checkTransformer_keeps (x y : T) : Keeps (OldOnly g) (checkTransformer x y) := by
  refine keeps_get.bind fun st => ?_
  split
  · split
    · exact keeps_fault _
    · split
      · exact keeps_fault _
      · exact keeps_pure _
  · exact keeps_pure _

theorem fieldTransform_keeps (hrec : OldKeeps g recur) (a b : T) {field : TypeField T}
    (hfield : g.isNew field.type = false) : Keeps (OldOnly g) (fieldTransform g.types recur a b field) := by
  unfold fieldTransform
  split
  · exact keeps_fault _
  · split
    · exact keeps_pure _
    · refine (fieldTransformType_keeps hrec hfield).bind fun how => ?_
      cases how with
      | none => exact keeps_pure _
      | some transformType =>
        refine (checkTransformer_keeps _ _).bind fun _ => ?_
        dsimp only
        split
        · exact (recurseIntoField_keeps hrec a hfield).bind fun transformable => keeps_pure _
        · exact (keeps_pure _).bind fun transformable => keeps_pure _

theorem transformFields_keeps (hrec : OldKeeps g recur) {a : T} (ha : g.isNew a = false) (b : T)
    (fields : List (TypeField T)) (hfields : ∀ field ∈ fields, g.isNew field.type = false) :
    Keeps (OldOnly g) (transformFields g.types recur a b fields) := by
  induction fields with
  | nil => exact keeps_pure _
  | cons field fields ih =>
    refine (fieldTransform_keeps hrec a b (hfields field List.mem_cons_self)).bind fun x => ?_
    cases x with
    | none => exact (setTransformer_keeps ha _).bind fun _ => keeps_pure _
    | some x =>
      exact (setTransformer_keeps ha _).bind fun _ => ih fun field h => hfields field (List.mem_cons_of_mem _ h)

/-- **A comparison gives transformers to types of the version that it starts at.** -/
theorem compare_oldOnly (fuel : Nat) : OldKeeps g (compareTypesAndGenTransforms g.types fuel) := by
  induction fuel with
  | zero => exact fun a b _ => keeps_throw _
  | succ fuel ih =>
    intro a b ha
    unfold compareTypesAndGenTransforms
    refine keeps_get.bind fun st => ?_
    split
    · exact keeps_pure _
    · split
      · split
        · exact keeps_fault _
        · split
          · exact keeps_fault _
          · exact keeps_pure _
      · refine (keeps_modify fun st hst => hst.congr rfl).bind fun _ => ?_
        refine (compareContents_keeps ih ha _).bind fun retval => ?_
        split
        · exact (keeps_modify fun st hst => hst.congr rfl).bind fun _ => keeps_pure _
        · refine (keeps_modify fun st hst => hst.update ha _ rfl).bind fun _ => ?_
          exact transformFields_keeps ih ha b _ fun field h => Versions.field_old ha h

theorem varNeedsTransform_keeps (fuel : Nat) (cuOld cuNew : UnitInfo arch T) {var : VarInfo T}
    (hvar : g.isNew var.type = false) (patchedVar : VarInfo T) :
    Keeps (OldOnly g) (varNeedsTransform g fuel cuOld cuNew var patchedVar) := by
  refine keeps_get.bind fun st => ?_
  split
  · exact keeps_pure _
  · refine (compare_oldOnly fuel _ _ hvar).bind fun same => ?_
    split
    · exact (keeps_orFault _).bind fun changed => keeps_pure _
    · refine keeps_get.bind fun st => ?_
      split
      · exact keeps_fault _
      · exact keeps_pure _

theorem varTransformation_keeps (fuel : Nat) (cuOld cuNew : UnitInfo arch T) {var : VarInfo T}
    (hvar : g.isNew var.type = false) : Keeps (OldOnly g) (varTransformation g fuel cuOld cuNew var) := by
  unfold varTransformation
  split
  · exact keeps_pure _
  · refine (varNeedsTransform_keeps fuel cuOld cuNew hvar _).bind fun needsTransform => keeps_get.bind fun st => ?_
    split
    · exact keeps_pure _
    · split
      · exact keeps_pure _
      · split
        · exact keeps_fault _
        · exact keeps_pure _

theorem varTransformations_keeps (fuel : Nat) (cuOld cuNew : UnitInfo arch T) (vars : List (VarInfo T))
    (hvars : ∀ var ∈ vars, g.isNew var.type = false) :
    Keeps (OldOnly g) (varTransformations g fuel cuOld cuNew vars) := by
  induction vars with
  | nil => exact keeps_pure _
  | cons var vars ih =>
    refine (varTransformation_keeps fuel cuOld cuNew (hvars var List.mem_cons_self)).bind fun first => ?_
    exact (ih fun var h => hvars var (List.mem_cons_of_mem _ h)).bind fun rest => keeps_pure _

theorem unsafeOfUnit_keeps (fuel : Nat) (cuOld : VersionUnit g arch false) (cuNew : UnitInfo arch T) :
    Keeps (OldOnly g) (unsafeOfUnit g fuel cuOld.toUnitInfo cuNew) :=
  (varTransformations_keeps fuel _ cuNew _ cuOld.varTypes).bind fun _ => (keeps_orFault _).bind fun _ =>
    keeps_get.bind fun _ => keeps_orFault _

/-- Whatever units have been gone through, only old types have transformers. -/
theorem PatchRun.oldOnly (h : PatchRun g arch st) : OldOnly g st := by
  induction h with
  | fresh => exact fun _ _ => rfl
  | unit _ hrun ih => exact (unsafeOfUnit_keeps _ _ _).ok ih hrun

end

/-! ## What functions are found to use -/

section
variable {g : Versions T} {cuOld : VersionUnit g arch false} {cuNew : VersionUnit g arch true}
  {subprograms subprograms' : List (UnitSubprogram arch T)} {st : TypediffState T} {names : List (List UInt8)}

/-- The functions of the new unit, with new types that they use. -/
structure FunctionsOf (cuNew : VersionUnit g arch true) (subprograms : List (UnitSubprogram arch T)) : Prop where
  same : subprograms.map (·.toSubprogramInfo) = cuNew.subprograms.map (·.toSubprogramInfo)
  usedTypes : ∀ sub ∈ subprograms, ∀ t ∈ sub.typesHead, g.isNew t = true

theorem FunctionsOf.refl (cuNew : VersionUnit g arch true) : FunctionsOf cuNew cuNew.subprograms :=
  ⟨rfl, cuNew.usedTypes⟩

@[simp] theorem addUsedType_info (name : List UInt8) (type : T) (sub : UnitSubprogram arch T) :
    (addUsedType name type sub).toSubprogramInfo = sub.toSubprogramInfo := by
  unfold addUsedType
  split
  · rfl
  · rfl

theorem FunctionsOf.addUsedType (h : FunctionsOf cuNew subprograms) (name : List UInt8) {type : T}
    (htype : g.isNew type = true) : FunctionsOf cuNew (subprograms.map (addUsedType name type)) := by
  refine ⟨?_, ?_⟩
  · rw [List.map_map, ← h.same]
    exact List.map_congr_left fun sub _ => addUsedType_info name type sub
  · intro sub hsub t ht
    obtain ⟨sub, hmem, rfl⟩ := List.mem_map.mp hsub
    unfold Katana.addUsedType at ht
    split at ht
    · rcases List.mem_append.mp ht with ht | ht
      · exact h.usedTypes sub hmem t ht
      · rw [List.mem_singleton.mp ht]
        exact htype
    · exact h.usedTypes sub hmem t ht

theorem markFunction_functions {var : VarInfo T} (hvar : g.isNew var.type = true) {reloc : UInt32 × RelocInfo arch}
    (h : FunctionsOf cuNew subprograms) (hrun : markFunction cuNew.toUnitInfo var subprograms reloc = .ok subprograms') :
    FunctionsOf cuNew subprograms' := by
  unfold markFunction at hrun
  split at hrun
  · cases hrun
  · split at hrun
    · dsimp only at hrun
      split at hrun
      · cases hrun
        exact h
      · obtain ⟨funcSym, -, hrun⟩ := bind_eq_ok.mp hrun
        split at hrun
        · cases hrun
        · cases hrun
          exact h.addUsedType _ hvar
    · cases hrun
      exact h

theorem markFunctions_functions {transformation : VarTransformation T} (hvar : g.isNew transformation.var.type = true)
    (h : FunctionsOf cuNew subprograms)
    (hrun : markFunctions cuNew.toUnitInfo subprograms transformation = .ok subprograms') : FunctionsOf cuNew subprograms' := by
  unfold markFunctions at hrun
  dsimp only at hrun
  split at hrun
  · cases hrun
  · obtain ⟨relocations, -, hrun⟩ := bind_eq_ok.mp hrun
    exact foldlM_ok hrun h fun _ _ _ _ _ _ h hrun => markFunction_functions hvar h hrun

/-- What is added to what functions use is new. -/
theorem writeUnsafety_functions {varTransformsList : List (VarTransformation T)}
    (hvars : ∀ x ∈ varTransformsList, g.isNew x.var.type = true)
    (hrun : writeUnsafety cuNew.toUnitInfo varTransformsList = .ok subprograms) : FunctionsOf cuNew subprograms := by
  refine foldlM_ok (P := fun _ subprograms => FunctionsOf cuNew subprograms) hrun (.refl cuNew) ?_
  intro done x rest subprograms subprograms' hsplit h hrun
  exact markFunctions_functions (hvars x (by rw [hsplit]; simp)) h hrun

/-- The variables that functions are looked for are those of the new unit. -/
theorem varTransformation_var [DecidableEq T] {fuel : Nat} {cuOld : UnitInfo arch T} {var : VarInfo T}
    {x : VarTransformation T} {st' : TypediffState T}
    (h : varTransformation g fuel cuOld cuNew.toUnitInfo var st = .ok (some x) st') : x.var ∈ cuNew.globalVars := by
  unfold varTransformation at h
  cases hfound : cuNew.toUnitInfo.getVar var.name with
  | none =>
    rw [hfound] at h
    cases h
  | some patchedVar =>
    rw [hfound] at h
    obtain ⟨needsTransform, st1, -, h⟩ := run_bind_ok.mp h
    rw [run_bind_of_ok (get_run st1)] at h
    have hmem : patchedVar ∈ cuNew.globalVars := List.mem_of_find?_eq_some hfound
    split at h
    · cases h
    · split at h
      · cases h
        exact hmem
      · split at h
        · cases h
        · cases h
          exact hmem

theorem varTransformations_vars [DecidableEq T] {fuel : Nat} {cuOld : UnitInfo arch T} {vars : List (VarInfo T)}
    {l : List (VarTransformation T)} {st' : TypediffState T}
    (h : varTransformations g fuel cuOld cuNew.toUnitInfo vars st = .ok l st') : ∀ x ∈ l, x.var ∈ cuNew.globalVars := by
  induction vars generalizing st l with
  | nil =>
    cases h
    simp
  | cons var vars ih =>
    obtain ⟨first, st1, hfirst, h⟩ := run_bind_ok.mp h
    obtain ⟨rest, st2, hrest, h⟩ := run_bind_ok.mp h
    cases h
    intro x hx
    rcases List.mem_append.mp hx with hx | hx
    · rw [Option.mem_toList.mp hx] at hfirst
      exact varTransformation_var hfirst
    · exact ih hrest x hx

/-- **No function is found to use a type with a transformer.** -/
theorem FunctionsOf.no_transformer (h : FunctionsOf cuNew subprograms) (hst : OldOnly g st)
    {sub : UnitSubprogram arch T} (hsub : sub ∈ subprograms) : usesTransformer st sub = false := by
  unfold usesTransformer
  rw [List.any_eq_false]
  intro t ht
  rw [hst t (h.usedTypes sub hsub t ht)]
  simp

theorem FunctionsOf.getSubprogram (h : FunctionsOf cuNew subprograms) (name : List UInt8) :
    (getSubprogram subprograms name).map (·.toSubprogramInfo) =
      (getSubprogram cuNew.subprograms name).map (·.toSubprogramInfo) := by
  have hfind : ∀ l : List (UnitSubprogram arch T), (Katana.getSubprogram l name).map (·.toSubprogramInfo) =
      (l.map (·.toSubprogramInfo)).find? (·.name = name) := by
    intro l
    rw [List.find?_map]
    rfl
  rw [hfind, hfind, h.same]

/-- By the name, there is one function. -/
theorem VersionUnit.eq_of_name {new : Bool} (cu : VersionUnit g arch new) {sub sub' : UnitSubprogram arch T}
    (h : sub ∈ cu.subprograms) (h' : sub' ∈ cu.subprograms) (hname : sub.name = sub'.name) : sub = sub' :=
  List.inj_on_of_nodup_map cu.distinct h h' hname

theorem getSubprogram_iff {patchedFunc : UnitSubprogram arch T} {name : List UInt8} :
    getSubprogram cuNew.subprograms name = some patchedFunc ↔
      patchedFunc ∈ cuNew.subprograms ∧ patchedFunc.name = name := by
  constructor
  · intro h
    exact ⟨List.mem_of_find?_eq_some h, by simpa using List.find?_some h⟩
  · rintro ⟨hmem, rfl⟩
    cases hfound : getSubprogram cuNew.subprograms patchedFunc.name with
    | none => simpa using List.find?_eq_none.mp hfound patchedFunc hmem
    | some found =>
      have hname : found.name = patchedFunc.name := by simpa using List.find?_some hfound
      rw [cuNew.eq_of_name (List.mem_of_find?_eq_some hfound) hmem hname]

/-- There is one verdict on the functions of a name. -/
theorem Judged.unique {func func' patchedFunc patchedFunc' : UnitSubprogram arch T} {identical identical' : Bool}
    (h : Judged cuOld.toUnitInfo cuNew.toUnitInfo func patchedFunc identical)
    (h' : Judged cuOld.toUnitInfo cuNew.toUnitInfo func' patchedFunc' identical') (hname : func.name = func'.name) :
    func = func' ∧ identical = identical' := by
  obtain ⟨hfunc, hpatched, hsame, hverdict⟩ := h
  obtain ⟨hfunc', hpatched', hsame', hverdict'⟩ := h'
  obtain rfl := cuOld.eq_of_name hfunc hfunc' hname
  obtain rfl := cuNew.eq_of_name hpatched hpatched' (hsame.symm.trans hsame')
  rw [hverdict] at hverdict'
  exact ⟨rfl, Except.ok.inj hverdict'⟩

/-! ## The list -/

/-- What puts a function on the list. -/
def PutOn (cuOld cuNew : UnitInfo arch T) (func patchedFunc : UnitSubprogram arch T) : Prop :=
  Judged cuOld cuNew func patchedFunc false ∨ (Judged cuOld cuNew func patchedFunc true ∧ func.hasVariableParams = true)

theorem PutOn.mem {cuOld cuNew : UnitInfo arch T} {func patchedFunc : UnitSubprogram arch T}
    (h : PutOn cuOld cuNew func patchedFunc) : func ∈ cuOld.subprograms := by
  rcases h with hjudged | ⟨hjudged, -⟩
  · exact hjudged.1
  · exact hjudged.1

theorem addUnsafeSubprogram_ok {cuNew : UnitInfo arch T} {sub : UnitSubprogram arch T}
    (h : addUnsafeSubprogram cuNew sub = .ok names) : names = [sub.name] := by
  obtain ⟨-, -, h⟩ := bind_eq_ok.mp h
  cases h
  rfl

/-- One function. -/
theorem writeFuncTransformationInfo_ok (hfunctions : FunctionsOf cuNew subprograms) (hst : OldOnly g st)
    {func : UnitSubprogram arch T} (hfunc : func ∈ cuOld.subprograms)
    (h : writeFuncTransformationInfo st cuOld.toUnitInfo cuNew.toUnitInfo subprograms func = .ok names)
    {name : List UInt8} : name ∈ names ↔ name = func.name ∧
      ∃ patchedFunc, PutOn cuOld.toUnitInfo cuNew.toUnitInfo func patchedFunc := by
  have hsame := hfunctions.getSubprogram func.name
  unfold writeFuncTransformationInfo at h
  split at h
  · rename_i hnone
    cases h
    rw [hnone] at hsame
    have hnew := Option.map_eq_none_iff.mp hsame.symm
    refine iff_of_false List.not_mem_nil ?_
    rintro ⟨-, patchedFunc, hputOn⟩
    have hboth : patchedFunc ∈ cuNew.subprograms ∧ func.name = patchedFunc.name := by
      rcases hputOn with hjudged | ⟨hjudged, -⟩
      · exact ⟨hjudged.2.1, hjudged.2.2.1⟩
      · exact ⟨hjudged.2.1, hjudged.2.2.1⟩
    rw [getSubprogram_iff.mpr ⟨hboth.1, hboth.2.symm⟩] at hnew
    cases hnew
  · rename_i marked hmarked
    rw [hmarked] at hsame
    obtain ⟨patchedFunc, hfound, hinfo⟩ := Option.map_eq_some_iff.mp hsame.symm
    obtain ⟨hmem, hname⟩ := getSubprogram_iff.mp hfound
    obtain ⟨identical, hidentical, h⟩ := bind_eq_ok.mp h
    rw [show marked.toSubprogramInfo = patchedFunc.toSubprogramInfo from hinfo.symm] at hidentical
    have hjudged : Judged cuOld.toUnitInfo cuNew.toUnitInfo func patchedFunc identical :=
      ⟨hfunc, hmem, hname.symm, hidentical⟩
    have hmarkedName : marked.name = func.name := by
      rw [← hname]
      exact congrArg (·.name) hinfo.symm
    have hnot := hfunctions.no_transformer hst (List.mem_of_find?_eq_some hmarked)
    cases identical with
    | false =>
      rw [addUnsafeSubprogram_ok h, hmarkedName, List.mem_singleton]
      exact ⟨fun hmem => ⟨hmem, patchedFunc, .inl hjudged⟩, fun hname => hname.1⟩
    | true =>
      cases hvariable : func.hasVariableParams with
      | true =>
        rw [hvariable] at h
        rw [addUnsafeSubprogram_ok h, hmarkedName, List.mem_singleton]
        exact ⟨fun hmem => ⟨hmem, patchedFunc, .inr ⟨hjudged, hvariable⟩⟩, fun hname => hname.1⟩
      | false =>
        rw [hvariable, hnot] at h
        cases h
        refine iff_of_false List.not_mem_nil ?_
        rintro ⟨-, other, hjudged' | ⟨-, hyes⟩⟩
        · cases (hjudged.unique hjudged' rfl).2
        · rw [hvariable] at hyes
          cases hyes

/-- What the turns of a loop have put together. -/
theorem mem_flatten_mapM {α β : Type} {f : α → Except Fault (List β)} {l : List α} {m : List (List β)}
    (h : l.mapM f = .ok m) {z : β} {P : α → Prop} (hturn : ∀ x ∈ l, ∀ y, f x = .ok y → (z ∈ y ↔ P x)) :
    z ∈ m.flatten ↔ ∃ x ∈ l, P x := by
  induction mapM_iff.mp h with
  | nil => simp
  | cons hxy hrest ih =>
    rw [List.flatten_cons, List.mem_append, hturn _ List.mem_cons_self _ hxy,
      ih (mapM_iff.mpr hrest) fun x hx => hturn x (List.mem_cons_of_mem _ hx)]
    simp

theorem orFault_ok {α : Type} {x : Except Fault α} {r : α} {st' : TypediffState T} :
    (orFault x : TypediffM T α) st = .ok r st' ↔ x = .ok r ∧ st' = st := by
  unfold orFault
  rw [fromExcept_ok]
  cases x with
  | error f => simp [Except.mapError]
  | ok a => simp [Except.mapError]

/-- **A function is on the list exactly if its text changed or it takes any number of parameters**: the types it uses
make no difference. -/
theorem mem_unsafe_iff [DecidableEq T] {fuel : Nat} {st' : TypediffState T} (hrun : PatchRun g arch st)
    (h : unsafeOfUnit g fuel cuOld.toUnitInfo cuNew.toUnitInfo st = .ok names st') {name : List UInt8} :
    name ∈ names ↔ ∃ func patchedFunc, name = func.name ∧
      PutOn cuOld.toUnitInfo cuNew.toUnitInfo func patchedFunc := by
  have hst' := (hrun.unit h).oldOnly
  obtain ⟨varTransformsList, st1, hvars, h⟩ := run_bind_ok.mp h
  obtain ⟨subprograms, st2, hsubprograms, h⟩ := run_bind_ok.mp h
  rw [run_bind_of_ok (get_run st2)] at h
  obtain ⟨hnames, rfl⟩ := orFault_ok.mp h
  have hfunctions : FunctionsOf cuNew subprograms := by
    refine writeUnsafety_functions (fun x hx => ?_) (orFault_ok.mp hsubprograms).1
    exact cuNew.varTypes x.var (varTransformations_vars hvars x hx)
  obtain ⟨turns, hturns, hnames⟩ := bind_eq_ok.mp hnames
  cases hnames
  rw [mem_flatten_mapM hturns fun func hfunc turn hturn =>
    writeFuncTransformationInfo_ok hfunctions hst' hfunc hturn]
  constructor
  · rintro ⟨func, hfunc, hname, patchedFunc, hputOn⟩
    exact ⟨func, patchedFunc, hname, hputOn⟩
  · rintro ⟨func, patchedFunc, hname, hputOn⟩
    exact ⟨func, hputOn.mem, hname, patchedFunc, hputOn⟩

end

/-! ## A counter -/

inductive CounterType where
  | oldCounter | newCounter | oldInt | newInt
  deriving DecidableEq

/-- A counter whose value moved. -/
def counterTypes : CounterType → TypeInfo CounterType
  | .oldCounter => ⟨"counter", .struct, 4, [⟨"value", 0, .oldInt⟩], none, []⟩
  | .newCounter => ⟨"counter", .struct, 8, [⟨"value", 4, .newInt⟩], none, []⟩
  | .oldInt | .newInt => ⟨"int", .base, 4, [], none, []⟩

def counterVersions : Versions CounterType where
  types := counterTypes
  isNew type := type = .newCounter ∨ type = .newInt
  pointed a x h := by cases a with | _ => cases h
  fields a field h := by
    cases a with
    | oldCounter => rw [List.mem_singleton.mp h]; rfl
    | newCounter => rw [List.mem_singleton.mp h]; rfl
    | _ => cases h

def counterElf : UnitElf .x86_64 where
  fname := "counter.o"
  sections := [⟨⟨0, false, []⟩, [], 0, none⟩, ⟨⟨0, true, [195]⟩, textStart, 0, none⟩]
  symtab := [⟨⟨0, 0, 0, 0⟩, [], 0, 0⟩, ⟨⟨0, 1, 2, 1⟩, [102], 1, 0⟩, ⟨⟨4, 4, 1, 0xfff2⟩, [99], 1, 0⟩]
  textIdx := 1
  shType _ := 1

def counterInfo (type : CounterType) (hasVariableParams : Bool) : UnitInfo .x86_64 CounterType where
  name := some "counter.c"
  elf := counterElf
  globalVars := [⟨[99], type⟩]
  subprograms := [⟨⟨[102], 0, 1⟩, [type], hasVariableParams⟩]

/-- The function has a counter for a parameter. -/
def counterOld (hasVariableParams : Bool) : VersionUnit counterVersions .x86_64 false where
  toUnitInfo := counterInfo .oldCounter hasVariableParams
  varTypes := by simp [counterInfo, counterVersions]
  usedTypes := by simp [counterInfo, counterVersions]
  distinct := by simp [counterInfo]

def counterNew (hasVariableParams : Bool) : VersionUnit counterVersions .x86_64 true where
  toUnitInfo := counterInfo .newCounter hasVariableParams
  varTypes := by simp [counterInfo, counterVersions]
  usedTypes := by simp [counterInfo, counterVersions]
  distinct := by simp [counterInfo]

theorem counter_run (hasVariableParams : Bool) : ∃ st', unsafeOfUnit counterVersions 2
    (counterOld hasVariableParams).toUnitInfo (counterNew hasVariableParams).toUnitInfo .fresh =
      .ok (if hasVariableParams then [[102]] else []) st' ∧ Transformed st' .newCounter := by
  cases hasVariableParams with
  | false => exact ⟨_, rfl, .oldCounter, _, rfl, rfl⟩
  | true => exact ⟨_, rfl, .oldCounter, _, rfl, rfl⟩

end Katana
