/-
  Katana.DwarfVm — applying the rules of an FDE to the target (dwarfvm.c, `resolveRegisterValue` of
  register.c, `concatLists` of util/list.c).

  The rules of an FDE are turned into patches, bytes and where they go. A fixup goes on into another FDE
  by value, or behind a pointer to an object that has not been moved yet; `dataMoved` has the ones that
  have. Only when all patches are there are they written.

  The recursion need not end: it is given fuel. The ELF lookups but the scan of the symbol table, and what
  the target does itself, are parameters.

  Proved, for every patch, target and fuel:
  - `StepInvariant.generate`: what the evaluation of an FDE and the move of one object keep is kept by the
    whole recursion, whether it returns or not.
-/
import Katana.Rules
import Katana.Map
import Katana.Target
import Katana.Lib.Run

namespace Katana

open Lib Lib.Run

/-! ## The state -/

inductive Halt where
  | fault (f : Fault)
  | outOfFuel
  deriving DecidableEq, Repr

/-- What is logged on the way, by the old address of the object. -/
inductive Event where
  | mallocced (addrOld : UInt64)
  | fixedUp (addrOld : UInt64)
  deriving DecidableEq, Repr

/-- The globals `stateStack` and `dataMoved`, the target, and the log with its newest event first. -/
structure VM (H : Type) where
  stateStack : List (Dictionary PoRegRule)
  dataMoved : SizeTMap UInt64
  target : Target H
  log : List Event

abbrev VMM (H : Type) := EStateM Halt (VM H)

structure SpecialRegsState where
  currAddrOld : UInt64
  currAddrNew : UInt64
  cfaValue : UInt64
  deriving DecidableEq, Repr

structure ElfSym where
  stValue : UInt64
  stSize : UInt64
  stType : UInt8
  stShndx : UInt16
  deriving DecidableEq, Repr

/-- The executing binary, the patch and the patched binary, as far as they are looked into. -/
structure Binaries where
  oldSymtab : List ElfSym
  patchSymtab : List ElfSym
  /-- From the executing binary to the patch; 0 is `STN_UNDEF`. -/
  reindexSymbol : Nat → Nat
  /-- The index of the patch's data section. -/
  patchDataScn : UInt16
  /-- The address of `.data.new` in the patched binary. -/
  dataNewAddr : Option UInt64
  callFrameInfo : CallFrameInfo
  memSize : List Int32

structure PatchData where
  addr : UInt64
  data : List UInt8
  len : UInt32
  size : data.length = len.toNat
  deriving DecidableEq, Repr

variable {H : Type} (process : Process H) (bins : Binaries)

def lift {α : Type} (x : Except Fault α) : VMM H α := fromExcept (x.mapError .fault)

/-! ## Symbols -/

def sttObject : UInt8 := 1

def sttFunc : UInt8 := 2

/-- A symbol of this type in this section, any one for `SHN_UNDEF`, to which the address belongs. -/
def symbolContains (type : UInt8) (scnIdx : UInt32) (addr : UInt64) (sym : ElfSym) : Bool :=
  sym.stType == type && (sym.stShndx.toUInt32 == scnIdx || scnIdx == 0) &&
    (sym.stValue == addr || (sym.stValue ≤ addr && sym.stValue + sym.stSize > addr))

/-- `findSymbolContainingAddress`, from symbol 1 on; 0 is `STN_UNDEF`. -/
def symbolContaining (symtab : List ElfSym) (addr : UInt64) (type : UInt8) (scnIdx : UInt32) : Nat :=
  match (symtab.drop 1).findIdx? (symbolContains type scnIdx addr) with
  | some i => i + 1
  | none => 0

def containsAddress (addr : UInt64) (sym : ElfSym) : Bool := symbolContains sttObject 0 addr sym

/-- `findSymbolContainingAddress(oldBinaryElf,addr,STT_OBJECT,SHN_UNDEF)`. -/
def findSymbolContainingAddress (addr : UInt64) : Nat := symbolContaining bins.oldSymtab addr sttObject 0

def getSymAddress (symIdx : Int32) : Except Fault UInt64 :=
  match if 0 ≤ symIdx then bins.oldSymtab[symIdx.toInt.toNat]? else none with
  | some sym => .ok sym.stValue
  | none => .error (.death "gelf_getsym failed in getSymAddress\n")

/-- Where a variable of the executing binary has been moved to. -/
def movedSymbol (symIdxOld : Nat) : Except Fault UInt64 :=
  let symIdxPatch := bins.reindexSymbol symIdxOld
  if symIdxPatch = 0 then
    .error (.death ("need to fix up a pointer that is supposedly part of a variable (rather than arbitrary stuff " ++
      "on the heap) but the patch doesn't seem to contain this variable\n"))
  else
    match bins.patchSymtab[symIdxPatch]? with
    | none => .error (.death "gelf_getsym failed\n")
    | some sym => do
      assert (sym.stShndx = bins.patchDataScn)
      match bins.dataNewAddr with
      | none => .error .assertion
      | some shAddr => .ok (shAddr + sym.stValue)

/-! ## Registers -/

/-- `E_REG_RESOLVE_FLAGS`, which are never combined. -/
inductive ResolveFlag where
  | none | assign | dereference
  deriving DecidableEq, Repr

/-- The message goes on with the file and the line. -/
def noMemory : Fault := .death "No enough memory"

def addrBytes (addr : UInt64) : List UInt8 := toLE 8 addr.toNat

/-- `memcpy` of eight bytes into an `addr_t`. -/
def addrOfBytes (bytes : List UInt8) : UInt64 := UInt64.ofNat (leNat bytes)

def resolveAddress (t : Target H) (addr : UInt64) (size : Int32) (flag : ResolveFlag) : Except Fault (List UInt8) :=
  if addr = 0 then .error (.death "resolveRegisterValue should have returned by now\n")
  else if flag ≠ .dereference then .ok (addrBytes addr)
  else if size < 0 then .error noMemory
  else memcpyFromTarget process t addr size

def resolveRegisterValue (t : Target H) (reg : PoReg) (state : SpecialRegsState) (flag : ResolveFlag) :
    Except Fault (List UInt8) :=
  match reg.type with
  | .none => .error (.death "resolveRegisterValue cannot be called on a register of NONE type\n")
  | .currTargNew => resolveAddress process t (state.currAddrNew + addrOfInt reg.u) reg.size flag
  | .currTargOld =>
    if flag = .assign then .error (.death "Cannot assign a memory value in the old version of the target\n")
    else resolveAddress process t (state.currAddrOld + addrOfInt reg.u) reg.size flag
  | .expr => .error (.death "expressions not supported yet. Poke the developer\n")
  | .oldSymVal =>
    if flag = .assign then .error (.death "Cannot assign a symbol  in the old version of the target\n")
    else do
      let addr ← getSymAddress bins reg.u
      .ok (addrBytes addr)
  | .newSymVal => .error (.death "ERT_NEW_SYM_VAL not supported yet. Poke the developer\n")
  | .cfa => .error (.death "ERT_CFA not supported yet. Poke the developer\n")
  | _ => .error (.death "unknown register type\n")

def resolveToAddress (t : Target H) (reg : PoReg) (state : SpecialRegsState) (flag : ResolveFlag) (otherwise : Fault) :
    Except Fault UInt64 := do
  let bytes ← resolveRegisterValue process bins t reg state flag
  if bytes.length = 8 then .ok (addrOfBytes bytes) else .error otherwise

/-! ## Patches -/

/-- The bytes at an address, their number in a uint. -/
def PatchData.ofBytes (addr : UInt64) (data : List UInt8) : Except Fault PatchData :=
  if h : data.length < 2 ^ 32 then .ok ⟨addr, data, UInt32.ofNat data.length, (UInt32.toNat_ofNat_of_lt' h).symm⟩
  else .error .undefined

def PatchData.pointer (addr value : UInt64) : PatchData := ⟨addr, addrBytes value, 8, length_toLE 8 value.toNat⟩

/-- The FDE with a 1-based index; one that is not there is read from behind the array. -/
def patchFDE (index : UInt64) : Except Fault FDE :=
  match bins.callFrameInfo.fdes[(index - 1).toNat]? with
  | some fde => .ok fde
  | none => .error .undefined

def patchMemSize (index : UInt64) : Except Fault UInt64 :=
  match bins.memSize[(index - 1).toNat]? with
  | some size => .ok (addrOfInt size)
  | none => .error .undefined

/-- `pointedObjectNewLocation`. -/
def newLocation (index addrOld : UInt64) : VMM H UInt64 := do
  let symIdxOld := findSymbolContainingAddress bins addrOld
  if symIdxOld ≠ 0 then lift (movedSymbol bins symIdxOld)
  else do
    let size ← lift (patchMemSize bins index)
    let vm ← get
    let answer ← lift (mallocTarget process vm.target size)
    modify fun vm => { vm with target := answer.2, log := .mallocced addrOld :: vm.log }
    pure answer.1

/-- A pointer to an object that has not been moved yet. -/
def fixupPointer (recur : FDE → SpecialRegsState → VMM H (List PatchData)) (index addrOld resultAddr : UInt64)
    (state : SpecialRegsState) : VMM H (List PatchData) := do
  let pointedObjectNewLocation ← newLocation process bins index addrOld
  let vm ← get
  let dataMoved ← lift (mapInsert vm.dataMoved addrOld pointedObjectNewLocation)
  modify fun vm => { vm with dataMoved, log := .fixedUp addrOld :: vm.log }
  let fde ← lift (patchFDE bins index)
  let nested ← recur fde { state with currAddrOld := addrOld, currAddrNew := pointedObjectNewLocation }
  pure (.pointer resultAddr pointedObjectNewLocation :: nested)

def makePatchData (recur : FDE → SpecialRegsState → VMM H (List PatchData)) (rule : PoRegRule)
    (state : SpecialRegsState) : VMM H (List PatchData) := do
  let vm ← get
  let resultAddr ← lift (resolveToAddress process bins vm.target rule.regLH state .assign
    (.death "left hand register must always yield an address"))
  match rule.type with
  | .undef => pure []
  | .offset => do
    let len := if rule.regLH.size ≠ 0 then rule.regLH.size.toUInt32 else 8
    -- a size of 2^31 or more is a negative int: nothing is read over the zeros
    let read ← lift (memcpyFromTarget process vm.target (state.cfaValue + addrOfInt rule.offset) len.toInt32)
    let patch ← lift (PatchData.ofBytes resultAddr (read ++ List.replicate (len.toNat - read.length) 0))
    pure [patch]
  | .register => do
    let data ← lift (resolveRegisterValue process bins vm.target rule.regRH state .dereference)
    let patch ← lift (PatchData.ofBytes resultAddr data)
    pure [patch]
  | .cfa => throw (.fault (.death "cfa should have been handled earlier\n"))
  | .expr => throw (.fault (.death "expressions not handled yet. todo: implement them\n"))
  | .recurseFixup => do
    let currAddrOld ← lift (resolveToAddress process bins vm.target rule.regRH state .none .assertion)
    let fde ← lift (patchFDE bins rule.index)
    recur fde { state with currAddrOld, currAddrNew := resultAddr }
  | .recurseFixupPointer => do
    let currAddrOld ← lift (resolveToAddress process bins vm.target rule.regRH state .dereference .assertion)
    if currAddrOld = 0 then pure [.pointer resultAddr 0]
    else
      match mapGet vm.dataMoved currAddrOld with
      | some existingDataMove => pure [.pointer resultAddr existingDataMove]
      | none => fixupPointer process bins recur rule.index currAddrOld resultAddr state
  | .undefined => throw (.fault (.death "unknown register rule type\n"))

/-- Lists are their items, and an end is the index of a node. With no end for the first list its first node
is taken for it. -/
def concatLists {α : Type} (l1 : List α) (l1End : Option Nat) (l2 : List α) (l2End : Option Nat) :
    Except Fault (List α × Option Nat) :=
  match l1, l2 with
  | [], [] => .ok ([], none)
  | [], l2 => .ok (l2, some (l2End.getD (l2.length - 1)))
  | l1, [] =>
    match l1End with
    | some i => .ok (l1, some i)
    | none => .error .undefined
  | l1, l2 =>
    match l1End, l2End with
    | some i, _ => .ok (l1.take (i + 1) ++ l2, some (i + 1 + l2End.getD (l2.length - 1)))
    | none, some _ => .ok (l1.take 1 ++ l2, some l2.length)
    | none, none => .error .undefined

def patchLoop (recur : FDE → SpecialRegsState → VMM H (List PatchData)) (state : SpecialRegsState) :
    List PoRegRule → List PatchData × Option Nat → VMM H (List PatchData)
  | [], acc => pure acc.1
  | rule :: rules, acc => do
    let patchList ← makePatchData process bins recur rule state
    let acc ← lift (concatLists acc.1 acc.2 patchList none)
    patchLoop recur state rules acc

def cfaReg : PoReg := ⟨.cfa, 0, 0⟩

def cfaValueOf (t : Target H) (rules : Dictionary PoRegRule) (state : SpecialRegsState) : Except Fault UInt64 := do
  let str ← strForReg cfaReg
  match dictGet rules str with
  | some cfaRule => do
    let addr ← resolveToAddress process bins t cfaRule.regRH state .none .assertion
    .ok (addr + addrOfInt cfaRule.offset)
  | none => .ok 0

def rulesOf (fde : FDE) (stateStack : List (Dictionary PoRegRule)) : Except Fault RuleState :=
  match bins.callFrameInfo.cies[fde.cie]? with
  | some cie => evaluateInstructionsToRules cie fde.instructions (dictCreate 100) stateStack fde.lowpc fde.highpc
  | none => .error .undefined

def generatePatchesFromFDEAndState : Nat → FDE → SpecialRegsState → VMM H (List PatchData)
  | 0, _, _ => throw .outOfFuel
  | fuel + 1, fde, state => do
    let vm ← get
    let st ← lift (rulesOf bins fde vm.stateStack)
    modify fun vm => { vm with stateStack := st.stateStack }
    let cfaValue ← lift (cfaValueOf process bins vm.target st.rules state)
    patchLoop process bins (generatePatchesFromFDEAndState fuel) { state with cfaValue } (dictValues st.rules) ([], none)

def applyPatches : List PatchData → VMM H Unit
  | [] => pure ()
  | pd :: li => do
    let vm ← get
    let target ← lift (memcpyToTarget process vm.target pd.addr pd.data pd.len.toInt32)
    modify fun vm => { vm with target }
    applyPatches li

def patchDataWithFDE (fuel : Nat) (oldLocation newLocation : UInt64) (fde : FDE) : VMM H Unit := do
  let patchesList ← generatePatchesFromFDEAndState process bins fuel fde ⟨oldLocation, newLocation, 0⟩
  applyPatches process patchesList

/-! ## What a run keeps -/

section
variable {process : Process H} {bins : Binaries}

theorem lift_ok {α : Type} {x : Except Fault α} {vm vm' : VM H} {a : α} :
    (lift x : VMM H α) vm = .ok a vm' ↔ x = .ok a ∧ vm' = vm := by
  unfold lift
  rw [fromExcept_ok]
  cases x with
  | ok b => simp [Except.mapError]
  | error e => simp [Except.mapError]

theorem lift_bind_ok {α β : Type} {x : Except Fault α} {f : α → VMM H β} {vm vm' : VM H} {b : β} :
    (lift x >>= f) vm = .ok b vm' ↔ ∃ a, x = .ok a ∧ f a vm = .ok b vm' := by
  rw [run_bind_ok]
  refine ⟨?_, ?_⟩
  · intro h
    rcases h with ⟨a, s1, hx, hf⟩
    rw [lift_ok] at hx
    rw [hx.2] at hf
    exact ⟨a, hx.1, hf⟩
  · intro h
    rcases h with ⟨a, hx, hf⟩
    exact ⟨a, vm, lift_ok.mpr ⟨hx, rfl⟩, hf⟩

theorem keeps_lift {α : Type} {I : VM H → Prop} (x : Except Fault α) : Keeps I (lift x : VMM H α) := keeps_fromExcept _

/-- The FDEs a run from `root` can come to. -/
def InPatch (bins : Binaries) (root fde : FDE) : Prop := fde = root ∨ fde ∈ bins.callFrameInfo.fdes

theorem inPatch_of_patchFDE {index : UInt64} {root fde : FDE} (h : patchFDE bins index = .ok fde) :
    InPatch bins root fde := by
  unfold patchFDE at h
  split at h
  · rename_i hget
    cases h
    exact .inr (List.mem_of_getElem? hget)
  · cases h

/-- An invariant of what a run changes: the remember stack when the instructions of an FDE are evaluated, the
heap and the moved objects when one is moved. -/
structure StepInvariant (bins : Binaries) (root : FDE) (I : VM H → Prop) : Prop where
  stack : ∀ vm fde st, I vm → InPatch bins root fde → rulesOf bins fde vm.stateStack = .ok st →
    I { vm with stateStack := st.stateStack }
  move : ∀ vm addrOld addrNew heap dataMoved, I vm → mapGet vm.dataMoved addrOld = none →
    mapInsert vm.dataMoved addrOld addrNew = .ok dataMoved → ∀ log ∈ [vm.log, .mallocced addrOld :: vm.log],
    I { vm with target := { vm.target with heap }, dataMoved, log := .fixedUp addrOld :: log }

theorem lift_of_ok {α : Type} {x : Except Fault α} {a : α} (h : x = .ok a) {vm : VM H} :
    (lift x : VMM H α) vm = .ok a vm := lift_ok.mpr ⟨h, rfl⟩

theorem lift_cases {α : Type} (x : Except Fault α) (vm : VM H) :
    (∃ a, x = .ok a ∧ (lift x : VMM H α) vm = .ok a vm) ∨ ∃ f, (lift x : VMM H α) vm = .error (.fault f) vm := by
  cases x with
  | ok a => exact .inl ⟨a, rfl, rfl⟩
  | error f => exact .inr ⟨f, rfl⟩

theorem mallocTarget_ok {t t' : Target H} {len addr : UInt64} (h : mallocTarget process t len = .ok (addr, t')) :
    ∃ heap, t' = { t with heap } := by
  unfold mallocTarget at h
  split at h
  · cases h
  · split at h
    · cases h
    · dsimp only at h
      split at h
      · cases h
      · cases h
        exact ⟨_, rfl⟩

variable (process bins) in
/-- Where the object is moved to: nothing but the heap and the log changes, and nothing at all when it fails. -/
theorem newLocation_cases (index addrOld : UInt64) (vm : VM H) :
    (∃ f, newLocation process bins index addrOld vm = .error (.fault f) vm) ∨
    ∃ addrNew heap, ∃ log ∈ [vm.log, .mallocced addrOld :: vm.log],
      newLocation process bins index addrOld vm = .ok addrNew { vm with target := { vm.target with heap }, log } := by
  unfold newLocation
  dsimp only
  split
  · rcases lift_cases (movedSymbol bins (findSymbolContainingAddress bins addrOld)) vm with ⟨addrNew, -, hrun⟩ | ⟨f, hrun⟩
    · exact .inr ⟨addrNew, vm.target.heap, vm.log, by simp, hrun⟩
    · exact .inl ⟨f, hrun⟩
  · rcases lift_cases (patchMemSize bins index) vm with ⟨size, -, hsize⟩ | ⟨f, hsize⟩
    · rw [run_bind_of_ok hsize, run_bind_of_ok (get_run vm)]
      rcases lift_cases (mallocTarget process vm.target size) vm with ⟨answer, hans, hmalloc⟩ | ⟨f, hmalloc⟩
      · obtain ⟨heap, hheap⟩ := mallocTarget_ok hans
        right
        refine ⟨answer.1, heap, .mallocced addrOld :: vm.log, by simp, ?_⟩
        rw [run_bind_of_ok hmalloc, run_bind_of_ok (modify_run _ _), hheap]
        rfl
      · exact .inl ⟨f, run_bind_of_error hmalloc⟩
    · exact .inl ⟨f, run_bind_of_error hsize⟩

section
variable {recur : FDE → SpecialRegsState → VMM H (List PatchData)} {root : FDE} {I : VM H → Prop}

theorem StepInvariant.fixupPointer (hI : StepInvariant bins root I)
    (hrec : ∀ fde state, InPatch bins root fde → Keeps I (recur fde state))
    (index resultAddr : UInt64) {addrOld : UInt64} (state : SpecialRegsState) {vm : VM H} (hvm : I vm)
    (hnew : mapGet vm.dataMoved addrOld = none) :
    I (after (fixupPointer process bins recur index addrOld resultAddr state) vm) := by
  unfold Katana.fixupPointer
  rcases newLocation_cases process bins index addrOld vm with ⟨f, hrun⟩ | ⟨addrNew, heap, log, hlog, hrun⟩
  · rwa [after_of_error (run_bind_of_error hrun)]
  · have hmove := hI.move vm addrOld addrNew heap
    rw [after_bind hrun, after_bind (get_run _)]
    obtain ⟨dataMoved, hinsert⟩ := mapInsert_total hnew addrNew
    rw [after_bind (lift_of_ok hinsert), after_bind (modify_run _ _)]
    have hmoved := hmove dataMoved hvm hnew hinsert log hlog
    rcases lift_cases (patchFDE bins index) _ with ⟨fde, hfde, hrun2⟩ | ⟨f, hrun2⟩
    · rw [after_bind hrun2]
      exact ((hrec fde _ (inPatch_of_patchFDE hfde)).bind fun _ => keeps_pure _) _ hmoved
    · rwa [after_of_error (run_bind_of_error hrun2)]

theorem StepInvariant.makePatchData (hI : StepInvariant bins root I)
    (hrec : ∀ fde state, InPatch bins root fde → Keeps I (recur fde state)) (rule : PoRegRule) (state : SpecialRegsState) :
    Keeps I (makePatchData process bins recur rule state) := by
  intro vm hvm
  unfold Katana.makePatchData
  rw [after_bind (get_run vm)]
  rcases lift_cases (resolveToAddress process bins vm.target rule.regLH state .assign
    (.death "left hand register must always yield an address")) vm with ⟨resultAddr, -, hrun⟩ | ⟨f, hrun⟩
  · rw [after_bind hrun]
    cases rule.type with
    | undef => exact hvm
    | offset => exact ((keeps_lift _).bind fun _ => (keeps_lift _).bind fun _ => keeps_pure _) vm hvm
    | register => exact ((keeps_lift _).bind fun _ => (keeps_lift _).bind fun _ => keeps_pure _) vm hvm
    | cfa => exact hvm
    | expr => exact hvm
    | recurseFixup =>
      refine ((keeps_lift _).bind fun currAddrOld => ?_) vm hvm
      intro vm1 hvm1
      rcases lift_cases (patchFDE bins rule.index) vm1 with ⟨fde, hfde, hrun⟩ | ⟨f, hrun⟩
      · rw [after_bind hrun]
        exact hrec fde _ (inPatch_of_patchFDE hfde) vm1 hvm1
      · rwa [after_of_error (run_bind_of_error hrun)]
    | recurseFixupPointer =>
      dsimp only
      rcases lift_cases (resolveToAddress process bins vm.target rule.regRH state .dereference .assertion) vm with
        ⟨currAddrOld, -, hrun⟩ | ⟨f, hrun⟩
      · rw [after_bind hrun]
        split
        · exact hvm
        · cases hget : mapGet vm.dataMoved currAddrOld with
          | some existingDataMove => exact hvm
          | none => exact hI.fixupPointer hrec rule.index resultAddr state hvm hget
      · rwa [after_of_error (run_bind_of_error hrun)]
    | undefined => exact hvm
  · rwa [after_of_error (run_bind_of_error hrun)]

theorem StepInvariant.patchLoop (hI : StepInvariant bins root I)
    (hrec : ∀ fde state, InPatch bins root fde → Keeps I (recur fde state)) (state : SpecialRegsState)
    (rules : List PoRegRule)
    (acc : List PatchData × Option Nat) : Keeps I (patchLoop process bins recur state rules acc) := by
  induction rules generalizing acc with
  | nil => exact keeps_pure _
  | cons rule rules ih => exact (hI.makePatchData hrec rule state).bind fun _ => (keeps_lift _).bind fun acc => ih acc

end

theorem StepInvariant.generate {root : FDE} {I : VM H → Prop} (hI : StepInvariant bins root I) (fuel : Nat) (fde : FDE)
    (state : SpecialRegsState) (hfde : InPatch bins root fde) :
    Keeps I (generatePatchesFromFDEAndState process bins fuel fde state) := by
  induction fuel generalizing fde state with
  | zero => exact keeps_throw _
  | succ fuel ih =>
    intro vm hvm
    unfold generatePatchesFromFDEAndState
    rw [after_bind (get_run vm)]
    rcases lift_cases (rulesOf bins fde vm.stateStack) vm with ⟨st, hst, hrun⟩ | ⟨f, hrun⟩
    · rw [after_bind hrun, after_bind (modify_run _ _)]
      refine (keeps_lift _).bind (fun cfaValue => ?_) _ (hI.stack vm fde st hvm hfde hst)
      exact hI.patchLoop (fun fde state hfde => ih fde state hfde) _ _ _
    · rwa [after_of_error (run_bind_of_error hrun)]

end

end Katana
