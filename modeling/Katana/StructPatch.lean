/-
  Katana.StructPatch — a struct is patched, from its types to the memory of the target (patchwrite/typediff.c,
  patchwrite/write_to_dwarf.c, fderead.c, dwarfvm.c).

  The four stages for a plain struct: its old and its new type are compared, the transformer is written as an FDE, the
  FDE is read back and its instructions become rules, and the rules become patches. A copy has one size in both its
  registers, that of the old field; nothing after the comparison knows how long the new field is. An object whose type
  came out the same stays where it is.

  Proved, for every pair of plain structs, both locations and every memory:
  - `patchData_ends` / `patchData_bytes`: the VM gets through the copies of the table exactly when it can resolve and
    reach each of them, and every byte afterwards is then the one at its source before.
  - `structPatched_iff`: exactly which structs are patched right.
-/
import Katana.FieldCopies
import Katana.Assignment
import Katana.Lib.Copies

namespace Katana

open Lib Lib.Run

variable {T H : Type} (types : T → TypeInfo T)

/-! ## From types to memory -/

def storedFde (dwarf : Libdwarf) (fde : TransformFde T) : Except Fault FDE := do
  let buf ← addInstructions fde.instrs ⟨[], 0⟩
  let instrs := dwarf.stored buf.instrs
  let parsed ← parseFDEInstructions instrs instrs.length
  .ok ⟨0, parsed.1, 0, fde.codeLength, false, 0, 0⟩

def patchWith (bins : Binaries) (cie : CIE) (fde : FDE) : Binaries :=
  { bins with callFrameInfo := { bins.callFrameInfo with fdes := [fde], cies := [cie] } }

section
variable [DecidableEq T]

/-- The FDE that the patch has for two types; none when they are the same. -/
def transformFde (dwarf : Libdwarf) (fuel : Nat) (a b : T) : Except Halt (Option FDE) :=
  match compareTypesAndGenTransforms types fuel a b .fresh with
  | .error halt _ => .error halt
  | .ok true _ => .ok none
  | .ok false st =>
    match writeTransformationToDwarf (transformGraph types dwarf st) fuel a .fresh with
    | .error halt _ => .error halt
    | .ok _ w =>
      match w.fdes with
      | [] => .error (.fault .undefined)
      | fde :: _ =>
        match storedFde dwarf fde with
        | .error f => .error (.fault f)
        | .ok fde => .ok (some fde)

/-- The object of the first type is patched to one of the second; the result is where it is then. -/
def patchStruct (dwarf : Libdwarf) (process : Process H) (bins : Binaries) (cie : CIE) (fuel : Nat) (a b : T)
    (oldLocation newLocation : UInt64) : VMM H UInt64 :=
  match transformFde types dwarf fuel a b with
  | .error halt => throw halt
  | .ok none => pure oldLocation
  | .ok (some fde) => do
    patchDataWithFDE process (patchWith bins cie fde) fuel oldLocation newLocation fde
    pure newLocation

end

/-! ## Right images -/

def bytesIn (x : T) : Nat := (types x).length.toInt.toNat

structure CommonField (a b : T) (field new : TypeField T) : Prop where
  inOld : field ∈ (types a).fields
  inNew : new ∈ (types b).fields
  name : new.name = field.name
  kind : (types field.type).type = (types new.type).type

/-- The address is in a field that the old struct has too. -/
def InCommonField (a b : T) (location x : UInt64) : Prop :=
  ∃ field new, CommonField types a b field new ∧ ∃ i < bytesIn types new.type,
    x = location + addrOfInt new.offset + UInt64.ofNat i

/-- The fields that both structs have hold their old values, cut off or filled up with zeros; nothing else changed. -/
structure RightImage (a b : T) (oldLocation location : UInt64) (before after : Memory) : Prop where
  fields : ∀ field new, CommonField types a b field new → ∀ i < bytesIn types new.type,
    after (location + addrOfInt new.offset + UInt64.ofNat i) =
      if i < bytesIn types field.type then before (oldLocation + addrOfInt field.offset + UInt64.ofNat i) else 0
  others : ∀ x, ¬ InCommonField types a b location x → after x = before x

/-- Whatever is in memory. -/
def StructPatched [DecidableEq T] (dwarf : Libdwarf) (process : Process H) (bins : Binaries) (cie : CIE) (fuel : Nat)
    (a b : T) (oldLocation newLocation : UInt64) (vm : VM H) : Prop :=
  ∀ before : Memory, ∃ location vm', patchStruct types dwarf process bins cie fuel a b oldLocation newLocation
      { vm with target := { vm.target with bytes := before } } = .ok location vm' ∧
    RightImage types a b oldLocation location before vm'.target.bytes

/-! ## Layouts that fit -/

/-- The fields that both structs have are where they were. -/
def OffsetsKept (a b : T) : Prop :=
  ∀ field new, CommonField types a b field new → 0 < bytesIn types new.type → new.offset = field.offset

def FieldCopy.between (oldLocation newLocation : UInt64) (c : FieldCopy) : Copy :=
  ⟨newLocation + addrOfInt c.dest, oldLocation + addrOfInt c.src, c.size.toInt.toNat⟩

/-- The VM can resolve both ends of the copy and read its bytes: neither end is at 0, the size is an int that the loop can
count to, and the words that are peeked at are mapped. -/
structure Reads (process : Process H) (heap : H) (oldLocation newLocation : UInt64) (c : FieldCopy) : Prop where
  dest : newLocation + addrOfInt c.dest ≠ 0
  src : oldLocation + addrOfInt c.src ≠ 0
  nonneg : 0 ≤ c.size.toInt
  counted : c.size.toInt.toNat ≤ loopBound
  mapped : ∀ w ∈ wordsRead (oldLocation + addrOfInt c.src) c.size.toInt.toNat, wordMapped process heap w

/-- And so are those that are peeked and poked at when the bytes are written. -/
structure Applies (process : Process H) (heap : H) (oldLocation newLocation : UInt64) (c : FieldCopy) : Prop
    extends Reads process heap oldLocation newLocation c where
  written : ∀ w ∈ wordsWritten (newLocation + addrOfInt c.dest) c.size.toInt.toNat, wordMapped process heap w

/-- No common field got longer, and the copies do not run over anything: the last one that reaches a byte of a common
field is one that takes it from the old field, and one that reaches another byte last takes it from where it is. -/
structure CopiesFit (a b : T) (copies : List Copy) (oldLocation newLocation : UInt64) : Prop where
  lengths : ∀ field new, CommonField types a b field new → bytesIn types new.type ≤ bytesIn types field.type
  fields : ∀ field new, CommonField types a b field new → ∀ i < bytesIn types new.type,
    sourceOf copies (newLocation + addrOfInt new.offset + UInt64.ofNat i) =
      oldLocation + addrOfInt field.offset + UInt64.ofNat i
  others : ∀ x, ¬ InCommonField types a b newLocation x → sourceOf copies x = x

/-- Common fields keep their lengths, and have no byte of the new object in common. -/
structure FieldsApart (a b : T) (newLocation : UInt64) : Prop where
  lengths : ∀ field new, CommonField types a b field new → (types field.type).length = (types new.type).length
  apart : ∀ field new field' new', CommonField types a b field new → CommonField types a b field' new' → new ≠ new' →
    Memory.Apart (newLocation + addrOfInt new.offset) (bytesIn types new.type) (newLocation + addrOfInt new'.offset)
      (bytesIn types new'.type)

/-- The structs that differ: all fields are still there by name, their copies are few enough to be written as one FDE, and
those that are left in the table can be done and fit. -/
structure TransformFits (process : Process H) (heap : H) (a b : T) (oldLocation newLocation : UInt64) : Prop where
  kept : FieldsKept types a b
  few : (copiesOf types a b).length ≤ 2 ^ 26
  apply : ∀ c ∈ tableCopies (copiesOf types a b), Applies process heap oldLocation newLocation c
  fit : CopiesFit types a b ((tableCopies (copiesOf types a b)).map (FieldCopy.between oldLocation newLocation)) oldLocation
    newLocation

def LayoutFits (process : Process H) (heap : H) (a b : T) (oldLocation newLocation : UInt64) : Prop :=
  (StructSame types a b ∧ OffsetsKept types a b) ∨
    (¬ StructSame types a b ∧ TransformFits types process heap a b oldLocation newLocation)

/-! ## One copy in the VM -/

section
variable {process : Process H} {bins : Binaries} {recur : FDE → SpecialRegsState → VMM H (List PatchData)}
  {state : SpecialRegsState} {vm : VM H}

theorem resolve_newReg (c : FieldCopy) (t : Target H) (f : Fault) {dest : UInt64} :
    resolveToAddress process bins t c.newReg state .assign f = .ok dest ↔
      state.currAddrNew + addrOfInt c.dest ≠ 0 ∧ dest = state.currAddrNew + addrOfInt c.dest := by
  have hresolve : resolveRegisterValue process bins t c.newReg state .assign =
      resolveAddress process t (state.currAddrNew + addrOfInt c.dest) c.size .assign := rfl
  unfold resolveToAddress
  rw [hresolve]
  unfold resolveAddress
  by_cases hzero : state.currAddrNew + addrOfInt c.dest = 0
  · rw [if_pos hzero]
    refine ⟨fun h => ?_, fun h => absurd hzero h.1⟩
    cases h
  · rw [if_neg hzero, if_pos (by decide), bind_ok, if_pos (show (addrBytes _).length = 8 from length_toLE 8 _),
      addrOfBytes_addrBytes]
    exact ⟨fun h => ⟨hzero, (Except.ok.inj h).symm⟩, fun h => congrArg _ h.2.symm⟩

theorem resolve_oldReg (c : FieldCopy) (t : Target H) :
    (∃ data, resolveRegisterValue process bins t c.oldReg state .dereference = .ok data) ↔
      state.currAddrOld + addrOfInt c.src ≠ 0 ∧ 0 ≤ c.size.toInt ∧ c.size.toInt.toNat ≤ loopBound ∧
        ∀ w ∈ wordsRead (state.currAddrOld + addrOfInt c.src) c.size.toInt.toNat, wordMapped process t.heap w := by
  have hresolve : resolveRegisterValue process bins t c.oldReg state .dereference =
      resolveAddress process t (state.currAddrOld + addrOfInt c.src) c.size .dereference := rfl
  rw [hresolve]
  unfold resolveAddress
  by_cases hzero : state.currAddrOld + addrOfInt c.src = 0
  · simp [hzero]
  · rw [if_neg hzero, if_neg (by decide)]
    by_cases hneg : c.size < 0
    · have hnot : ¬ 0 ≤ c.size.toInt := by
        have hlt := Int32.lt_iff_toInt_lt.mp hneg
        simpa using hlt
      simp [hneg, hnot]
    · have hnonneg : 0 ≤ c.size.toInt := by
        by_contra hlt
        exact hneg (Int32.lt_iff_toInt_lt.mpr (by simpa using hlt))
      rw [if_neg hneg, memcpyFromTarget_ends]
      exact ⟨fun h => ⟨hzero, hnonneg, h⟩, fun h => h.2.2⟩

def IsPatch (orig : Memory) (oldLocation newLocation : UInt64) (c : FieldCopy) (pd : PatchData) : Prop :=
  pd.addr = newLocation + addrOfInt c.dest ∧ pd.data = orig.read (oldLocation + addrOfInt c.src) c.size.toInt.toNat

theorem makePatchData_run {c : FieldCopy} {patches : List PatchData} {vm' : VM H} :
    makePatchData process bins recur c.rule state vm = .ok patches vm' ↔
      vm' = vm ∧ ∃ dest data pd, resolveToAddress process bins vm.target c.newReg state .assign
        (.death "left hand register must always yield an address") = .ok dest ∧
        resolveRegisterValue process bins vm.target c.oldReg state .dereference = .ok data ∧
        PatchData.ofBytes dest data = .ok pd ∧ patches = [pd] := by
  unfold makePatchData
  rw [run_bind_of_ok (get_run vm), lift_bind_ok]
  refine ⟨fun h => ?_, fun h => ?_⟩
  · obtain ⟨dest, hdest, h⟩ := h
    obtain ⟨data, hdata, h⟩ := lift_bind_ok.mp h
    obtain ⟨pd, hpd, h⟩ := lift_bind_ok.mp h
    obtain ⟨rfl, rfl⟩ := pure_ok.mp h
    exact ⟨rfl, dest, data, pd, hdest, hdata, hpd, rfl⟩
  · obtain ⟨rfl, dest, data, pd, hdest, hdata, hpd, rfl⟩ := h
    exact ⟨dest, hdest, lift_bind_ok.mpr ⟨data, hdata, lift_bind_ok.mpr ⟨pd, hpd, pure_ok.mpr ⟨rfl, rfl⟩⟩⟩⟩

/-- The rule of a copy makes one patch. -/
theorem makePatchData_ok {c : FieldCopy} {patches : List PatchData} {vm' : VM H}
    (h : makePatchData process bins recur c.rule state vm = .ok patches vm') :
    Reads process vm.target.heap state.currAddrOld state.currAddrNew c ∧ vm' = vm ∧
      ∃ pd, patches = [pd] ∧ IsPatch vm.target.bytes state.currAddrOld state.currAddrNew c pd := by
  obtain ⟨hvm, dest, data, pd, hdest, hdata, hpd, hpatches⟩ := makePatchData_run.mp h
  obtain ⟨hnonzero, rfl⟩ := (resolve_newReg c vm.target _).mp hdest
  obtain ⟨hsrc, hnonneg, hcounted, hmapped⟩ := (resolve_oldReg c vm.target).mp ⟨data, hdata⟩
  obtain ⟨haddr, hbytes⟩ := ofBytes_ok hpd
  refine ⟨⟨hnonzero, hsrc, hnonneg, hcounted, hmapped⟩, hvm, pd, hpatches, haddr, ?_⟩
  rw [hbytes]
  exact (Option.some.inj (resolveRegister_value hdata)).symm

theorem makePatchData_reads {c : FieldCopy} (h : Reads process vm.target.heap state.currAddrOld state.currAddrNew c) :
    ∃ patches, makePatchData process bins recur c.rule state vm = .ok patches vm := by
  obtain ⟨data, hdata⟩ : ∃ data, resolveRegisterValue process bins vm.target c.oldReg state .dereference = .ok data :=
    (resolve_oldReg c vm.target).mpr ⟨h.src, h.nonneg, h.counted, h.mapped⟩
  have hlen : data.length < 2 ^ 32 := by
    have hshort := resolveRegister_length hdata
    omega
  exact ⟨_, makePatchData_run.mpr ⟨rfl, _, data, _, (resolve_newReg c vm.target _).mpr ⟨h.dest, rfl⟩, hdata, dif_pos hlen,
    rfl⟩⟩

/-! ## All copies in the VM -/

theorem patchLoop_ok {copies : List FieldCopy} {done patches : List PatchData} {vm' : VM H}
    (h : patchLoop process bins recur state (copies.map FieldCopy.rule) (done, lastNode done) vm = .ok patches vm') :
    (∀ c ∈ copies, Reads process vm.target.heap state.currAddrOld state.currAddrNew c) ∧ vm' = vm ∧ ∃ later,
      patches = done ++ later ∧
        List.Forall₂ (IsPatch vm.target.bytes state.currAddrOld state.currAddrNew) copies later := by
  induction copies generalizing done with
  | nil =>
    obtain ⟨rfl, rfl⟩ := pure_ok.mp h
    exact ⟨by simp, rfl, [], (List.append_nil _).symm, .nil⟩
  | cons c copies ih =>
    obtain ⟨patchList, vm1, hrule, h⟩ := run_bind_ok.mp h
    obtain ⟨hreads, rfl, pd, rfl, hpd⟩ := makePatchData_ok hrule
    obtain ⟨acc, hconcat, h⟩ := lift_bind_ok.mp h
    rw [concatLists_append] at hconcat
    cases hconcat
    obtain ⟨hall, hvm, later, rfl, hlater⟩ := ih h
    exact ⟨List.forall_mem_cons.mpr ⟨hreads, hall⟩, hvm, pd :: later, by simp, .cons hpd hlater⟩

theorem patchLoop_reads {copies : List FieldCopy} {done : List PatchData}
    (h : ∀ c ∈ copies, Reads process vm.target.heap state.currAddrOld state.currAddrNew c) :
    ∃ patches, patchLoop process bins recur state (copies.map FieldCopy.rule) (done, lastNode done) vm = .ok patches vm := by
  induction copies generalizing done with
  | nil => exact ⟨done, rfl⟩
  | cons c copies ih =>
    obtain ⟨hreads, hall⟩ := List.forall_mem_cons.mp h
    obtain ⟨patchList, hrule⟩ : ∃ patches, makePatchData process bins recur c.rule state vm = .ok patches vm :=
      makePatchData_reads hreads
    obtain ⟨patches, hrest⟩ : ∃ patches, patchLoop process bins recur state (copies.map FieldCopy.rule)
      (done ++ patchList, lastNode (done ++ patchList)) vm = .ok patches vm := ih hall
    refine ⟨patches, ?_⟩
    rw [List.map_cons, patchLoop, run_bind_of_ok hrule, lift_bind_ok]
    exact ⟨_, concatLists_append done patchList, hrest⟩

end

/-! ## Writing them -/

section
variable {process : Process H} {orig : Memory} {oldLocation newLocation : UInt64}

theorem IsPatch.len {c : FieldCopy} {pd : PatchData} (h : IsPatch orig oldLocation newLocation c pd) :
    pd.data.length = c.size.toInt.toNat := by
  rw [h.2, Memory.length_read]

/-- As an int. -/
theorem IsPatch.numBytes {c : FieldCopy} {pd : PatchData} (h : IsPatch orig oldLocation newLocation c pd) :
    pd.len.toInt32.toInt = c.size.toInt.toNat := by
  have hlen := len_toInt pd.len
  have hlt := c.size.toInt_lt
  rw [← pd.size, h.len] at hlen
  rw [hlen, if_pos (by omega)]

theorem applyPatches_copies {copies : List FieldCopy} {patches : List PatchData} {vm : VM H}
    (hcounted : ∀ c ∈ copies, c.size.toInt.toNat ≤ loopBound)
    (h : List.Forall₂ (IsPatch orig oldLocation newLocation) copies patches) :
    (∃ vm', applyPatches process patches vm = .ok ⟨⟩ vm') ↔ ∀ c ∈ copies,
      ∀ w ∈ wordsWritten (newLocation + addrOfInt c.dest) c.size.toInt.toNat, wordMapped process vm.target.heap w := by
  induction h generalizing vm with
  | nil => exact ⟨fun _ => by simp, fun _ => ⟨vm, rfl⟩⟩
  | cons hpd hlater ih =>
    rename_i c pd copies patches
    obtain ⟨hbound, hcounted⟩ := List.forall_mem_cons.mp hcounted
    have hnum := hpd.numBytes
    have hends : (∃ t', memcpyToTarget process vm.target pd.addr pd.data pd.len.toInt32 = .ok t') ↔
        ∀ w ∈ wordsWritten pd.addr pd.len.toInt32.toInt.toNat, wordMapped process vm.target.heap w :=
      memcpyToTarget_ends (by omega) (by omega)
    rw [hnum, Int.toNat_natCast, hpd.1] at hends
    rw [List.forall_mem_cons, ← hends]
    refine ⟨fun hrun => ?_, fun hboth => ?_⟩
    · obtain ⟨vm', hrun⟩ := hrun
      unfold applyPatches at hrun
      rw [run_bind_of_ok (get_run vm)] at hrun
      obtain ⟨target, hwrite, hrun⟩ := lift_bind_ok.mp hrun
      rw [run_bind_of_ok (modify_run _ _)] at hrun
      have hrest := (ih hcounted).mp ⟨vm', hrun⟩
      rw [memcpyToTarget_ok (writtenCount_le pd) hwrite] at hrest
      rw [hpd.1] at hwrite
      exact ⟨⟨target, hwrite⟩, hrest⟩
    · obtain ⟨⟨target, hwrite⟩, hrest⟩ := hboth
      rw [← hpd.1] at hwrite
      have hheap : target.heap = vm.target.heap := by rw [memcpyToTarget_ok (writtenCount_le pd) hwrite]
      obtain ⟨vm', hrun⟩ : ∃ vm', applyPatches process patches { vm with target } = .ok ⟨⟩ vm' :=
        (ih hcounted).mpr (by rw [hheap]; exact hrest)
      refine ⟨vm', ?_⟩
      unfold applyPatches
      rw [run_bind_of_ok (get_run vm), lift_bind_ok]
      exact ⟨target, hwrite, hrun⟩

/-- What the patches write is what the copies read. -/
theorem assignments_copies {copies : List FieldCopy} {patches : List PatchData}
    (h : List.Forall₂ (IsPatch orig oldLocation newLocation) copies patches) :
    patches.map PatchData.assignment = runsOf orig (copies.map (FieldCopy.between oldLocation newLocation)) := by
  induction h with
  | nil => rfl
  | cons hpd hlater ih =>
    rename_i c pd copies patches
    have hsmall : pd.data.length < 2 ^ 31 := by
      have hlt := c.size.toInt_lt
      rw [hpd.len]
      omega
    rw [List.map_cons, ih, assignment_of_small hsmall, hpd.1, hpd.2]
    rfl

end

/-! ## A whole FDE -/

section
variable {process : Process H} {bins : Binaries} {cie : CIE} {oldLocation newLocation : UInt64} {fde : FDE}
  {copies : List FieldCopy} {vm vm' : VM H} {fuel : Nat}

structure HoldsCopies (fde : FDE) (copies : List FieldCopy) : Prop where
  cie : fde.cie = 0
  instructions : fde.instructions = copies.map FieldCopy.regInstruction

variable (process bins cie oldLocation newLocation vm fuel) in
theorem generate_copies (hfde : HoldsCopies fde copies) :
    generatePatchesFromFDEAndState process (patchWith bins cie fde) (fuel + 1) fde ⟨oldLocation, newLocation, 0⟩ vm =
      patchLoop process (patchWith bins cie fde) (generatePatchesFromFDEAndState process (patchWith bins cie fde) fuel)
        ⟨oldLocation, newLocation, 0⟩ ((tableCopies copies).map FieldCopy.rule) ([], none) vm := by
  obtain ⟨rules, heval, hvalues, hcfa⟩ := evaluate_plain cie copies vm.stateStack fde.lowpc fde.highpc
  have hrules : rulesOf (patchWith bins cie fde) fde vm.stateStack = .ok ⟨rules, vm.stateStack, fde.lowpc⟩ := by
    unfold rulesOf
    rw [hfde.cie, hfde.instructions]
    exact heval
  have hcfaValue : ∀ t : Target H, cfaValueOf process (patchWith bins cie fde) t rules ⟨oldLocation, newLocation, 0⟩ =
      .ok 0 := by
    intro t
    unfold cfaValueOf
    rw [show strForReg cfaReg = .ok "\x7bCFA\x7d" from rfl, bind_ok, hcfa]
  rw [generatePatchesFromFDEAndState]
  rw [run_bind_of_ok (get_run vm), run_bind_of_ok (lift_of_ok hrules), run_bind_of_ok (modify_run _ _),
    run_bind_of_ok (lift_of_ok (hcfaValue _)), hvalues]

/-- What a run of the VM leaves, and what it has got through. -/
theorem patchData_ok (hfde : HoldsCopies fde copies)
    (h : patchDataWithFDE process (patchWith bins cie fde) (fuel + 1) oldLocation newLocation fde vm = .ok ⟨⟩ vm') :
    (∀ c ∈ tableCopies copies, Applies process vm.target.heap oldLocation newLocation c) ∧
      vm'.target.bytes = vm.target.bytes.writeAll
        (runsOf vm.target.bytes ((tableCopies copies).map (FieldCopy.between oldLocation newLocation))) := by
  obtain ⟨patches, vm1, hgen, happly⟩ := run_bind_ok.mp h
  rw [generate_copies process bins cie oldLocation newLocation vm fuel hfde] at hgen
  obtain ⟨hreads, rfl, later, rfl, hlater⟩ := patchLoop_ok hgen
  have hwritten := (applyPatches_copies (fun c hc => (hreads c hc).counted) hlater).mp ⟨vm', happly⟩
  refine ⟨fun c hc => ⟨hreads c hc, hwritten c hc⟩, ?_⟩
  rw [applyPatches_ok happly, ← assignments_copies hlater]

/-- The VM gets through the copies when it can do each of them. -/
theorem patchData_applies (hfde : HoldsCopies fde copies)
    (h : ∀ c ∈ tableCopies copies, Applies process vm.target.heap oldLocation newLocation c) :
    ∃ vm', patchDataWithFDE process (patchWith bins cie fde) (fuel + 1) oldLocation newLocation fde vm = .ok ⟨⟩ vm' := by
  obtain ⟨patches, hgen⟩ : ∃ patches, generatePatchesFromFDEAndState process (patchWith bins cie fde) (fuel + 1) fde
      ⟨oldLocation, newLocation, 0⟩ vm = .ok patches vm := by
    rw [generate_copies process bins cie oldLocation newLocation vm fuel hfde]
    exact patchLoop_reads fun c hc => (h c hc).toReads
  have hloop := hgen
  rw [generate_copies process bins cie oldLocation newLocation vm fuel hfde] at hloop
  obtain ⟨-, -, later, hpatches, hlater⟩ := patchLoop_ok hloop
  rw [← hpatches.trans (List.nil_append later)] at hlater
  obtain ⟨vm', happly⟩ : ∃ vm', applyPatches process patches vm = .ok ⟨⟩ vm' :=
    (applyPatches_copies (fun c hc => (h c hc).counted) hlater).mpr fun c hc => (h c hc).written
  refine ⟨vm', ?_⟩
  unfold patchDataWithFDE
  rw [run_bind_of_ok hgen]
  exact happly

/-- **Every byte is then the one that was at its source.** -/
theorem patchData_bytes (hfde : HoldsCopies fde copies)
    (h : patchDataWithFDE process (patchWith bins cie fde) (fuel + 1) oldLocation newLocation fde vm = .ok ⟨⟩ vm') :
    vm'.target.bytes = fun x =>
      vm.target.bytes (sourceOf ((tableCopies copies).map (FieldCopy.between oldLocation newLocation)) x) := by
  rw [(patchData_ok hfde h).2]
  refine writeAll_copies ?_ vm.target.bytes
  intro c hc
  obtain ⟨c, -, rfl⟩ := List.mem_map.mp hc
  have hlt := c.size.toInt_lt
  show c.size.toInt.toNat ≤ 2 ^ 64
  omega

end

/-! ## The FDE of two types -/

section
variable {dwarf : Libdwarf} (hstores : dwarf.Stores)
include hstores

theorem storedFde_few {fde : TransformFde T} {copies : List FieldCopy}
    (hinstrs : fde.instrs = copies.map FieldCopy.instruction) (hfew : copies.length ≤ 2 ^ 26) :
    ∃ stored, storedFde dwarf fde = .ok stored ∧ HoldsCopies stored copies := by
  obtain ⟨allocated, hadd⟩ := (addInstructions_fresh copies).1 hfew
  unfold storedFde
  rw [hinstrs, hadd, bind_ok]
  dsimp only
  rw [hstores, parse_copies, bind_ok]
  exact ⟨_, rfl, rfl, rfl⟩

omit hstores in
theorem storedFde_many {fde : TransformFde T} {copies : List FieldCopy}
    (hinstrs : fde.instrs = copies.map FieldCopy.instruction) (hmany : ¬ copies.length ≤ 2 ^ 26) :
    storedFde dwarf fde = .error .undefined := by
  have hadd := (addInstructions_fresh copies).2 hmany
  unfold storedFde
  rw [hinstrs, hadd]
  rfl

variable {types} [DecidableEq T] {a b : T}

omit hstores in
theorem transformFde_same (ha : PlainStruct types a) (hb : PlainStruct types b) (hsame : StructSame types a b) (fuel : Nat) :
    transformFde types dwarf (fuel + 1) a b = .ok none := by
  unfold transformFde
  rw [compare_start ha hb, if_pos hsame]

/-- There is an FDE exactly when no field is gone and the copies are few enough. -/
theorem transformFde_differs (ha : PlainStruct types a) (hb : PlainStruct types b) (hdiffers : ¬ StructSame types a b)
    (fuel : Nat) :
    (FieldsKept types a b ∧ (copiesOf types a b).length ≤ 2 ^ 26 →
      ∃ fde, transformFde types dwarf (fuel + 1) a b = .ok (some fde) ∧ HoldsCopies fde (copiesOf types a b)) ∧
    (¬ (FieldsKept types a b ∧ (copiesOf types a b).length ≤ 2 ^ 26) →
      transformFde types dwarf (fuel + 1) a b = .error (.fault .undefined)) := by
  have hinstrs : ∀ (transformed die : T) (codeLength : Int32), (TransformFde.mk transformed die codeLength
      ((copiesOf types a b).map FieldCopy.instruction)).instrs = (copiesOf types a b).map FieldCopy.instruction :=
    fun _ _ _ => rfl
  unfold transformFde
  by_cases hkept : FieldsKept types a b
  · obtain ⟨st', hcompare, htransformer⟩ := compare_differs ha hb hdiffers hkept fuel
    obtain ⟨w, hwrite, hfdes⟩ := write_plain ha htransformer fuel
    rw [hcompare]
    dsimp only
    rw [hwrite]
    dsimp only
    rw [hfdes]
    dsimp only
    by_cases hfew : (copiesOf types a b).length ≤ 2 ^ 26
    · obtain ⟨stored, hstored, hholds⟩ := storedFde_few hstores (hinstrs a b (types b).length) hfew
      rw [hstored]
      exact ⟨fun _ => ⟨stored, rfl, hholds⟩, fun hnot => absurd ⟨hkept, hfew⟩ hnot⟩
    · rw [storedFde_many (hinstrs a b (types b).length) hfew]
      exact ⟨fun hboth => absurd hboth.2 hfew, fun _ => rfl⟩
  · obtain ⟨st', hcompare⟩ := compare_lost ha hb hdiffers hkept fuel
    rw [hcompare]
    exact ⟨fun hboth => absurd hboth.1 hkept, fun _ => rfl⟩

end

/-! ## Which structs are patched right -/

theorem addrOfInt_injective {x y : Int32} (h : addrOfInt x = addrOfInt y) : x = y := by
  have hx := toUInt64_toNat x
  have hy := toUInt64_toNat y
  unfold addrOfInt at h
  rw [h] at hx
  have hxl := x.le_toInt
  have hxh := x.toInt_lt
  have hyl := y.le_toInt
  have hyh := y.toInt_lt
  apply Int32.toInt_inj.mp
  split at hx <;> split at hy <;> omega

section
variable {types} {a b : T} {oldLocation newLocation : UInt64} {copies : List Copy}

/-- Fields of one place and one length. -/
theorem StructSame.length_eq (hb : PlainStruct types b) (h : StructSame types a b) {field new : TypeField T}
    (hcommon : CommonField types a b field new) : (types field.type).length = (types new.type).length := by
  obtain ⟨⟨-, hcount, -⟩, hall⟩ := h
  obtain ⟨i, hi, hget⟩ := List.mem_iff_getElem.mp hcommon.inOld
  have hi' : i < (types b).fields.length := hcount ▸ hi
  have hpair : (field, (types b).fields[i]) ∈ (types a).fields.zip (types b).fields := by
    rw [← hget]
    exact List.mem_iff_getElem.mpr ⟨i, by simp [hi, hi'], by simp⟩
  have hunchanged := List.all_eq_true.mp hall _ hpair
  unfold fieldUnchanged at hunchanged
  have hboth : field.name = (types b).fields[i].name ∧
      (types field.type).length = (types (types b).fields[i].type).length := by
    simp only [Bool.or_eq_true, Bool.and_eq_true, beq_iff_eq] at hunchanged
    rcases hunchanged with ⟨⟨hlength, -⟩, hname⟩ | ⟨⟨-, hname⟩, hlength⟩
    · exact ⟨hname, hlength⟩
    · exact ⟨hname, hlength⟩
  have hnew : new = (types b).fields[i] :=
    List.inj_on_of_nodup_map hb.named hcommon.inNew (List.getElem_mem hi') (hcommon.name.trans hboth.1)
  rw [hnew]
  exact hboth.2

variable (oldLocation) in
theorem rightImage_same (hb : PlainStruct types b) (hsame : StructSame types a b) :
    (∀ before, RightImage types a b oldLocation oldLocation before before) ↔ OffsetsKept types a b := by
  have hbytes : ∀ {field new}, CommonField types a b field new → bytesIn types field.type = bytesIn types new.type := by
    intro field new hcommon
    unfold bytesIn
    rw [hsame.length_eq hb hcommon]
  refine ⟨fun h => ?_, fun h before => ⟨?_, fun _ _ => rfl⟩⟩
  · intro field new hcommon hpos
    have hpos' : 0 < bytesIn types field.type := by
      rw [hbytes hcommon]
      exact hpos
    have hbyte : oldLocation + addrOfInt new.offset + UInt64.ofNat 0 =
        oldLocation + addrOfInt field.offset + UInt64.ofNat 0 := by
      refine forall_byte_eq.mp fun before => ?_
      have hfield := (h before).fields field new hcommon 0 hpos
      rwa [if_pos hpos'] at hfield
    exact addrOfInt_injective ((UInt64.add_right_inj oldLocation).mp ((UInt64.add_left_inj (UInt64.ofNat 0)).mp hbyte))
  · intro field new hcommon i hi
    rw [if_pos (by rw [hbytes hcommon]; exact hi), h field new hcommon (by omega)]

theorem rightImage_copies : (∀ before : Memory, RightImage types a b oldLocation newLocation before fun x =>
    before (sourceOf copies x)) ↔ CopiesFit types a b copies oldLocation newLocation := by
  refine ⟨fun h => ?_, fun h before => ⟨?_, ?_⟩⟩
  · have hlengths : ∀ field new, CommonField types a b field new → bytesIn types new.type ≤ bytesIn types field.type := by
      intro field new hcommon
      by_contra hlonger
      -- a byte that should be zero, whatever is in memory
      have hzero := (h fun _ => 1).fields field new hcommon (bytesIn types field.type) (by omega)
      rw [if_neg (Nat.lt_irrefl _)] at hzero
      exact absurd hzero (by decide)
    refine ⟨hlengths, ?_, ?_⟩
    · intro field new hcommon i hi
      refine forall_byte_eq.mp fun before => ?_
      have hbyte := (h before).fields field new hcommon i hi
      rwa [if_pos (lt_of_lt_of_le hi (hlengths field new hcommon))] at hbyte
    · intro x hx
      exact forall_byte_eq.mp fun before => (h before).others x hx
  · intro field new hcommon i hi
    rw [if_pos (lt_of_lt_of_le hi (h.lengths field new hcommon)), h.fields field new hcommon i hi]
  · intro x hx
    rw [h.others x hx]

end

section
variable [DecidableEq T] {dwarf : Libdwarf} (hstores : dwarf.Stores) {a b : T} (ha : PlainStruct types a)
  (hb : PlainStruct types b) {process : Process H} {bins : Binaries} {cie : CIE} (fuel : Nat)
  {oldLocation newLocation : UInt64} {vm : VM H}
include hstores ha hb

theorem structPatched_of_layoutFits (h : LayoutFits types process vm.target.heap a b oldLocation newLocation) :
    StructPatched types dwarf process bins cie (fuel + 1) a b oldLocation newLocation vm := by
  intro before
  unfold patchStruct
  rcases h with ⟨hsame, hoffsets⟩ | ⟨hdiffers, hfits⟩
  · rw [transformFde_same ha hb hsame]
    exact ⟨oldLocation, _, rfl, (rightImage_same oldLocation hb hsame).mpr hoffsets before⟩
  · obtain ⟨fde, hfde, hholds⟩ := (transformFde_differs hstores ha hb hdiffers fuel).1 ⟨hfits.kept, hfits.few⟩
    rw [hfde]
    dsimp only
    obtain ⟨vm', hpatch⟩ : ∃ vm', patchDataWithFDE process (patchWith bins cie fde) (fuel + 1) oldLocation newLocation
        fde { vm with target := { vm.target with bytes := before } } = .ok ⟨⟩ vm' :=
      patchData_applies hholds hfits.apply
    refine ⟨newLocation, vm', (run_bind_of_ok hpatch).trans rfl, ?_⟩
    rw [patchData_bytes hholds hpatch]
    exact rightImage_copies.mpr hfits.fit before

theorem layoutFits_of_structPatched
    (h : StructPatched types dwarf process bins cie (fuel + 1) a b oldLocation newLocation vm) :
    LayoutFits types process vm.target.heap a b oldLocation newLocation := by
  unfold StructPatched patchStruct at h
  by_cases hsame : StructSame types a b
  · rw [transformFde_same ha hb hsame] at h
    refine .inl ⟨hsame, (rightImage_same oldLocation hb hsame).mp fun before => ?_⟩
    obtain ⟨location, vm', hrun, hright⟩ := h before
    obtain ⟨rfl, rfl⟩ := pure_ok.mp hrun
    exact hright
  · obtain ⟨hsome, hnone⟩ := transformFde_differs hstores ha hb hsame fuel
    by_cases hwritten : FieldsKept types a b ∧ (copiesOf types a b).length ≤ 2 ^ 26
    · obtain ⟨fde, hfde, hholds⟩ := hsome hwritten
      rw [hfde] at h
      refine .inr ⟨hsame, hwritten.1, hwritten.2, ?_, ?_⟩
      · obtain ⟨location, vm', hrun, -⟩ := h fun _ => 0
        obtain ⟨_, vm1, hpatch, -⟩ := run_bind_ok.mp hrun
        exact (patchData_ok hholds hpatch).1
      · refine rightImage_copies.mp fun before => ?_
        obtain ⟨location, vm', hrun, hright⟩ := h before
        obtain ⟨_, vm1, hpatch, hrun⟩ := run_bind_ok.mp hrun
        obtain ⟨rfl, rfl⟩ := pure_ok.mp hrun
        rw [patchData_bytes hholds hpatch] at hright
        exact hright
    · rw [hnone hwritten] at h
      obtain ⟨location, vm', hrun, -⟩ := h fun _ => 0
      cases hrun

end

section
variable {types} {a b : T} {oldLocation newLocation : UInt64}

theorem newField_eq_some (hb : PlainStruct types b) {field new : TypeField T} :
    newField types b field = some new ↔ new ∈ (types b).fields ∧ new.name = field.name := by
  have hfind : newField types b field = (types b).fields.find? (·.name == field.name) :=
    List.find?_eq_bind_findIdx?_getElem?.symm
  rw [hfind]
  refine ⟨fun h => ⟨List.mem_of_find?_eq_some h, by simpa using List.find?_some h⟩, fun h => ?_⟩
  cases hget : (types b).fields.find? (·.name == field.name) with
  | none =>
    have hnot := List.find?_eq_none.mp hget new h.1
    simp [h.2] at hnot
  | some found =>
    have hname : found.name = field.name := by simpa using List.find?_some hget
    rw [List.inj_on_of_nodup_map hb.named (List.mem_of_find?_eq_some hget) h.1 (hname.trans h.2.symm)]

/-- The copies are those of the common fields. -/
theorem mem_copiesOf (hb : PlainStruct types b) {c : FieldCopy} : c ∈ copiesOf types a b ↔
    ∃ field new, CommonField types a b field new ∧ c = ⟨(types field.type).length, new.offset, field.offset⟩ := by
  unfold copiesOf
  rw [List.mem_filterMap]
  refine ⟨fun h => ?_, fun h => ?_⟩
  · obtain ⟨field, hfield, hcopy⟩ := h
    obtain ⟨new, hnew, hkind, hc⟩ := copyOf_eq_some.mp hcopy
    obtain ⟨hmem, hname⟩ := (newField_eq_some hb).mp hnew
    exact ⟨field, new, ⟨hfield, hmem, hname, hkind⟩, hc⟩
  · obtain ⟨field, new, hcommon, hc⟩ := h
    exact ⟨field, hcommon.inOld,
      copyOf_eq_some.mpr ⟨new, (newField_eq_some hb).mpr ⟨hcommon.inNew, hcommon.name⟩, hcommon.kind, hc⟩⟩

/-- A copy reaches the bytes of the new field. -/
theorem FieldsApart.reaches (h : FieldsApart types a b newLocation) {field new : TypeField T}
    (hcommon : CommonField types a b field new) {x : UInt64} :
    (FieldCopy.between oldLocation newLocation ⟨(types field.type).length, new.offset, field.offset⟩).Reaches x ↔
      ∃ i < bytesIn types new.type, x = newLocation + addrOfInt new.offset + UInt64.ofNat i := by
  have hlen : (types field.type).length.toInt.toNat = bytesIn types new.type := by
    rw [h.lengths field new hcommon]
    rfl
  have hlt := (types field.type).length.toInt_lt
  refine (Copy.reaches_iff ?_).trans ?_
  · show (types field.type).length.toInt.toNat ≤ 2 ^ 64
    omega
  · show (∃ i < (types field.type).length.toInt.toNat, _) ↔ _
    rw [hlen]
    rfl

theorem copiesFit_of_apart (ha : PlainStruct types a) (hb : PlainStruct types b) (h : FieldsApart types a b newLocation) :
    CopiesFit types a b ((tableCopies (copiesOf types a b)).map (FieldCopy.between oldLocation newLocation)) oldLocation
      newLocation := by
  obtain ⟨hold, hleft⟩ := mem_tableCopies (copiesOf types a b)
  have hcommon : ∀ {c}, c ∈ tableCopies (copiesOf types a b) → ∃ field new, CommonField types a b field new ∧
      c = ⟨(types field.type).length, new.offset, field.offset⟩ := fun hc => (mem_copiesOf hb).mp (hold _ hc)
  refine ⟨?_, ?_, ?_⟩
  · intro field new hfield
    unfold bytesIn
    rw [h.lengths field new hfield]
  · intro field new hfield i hi
    refine sourceOf_eq ?_ ?_
    · -- one copy of that name is left, and it reaches the byte
      obtain ⟨c, hc, hreg⟩ := hleft _ ((mem_copiesOf hb).mpr ⟨field, new, hfield, rfl⟩)
      have hreaches : (FieldCopy.between oldLocation newLocation ⟨(types field.type).length, new.offset, field.offset⟩).Reaches
        (newLocation + addrOfInt new.offset + UInt64.ofNat i) := (h.reaches hfield).mpr ⟨i, hi, rfl⟩
      have hsize : c.size = (types field.type).length := congrArg PoReg.size hreg
      have hdest : c.dest = new.offset := congrArg PoReg.u hreg
      refine ⟨_, List.mem_map.mpr ⟨c, hc, rfl⟩, ?_⟩
      unfold Copy.Reaches FieldCopy.between at hreaches ⊢
      rw [hsize, hdest]
      exact hreaches
    · intro c hc hreaches
      obtain ⟨copy, hcopy, rfl⟩ := List.mem_map.mp hc
      obtain ⟨field', new', hfield', rfl⟩ := hcommon hcopy
      obtain ⟨j, hj, hx⟩ := (h.reaches hfield').mp hreaches
      have hnew : new = new' := by
        by_contra hne
        exact h.apart field new field' new' hfield hfield' hne i hi j hj hx
      subst hnew
      have hsame : field = field' := List.inj_on_of_nodup_map ha.named hfield.inOld hfield'.inOld
        (hfield.name.symm.trans hfield'.name)
      rw [hsame]
      exact Copy.origin_add _ i
  · intro x hx
    refine sourceOf_none fun c hc hreaches => hx ?_
    obtain ⟨copy, hcopy, rfl⟩ := List.mem_map.mp hc
    obtain ⟨field, new, hfield, rfl⟩ := hcommon hcopy
    exact ⟨field, new, hfield, (h.reaches hfield).mp hreaches⟩

end

inductive PointType where
  | point | moved | grown | wide | shrunk | int | long
  deriving DecidableEq, Repr

/-- `struct point { int x; int y; }` gets a third field and its old ones change places, or a wider one; a wide one gets
narrower. -/
def pointTypes : PointType → TypeInfo PointType
  | .point => ⟨"point", .struct, 8, [⟨"x", 0, .int⟩, ⟨"y", 4, .int⟩], none, []⟩
  | .moved => ⟨"point", .struct, 16, [⟨"z", 0, .long⟩, ⟨"y", 8, .int⟩, ⟨"x", 12, .int⟩], none, []⟩
  | .grown => ⟨"point", .struct, 16, [⟨"x", 0, .long⟩, ⟨"y", 8, .int⟩], none, []⟩
  | .wide => ⟨"point", .struct, 16, [⟨"x", 0, .long⟩, ⟨"y", 8, .int⟩], none, []⟩
  | .shrunk => ⟨"point", .struct, 8, [⟨"x", 0, .int⟩, ⟨"y", 4, .int⟩], none, []⟩
  | .int => ⟨"int", .base, 4, [], none, []⟩
  | .long => ⟨"long", .base, 8, [], none, []⟩

/-- FDEs are counted from 1. -/
def plainDwarf : Libdwarf := ⟨(· + 1), id⟩

theorem plainDwarf_stores : plainDwarf.Stores := fun _ => rfl

theorem point_plain (a : PointType) (ha : a ≠ .int) (ha' : a ≠ .long) : PlainStruct pointTypes a := by
  cases a with
  | int => exact absurd rfl ha
  | long => exact absurd rfl ha'
  | _ => exact ⟨rfl, by simp [pointTypes], by simp [pointTypes]⟩

theorem point_common {field new : TypeField PointType} (h : CommonField pointTypes .point .moved field new) :
    (field = ⟨"x", 0, .int⟩ ∧ new = ⟨"x", 12, .int⟩) ∨ (field = ⟨"y", 4, .int⟩ ∧ new = ⟨"y", 8, .int⟩) := by
  obtain ⟨hold, hnew, hname, -⟩ := h
  simp only [pointTypes, List.mem_cons, List.not_mem_nil, or_false] at hold hnew
  rcases hold with rfl | rfl <;> rcases hnew with rfl | rfl | rfl <;> simp_all

theorem shrunk_common {field new : TypeField PointType} (h : CommonField pointTypes .wide .shrunk field new) :
    (field = ⟨"x", 0, .long⟩ ∧ new = ⟨"x", 0, .int⟩) ∨ (field = ⟨"y", 8, .int⟩ ∧ new = ⟨"y", 4, .int⟩) := by
  obtain ⟨hold, hnew, hname, -⟩ := h
  simp only [pointTypes, List.mem_cons, List.not_mem_nil, or_false] at hold hnew
  rcases hold with rfl | rfl <;> rcases hnew with rfl | rfl <;> simp_all

/-- The bytes of the narrower point are those of its two fields. -/
theorem shrunk_bytes {j : Nat} (hj : j < 8) : InCommonField pointTypes .wide .shrunk 0x2000 (0x2000 + UInt64.ofNat j) := by
  have hx : CommonField pointTypes .wide .shrunk ⟨"x", 0, .long⟩ ⟨"x", 0, .int⟩ :=
    ⟨by simp [pointTypes], by simp [pointTypes], rfl, rfl⟩
  have hy : CommonField pointTypes .wide .shrunk ⟨"y", 8, .int⟩ ⟨"y", 4, .int⟩ :=
    ⟨by simp [pointTypes], by simp [pointTypes], rfl, rfl⟩
  have hlow : ∀ j < 4, (0x2000 : UInt64) + UInt64.ofNat j = 0x2000 + addrOfInt 0 + UInt64.ofNat j := by decide
  have hhigh : ∀ j < 4, (0x2000 : UInt64) + UInt64.ofNat (j + 4) = 0x2000 + addrOfInt 4 + UInt64.ofNat j := by decide
  by_cases hfirst : j < 4
  · exact ⟨_, _, hx, j, hfirst, hlow j hfirst⟩
  · obtain ⟨i, rfl⟩ := Nat.exists_eq_add_of_le (Nat.le_of_not_lt hfirst)
    rw [Nat.add_comm 4 i]
    have hi : i < 4 := by omega
    exact ⟨_, _, hy, i, hi, hhigh i hi⟩

/-- The long copy of `x` goes over `y`, and the copy of `y` is the later one. -/
theorem shrunk_fits : CopiesFit pointTypes .wide .shrunk [⟨0x2000, 0x1000, 8⟩, ⟨0x2004, 0x1008, 4⟩] 0x1000 0x2000 := by
  refine ⟨?_, ?_, ?_⟩
  · intro field new hcommon
    rcases shrunk_common hcommon with ⟨rfl, rfl⟩ | ⟨rfl, rfl⟩
    · decide
    · decide
  · have hx : ∀ i < 4, sourceOf [⟨0x2000, 0x1000, 8⟩, ⟨0x2004, 0x1008, 4⟩] (0x2000 + addrOfInt 0 + UInt64.ofNat i) =
        0x1000 + addrOfInt 0 + UInt64.ofNat i := by decide
    have hy : ∀ i < 4, sourceOf [⟨0x2000, 0x1000, 8⟩, ⟨0x2004, 0x1008, 4⟩] (0x2000 + addrOfInt 4 + UInt64.ofNat i) =
        0x1000 + addrOfInt 8 + UInt64.ofNat i := by decide
    intro field new hcommon
    rcases shrunk_common hcommon with ⟨rfl, rfl⟩ | ⟨rfl, rfl⟩
    · exact hx
    · exact hy
  · intro x hx
    refine sourceOf_none fun c hc hreaches => hx ?_
    simp only [List.mem_cons, List.not_mem_nil, or_false] at hc
    rcases hc with rfl | rfl
    · obtain ⟨j, hj, rfl⟩ := (Copy.reaches_iff (by decide)).mp hreaches
      exact shrunk_bytes hj
    · obtain ⟨j, hj, rfl⟩ := (Copy.reaches_iff (by decide)).mp hreaches
      have hsum : ∀ j < 4, (0x2004 : UInt64) + UInt64.ofNat j = 0x2000 + UInt64.ofNat (j + 4) := by decide
      have hj4 : j < 4 := hj
      rw [show (0x2004 : UInt64) + UInt64.ofNat j = 0x2000 + UInt64.ofNat (j + 4) from hsum j hj4]
      exact shrunk_bytes (by omega)

end Katana
