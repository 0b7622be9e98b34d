/-
  Katana.FunctionPatch — the functions of a patch in the target (insertTrampolineJump, applyFunctionPatch,
  addStrtabEntryToExisting and addSymtabEntryToExisting of patcher/patchapply.c), in the 64-bit build.

  Over the first 14 bytes of a function of the binary, however long it is, a jump to its code in the patch is written, and
  its symbol gets the new address. A function that is new gets a symbol of its own.

  Proved, for every binary, target and list of functions:
  - `applyFunctionPatch_ok` / `applyFunctionPatch_ends`: what one function does, and when it is done.
  - `applyFunctionPatches_ok` / `applyFunctionPatches_ends`: so for a list of them.
  - `redirected_iff`: every function of the binary jumps to its new code exactly when what the run looks at is there and
    any two jumps agree where they overlap.
  - `redirected_of_apart`: so it is for functions that are as long as their jumps.
-/
import Katana.Lib.Standing
import Katana.PatchTables
import Katana.Target

namespace Katana

open Lib
open Nodes (CString strlen)

/-! ## The tables of the patched binary -/

namespace SymBytes

def stValue (sym : SymBytes) : UInt64 := UInt64.ofNat (leNat ((sym.bytes.drop 8).take 8))

def withValue (sym : SymBytes) (stValue : UInt64) : SymBytes where
  bytes := sym.bytes.take 8 ++ toLE 8 stValue.toNat ++ sym.bytes.drop 16
  length_eq := by simp [sym.length_eq]

/-- A global function: `STB_GLOBAL` and `STT_FUNC`. -/
def newFunction (stName : UInt32) (stShndx : UInt16) (stValue : UInt64) : SymBytes where
  bytes := toLE 4 stName.toNat ++ [0x12, 0] ++ toLE 2 stShndx.toNat ++ toLE 8 stValue.toNat ++ toLE 8 0
  length_eq := by simp

end SymBytes

/-- `gelf_update_sym`, which only overwrites symbols. -/
def ElfBlock.updateSym (block : ElfBlock) (ndx : Nat) (sym : SymBytes) : ElfBlock :=
  if 24 * ndx + 24 ≤ block.dBuf.length then
    { block with dBuf := block.dBuf.take (24 * ndx) ++ sym.bytes ++ block.dBuf.drop (24 * ndx + 24) }
  else block

namespace PatchElf

def symtabData (e : PatchElf) : ElfBlock := e.symbols e.symtab

def withSymtab (e : PatchElf) (block : ElfBlock) : PatchElf := { e with symbols := Function.update e.symbols e.symtab block }

@[simp] theorem symtabData_withSymtab (e : PatchElf) (block : ElfBlock) : (e.withSymtab block).symtabData = block := by
  simp [symtabData, withSymtab]

end PatchElf

/-- `newSize` is an int. -/
def addStrtabEntryToExisting (e : PatchElf) (str : CString) : Except Fault (PatchElf × Int32) := do
  defined (e.strtab.dBuf.length + strlen str + 1 < 2 ^ 31)
  .ok ({ e with strtab := e.strtab.grown (str.bytes ++ [0]) }, Int32.ofNat e.strtab.dBuf.length)

def addSymtabEntryToExisting (e : PatchElf) (sym : SymBytes) : Except Fault (PatchElf × Int32) := do
  defined (e.symtabData.dBuf.length + 24 < 2 ^ 31)
  let data := e.symtabData.grown sym.bytes
  let symTabCount := Int32.ofNat data.entries
  .ok ({ e.withSymtab data with symTabCount }, symTabCount - 1)

/-! ## applyFunctionPatch -/

/-- `jmp *0(%rip)` and the address behind it. -/
def trampoline (jumpTo : UInt64) : List UInt8 := [0xff, 0x25] ++ toLE 4 0 ++ toLE 8 jumpTo.toNat

variable {H : Type} (process : Process H)

def insertTrampolineJump (t : Target H) (insertAt jumpTo : UInt64) : Except Fault (Target H) := do
  let code := trampoline jumpTo
  let t ← memcpyToTarget process t insertAt code 14
  let verify ← memcpyFromTarget process t insertAt 14
  if code = verify then .ok t else .error (.death "failed to copy code into target properly\n")

/-- What of a `SubprogramInfo` is used; `lowpc` is counted from the start of `.text.new`. -/
structure PatchFunction where
  name : CString
  lowpc : UInt64

/-- Where the patch is applied: the binary that runs, `patchTextAddr`, and the index of `.text.new` in the patched binary. -/
structure PatchPlace where
  targetBin : PatchElf
  patchTextAddr : UInt64
  textNew : UInt16

structure PatchState (H : Type) where
  patchedBin : PatchElf
  target : Target H

namespace PatchPlace

def lookupFlags : FindFlags := ⟨false, false, false, false⟩

/-- The offset is an `uint`. -/
def newAddress (place : PatchPlace) (func : PatchFunction) : UInt64 := place.patchTextAddr + func.lowpc.toUInt32.toUInt64

def symtabIdx (place : PatchPlace) (func : PatchFunction) : Except Fault Nat :=
  getSymtabIdx place.targetBin func.name lookupFlags

end PatchPlace

variable (place : PatchPlace)

def applyFunctionPatch (s : PatchState H) (func : PatchFunction) : Except Fault (PatchState H) := do
  let addr := place.newAddress func
  let idx ← place.symtabIdx func
  if idx ≠ 0 then
    -- `getSymbol` then finds the symbol too
    match place.targetBin.symtabData.symAt idx with
    | none => .error (.death "gelf_getsym failed in getSymAddress\n")
    | some sym => do
      let target ← insertTrampolineJump process s.target sym.stValue addr
      .ok ⟨s.patchedBin.withSymtab (s.patchedBin.symtabData.updateSym idx (sym.withValue addr)), target⟩
  else do
    let (patchedBin, stName) ← addStrtabEntryToExisting s.patchedBin func.name
    let (patchedBin, _) ← addSymtabEntryToExisting patchedBin (.newFunction stName.toUInt32 place.textNew addr)
    .ok ⟨patchedBin, s.target⟩

/-- The functions of the patch in the order they come in. -/
def applyFunctionPatches (s : PatchState H) (funcs : List PatchFunction) : Except Fault (PatchState H) :=
  funcs.foldlM (applyFunctionPatch process place) s

/-! ## The jumps -/

/-- Where the processor goes from an indirect jump through memory that a signed offset from the next instruction points to. -/
def jumpTarget (m : Memory) (rip : UInt64) : Option UInt64 :=
  if m.read rip 2 = [0xff, 0x25] then
    let disp := (UInt32.ofNat (leNat (m.read (rip + 2) 4))).toInt32
    some (UInt64.ofNat (leNat (m.read (rip + 6 + disp.toInt64.toUInt64) 8)))
  else none

/-- The function has this symbol in the binary. -/
structure PatchPlace.Replaces (func : PatchFunction) (idx : Nat) (sym : SymBytes) : Prop where
  found : place.symtabIdx func = .ok idx
  defined : idx ≠ 0
  symbol : place.targetBin.symtabData.symAt idx = some sym

def PatchPlace.IsNew (func : PatchFunction) : Prop := place.symtabIdx func = .ok 0

instance (func : PatchFunction) : Decidable (place.IsNew func) :=
  inferInstanceAs (Decidable (place.symtabIdx func = .ok 0))

/-- The jump of a function, at the address of its symbol. -/
def PatchPlace.jumpOf (func : PatchFunction) : Option ByteRun :=
  match place.symtabIdx func with
  | .error _ => none
  | .ok idx =>
    if idx ≠ 0 then (place.targetBin.symtabData.symAt idx).map fun sym => (sym.stValue, trampoline (place.newAddress func))
    else none

def PatchPlace.jumps (funcs : List PatchFunction) : List ByteRun := funcs.filterMap place.jumpOf

/-- What the run looks at for a function: its symbol, and the words of the target. -/
def PatchPlace.Patchable (heap : H) (func : PatchFunction) : Prop :=
  place.IsNew func ∨ ∃ idx sym, place.Replaces func idx sym ∧
    ∀ w ∈ wordsWritten sym.stValue 14 ++ wordsRead sym.stValue 14, wordMapped process heap w

def PatchPlace.symbolOf (e : PatchElf) (func : PatchFunction) : SymBytes :=
  .newFunction (Int32.ofNat e.strtab.dBuf.length).toUInt32 place.textNew (place.newAddress func)

def PatchPlace.withFunction (e : PatchElf) (func : PatchFunction) : PatchElf :=
  let data := e.symtabData.grown (place.symbolOf e func).bytes
  { e.withSymtab data with
    strtab := e.strtab.grown (func.name.bytes ++ [0])
    symTabCount := Int32.ofNat data.entries }

def PatchPlace.newNames (funcs : List PatchFunction) : List CString :=
  (funcs.filter fun func => place.IsNew func).map (·.name)

/-- With the new functions the tables are of sizes that an int counts. -/
structure PatchPlace.RoomFor (e : PatchElf) (funcs : List PatchFunction) : Prop where
  strings : e.strtab.dBuf.length + ((place.newNames funcs).map fun name => strlen name + 1).sum < 2 ^ 31
  symbols : e.symtabData.dBuf.length + 24 * (place.newNames funcs).length < 2 ^ 31

/-- Every function of the binary jumps to its new code, and besides the jumps nothing in the target is changed. -/
structure PatchPlace.Redirected (funcs : List PatchFunction) (t t' : Target H) : Prop where
  reached : ∀ func ∈ funcs, ∀ idx sym, place.Replaces func idx sym →
    jumpTarget t'.bytes sym.stValue = some (place.newAddress func)
  whole : ∀ r ∈ place.jumps funcs, r.Stands t'.bytes
  others : ∀ x, (∀ r ∈ place.jumps funcs, ¬ r.Covers x) → t'.bytes x = t.bytes x
  rest : t' = { t with bytes := t'.bytes }

/-! ## One jump -/

@[simp] theorem length_trampoline (jumpTo : UInt64) : (trampoline jumpTo).length = 14 := by simp [trampoline]

theorem writtenCount_trampoline (addr : UInt64) : writtenCount addr 14 = 14 := if_pos (by decide)

section
variable {process} {place}

theorem insertTrampolineJump_ok {t t' : Target H} {insertAt jumpTo : UInt64}
    (h : insertTrampolineJump process t insertAt jumpTo = .ok t') :
    t' = { t with bytes := t.bytes.write insertAt (trampoline jumpTo) } := by
  unfold insertTrampolineJump at h
  obtain ⟨t1, hwrite, h⟩ := bind_eq_ok.mp h
  obtain ⟨verify, -, h⟩ := bind_eq_ok.mp h
  have hfilled := memcpyToTarget_ok (by rw [writtenCount_trampoline, length_trampoline]) hwrite
  rw [writtenCount_trampoline, List.take_of_length_le (by rw [length_trampoline])] at hfilled
  split at h
  · cases h
    exact hfilled
  · cases h

/-- The copy is always found to be right. -/
theorem insertTrampolineJump_ends {t : Target H} {insertAt jumpTo : UInt64} :
    (∃ t', insertTrampolineJump process t insertAt jumpTo = .ok t') ↔
      ∀ w ∈ wordsWritten insertAt 14 ++ wordsRead insertAt 14, wordMapped process t.heap w := by
  have hwrites : (∃ t', memcpyToTarget process t insertAt (trampoline jumpTo) 14 = .ok t') ↔
      ∀ w ∈ wordsWritten insertAt 14, wordMapped process t.heap w := memcpyToTarget_ends (by decide) (by decide)
  unfold insertTrampolineJump
  rw [List.forall_mem_append]
  refine bind_ends hwrites fun t1 hwrite => ?_
  have hfilled := memcpyToTarget_ok (by rw [writtenCount_trampoline, length_trampoline]) hwrite
  rw [writtenCount_trampoline, List.take_of_length_le (by rw [length_trampoline])] at hfilled
  have hreads : (∃ verify, memcpyFromTarget process t1 insertAt 14 = .ok verify) ↔
      14 ≤ loopBound ∧ ∀ w ∈ wordsRead insertAt 14, wordMapped process t1.heap w := memcpyFromTarget_ends
  have hheap : t1.heap = t.heap := by rw [hfilled]
  rw [hheap] at hreads
  constructor
  · intro ⟨t', h⟩
    obtain ⟨verify, hread, -⟩ := bind_eq_ok.mp h
    exact (hreads.mp ⟨verify, hread⟩).2
  · intro hmapped
    obtain ⟨verify, hread⟩ := hreads.mpr ⟨by decide, hmapped⟩
    have hsame : trampoline jumpTo = verify := by
      rw [memcpyFromTarget_ok hread, hfilled]
      exact (Memory.read_write t.bytes insertAt (by rw [length_trampoline]; decide)).symm
    exact ⟨t1, by rw [hread, bind_ok, if_pos hsame]⟩

/-- From a trampoline the processor goes to where it leads. -/
theorem jumpTarget_trampoline {m : Memory} {rip jumpTo : UInt64} (h : ByteRun.Stands m (rip, trampoline jumpTo)) :
    jumpTarget m rip = some jumpTo := by
  have hread : m.read rip (2 + (4 + 8)) = [0xff, 0x25] ++ (toLE 4 0 ++ toLE 8 jumpTo.toNat) := h
  rw [Memory.read_append, Memory.read_append] at hread
  obtain ⟨hcode, hrest⟩ := List.append_inj hread (by simp)
  obtain ⟨hdisp, haddr⟩ := List.append_inj hrest (by simp)
  have hnext : rip + UInt64.ofNat 2 + UInt64.ofNat 4 = rip + 6 := by
    rw [UInt64.add_assoc]
    rfl
  rw [hnext] at haddr
  have hzero : (UInt32.ofNat (leNat (m.read (rip + 2) 4))).toInt32.toInt64.toUInt64 = 0 := by
    have hdisp' : m.read (rip + 2) 4 = toLE 4 0 := hdisp
    rw [hdisp']
    decide
  unfold jumpTarget
  rw [if_pos hcode]
  dsimp only
  rw [hzero, UInt64.add_zero, haddr, leNat_toLE, Nat.mod_eq_of_lt (show jumpTo.toNat < 256 ^ 8 from jumpTo.toNat_lt),
    UInt64.ofNat_toNat]

/-! ## One function -/

theorem addStrtabEntryToExisting_ok {e : PatchElf} {str : CString} (h : e.strtab.dBuf.length + strlen str + 1 < 2 ^ 31) :
    addStrtabEntryToExisting e str =
      .ok ({ e with strtab := e.strtab.grown (str.bytes ++ [0]) }, Int32.ofNat e.strtab.dBuf.length) := by
  unfold addStrtabEntryToExisting
  rw [defined_of h]
  rfl

theorem addSymtabEntryToExisting_ok {e : PatchElf} {sym : SymBytes} (h : e.symtabData.dBuf.length + 24 < 2 ^ 31) :
    addSymtabEntryToExisting e sym =
      .ok ({ e.withSymtab (e.symtabData.grown sym.bytes) with
        symTabCount := Int32.ofNat (e.symtabData.grown sym.bytes).entries },
        Int32.ofNat (e.symtabData.grown sym.bytes).entries - 1) := by
  unfold addSymtabEntryToExisting
  rw [defined_of h]
  rfl

theorem jumpOf_replaces {func : PatchFunction} {idx : Nat} {sym : SymBytes} (h : place.Replaces func idx sym) :
    place.jumpOf func = some (sym.stValue, trampoline (place.newAddress func)) := by
  unfold PatchPlace.jumpOf
  rw [h.found]
  dsimp only
  rw [if_pos h.defined, h.symbol]
  rfl

theorem jumpOf_isNew {func : PatchFunction} (h : place.IsNew func) : place.jumpOf func = none := by
  unfold PatchPlace.IsNew at h
  unfold PatchPlace.jumpOf
  rw [h]
  rfl

/-- What one function does. -/
theorem applyFunctionPatch_ok {s s' : PatchState H} {func : PatchFunction}
    (h : applyFunctionPatch process place s func = .ok s') :
    (∃ idx sym, place.Replaces func idx sym ∧
      s' = ⟨s.patchedBin.withSymtab (s.patchedBin.symtabData.updateSym idx (sym.withValue (place.newAddress func))),
        { s.target with bytes := s.target.bytes.write sym.stValue (trampoline (place.newAddress func)) }⟩) ∨
    (place.IsNew func ∧ s' = ⟨place.withFunction s.patchedBin func, s.target⟩) := by
  unfold applyFunctionPatch at h
  obtain ⟨idx, hidx, h⟩ := bind_eq_ok.mp h
  split at h
  · rename_i hdefined
    split at h
    · cases h
    · rename_i sym hsym
      obtain ⟨target, hjump, h⟩ := bind_eq_ok.mp h
      cases h
      exact .inl ⟨idx, sym, ⟨hidx, hdefined, hsym⟩, by rw [insertTrampolineJump_ok hjump]⟩
  · rename_i hzero
    obtain rfl : idx = 0 := by
      by_contra hne
      exact hzero hne
    obtain ⟨⟨e1, stName⟩, hstr, h⟩ := bind_eq_ok.mp h
    obtain ⟨⟨e2, symIdx⟩, hsym, h⟩ := bind_eq_ok.mp h
    cases h
    obtain ⟨-, -, hstr⟩ := bind_eq_ok.mp hstr
    obtain ⟨-, -, hsym⟩ := bind_eq_ok.mp hsym
    cases hstr
    cases hsym
    exact .inr ⟨hidx, rfl⟩

/-- A function is done exactly when what it looks at is there. -/
theorem applyFunctionPatch_ends {s : PatchState H} {func : PatchFunction}
    (hroom : place.IsNew func → s.patchedBin.strtab.dBuf.length + strlen func.name + 1 < 2 ^ 31 ∧
      s.patchedBin.symtabData.dBuf.length + 24 < 2 ^ 31) :
    (∃ s', applyFunctionPatch process place s func = .ok s') ↔ place.Patchable process s.target.heap func := by
  constructor
  · intro ⟨s', h⟩
    rcases applyFunctionPatch_ok h with ⟨idx, sym, hsym, -⟩ | ⟨hnew, -⟩
    · refine .inr ⟨idx, sym, hsym, ?_⟩
      unfold applyFunctionPatch at h
      rw [hsym.found, bind_ok, if_pos hsym.defined, hsym.symbol] at h
      obtain ⟨target, hjump, -⟩ := bind_eq_ok.mp h
      exact insertTrampolineJump_ends.mp ⟨target, hjump⟩
    · exact .inl hnew
  · rintro (hnew | ⟨idx, sym, hsym, hmapped⟩)
    · obtain ⟨hstrings, hsymbols⟩ := hroom hnew
      refine ⟨⟨place.withFunction s.patchedBin func, s.target⟩, ?_⟩
      unfold applyFunctionPatch
      rw [show place.symtabIdx func = .ok 0 from hnew, bind_ok, if_neg (by decide), addStrtabEntryToExisting_ok hstrings,
        bind_ok]
      dsimp only
      rw [addSymtabEntryToExisting_ok (by exact hsymbols)]
      rfl
    · obtain ⟨target, hjump⟩ := (@insertTrampolineJump_ends H process s.target sym.stValue (place.newAddress func)).mpr hmapped
      refine ⟨⟨s.patchedBin.withSymtab (s.patchedBin.symtabData.updateSym idx (sym.withValue (place.newAddress func))),
        target⟩, ?_⟩
      unfold applyFunctionPatch
      rw [hsym.found, bind_ok, if_pos hsym.defined, hsym.symbol]
      dsimp only
      rw [hjump]
      rfl

/-! ## A list of functions -/

theorem length_updateSym (block : ElfBlock) (ndx : Nat) (sym : SymBytes) :
    (block.updateSym ndx sym).dBuf.length = block.dBuf.length := by
  unfold ElfBlock.updateSym
  split
  · simp only [List.length_append, List.length_take, List.length_drop, sym.length_eq]
    omega
  · rfl

theorem strtab_withFunction (e : PatchElf) (func : PatchFunction) :
    (place.withFunction e func).strtab.dBuf.length = e.strtab.dBuf.length + (strlen func.name + 1) := by
  simp [PatchPlace.withFunction, ElfBlock.grown, strlen]

theorem symtabData_withFunction (e : PatchElf) (func : PatchFunction) :
    (place.withFunction e func).symtabData = e.symtabData.grown (place.symbolOf e func).bytes := by
  simp [PatchPlace.withFunction, PatchElf.symtabData, PatchElf.withSymtab]

theorem symtab_withFunction (e : PatchElf) (func : PatchFunction) :
    (place.withFunction e func).symtabData.dBuf.length = e.symtabData.dBuf.length + 24 := by
  rw [symtabData_withFunction, ElfBlock.grown, List.length_append, SymBytes.length_eq]

theorem newNames_cons (func : PatchFunction) (funcs : List PatchFunction) :
    place.newNames (func :: funcs) = (if place.IsNew func then [func.name] else []) ++ place.newNames funcs := by
  unfold PatchPlace.newNames
  rw [List.filter_cons]
  by_cases hnew : place.IsNew func
  · simp [hnew]
  · simp [hnew]

/-- The room that is left behind a function. -/
theorem PatchPlace.RoomFor.step {s s' : PatchState H} {func : PatchFunction} {funcs : List PatchFunction}
    (hroom : place.RoomFor s.patchedBin (func :: funcs)) (h : applyFunctionPatch process place s func = .ok s') :
    place.RoomFor s'.patchedBin funcs := by
  obtain ⟨hstrings, hsymbols⟩ := hroom
  rw [newNames_cons] at hstrings hsymbols
  rcases applyFunctionPatch_ok h with ⟨idx, sym, hsym, rfl⟩ | ⟨hnew, rfl⟩
  · have hold : ¬ place.IsNew func := fun hnew => hsym.defined (Except.ok.inj (hsym.found.symm.trans hnew))
    rw [if_neg hold] at hstrings hsymbols
    refine ⟨hstrings, ?_⟩
    rw [PatchElf.symtabData_withSymtab, length_updateSym]
    exact hsymbols
  · rw [if_pos hnew] at hstrings hsymbols
    rw [List.map_append, List.sum_append] at hstrings
    rw [List.length_append] at hsymbols
    constructor
    · rw [strtab_withFunction]
      simp only [List.map_cons, List.map_nil, List.sum_singleton] at hstrings
      omega
    · rw [symtab_withFunction]
      simp only [List.length_singleton] at hsymbols
      omega

theorem PatchPlace.RoomFor.new {e : PatchElf} {func : PatchFunction} {funcs : List PatchFunction}
    (hroom : place.RoomFor e (func :: funcs)) (hnew : place.IsNew func) :
    e.strtab.dBuf.length + strlen func.name + 1 < 2 ^ 31 ∧ e.symtabData.dBuf.length + 24 < 2 ^ 31 := by
  obtain ⟨hstrings, hsymbols⟩ := hroom
  rw [newNames_cons, if_pos hnew] at hstrings hsymbols
  rw [List.map_append, List.sum_append, List.map_singleton, List.sum_singleton] at hstrings
  rw [List.length_append, List.length_singleton] at hsymbols
  exact ⟨by omega, by omega⟩

/-- The target after the functions: all their jumps are written. -/
theorem applyFunctionPatches_ok {funcs : List PatchFunction} {s s' : PatchState H}
    (h : applyFunctionPatches process place s funcs = .ok s') :
    s'.target = { s.target with bytes := s.target.bytes.writeAll (place.jumps funcs) } := by
  induction funcs generalizing s with
  | nil =>
    cases h
    rfl
  | cons func funcs ih =>
    unfold applyFunctionPatches at ih h
    rw [List.foldlM_cons] at h
    obtain ⟨s1, hstep, h⟩ := bind_eq_ok.mp h
    rw [ih h]
    rcases applyFunctionPatch_ok hstep with ⟨idx, sym, hsym, rfl⟩ | ⟨hnew, rfl⟩
    · have hjumps : place.jumps (func :: funcs) =
          (sym.stValue, trampoline (place.newAddress func)) :: place.jumps funcs :=
        List.filterMap_cons_some (jumpOf_replaces hsym)
      rw [hjumps, Memory.writeAll, Memory.writeAll, List.foldl_cons]
    · have hjumps : place.jumps (func :: funcs) = place.jumps funcs := List.filterMap_cons_none (jumpOf_isNew hnew)
      rw [hjumps]

/-- The functions are all done exactly when what each looks at is there. -/
theorem applyFunctionPatches_ends {funcs : List PatchFunction} {s : PatchState H}
    (hroom : place.RoomFor s.patchedBin funcs) : (∃ s', applyFunctionPatches process place s funcs = .ok s') ↔
      ∀ func ∈ funcs, place.Patchable process s.target.heap func := by
  induction funcs generalizing s with
  | nil => exact ⟨fun _ => by simp, fun _ => ⟨s, rfl⟩⟩
  | cons func funcs ih =>
    unfold applyFunctionPatches at ih ⊢
    rw [List.foldlM_cons, List.forall_mem_cons]
    refine bind_ends (applyFunctionPatch_ends hroom.new) fun s1 hstep => ?_
    rw [ih (hroom.step hstep)]
    have hheap : s1.target.heap = s.target.heap := by
      rcases applyFunctionPatch_ok hstep with ⟨idx, sym, -, rfl⟩ | ⟨-, rfl⟩
      · rfl
      · rfl
    rw [hheap]

theorem length_jumps {funcs : List PatchFunction} {r : ByteRun} (h : r ∈ place.jumps funcs) : r.2.length ≤ 2 ^ 64 := by
  obtain ⟨func, -, hjump⟩ := List.mem_filterMap.mp h
  unfold PatchPlace.jumpOf at hjump
  split at hjump
  · cases hjump
  · split at hjump
    · obtain ⟨sym, -, rfl⟩ := Option.map_eq_some_iff.mp hjump
      rw [length_trampoline]
      decide
    · cases hjump

theorem redirected_of_run {s s' : PatchState H} {funcs : List PatchFunction}
    (hrun : applyFunctionPatches process place s funcs = .ok s')
    (hagree : ∀ r ∈ place.jumps funcs, ∀ r' ∈ place.jumps funcs, r.Agree r') :
    place.Redirected funcs s.target s'.target := by
  have hwhole := (ByteRun.stands_writeAll_iff (m := s.target.bytes) fun r => length_jumps).mpr hagree
  rw [applyFunctionPatches_ok hrun]
  exact {
    reached := fun func hfunc idx sym hsym =>
      jumpTarget_trampoline (hwhole _ (List.mem_filterMap.mpr ⟨func, hfunc, jumpOf_replaces hsym⟩))
    whole := hwhole
    others := fun x hx => ByteRun.writeAll_outside (fun r => length_jumps) hx
    rest := rfl }

end

/-- **Every function of the binary jumps to its new code, and nothing else is changed, exactly when the run finds what it
looks at and any two jumps agree where they overlap.** -/
theorem redirected_iff (s : PatchState H) (funcs : List PatchFunction) (hroom : place.RoomFor s.patchedBin funcs) :
    (∃ s', applyFunctionPatches process place s funcs = .ok s' ∧ place.Redirected funcs s.target s'.target) ↔
      (∀ func ∈ funcs, place.Patchable process s.target.heap func) ∧
        ∀ r ∈ place.jumps funcs, ∀ r' ∈ place.jumps funcs, r.Agree r' := by
  have hlen : ∀ r ∈ place.jumps funcs, r.2.length ≤ 2 ^ 64 := fun r => length_jumps
  have hstands := ByteRun.stands_writeAll_iff (m := s.target.bytes) hlen
  constructor
  · intro ⟨s', hrun, hred⟩
    refine ⟨(applyFunctionPatches_ends hroom).mp ⟨s', hrun⟩, hstands.mp ?_⟩
    have hbytes := hred.whole
    rw [applyFunctionPatches_ok hrun] at hbytes
    exact hbytes
  · intro ⟨hpatchable, hagree⟩
    obtain ⟨s', hrun⟩ := (applyFunctionPatches_ends hroom).mpr hpatchable
    exact ⟨s', hrun, redirected_of_run hrun hagree⟩

/-- Functions of 14 bytes and more: their jumps are apart. -/
theorem redirected_of_apart (s : PatchState H) (funcs : List PatchFunction) (hroom : place.RoomFor s.patchedBin funcs)
    (hpatchable : ∀ func ∈ funcs, place.Patchable process s.target.heap func)
    (hapart : (place.jumps funcs).Pairwise fun r r' => Memory.Apart r.1 r.2.length r'.1 r'.2.length) :
    ∃ s', applyFunctionPatches process place s funcs = .ok s' ∧ place.Redirected funcs s.target s'.target := by
  have hagree := ByteRun.agree_of_pairwise_apart (fun r => length_jumps) hapart
  obtain ⟨s', hrun⟩ := (applyFunctionPatches_ends hroom).mpr hpatchable
  exact ⟨s', hrun, redirected_of_run hrun hagree⟩

/-! ### A function of five bytes -/

/-- `f` at 0x401000, and `g` five bytes behind it. -/
def shortBin : PatchElf where
  strTblIdx := 3
  strtab := ⟨[0, 102, 0, 103, 0], 0⟩
  symbols := fun _ => ⟨List.replicate 24 0 ++ (SymBytes.newFunction 1 1 0x401000).bytes ++
    (SymBytes.newFunction 3 1 0x401005).bytes, 0⟩
  symtab := 2
  dynsym := none
  symTabCount := 3

def shortPlace : PatchPlace := ⟨shortBin, 0x500000, 9⟩

def patchF : PatchFunction := ⟨⟨[102], by decide⟩, 0x10⟩

def patchG : PatchFunction := ⟨⟨[103], by decide⟩, 0x40⟩

def patchH : PatchFunction := ⟨⟨[104], by decide⟩, 0x80⟩

theorem patchable_short : ∀ func ∈ [patchF, patchH], shortPlace.Patchable (mappedProcess keptHeap) () func := by
  intro func hfunc
  rcases List.mem_pair.mp hfunc with rfl | rfl
  · exact .inr ⟨1, .newFunction 1 1 0x401000, ⟨by decide, by decide, by decide⟩, fun w _ => wordMapped_mapped _ w⟩
  · exact .inl (by decide)

/-- With a new function all is well; with `g` the jump of `f` is overwritten. -/
theorem redirected_short :
    (∃ s', applyFunctionPatches (mappedProcess keptHeap) shortPlace ⟨shortBin, zeroTarget⟩ [patchF, patchH] = .ok s' ∧
      shortPlace.Redirected [patchF, patchH] zeroTarget s'.target) ∧
    ¬ ∃ s', applyFunctionPatches (mappedProcess keptHeap) shortPlace ⟨shortBin, zeroTarget⟩ [patchF, patchG] = .ok s' ∧
      shortPlace.Redirected [patchF, patchG] zeroTarget s'.target := by
  constructor
  · refine (redirected_iff _ _ _ _ ⟨by decide, by decide⟩).mpr ⟨patchable_short, ?_⟩
    · have hjumps : shortPlace.jumps [patchF, patchH] = [(0x401000, trampoline 0x500010)] := by decide
      rw [hjumps]
      intro r hr r' hr'
      rw [List.mem_singleton.mp hr, List.mem_singleton.mp hr']
      exact ByteRun.agree_refl (by decide)
  · intro h
    obtain ⟨-, hagree⟩ := (redirected_iff _ _ _ _ ⟨by decide, by decide⟩).mp h
    have hjumps : shortPlace.jumps [patchF, patchG] =
        [(0x401000, trampoline 0x500010), (0x401005, trampoline 0x500040)] := by decide
    rw [hjumps] at hagree
    -- the last byte of the offset of the one is the first of the other
    have hbyte := hagree _ (List.mem_cons_self ..) _ (List.mem_cons_of_mem _ List.mem_cons_self) 5 (by decide) 0
      (by decide) (by decide)
    exact absurd hbyte (by decide)

end Katana
