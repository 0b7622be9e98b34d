/-
  Katana.PatchTables — the string table and the symbol tables of an ELF object that is written (addDataToScn,
  addStrtabEntry and addSymtabEntry of elfwriter.c) and the lookup of a symbol by its name (getSymtabIdx and
  unmangleSymbolName of symbol.c).

  Both tables grow at their end, so that offsets and indices stay valid. The number of symbols is kept apart
  from the size of their table, and addSymtabEntry takes it from the table's `d_off`.

  Proved, for every object to start from and every sequence of calls that stays within the ints:
  - `Reached.step` / `reached_run`: what a call does to the tables and to what was handed out before.
  - `handles_kept`: the offsets and indices handed out always denote their strings and symbols.
  - `tablesRight_iff`: the count and the lookups are right as well exactly if no symbol is added to the symbol
    table (or one, of which `d_off` happens to tell).
-/
import Katana.DictionaryNodes
import Katana.Lib.Digits
import Mathlib.Data.List.Induction
import Mathlib.Logic.Function.Basic

namespace Katana

open Lib
open Nodes (CString strlen)

/-! ## The tables -/

/-- `Elf_Data`; `d_size` is the length of the buffer. -/
structure ElfBlock where
  dBuf : List UInt8
  dOff : Int64
  deriving DecidableEq

structure SymBytes where
  bytes : List UInt8
  length_eq : bytes.length = 24
  deriving DecidableEq

def SymBytes.stName (sym : SymBytes) : UInt32 := UInt32.ofNat (leNat (sym.bytes.take 4))

namespace ElfBlock

def stringAt (block : ElfBlock) (idx : Int32) : Option (List UInt8) :=
  let rest := block.dBuf.drop idx.toInt.toNat
  if 0 ≤ idx.toInt ∧ 0 ∈ rest then some (rest.takeWhile (· ≠ 0)) else none

def symAt (block : ElfBlock) (ndx : Nat) : Option SymBytes :=
  let bytes := (block.dBuf.drop (24 * ndx)).take 24
  if h : bytes.length = 24 then some ⟨bytes, h⟩ else none

def entries (block : ElfBlock) : Nat := block.dBuf.length / 24

end ElfBlock

/-- What of an `ElfInfo` its tables are. The sections `ERS_STRTAB` and `strTblIdx` are one. `symtab` is the block of
`ERS_SYMTAB`; `dynsym` is that of `ERS_DYNSYM`, with the strings for it. -/
structure PatchElf where
  strTblIdx : Nat
  strtab : ElfBlock
  symbols : Nat → ElfBlock
  symtab : Nat
  dynsym : Option (Nat × ElfBlock)
  symTabCount : Int32

/-! ## elfwriter.c -/

/-- `size` is a `size_t` for the copy. -/
def addDataToScn (dataDest : ElfBlock) (data : List UInt8) (size : Int32) : Except Fault (ElfBlock × UInt64) := do
  defined (0 ≤ size.toInt ∧ size.toInt.toNat ≤ data.length)
  .ok ({ dataDest with dBuf := dataDest.dBuf ++ data.take size.toInt.toNat }, UInt64.ofNat dataDest.dBuf.length)

def addStrtabEntry (e : PatchElf) (str : CString) : Except Fault (PatchElf × Int32) := do
  let len := Int32.ofNat (strlen str + 1)
  let (strtabData, _) ← addDataToScn e.strtab (str.bytes ++ [0]) len
  .ok ({ e with strtab := strtabData }, Int32.ofInt (strtabData.dBuf.length - len.toInt))

def addSymtabEntry (e : PatchElf) (data : Nat) (sym : SymBytes) : Except Fault (PatchElf × Int32) := do
  let (block, _) ← addDataToScn (e.symbols data) sym.bytes 24
  let symTabCount := if data = e.symtab then (block.dOff / 24).toInt32 else e.symTabCount
  .ok ({ e with symbols := Function.update e.symbols data block, symTabCount },
    Int32.ofNat ((block.dBuf.length - 24) / 24))

/-! ## symbol.c -/

structure FindFlags where
  mangledOk : Bool
  newDynamic : Bool
  versionedSectionsOk : Bool
  bssMatchDataOk : Bool
  deriving DecidableEq

/-- The name up to its `@`. -/
def unmangleSymbolName (name : List UInt8) : List UInt8 := name.takeWhile (· ≠ 64)

def FindFlags.shown (flags : FindFlags) (name : List UInt8) : List UInt8 :=
  if flags.mangledOk then unmangleSymbolName name else name

/-- The loop from index `i` on, with `n` indices left. -/
def symtabLoop (symTabData strings : ElfBlock) (flags : FindFlags) (symbolName : List UInt8) :
    Nat → Nat → Except Fault (Option Nat)
  | 0, _ => .ok none
  | n + 1, i =>
    match symTabData.symAt i with
    | none => .error .undefined
    | some sym =>
      match strings.stringAt sym.stName.toInt32 with
      | none => .error .undefined
      | some symname =>
        if flags.shown symname = flags.shown symbolName then .ok (some i)
        else symtabLoop symTabData strings flags symbolName n (i + 1)

/-- The first of the names, or 0. -/
def firstIdx (names : List (List UInt8)) (name : List UInt8) : Nat :=
  if names.contains name then names.idxOf name else 0

theorem firstIdx_of_mem {names : List (List UInt8)} {name : List UInt8} (h : name ∈ names) :
    firstIdx names name = names.idxOf name := by
  rw [firstIdx, if_pos (List.contains_iff_mem.mpr h)]

theorem firstIdx_of_notMem {names : List (List UInt8)} {name : List UInt8} (h : name ∉ names) :
    firstIdx names name = 0 := by
  rw [firstIdx, if_neg fun hin => h (List.contains_iff_mem.mp hin)]

/-- 0 is `STN_UNDEF`. -/
def getSymtabIdx (e : PatchElf) (symbolName : CString) (flags : FindFlags) : Except Fault Nat := do
  assert (0 < e.strTblIdx)
  let (symTabData, strings) ←
    if flags.newDynamic then
      match e.dynsym with
      | none => .error .assertion
      | some (dynsym, dynstr) => .ok (e.symbols dynsym, dynstr)
    else .ok (e.symbols e.symtab, e.strtab)
  let found ← symtabLoop symTabData strings flags symbolName.bytes e.symTabCount.toInt.toNat 0
  .ok (found.getD 0)

/-! ## Runs -/

inductive TableCall where
  | addStr (str : CString)
  | addSym (data : Nat) (sym : SymBytes)

structure TablesWritten where
  elf : PatchElf
  strings : List (Int32 × CString)
  symbols : List (Nat × Int32 × SymBytes)

def TableCall.run (s : TablesWritten) : TableCall → Except Fault TablesWritten
  | .addStr str => do
    let (elf, offset) ← addStrtabEntry s.elf str
    .ok { s with elf, strings := s.strings ++ [(offset, str)] }
  | .addSym data sym => do
    let (elf, idx) ← addSymtabEntry s.elf data sym
    .ok { s with elf, symbols := s.symbols ++ [(data, idx, sym)] }

/-- An object to start from: whole symbols, names that end inside the string table, and the right count. -/
structure PatchStart where
  elf : PatchElf
  strTblIdx_pos : 0 < elf.strTblIdx
  terminated : ∀ b ∈ elf.strtab.dBuf.getLast?, b = 0
  whole : ∀ data, (elf.symbols data).dBuf.length % 24 = 0
  named : ∀ i sym, (elf.symbols elf.symtab).symAt i = some sym → sym.stName.toNat < elf.strtab.dBuf.length
  counted : elf.symTabCount.toInt = (elf.symbols elf.symtab).entries

def PatchStart.written (start : PatchStart) : TablesWritten := ⟨start.elf, [], []⟩

/-- The entry is the first with the name. -/
structure FirstNamed (elf : PatchElf) (flags : FindFlags) (name : CString) (i : Nat) : Prop where
  here : ∃ sym symname, (elf.symbols elf.symtab).symAt i = some sym ∧
    elf.strtab.stringAt sym.stName.toInt32 = some symname ∧ flags.shown symname = flags.shown name.bytes
  before : ∀ j < i, ∀ sym symname, (elf.symbols elf.symtab).symAt j = some sym →
    elf.strtab.stringAt sym.stName.toInt32 = some symname → flags.shown symname ≠ flags.shown name.bytes

/-- Every offset and index handed out denotes what it was handed out for. -/
structure Handles (s : TablesWritten) : Prop where
  strings : ∀ p ∈ s.strings, s.elf.strtab.stringAt p.1 = some p.2.bytes
  symbols : ∀ p ∈ s.symbols, (s.elf.symbols p.1).symAt p.2.1.toInt.toNat = some p.2.2

/-- The count is right too, and the first entry with a name is found by it. -/
structure TablesFit (s : TablesWritten) : Prop extends Handles s where
  count : s.elf.symTabCount.toInt = (s.elf.symbols s.elf.symtab).entries
  lookup : ∀ flags name i, flags.newDynamic = false → FirstNamed s.elf flags name i →
    getSymtabIdx s.elf name flags = .ok i

/-- In every state of the run. -/
def TablesRight (start : PatchStart) (calls : List TableCall) : Prop :=
  ∀ done rest, calls = done ++ rest → ∃ s, done.foldlM TableCall.run start.written = .ok s ∧ TablesFit s

/-! ## What the calls add -/

def TableCall.stringBytes : TableCall → Nat
  | .addStr str => strlen str + 1
  | .addSym _ _ => 0

def TableCall.addsTo (data : Nat) : TableCall → Bool
  | .addStr _ => false
  | .addSym d _ => d = data

def addedBytes : List TableCall → Nat
  | [] => 0
  | call :: calls => call.stringBytes + addedBytes calls

def symbolsAdded (data : Nat) (calls : List TableCall) : Nat := calls.countP (TableCall.addsTo data)

/-- The names of the symbols that are added lie in the string table as it is then. -/
def NamesKnown (start : PatchStart) (calls : List TableCall) : Prop :=
  ∀ done sym rest, calls = done ++ .addSym start.elf.symtab sym :: rest →
    sym.stName.toNat < start.elf.strtab.dBuf.length + addedBytes done

/-- The int offsets and indices tell all of the tables. -/
structure InInts (start : PatchStart) (calls : List TableCall) : Prop where
  strings : start.elf.strtab.dBuf.length + addedBytes calls < 2 ^ 31
  symbols : ∀ data, (start.elf.symbols data).entries + symbolsAdded data calls ≤ 2 ^ 31

/-- No symbol is added to the symbol table, or one and `d_off` tells how many there are then. -/
def CountKept (start : PatchStart) (calls : List TableCall) : Prop :=
  symbolsAdded start.elf.symtab calls = 0 ∨ symbolsAdded start.elf.symtab calls = 1 ∧
    ((start.elf.symbols start.elf.symtab).dOff / 24).toInt32.toInt = (start.elf.symbols start.elf.symtab).entries + 1

theorem addedBytes_append (calls more : List TableCall) :
    addedBytes (calls ++ more) = addedBytes calls + addedBytes more := by
  induction calls with
  | nil => simp [addedBytes]
  | cons call calls ih => simp [addedBytes, ih, Nat.add_assoc]

theorem symbolsAdded_append (data : Nat) (calls more : List TableCall) :
    symbolsAdded data (calls ++ more) = symbolsAdded data calls + symbolsAdded data more := List.countP_append

/-! ## Blocks that grow -/

section Grow
variable {block : ElfBlock}

def ElfBlock.grown (block : ElfBlock) (more : List UInt8) : ElfBlock := { block with dBuf := block.dBuf ++ more }

theorem takeWhile_nul_append {l : List UInt8} (h : 0 ∈ l) (more : List UInt8) :
    (l ++ more).takeWhile (· ≠ 0) = l.takeWhile (· ≠ 0) := by
  induction l with
  | nil => cases h
  | cons b l ih =>
    rw [List.cons_append, List.takeWhile_cons, List.takeWhile_cons]
    by_cases hb : b = 0
    · simp [hb]
    · rw [ih (List.mem_of_ne_of_mem (Ne.symm hb) h)]

theorem stringAt_grown {idx : Int32} {str : List UInt8} (h : block.stringAt idx = some str) (more : List UInt8) :
    (block.grown more).stringAt idx = some str := by
  unfold ElfBlock.stringAt at h ⊢
  dsimp only at h ⊢
  split at h
  · rename_i hin
    obtain ⟨hnonneg, hzero⟩ := hin
    have hlt : idx.toInt.toNat < block.dBuf.length := by
      by_contra hge
      rw [List.drop_of_length_le (Nat.le_of_not_lt hge)] at hzero
      cases hzero
    have hdrop : (block.grown more).dBuf.drop idx.toInt.toNat = block.dBuf.drop idx.toInt.toNat ++ more :=
      List.drop_append_of_le_length (Nat.le_of_lt hlt)
    rw [hdrop, if_pos ⟨hnonneg, List.mem_append_left more hzero⟩, takeWhile_nul_append hzero]
    exact h
  · cases h

theorem symAt_eq_some {ndx : Nat} {sym : SymBytes} :
    block.symAt ndx = some sym ↔ (block.dBuf.drop (24 * ndx)).take 24 = sym.bytes := by
  unfold ElfBlock.symAt
  dsimp only
  split
  · rename_i hlen
    rw [Option.some_inj]
    constructor
    · rintro rfl
      rfl
    · intro h
      cases sym
      simp_all
  · rename_i hlen
    constructor
    · intro h
      cases h
    · intro h
      exact absurd (by rw [h]; exact sym.length_eq) hlen

theorem symAt_isSome {ndx : Nat} : (∃ sym, block.symAt ndx = some sym) ↔ 24 * ndx + 24 ≤ block.dBuf.length := by
  constructor
  · rintro ⟨sym, h⟩
    have hlen := congrArg List.length (symAt_eq_some.mp h)
    rw [sym.length_eq, List.length_take, List.length_drop] at hlen
    omega
  · intro h
    exact ⟨⟨(block.dBuf.drop (24 * ndx)).take 24, by rw [List.length_take, List.length_drop]; omega⟩, symAt_eq_some.mpr rfl⟩

theorem symAt_grown {ndx : Nat} {sym : SymBytes} (h : block.symAt ndx = some sym) (more : List UInt8) :
    (block.grown more).symAt ndx = some sym := by
  have hfit := symAt_isSome.mp ⟨sym, h⟩
  rw [symAt_eq_some] at h ⊢
  rw [← h]
  show ((block.dBuf ++ more).drop (24 * ndx)).take 24 = _
  rw [List.drop_append_of_le_length (by omega), List.take_append_of_le_length (by rw [List.length_drop]; omega)]

theorem symAt_new (hwhole : block.dBuf.length % 24 = 0) (sym : SymBytes) :
    (block.grown sym.bytes).symAt block.entries = some sym := by
  have hentries : 24 * block.entries = block.dBuf.length := by
    unfold ElfBlock.entries
    omega
  rw [symAt_eq_some, hentries]
  show ((block.dBuf ++ sym.bytes).drop block.dBuf.length).take 24 = sym.bytes
  rw [List.drop_left, List.take_of_length_le (by rw [sym.length_eq])]

/-- An entry of the longer block is one of the shorter or the new one. -/
theorem symAt_grown_cases (hwhole : block.dBuf.length % 24 = 0) {sym found : SymBytes} {ndx : Nat}
    (h : (block.grown sym.bytes).symAt ndx = some found) : block.symAt ndx = some found ∨ found = sym := by
  have hfit := symAt_isSome.mp ⟨found, h⟩
  have hlen : (block.grown sym.bytes).dBuf.length = block.dBuf.length + 24 := by
    show (block.dBuf ++ sym.bytes).length = _
    rw [List.length_append, sym.length_eq]
  by_cases hold : 24 * ndx + 24 ≤ block.dBuf.length
  · obtain ⟨old, hold⟩ := symAt_isSome.mpr hold
    rw [symAt_grown hold] at h
    cases h
    exact .inl hold
  · have hndx : ndx = block.entries := by
      unfold ElfBlock.entries
      omega
    rw [hndx, symAt_new hwhole] at h
    cases h
    exact .inr rfl

theorem stringAt_terminated (hlast : ∀ b ∈ block.dBuf.getLast?, b = 0) {idx : Int32} (hnonneg : 0 ≤ idx.toInt)
    (hlt : idx.toInt.toNat < block.dBuf.length) : ∃ str, block.stringAt idx = some str := by
  have hzero : 0 ∈ block.dBuf.drop idx.toInt.toNat := by
    have hne : block.dBuf ≠ [] := List.ne_nil_of_length_pos (Nat.zero_lt_of_lt hlt)
    have hend := hlast _ (List.getLast?_eq_some_getLast hne)
    have hsplit := List.dropLast_append_getLast hne
    rw [hend] at hsplit
    have hle : idx.toInt.toNat ≤ block.dBuf.dropLast.length := by
      rw [List.length_dropLast]
      omega
    rw [← hsplit, List.drop_append_of_le_length hle]
    simp
  exact ⟨_, if_pos ⟨hnonneg, hzero⟩⟩

theorem stringAt_new (str : CString) {idx : Int32} (hidx : idx.toInt = block.dBuf.length) :
    (block.grown (str.bytes ++ [0])).stringAt idx = some str.bytes := by
  have hrest : (block.grown (str.bytes ++ [0])).dBuf.drop idx.toInt.toNat = str.bytes ++ [0] := by
    rw [hidx, Int.toNat_natCast]
    exact List.drop_left
  unfold ElfBlock.stringAt
  dsimp only
  rw [hrest, if_pos ⟨by omega, by simp⟩, str.takeWhile_nul []]

end Grow

/-! ## What a call does -/

theorem addDataToScn_ok (dataDest : ElfBlock) {data : List UInt8} {size : Int32} (hsize : size.toInt = data.length) :
    addDataToScn dataDest data size = .ok (dataDest.grown data, UInt64.ofNat dataDest.dBuf.length) := by
  unfold addDataToScn
  rw [defined_of (by omega), bind_ok, hsize, Int.toNat_natCast, List.take_length]
  rfl

theorem addStrtabEntry_ok {e : PatchElf} {str : CString} (h : e.strtab.dBuf.length + (strlen str + 1) < 2 ^ 31) :
    addStrtabEntry e str =
      .ok ({ e with strtab := e.strtab.grown (str.bytes ++ [0]) }, Int32.ofNat e.strtab.dBuf.length) := by
  have hlen : (Int32.ofNat (strlen str + 1)).toInt = (str.bytes ++ [0]).length := by
    rw [Int32.toInt_ofNat_of_lt (by omega), List.length_append]
    rfl
  have hsize : ((e.strtab.grown (str.bytes ++ [0])).dBuf.length : Int) - (Int32.ofNat (strlen str + 1)).toInt =
      e.strtab.dBuf.length := by
    rw [hlen]
    show ((e.strtab.dBuf ++ (str.bytes ++ [0])).length : Int) - _ = _
    rw [List.length_append]
    omega
  unfold addStrtabEntry
  dsimp only
  rw [addDataToScn_ok _ hlen, bind_ok]
  dsimp only
  rw [hsize]
  rfl

theorem addSymtabEntry_ok (e : PatchElf) (data : Nat) (sym : SymBytes) :
    addSymtabEntry e data sym =
      .ok ({ e with symbols := Function.update e.symbols data ((e.symbols data).grown sym.bytes)
                    symTabCount := if data = e.symtab then ((e.symbols data).dOff / 24).toInt32 else e.symTabCount },
        Int32.ofNat (e.symbols data).entries) := by
  have hlen : (24 : Int32).toInt = sym.bytes.length := by
    rw [sym.length_eq]
    rfl
  have hsize : ((e.symbols data).grown sym.bytes).dBuf.length - 24 = (e.symbols data).dBuf.length := by
    show ((e.symbols data).dBuf ++ sym.bytes).length - 24 = _
    rw [List.length_append, sym.length_eq, Nat.add_sub_cancel]
  unfold addSymtabEntry
  rw [addDataToScn_ok _ hlen, bind_ok]
  dsimp only
  rw [hsize]
  rfl

structure Reached (start : PatchStart) (done : List TableCall) (s : TablesWritten) : Prop extends Handles s where
  strTblIdx : s.elf.strTblIdx = start.elf.strTblIdx
  symtab : s.elf.symtab = start.elf.symtab
  dOff : ∀ data, (s.elf.symbols data).dOff = (start.elf.symbols data).dOff
  strtabSize : s.elf.strtab.dBuf.length = start.elf.strtab.dBuf.length + addedBytes done
  size : ∀ data, (s.elf.symbols data).dBuf.length = (start.elf.symbols data).dBuf.length + 24 * symbolsAdded data done
  count : s.elf.symTabCount = if symbolsAdded start.elf.symtab done = 0 then start.elf.symTabCount
    else ((start.elf.symbols start.elf.symtab).dOff / 24).toInt32
  terminated : ∀ b ∈ s.elf.strtab.dBuf.getLast?, b = 0
  named : ∀ i sym, (s.elf.symbols start.elf.symtab).symAt i = some sym → sym.stName.toNat < s.elf.strtab.dBuf.length

theorem reached_start (start : PatchStart) : Reached start [] start.written where
  strings p hp := by cases hp
  symbols p hp := by cases hp
  strTblIdx := rfl
  symtab := rfl
  dOff _ := rfl
  strtabSize := rfl
  size _ := rfl
  count := rfl
  terminated := start.terminated
  named := start.named

section Step
variable {start : PatchStart} {done : List TableCall} {s : TablesWritten}

theorem Reached.whole (h : Reached start done s) (data : Nat) : (s.elf.symbols data).dBuf.length % 24 = 0 := by
  rw [h.size, Nat.add_mul_mod_self_left]
  exact start.whole data

theorem Reached.entries (h : Reached start done s) (data : Nat) :
    (s.elf.symbols data).entries = (start.elf.symbols data).entries + symbolsAdded data done := by
  unfold ElfBlock.entries
  rw [h.size, Nat.add_mul_div_left _ _ (by decide)]

theorem Reached.addStr (h : Reached start done s) (str : CString)
    (hfit : start.elf.strtab.dBuf.length + addedBytes (done ++ [.addStr str]) < 2 ^ 31) :
    ∃ s', TableCall.run s (.addStr str) = .ok s' ∧ Reached start (done ++ [.addStr str]) s' := by
  rw [addedBytes_append] at hfit
  have hsize : s.elf.strtab.dBuf.length + (strlen str + 1) < 2 ^ 31 := by
    rw [h.strtabSize, Nat.add_assoc]
    exact hfit
  have hgrown : (s.elf.strtab.grown (str.bytes ++ [0])).dBuf.length = s.elf.strtab.dBuf.length + (strlen str + 1) :=
    List.length_append.trans (by simp [strlen])
  refine ⟨_, by rw [TableCall.run, addStrtabEntry_ok hsize]; rfl, ?_⟩
  constructor
  case toHandles =>
    constructor
    · intro p hp
      rcases List.mem_append.mp hp with hp | hp
      · exact stringAt_grown (h.strings p hp) _
      · cases List.mem_singleton.mp hp
        exact stringAt_new str (Int32.toInt_ofNat_of_lt (by omega))
    · exact h.symbols
  case strTblIdx => exact h.strTblIdx
  case symtab => exact h.symtab
  case dOff => exact h.dOff
  case strtabSize =>
    rw [addedBytes_append, ← Nat.add_assoc, ← h.strtabSize]
    exact hgrown
  case size =>
    intro data
    rw [symbolsAdded_append]
    exact h.size data
  case count =>
    rw [symbolsAdded_append]
    exact h.count
  case terminated =>
    intro b hb
    change b ∈ (s.elf.strtab.dBuf ++ (str.bytes ++ [0])).getLast? at hb
    rw [← List.append_assoc, List.getLast?_concat] at hb
    exact (Option.some_inj.mp hb).symm
  case named =>
    intro i sym hsym
    have hold := h.named i sym hsym
    show sym.stName.toNat < (s.elf.strtab.grown (str.bytes ++ [0])).dBuf.length
    omega

theorem symbolsAdded_self (data : Nat) (sym : SymBytes) : symbolsAdded data [.addSym data sym] = 1 := by
  simp [symbolsAdded, TableCall.addsTo]

theorem symbolsAdded_other {data other : Nat} (h : other ≠ data) (sym : SymBytes) :
    symbolsAdded data [.addSym other sym] = 0 := by
  simp [symbolsAdded, TableCall.addsTo, h]

theorem Reached.addSym (h : Reached start done s) (data : Nat) (sym : SymBytes)
    (hfit : (start.elf.symbols data).entries + symbolsAdded data (done ++ [.addSym data sym]) ≤ 2 ^ 31)
    (hname : data = start.elf.symtab → sym.stName.toNat < start.elf.strtab.dBuf.length + addedBytes done) :
    ∃ s', TableCall.run s (.addSym data sym) = .ok s' ∧ Reached start (done ++ [.addSym data sym]) s' := by
  rw [symbolsAdded_append, symbolsAdded_self, ← Nat.add_assoc, ← h.entries] at hfit
  have hgrown : ((s.elf.symbols data).grown sym.bytes).dBuf.length = (s.elf.symbols data).dBuf.length + 24 :=
    List.length_append.trans (by rw [sym.length_eq])
  refine ⟨_, by rw [TableCall.run, addSymtabEntry_ok]; rfl, ?_⟩
  constructor
  case toHandles =>
    constructor
    · exact h.strings
    · intro p hp
      rcases List.mem_append.mp hp with hp | hp
      · have hold := h.symbols p hp
        by_cases hdata : p.1 = data
        · rw [hdata] at hold ⊢
          dsimp only
          rw [Function.update_self]
          exact symAt_grown hold _
        · dsimp only
          rw [Function.update_of_ne hdata]
          exact hold
      · cases List.mem_singleton.mp hp
        dsimp only
        rw [Function.update_self, Int32.toInt_ofNat_of_lt (by omega), Int.toNat_natCast]
        exact symAt_new (h.whole data) sym
  case strTblIdx => exact h.strTblIdx
  case symtab => exact h.symtab
  case dOff =>
    intro other
    rw [← h.dOff other]
    dsimp only
    by_cases hdata : other = data
    · rw [hdata, Function.update_self]
      rfl
    · rw [Function.update_of_ne hdata]
  case strtabSize =>
    rw [addedBytes_append]
    exact h.strtabSize
  case size =>
    intro other
    dsimp only
    rw [symbolsAdded_append]
    by_cases hdata : other = data
    · rw [hdata, Function.update_self, symbolsAdded_self, hgrown, h.size]
      omega
    · rw [Function.update_of_ne hdata, symbolsAdded_other (Ne.symm hdata)]
      exact h.size other
  case count =>
    dsimp only
    rw [symbolsAdded_append, h.symtab]
    by_cases hdata : data = start.elf.symtab
    · rw [if_pos hdata, hdata, symbolsAdded_self, if_neg (by omega), h.dOff]
    · rw [if_neg hdata, symbolsAdded_other hdata]
      exact h.count
  case terminated => exact h.terminated
  case named =>
    intro i found hfound
    dsimp only at hfound
    by_cases hdata : start.elf.symtab = data
    · rw [hdata, Function.update_self] at hfound
      rcases symAt_grown_cases (h.whole data) hfound with hold | rfl
      · exact h.named i found (hdata ▸ hold)
      · dsimp only
        rw [h.strtabSize]
        exact hname hdata.symm
    · rw [Function.update_of_ne hdata] at hfound
      exact h.named i found hfound

variable {calls : List TableCall}

/-- A call of a run that stays within the ints. -/
theorem Reached.step (h : Reached start done s) (call : TableCall) {rest : List TableCall}
    (hcalls : calls = done ++ call :: rest) (hnames : NamesKnown start calls) (hints : InInts start calls) :
    ∃ s', call.run s = .ok s' ∧ Reached start (done ++ [call]) s' := by
  have hsplit : calls = (done ++ [call]) ++ rest := by rw [hcalls, List.append_assoc]; rfl
  cases call with
  | addStr str =>
    refine h.addStr str ?_
    have hall := hints.strings
    rw [hsplit, addedBytes_append] at hall
    omega
  | addSym data sym =>
    refine h.addSym data sym ?_ ?_
    · have hall := hints.symbols data
      rw [hsplit, symbolsAdded_append] at hall
      omega
    · rintro rfl
      exact hnames done sym rest hcalls

theorem reached_run (hnames : NamesKnown start calls) (hints : InInts start calls) {rest : List TableCall}
    (hcalls : calls = done ++ rest) : ∃ s, done.foldlM TableCall.run start.written = .ok s ∧ Reached start done s := by
  induction done using List.reverseRecOn generalizing rest with
  | nil => exact ⟨_, rfl, reached_start start⟩
  | append_singleton done call ih =>
    have hsplit : calls = done ++ call :: rest := by rw [hcalls, List.append_assoc]; rfl
    obtain ⟨s, hrun, hs⟩ := ih hsplit
    obtain ⟨s', hcall, hs'⟩ := hs.step call hsplit hnames hints
    refine ⟨s', ?_, hs'⟩
    rw [List.foldlM_append, hrun, bind_ok, List.foldlM_cons, hcall, bind_ok]
    rfl

/-- Whatever becomes of the count, what was handed out stays valid. -/
theorem handles_kept (hnames : NamesKnown start calls) (hints : InInts start calls) {rest : List TableCall}
    (hcalls : calls = done ++ rest) : ∃ s, done.foldlM TableCall.run start.written = .ok s ∧ Handles s := by
  obtain ⟨s, hrun, hreached⟩ := reached_run hnames hints hcalls
  exact ⟨s, hrun, hreached.toHandles⟩

end Step

/-! ## Lookups -/

theorem symtabLoop_first {symTabData strings : ElfBlock} {flags : FindFlags} {name : List UInt8} {k : Nat}
    (hread : ∀ j < k, ∃ sym symname, symTabData.symAt j = some sym ∧ strings.stringAt sym.stName.toInt32 = some symname ∧
      flags.shown symname ≠ flags.shown name)
    (hhere : ∃ sym symname, symTabData.symAt k = some sym ∧ strings.stringAt sym.stName.toInt32 = some symname ∧
      flags.shown symname = flags.shown name) {n i : Nat} (hi : i ≤ k) (hn : k < i + n) :
    symtabLoop symTabData strings flags name n i = .ok (some k) := by
  induction n generalizing i with
  | zero => omega
  | succ n ih =>
    rw [symtabLoop]
    rcases Nat.lt_or_eq_of_le hi with hlt | rfl
    · obtain ⟨sym, symname, hsym, hstr, hne⟩ := hread i hlt
      rw [hsym]
      dsimp only
      rw [hstr]
      dsimp only
      rw [if_neg hne]
      exact ih hlt (by omega)
    · obtain ⟨sym, symname, hsym, hstr, heq⟩ := hhere
      rw [hsym]
      dsimp only
      rw [hstr]
      exact if_pos heq

section Lookup
variable {start : PatchStart} {done calls : List TableCall} {s : TablesWritten}

theorem toInt32_toInt {x : UInt32} (h : x.toNat < 2 ^ 31) : x.toInt32.toInt = x.toNat := by
  have hcond := BitVec.toInt_eq_toNat_cond x.toInt32.toBitVec
  have hint : x.toInt32.toBitVec.toInt = x.toInt32.toInt := rfl
  have hnat : x.toInt32.toBitVec.toNat = x.toNat := rfl
  rw [hint, hnat] at hcond
  split at hcond <;> omega

/-- With the right count the first entry with a name is found. -/
theorem Reached.lookup (h : Reached start done s) (hsize : s.elf.strtab.dBuf.length < 2 ^ 31)
    (hcount : s.elf.symTabCount.toInt = (s.elf.symbols s.elf.symtab).entries) {flags : FindFlags} {name : CString} {i : Nat}
    (hflags : flags.newDynamic = false) (hfirst : FirstNamed s.elf flags name i) :
    getSymtabIdx s.elf name flags = .ok i := by
  have hread : ∀ j < i, ∃ sym symname, (s.elf.symbols s.elf.symtab).symAt j = some sym ∧
      s.elf.strtab.stringAt sym.stName.toInt32 = some symname ∧ flags.shown symname ≠ flags.shown name.bytes := by
    intro j hj
    obtain ⟨sym, symname, hsym, -, -⟩ := hfirst.here
    have hfit := symAt_isSome.mp ⟨sym, hsym⟩
    obtain ⟨sym', hsym'⟩ := (@symAt_isSome (s.elf.symbols s.elf.symtab) j).mpr (by omega)
    have hlt := h.named j sym' (h.symtab ▸ hsym')
    have hint := toInt32_toInt (Nat.lt_trans hlt hsize)
    obtain ⟨str, hstr⟩ := @stringAt_terminated _ h.terminated sym'.stName.toInt32 (by omega) (by omega)
    exact ⟨sym', str, hsym', hstr, hfirst.before j hj sym' str hsym' hstr⟩
  have hbound : i < 0 + s.elf.symTabCount.toInt.toNat := by
    obtain ⟨sym, symname, hsym, -, -⟩ := hfirst.here
    have hfit := symAt_isSome.mp ⟨sym, hsym⟩
    rw [hcount, Int.toNat_natCast]
    unfold ElfBlock.entries
    omega
  unfold getSymtabIdx
  rw [assert_of (by rw [h.strTblIdx]; exact start.strTblIdx_pos), bind_ok, hflags]
  show (symtabLoop (s.elf.symbols s.elf.symtab) s.elf.strtab flags name.bytes s.elf.symTabCount.toInt.toNat 0 >>= _) = _
  rw [symtabLoop_first hread hfirst.here (Nat.zero_le i) hbound]
  rfl

/-- The object has the right count exactly if none was taken from `d_off`, or the first tells. -/
theorem CountKept.of_prefix (h : CountKept start calls) {rest : List TableCall} (hcalls : calls = done ++ rest) :
    CountKept start done := by
  unfold CountKept at h ⊢
  rw [hcalls, symbolsAdded_append] at h
  omega

theorem Reached.count_iff (h : Reached start done s) (hkept : CountKept start done) :
    s.elf.symTabCount.toInt = (s.elf.symbols s.elf.symtab).entries := by
  rw [h.entries, h.symtab, h.count]
  rcases hkept with hnone | ⟨hone, hoff⟩
  · rw [if_pos hnone, hnone]
    exact start.counted
  · rw [if_neg (by omega), hone, hoff]
    rfl

theorem exists_first_added {data : Nat} (h : symbolsAdded data calls ≠ 0) :
    ∃ done rest, calls = done ++ rest ∧ symbolsAdded data done = 1 := by
  induction calls using List.reverseRecOn with
  | nil => exact absurd rfl h
  | append_singleton init call ih =>
    by_cases hinit : symbolsAdded data init = 0
    · have hone : symbolsAdded data [call] ≤ 1 := List.countP_le_length
      rw [symbolsAdded_append] at h
      exact ⟨init ++ [call], [], (List.append_nil _).symm, by rw [symbolsAdded_append]; omega⟩
    · obtain ⟨done, rest, hsplit, hdone⟩ := ih hinit
      exact ⟨done, rest ++ [call], by rw [hsplit, List.append_assoc], hdone⟩

theorem TablesRight.countKept (h : TablesRight start calls) (hnames : NamesKnown start calls) (hints : InInts start calls) :
    CountKept start calls := by
  by_cases hzero : symbolsAdded start.elf.symtab calls = 0
  · exact .inl hzero
  · have hcount : ∀ done rest, calls = done ++ rest → symbolsAdded start.elf.symtab done ≠ 0 →
        ((start.elf.symbols start.elf.symtab).dOff / 24).toInt32.toInt =
          (start.elf.symbols start.elf.symtab).entries + symbolsAdded start.elf.symtab done := by
      intro done rest hcalls hne
      obtain ⟨s, hrun, hfit⟩ := h done rest hcalls
      obtain ⟨s', hrun', hreached⟩ := reached_run hnames hints hcalls
      cases hrun.symm.trans hrun'
      have hright := hfit.count
      rw [hreached.entries, hreached.symtab, hreached.count, if_neg hne] at hright
      exact_mod_cast hright
    obtain ⟨done, rest, hcalls, hone⟩ := exists_first_added hzero
    have hfirst := hcount done rest hcalls (by omega)
    have hall := hcount calls [] (List.append_nil calls).symm hzero
    rw [hone] at hfirst
    exact .inr ⟨by omega, hfirst⟩

/-- **With whole names and sizes within the ints, everything is right in every state exactly if the count is kept.** -/
theorem tablesRight_iff (start : PatchStart) (calls : List TableCall) (hnames : NamesKnown start calls)
    (hints : InInts start calls) : TablesRight start calls ↔ CountKept start calls := by
  constructor
  · intro h
    exact h.countKept hnames hints
  · intro h done rest hcalls
    obtain ⟨s, hrun, hreached⟩ := reached_run hnames hints hcalls
    have hcount := hreached.count_iff (h.of_prefix hcalls)
    have hsize : s.elf.strtab.dBuf.length < 2 ^ 31 := by
      have hall := hints.strings
      rw [hcalls, addedBytes_append] at hall
      rw [hreached.strtabSize]
      omega
    exact ⟨s, hrun, hreached.toHandles, hcount, fun flags name i => hreached.lookup hsize hcount⟩

end Lookup

/-! ## The object that is created -/

def emptyTables : PatchStart where
  elf := ⟨1, ⟨[], 0⟩, fun _ => ⟨[], 0⟩, 0, none, 0⟩
  strTblIdx_pos := by decide
  terminated := by simp
  whole _ := rfl
  named := by
    intro i sym h
    have hfit := symAt_isSome.mp ⟨sym, h⟩
    simp at hfit
  counted := rfl

def nullSym : SymBytes := ⟨List.replicate 24 0, rfl⟩

theorem emptyTables_inInts {calls : List TableCall} (hbytes : addedBytes calls < 2 ^ 31) (hlen : calls.length ≤ 2 ^ 31) :
    InInts emptyTables calls := by
  constructor
  · show 0 + addedBytes calls < 2 ^ 31
    omega
  · intro data
    have hle : symbolsAdded data calls ≤ calls.length := List.countP_le_length
    have hzero : (emptyTables.elf.symbols data).entries = 0 := Nat.zero_div 24
    omega

def offsetTables : PatchStart where
  elf := ⟨1, ⟨[], 0⟩, fun _ => ⟨[], 24⟩, 0, none, 0⟩
  strTblIdx_pos := by decide
  terminated := by simp
  whole _ := rfl
  named := by
    intro i sym h
    have hfit := symAt_isSome.mp ⟨sym, h⟩
    simp at hfit
  counted := rfl

def fewCalls : List TableCall :=
  [.addStr ⟨[115], by decide⟩, .addStr ⟨[116], by decide⟩, .addSym 1 nullSym, .addSym 0 nullSym]

theorem fewCalls_known : NamesKnown offsetTables fewCalls := by
  intro done sym rest hcalls
  match done, hcalls with
  | [_, _, _], hcalls =>
    cases hcalls
    decide
  | _ :: _ :: _ :: _ :: done, hcalls => simp [fewCalls] at hcalls

theorem fewCalls_inInts : InInts offsetTables fewCalls := by
  refine ⟨by decide, fun data => ?_⟩
  have hle : symbolsAdded data fewCalls ≤ 4 := List.countP_le_length
  have hzero : (offsetTables.elf.symbols data).entries = 0 := Nat.zero_div 24
  omega

/-- With one symbol, where the offset tells that it is the first, all is right. -/
theorem fewCalls_tablesRight : TablesRight offsetTables fewCalls :=
  (tablesRight_iff offsetTables fewCalls fewCalls_known fewCalls_inInts).mpr (.inr ⟨by decide, by decide⟩)

/-- After the null symbol is added to an empty table its count is still 0. -/
theorem not_tablesRight : ¬ ∀ (start : PatchStart) (calls : List TableCall), NamesKnown start calls → InInts start calls →
    TablesRight start calls := by
  intro h
  have hnames : NamesKnown emptyTables [.addStr ⟨[], by decide⟩, .addSym 0 nullSym] := by
    intro done sym rest hcalls
    match done, hcalls with
    | [_], hcalls =>
      cases hcalls
      decide
    | _ :: _ :: done, hcalls => simp at hcalls
  have hints : InInts emptyTables [.addStr ⟨[], by decide⟩, .addSym 0 nullSym] :=
    emptyTables_inInts (by decide) (by decide)
  rcases (h _ _ hnames hints).countKept hnames hints with hzero | ⟨-, hoff⟩
  · exact absurd hzero (by decide)
  · exact absurd hoff (by decide)

end Katana
