/-
  Katana.FunctionSymbols — the symbol table of the patched binary, in which the next patch looks functions up.

  A table is its names and its values. The sections that are copied in have added entries without a name. A function whose
  name is in the binary's table changes the value of the first entry with the name; for another an entry is added at the end.

  Proved, for every binary whose table is whole and every list of functions:
  - `TableOf.lookup`: the lookup of a name finds its first entry.
  - `patchedTable_ok`: the run on the tables of bytes is the run on names and values.
  - `functionsFound_iff`: after the run every function is found at its new address exactly when functions of one name
    have one address.
-/
import Katana.FunctionPatch

namespace Katana

open Lib
open Nodes (CString strlen)

/-! ## Tables -/

/-- The table of symbols has these names and values. -/
structure TableOf (e : PatchElf) (names : List (List UInt8)) (values : List UInt64) : Prop where
  strTblIdx_pos : 0 < e.strTblIdx
  length : values.length = names.length
  size : e.symtabData.dBuf.length = 24 * names.length
  count : e.symTabCount.toInt = names.length
  entry : ∀ i name value, names[i]? = some name → values[i]? = some value → ∃ sym, e.symtabData.symAt i = some sym ∧
    e.strtab.stringAt sym.stName.toInt32 = some name ∧ sym.stValue = value

section
variable {e : PatchElf} {names : List (List UInt8)} {values : List UInt64}

theorem TableOf.entry_of_lt (h : TableOf e names values) {i : Nat} (hi : i < names.length) : ∃ sym,
    e.symtabData.symAt i = some sym ∧ e.strtab.stringAt sym.stName.toInt32 = some names[i] ∧
      values[i]? = some sym.stValue := by
  have hlt : i < values.length := by rw [h.length]; exact hi
  obtain ⟨sym, hsym, hstr, hvalue⟩ := h.entry i _ _ (List.getElem?_eq_getElem hi) (List.getElem?_eq_getElem hlt)
  exact ⟨sym, hsym, hstr, by rw [List.getElem?_eq_getElem hlt, hvalue]⟩

theorem symtabLoop_table (h : TableOf e names values) (name : List UInt8) {n i : Nat} (hn : i + n = names.length) :
    symtabLoop e.symtabData e.strtab PatchPlace.lookupFlags name n i =
      .ok (if name ∈ names.drop i then some (i + (names.drop i).idxOf name) else none) := by
  induction n generalizing i with
  | zero =>
    rw [List.drop_of_length_le (by omega)]
    rfl
  | succ n ih =>
    have hi : i < names.length := by omega
    obtain ⟨sym, hsym, hstr, -⟩ := h.entry_of_lt hi
    rw [symtabLoop, hsym]
    dsimp only
    rw [hstr, List.drop_eq_getElem_cons hi]
    dsimp only
    by_cases heq : names[i] = name
    · rw [if_pos (show PatchPlace.lookupFlags.shown names[i] = PatchPlace.lookupFlags.shown name from heq),
        if_pos (by rw [heq]; exact List.mem_cons_self), List.idxOf_cons, heq, beq_self_eq_true]
      rfl
    · rw [if_neg (show ¬ PatchPlace.lookupFlags.shown names[i] = PatchPlace.lookupFlags.shown name from heq),
        ih (by omega), List.idxOf_cons, beq_false_of_ne heq]
      by_cases hmem : name ∈ names.drop (i + 1)
      · rw [if_pos hmem, if_pos (List.mem_cons_of_mem _ hmem)]
        congr 2
        simp only [cond_false]
        omega
      · rw [if_neg hmem, if_neg fun hin => (List.mem_cons.mp hin).elim (fun hname => heq hname.symm) hmem]

/-- **A lookup** finds the first entry with the name. -/
theorem TableOf.lookup (h : TableOf e names values) (name : CString) :
    getSymtabIdx e name PatchPlace.lookupFlags = .ok (firstIdx names name.bytes) := by
  unfold getSymtabIdx
  rw [assert_of h.strTblIdx_pos, bind_ok, if_neg (by decide), bind_ok]
  dsimp only
  rw [show e.symbols e.symtab = e.symtabData from rfl, h.count, Int.toNat_natCast,
    symtabLoop_table h name.bytes (Nat.zero_add _), bind_ok, List.drop_zero]
  by_cases hmem : name.bytes ∈ names
  · rw [if_pos hmem, firstIdx_of_mem hmem, Nat.zero_add]
    rfl
  · rw [if_neg hmem, firstIdx_of_notMem hmem]
    rfl

end

/-! ## One symbol changed, one added -/

section
variable {block : ElfBlock} {ndx : Nat}

theorem symAt_congr {block' : ElfBlock} (h : (block.dBuf.drop (24 * ndx)).take 24 = (block'.dBuf.drop (24 * ndx)).take 24) :
    block.symAt ndx = block'.symAt ndx := by
  unfold ElfBlock.symAt
  simp only [h]

theorem symAt_updateSym (h : 24 * ndx + 24 ≤ block.dBuf.length) (sym : SymBytes) :
    (block.updateSym ndx sym).symAt ndx = some sym := by
  have hbefore : (block.dBuf.take (24 * ndx)).length = 24 * ndx := List.length_take_of_le (by omega)
  rw [symAt_eq_some, ElfBlock.updateSym, if_pos h]
  dsimp only
  rw [List.append_assoc, List.drop_left' hbefore, List.take_left' sym.length_eq]

theorem symAt_updateSym_ne {j : Nat} (hne : j ≠ ndx) (sym : SymBytes) :
    (block.updateSym ndx sym).symAt j = block.symAt j := by
  unfold ElfBlock.updateSym
  split
  · rename_i hfit
    apply symAt_congr
    have hbefore : (block.dBuf.take (24 * ndx)).length = 24 * ndx := List.length_take_of_le (by omega)
    rcases Nat.lt_or_gt_of_ne hne with hlt | hgt
    · dsimp only
      rw [List.append_assoc, List.drop_append_of_le_length (by omega),
        List.take_append_of_le_length (by rw [List.length_drop]; omega), List.drop_take, List.take_take]
      congr 1
      omega
    · have hfront : (block.dBuf.take (24 * ndx) ++ sym.bytes).length = 24 * ndx + 24 := by
        rw [List.length_append, hbefore, sym.length_eq]
      obtain ⟨k, rfl⟩ : ∃ k, j = ndx + 1 + k := ⟨j - (ndx + 1), by omega⟩
      dsimp only
      rw [show 24 * (ndx + 1 + k) = (24 * ndx + 24) + 24 * k by omega, ← List.drop_drop, List.drop_left' hfront,
        List.drop_drop]
  · rfl

end

namespace SymBytes

theorem stName_withValue (sym : SymBytes) (v : UInt64) : (sym.withValue v).stName = sym.stName := by
  have htake : (sym.withValue v).bytes.take 4 = sym.bytes.take 4 := by
    show (sym.bytes.take 8 ++ toLE 8 v.toNat ++ sym.bytes.drop 16).take 4 = _
    rw [List.append_assoc, List.take_append_of_le_length (by simp [sym.length_eq]), List.take_take]
    rfl
  unfold stName
  rw [htake]

theorem stValue_withValue (sym : SymBytes) (v : UInt64) : (sym.withValue v).stValue = v := by
  have hbytes : ((sym.withValue v).bytes.drop 8).take 8 = toLE 8 v.toNat := by
    show ((sym.bytes.take 8 ++ toLE 8 v.toNat ++ sym.bytes.drop 16).drop 8).take 8 = _
    rw [List.append_assoc, List.drop_left' (by simp [sym.length_eq]), List.take_left' (length_toLE _ _)]
  unfold stValue
  rw [hbytes, leNat_toLE, Nat.mod_eq_of_lt (show v.toNat < 256 ^ 8 from v.toNat_lt), UInt64.ofNat_toNat]

theorem stName_newFunction (name : UInt32) (scn : UInt16) (v : UInt64) : (newFunction name scn v).stName = name := by
  have htake : (newFunction name scn v).bytes.take 4 = toLE 4 name.toNat := by
    show (toLE 4 name.toNat ++ [0x12, 0] ++ toLE 2 scn.toNat ++ toLE 8 v.toNat ++ toLE 8 0).take 4 = _
    rw [List.append_assoc, List.append_assoc, List.append_assoc]
    exact List.take_left' (length_toLE _ _)
  unfold stName
  rw [htake, leNat_toLE, Nat.mod_eq_of_lt (show name.toNat < 256 ^ 4 from name.toNat_lt), UInt32.ofNat_toNat]

theorem stValue_newFunction (name : UInt32) (scn : UInt16) (v : UInt64) : (newFunction name scn v).stValue = v := by
  have hbytes : ((newFunction name scn v).bytes.drop 8).take 8 = toLE 8 v.toNat := by
    show ((toLE 4 name.toNat ++ [0x12, 0] ++ toLE 2 scn.toNat ++ toLE 8 v.toNat ++ toLE 8 0).drop 8).take 8 = _
    rw [List.append_assoc, List.drop_left' (by simp), List.take_left' (length_toLE _ _)]
  unfold stValue
  rw [hbytes, leNat_toLE, Nat.mod_eq_of_lt (show v.toNat < 256 ^ 8 from v.toNat_lt), UInt64.ofNat_toNat]

end SymBytes

section
variable {e : PatchElf} {names : List (List UInt8)} {values : List UInt64} {place : PatchPlace}

/-- A symbol is written over that of its name. -/
theorem TableOf.updated (h : TableOf e names values) {idx : Nat} {sym : SymBytes} (hidx : idx < names.length)
    (hname : e.strtab.stringAt sym.stName.toInt32 = some names[idx]) :
    TableOf (e.withSymtab (e.symtabData.updateSym idx sym)) names (values.set idx sym.stValue) where
  strTblIdx_pos := h.strTblIdx_pos
  length := by rw [List.length_set, h.length]
  size := by rw [PatchElf.symtabData_withSymtab, length_updateSym, h.size]
  count := h.count
  entry i name value hi hvalue := by
    rw [PatchElf.symtabData_withSymtab]
    by_cases heq : i = idx
    · subst heq
      refine ⟨sym, symAt_updateSym (by rw [h.size]; omega) sym, ?_, ?_⟩
      · rw [← hi, List.getElem?_eq_getElem hidx]
        exact hname
      · rw [List.getElem?_set_self (by rw [h.length]; exact hidx)] at hvalue
        exact Option.some.inj hvalue
    · rw [List.getElem?_set_ne (Ne.symm heq)] at hvalue
      obtain ⟨old, hold, hstr, hval⟩ := h.entry i name value hi hvalue
      exact ⟨old, (symAt_updateSym_ne heq sym).trans hold, hstr, hval⟩

/-- A symbol is added as the last entry, with strings that have its name. -/
theorem TableOf.appended (h : TableOf e names values) {sym : SymBytes} {name : List UInt8} {strtab : ElfBlock}
    (hroom : e.symtabData.dBuf.length + 24 < 2 ^ 31)
    (hstrings : ∀ idx str, e.strtab.stringAt idx = some str → strtab.stringAt idx = some str)
    (hname : strtab.stringAt sym.stName.toInt32 = some name) :
    TableOf { e.withSymtab (e.symtabData.grown sym.bytes) with
      strtab, symTabCount := Int32.ofNat (e.symtabData.grown sym.bytes).entries } (names ++ [name]) (values ++ [sym.stValue]) := by
  have hdata : PatchElf.symtabData { e.withSymtab (e.symtabData.grown sym.bytes) with
      strtab, symTabCount := Int32.ofNat (e.symtabData.grown sym.bytes).entries } = e.symtabData.grown sym.bytes := by
    simp [PatchElf.symtabData, PatchElf.withSymtab]
  have hentries : e.symtabData.entries = names.length := by
    unfold ElfBlock.entries
    rw [h.size]
    omega
  have hlen : (e.symtabData.grown sym.bytes).dBuf.length = 24 * (names.length + 1) := by
    rw [ElfBlock.grown, List.length_append, SymBytes.length_eq, h.size]
    omega
  rw [h.size] at hroom
  exact {
    strTblIdx_pos := h.strTblIdx_pos
    length := by simp [h.length]
    size := by rw [hdata, hlen, List.length_append, List.length_singleton]
    count := by
      have hcount : (e.symtabData.grown sym.bytes).entries = names.length + 1 := by
        unfold ElfBlock.entries
        rw [hlen]
        omega
      rw [hcount, Int32.toInt_ofNat_of_lt (by omega), List.length_append, List.length_singleton]
    entry := fun i name' value hi hvalue => by
      rw [hdata]
      rcases Nat.lt_trichotomy i names.length with hlt | heq | hgt
      · rw [List.getElem?_append_left hlt] at hi
        rw [List.getElem?_append_left (by rw [h.length]; exact hlt)] at hvalue
        obtain ⟨old, hold, hstr, hval⟩ := h.entry i name' value hi hvalue
        exact ⟨old, symAt_grown hold _, hstrings _ _ hstr, hval⟩
      · rw [heq, List.getElem?_concat_length] at hi
        rw [heq, ← h.length, List.getElem?_concat_length] at hvalue
        cases hi
        cases hvalue
        refine ⟨sym, ?_, hname, rfl⟩
        rw [heq, ← hentries]
        exact symAt_new (by rw [h.size]; omega) _
      · rw [List.getElem?_eq_none (by simp; omega)] at hi
        cases hi }

/-- A function that is new is the last entry. -/
theorem TableOf.added (h : TableOf e names values) {func : PatchFunction}
    (hroom : e.strtab.dBuf.length + strlen func.name + 1 < 2 ^ 31 ∧ e.symtabData.dBuf.length + 24 < 2 ^ 31) :
    TableOf (place.withFunction e func) (names ++ [func.name.bytes]) (values ++ [place.newAddress func]) := by
  obtain ⟨hstrings, hsymbols⟩ := hroom
  have hint : (place.symbolOf e func).stName.toInt32.toInt = e.strtab.dBuf.length := by
    rw [PatchPlace.symbolOf, SymBytes.stName_newFunction]
    exact Int32.toInt_ofNat_of_lt (by omega)
  have happended := h.appended hsymbols (fun idx str hstr => stringAt_grown hstr (func.name.bytes ++ [0]))
    (stringAt_new func.name hint)
  rw [PatchPlace.symbolOf, SymBytes.stValue_newFunction] at happended
  exact happended

end

/-! ## The sections that are copied in -/

/-- `STB_LOCAL` and `STT_SECTION`, without a name. -/
def SymBytes.newSection (stShndx : UInt16) (stValue : UInt64) : SymBytes where
  bytes := toLE 4 0 ++ [3, 0] ++ toLE 2 stShndx.toNat ++ toLE 8 stValue.toNat ++ toLE 8 0
  length_eq := by simp

/-- What `copyInEntireSection` adds to the symbols, for sections with these indices and addresses. -/
def addSectionSymbols (e : PatchElf) (sections : List (UInt16 × UInt64)) : Except Fault PatchElf :=
  sections.foldlM (fun e scn => (addSymtabEntryToExisting e (.newSection scn.1 scn.2)).map (·.1)) e

def sectionNames (sections : List (UInt16 × UInt64)) : List (List UInt8) := sections.map fun _ => []

def sectionValues (sections : List (UInt16 × UInt64)) : List UInt64 := sections.map (·.2)

theorem SymBytes.stName_newSection (scn : UInt16) (v : UInt64) : (newSection scn v).stName = 0 := by
  have htake : (newSection scn v).bytes.take 4 = toLE 4 0 := by
    show (toLE 4 0 ++ [3, 0] ++ toLE 2 scn.toNat ++ toLE 8 v.toNat ++ toLE 8 0).take 4 = _
    rw [List.append_assoc, List.append_assoc, List.append_assoc]
    exact List.take_left' (length_toLE _ _)
  unfold stName
  rw [htake]
  rfl

theorem SymBytes.stValue_newSection (scn : UInt16) (v : UInt64) : (newSection scn v).stValue = v := by
  have hbytes : ((newSection scn v).bytes.drop 8).take 8 = toLE 8 v.toNat := by
    show ((toLE 4 0 ++ [3, 0] ++ toLE 2 scn.toNat ++ toLE 8 v.toNat ++ toLE 8 0).drop 8).take 8 = _
    rw [List.append_assoc, List.drop_left' (by simp), List.take_left' (length_toLE _ _)]
  unfold stValue
  rw [hbytes, leNat_toLE, Nat.mod_eq_of_lt (show v.toNat < 256 ^ 8 from v.toNat_lt), UInt64.ofNat_toNat]

/-- **The entries of sections** come after those that are there, and have no names. -/
theorem TableOf.copiedIn {e e' : PatchElf} {names : List (List UInt8)} {values : List UInt64} (h : TableOf e names values)
    (hempty : e.strtab.stringAt 0 = some []) {sections : List (UInt16 × UInt64)} (hrun : addSectionSymbols e sections = .ok e') :
    TableOf e' (names ++ sectionNames sections) (values ++ sectionValues sections) ∧ e'.strtab = e.strtab := by
  induction sections generalizing e names values with
  | nil =>
    cases hrun
    exact ⟨by simpa [sectionNames, sectionValues] using h, rfl⟩
  | cons scn sections ih =>
    unfold addSectionSymbols at ih hrun
    rw [List.foldlM_cons] at hrun
    obtain ⟨e1, hstep, hrun⟩ := bind_eq_ok.mp hrun
    cases hadded : addSymtabEntryToExisting e (.newSection scn.1 scn.2) with
    | error f =>
      rw [hadded] at hstep
      cases hstep
    | ok added =>
      rw [hadded] at hstep
      cases hstep
      obtain ⟨_, hroom, hadded⟩ := bind_eq_ok.mp hadded
      cases hadded
      have hname : e.strtab.stringAt (SymBytes.newSection scn.1 scn.2).stName.toInt32 = some [] := by
        rw [SymBytes.stName_newSection]
        exact hempty
      have hfirst := h.appended (defined_ok hroom) (fun _ _ hstr => hstr) hname
      obtain ⟨htable, hstrtab⟩ := ih hfirst hempty hrun
      rw [SymBytes.stValue_newSection, List.append_assoc, List.append_assoc] at htable
      exact ⟨htable, hstrtab⟩

/-! ## The run -/

variable {H : Type} (process : Process H) (place : PatchPlace)

/-- What a function does to the names and values of the patched binary; `base` are the names of the binary. -/
def PatchPlace.tableStep (base : List (List UInt8)) (table : List (List UInt8) × List UInt64) (func : PatchFunction) :
    List (List UInt8) × List UInt64 :=
  if func.name.bytes ∈ base then (table.1, table.2.set (base.idxOf func.name.bytes) (place.newAddress func))
  else (table.1 ++ [func.name.bytes], table.2 ++ [place.newAddress func])

def PatchPlace.patchedTable (base : List (List UInt8)) (table : List (List UInt8) × List UInt64)
    (funcs : List PatchFunction) : List (List UInt8) × List UInt64 := funcs.foldl (place.tableStep base) table

/-- The binary has this table, in which the null symbol has no name. -/
structure PatchPlace.BaseTable (base : List (List UInt8)) (values : List UInt64) : Prop where
  table : TableOf place.targetBin base values
  null : base.head? = some []

/-- The patched binary on the way: names and strings of the binary are still in their places. -/
structure PatchPlace.TableOnWay (base : List (List UInt8)) (e : PatchElf) (rows : List (List UInt8) × List UInt64) :
    Prop where
  table : TableOf e rows.1 rows.2
  front : base <+: rows.1
  strings : ∀ idx str, place.targetBin.strtab.stringAt idx = some str → e.strtab.stringAt idx = some str

/-- The patched binary before the functions: the table of the binary, and symbols without a name at these addresses. -/
def PatchPlace.StartTable (base : List (List UInt8)) (values addrs : List UInt64) (start : PatchElf) : Prop :=
  place.TableOnWay base start (base ++ addrs.map fun _ => [], values ++ addrs)

/-- A function is found under its name at an address. -/
def FoundAt (e : PatchElf) (name : CString) (addr : UInt64) : Prop :=
  ∃ idx sym, getSymtabIdx e name PatchPlace.lookupFlags = .ok idx ∧ idx ≠ 0 ∧ e.symtabData.symAt idx = some sym ∧
    sym.stValue = addr

/-- Every function is found at its new address, and all other symbols as before. -/
structure PatchPlace.SymbolsRight (funcs : List PatchFunction) (e : PatchElf) : Prop where
  found : ∀ func ∈ funcs, FoundAt e func.name (place.newAddress func)
  others : ∀ name, (∀ func ∈ funcs, func.name ≠ name) → ∀ addr, FoundAt e name addr ↔ FoundAt place.targetBin name addr

section
variable {process} {place} {base : List (List UInt8)} {values : List UInt64}

/-- No section has been copied in. -/
theorem PatchPlace.BaseTable.start (h : place.BaseTable base values) : place.StartTable base values [] place.targetBin := by
  unfold PatchPlace.StartTable
  rw [List.map_nil, List.append_nil, List.append_nil]
  exact ⟨h.table, List.prefix_rfl, fun _ _ hstr => hstr⟩

theorem PatchPlace.BaseTable.copiedIn (h : place.BaseTable base values) (hempty : place.targetBin.strtab.stringAt 0 = some [])
    {sections : List (UInt16 × UInt64)} {start : PatchElf} (hrun : addSectionSymbols place.targetBin sections = .ok start) :
    place.StartTable base values (sections.map (·.2)) start := by
  obtain ⟨htable, hstrtab⟩ := h.table.copiedIn hempty hrun
  unfold PatchPlace.StartTable
  rw [List.map_map]
  exact ⟨htable, List.prefix_append _ _, fun idx str hstr => by rw [hstrtab]; exact hstr⟩

theorem PatchPlace.BaseTable.symtabIdx (h : place.BaseTable base values) (func : PatchFunction) :
    place.symtabIdx func = .ok (firstIdx base func.name.bytes) := h.table.lookup func.name

/-- Only the empty name has index 0. -/
theorem idxOf_pos {names : List (List UInt8)} (hnull : names.head? = some []) {name : List UInt8} (hname : name ≠ []) :
    0 < names.idxOf name := by
  cases names with
  | nil => cases hnull
  | cons first names =>
    cases hnull
    rw [List.idxOf_cons, beq_false_of_ne (Ne.symm hname)]
    exact Nat.succ_pos _

theorem PatchPlace.BaseTable.isNew_iff (h : place.BaseTable base values) {func : PatchFunction}
    (hname : func.name.bytes ≠ []) : place.IsNew func ↔ func.name.bytes ∉ base := by
  unfold PatchPlace.IsNew
  rw [h.symtabIdx func]
  have hpos := idxOf_pos h.null hname
  constructor
  · intro heq hmem
    rw [firstIdx_of_mem hmem] at heq
    have hzero := Except.ok.inj heq
    omega
  · intro hmem
    rw [firstIdx_of_notMem hmem]

/-- One function on the tables is one on names and values. -/
theorem tableStep_ok (hbase : place.BaseTable base values) {s s' : PatchState H} {func : PatchFunction}
    (hname : func.name.bytes ≠ []) {table : List (List UInt8) × List UInt64}
    (hroom : place.IsNew func → s.patchedBin.strtab.dBuf.length + strlen func.name + 1 < 2 ^ 31 ∧
      s.patchedBin.symtabData.dBuf.length + 24 < 2 ^ 31)
    (h : place.TableOnWay base s.patchedBin table) (hstep : applyFunctionPatch process place s func = .ok s') :
    place.TableOnWay base s'.patchedBin (place.tableStep base table func) := by
  rcases applyFunctionPatch_ok hstep with ⟨idx, sym, hsym, rfl⟩ | ⟨hnew, rfl⟩
  · have hidx := Except.ok.inj (hsym.found.symm.trans (hbase.symtabIdx func))
    have hmem : func.name.bytes ∈ base := by
      by_contra hno
      rw [firstIdx_of_notMem hno] at hidx
      exact hsym.defined hidx
    rw [firstIdx_of_mem hmem] at hidx
    have hlt : idx < base.length := by
      rw [hidx]
      exact List.idxOf_lt_length_iff.mpr hmem
    have hbasename : base[idx] = func.name.bytes := by
      simp only [hidx]
      exact List.getElem_idxOf _
    have hlt' : idx < table.1.length := Nat.lt_of_lt_of_le hlt h.front.length_le
    have hsame : table.1[idx] = base[idx] := (h.front.getElem hlt).symm
    -- the symbol has its name in the strings of the binary, which are still there
    have hstr : s.patchedBin.strtab.stringAt (sym.withValue (place.newAddress func)).stName.toInt32 =
        some table.1[idx] := by
      obtain ⟨sym', hsym', hstr, -⟩ := hbase.table.entry_of_lt hlt
      cases hsym.symbol.symm.trans hsym'
      rw [SymBytes.stName_withValue, hsame]
      exact h.strings _ _ hstr
    have htable := h.table.updated hlt' hstr
    rw [SymBytes.stValue_withValue] at htable
    unfold PatchPlace.tableStep
    rw [if_pos hmem, ← hidx]
    exact ⟨htable, h.front, h.strings⟩
  · unfold PatchPlace.tableStep
    rw [if_neg ((hbase.isNew_iff hname).mp hnew)]
    exact ⟨h.table.added (hroom hnew), h.front.trans (List.prefix_append _ _),
      fun idx str hstr => stringAt_grown (h.strings idx str hstr) _⟩

/-- **A run on the tables is a run on names and values.** -/
theorem patchedTable_ok (hbase : place.BaseTable base values) {funcs : List PatchFunction} {s s' : PatchState H}
    {table : List (List UInt8) × List UInt64} (hnames : ∀ func ∈ funcs, func.name.bytes ≠ [])
    (hroom : place.RoomFor s.patchedBin funcs) (h : place.TableOnWay base s.patchedBin table)
    (hrun : applyFunctionPatches process place s funcs = .ok s') :
    place.TableOnWay base s'.patchedBin (place.patchedTable base table funcs) := by
  induction funcs generalizing s table with
  | nil =>
    cases hrun
    exact h
  | cons func funcs ih =>
    unfold applyFunctionPatches at ih hrun
    rw [List.foldlM_cons] at hrun
    obtain ⟨s1, hstep, hrun⟩ := bind_eq_ok.mp hrun
    exact ih (fun g hg => hnames g (List.mem_cons_of_mem _ hg)) (hroom.step hstep)
      (tableStep_ok hbase (hnames func List.mem_cons_self) hroom.new h hstep) hrun

/-! ## Names and values -/

theorem CString.eq_of_bytes {a b : CString} (h : a.bytes = b.bytes) : a = b := by
  cases a
  cases b
  cases h
  rfl

/-- The names and values after some functions of which those of one name have one address. -/
structure PatchPlace.RowsAfter (place : PatchPlace) (base : List (List UInt8)) (values addrs : List UInt64)
    (done : List PatchFunction) (rows : List (List UInt8) × List UInt64) : Prop where
  null : base.head? = some []
  length : rows.2.length = rows.1.length
  names : rows.1 = (base ++ addrs.map fun _ => []) ++ (done.map (·.name.bytes)).filter (· ∉ base)
  value : ∀ func ∈ done, rows.2[rows.1.idxOf func.name.bytes]? = some (place.newAddress func)
  kept : ∀ name ∈ base, (∀ func ∈ done, func.name.bytes ≠ name) → rows.2[base.idxOf name]? = values[base.idxOf name]?

section
variable {done : List PatchFunction} {rows : List (List UInt8) × List UInt64} {addrs : List UInt64}

theorem PatchPlace.RowsAfter.mem_names (h : place.RowsAfter base values addrs done rows) {name : List UInt8} :
    name ∈ rows.1 ↔ name ∈ base ∨ ∃ func ∈ done, func.name.bytes = name := by
  have hnull : [] ∈ base := List.mem_of_mem_head? h.null
  rw [h.names, List.mem_append, List.mem_append, List.mem_filter, List.mem_map, List.mem_map]
  by_cases hbase : name ∈ base
  · simp [hbase]
  · have hne : ([] : List UInt8) ≠ name := fun heq => hbase (heq ▸ hnull)
    simp [hbase, hne]

theorem PatchPlace.RowsAfter.idxOf_base (h : place.RowsAfter base values addrs done rows) {name : List UInt8}
    (hmem : name ∈ base) : rows.1.idxOf name = base.idxOf name := by
  rw [h.names, List.idxOf_append_of_mem (List.mem_append_left _ hmem), List.idxOf_append_of_mem hmem]

theorem PatchPlace.RowsAfter.idxOf_lt (h : place.RowsAfter base values addrs done rows) {name : List UInt8}
    (hmem : name ∈ base) : base.idxOf name < rows.2.length := by
  have hidx := List.idxOf_lt_length_iff.mpr hmem
  rw [h.length, h.names, List.length_append, List.length_append]
  omega

/-- A function of the binary: the value of its entry is changed. -/
theorem PatchPlace.RowsAfter.changed (h : place.RowsAfter base values addrs done rows) {func : PatchFunction}
    (hmem : func.name.bytes ∈ base) (hsame : ∀ f ∈ done, f.name = func.name → place.newAddress f = place.newAddress func) :
    place.RowsAfter base values addrs (done ++ [func])
      (rows.1, rows.2.set (base.idxOf func.name.bytes) (place.newAddress func)) where
  null := h.null
  length := by rw [List.length_set, h.length]
  names := by
    rw [h.names, List.map_append, List.filter_append]
    simp [hmem]
  value f hf := by
    dsimp only
    by_cases hname : f.name = func.name
    · rw [hname, h.idxOf_base hmem, List.getElem?_set_self (h.idxOf_lt hmem)]
      rcases List.mem_append.mp hf with hf | hf
      · rw [hsame f hf hname]
      · rw [List.mem_singleton.mp hf]
    · have hdone : f ∈ done := by
        rcases List.mem_append.mp hf with hf | hf
        · exact hf
        · exact absurd (by rw [List.mem_singleton.mp hf]) hname
      have hne : base.idxOf func.name.bytes ≠ rows.1.idxOf f.name.bytes := by
        rw [← h.idxOf_base hmem]
        intro heq
        have hin := h.mem_names.mpr (.inl hmem)
        exact hname (CString.eq_of_bytes ((List.idxOf_inj hin).mp heq).symm)
      rw [List.getElem?_set_ne hne]
      exact h.value f hdone
  kept name hin hnot := by
    have hne : base.idxOf func.name.bytes ≠ base.idxOf name := by
      intro heq
      exact hnot func (by simp) ((List.idxOf_inj hmem).mp heq)
    dsimp only
    rw [List.getElem?_set_ne hne]
    exact h.kept name hin fun f hf => hnot f (List.mem_append_left _ hf)

/-- A function that is new: an entry is added, which is the first with the name unless one of it came before. -/
theorem PatchPlace.RowsAfter.added (h : place.RowsAfter base values addrs done rows) {func : PatchFunction}
    (hmem : func.name.bytes ∉ base) (hsame : ∀ f ∈ done, f.name = func.name → place.newAddress f = place.newAddress func) :
    place.RowsAfter base values addrs (done ++ [func]) (rows.1 ++ [func.name.bytes], rows.2 ++ [place.newAddress func]) where
  null := h.null
  length := by simp [h.length]
  names := by
    rw [h.names, List.map_append, List.filter_append, List.append_assoc]
    simp [hmem]
  value f hf := by
    dsimp only
    by_cases hin : f.name.bytes ∈ rows.1
    · have hlt : rows.1.idxOf f.name.bytes < rows.2.length := by
        rw [h.length]
        exact List.idxOf_lt_length_iff.mpr hin
      rw [List.idxOf_append_of_mem hin, List.getElem?_append_left hlt]
      rcases List.mem_append.mp hf with hf | hf
      · exact h.value f hf
      · rw [List.mem_singleton.mp hf] at hin ⊢
        rcases h.mem_names.mp hin with hbase | ⟨g, hg, hname⟩
        · exact absurd hbase hmem
        · rw [← hname, h.value g hg, hsame g hg (CString.eq_of_bytes hname)]
    · have hfunc : f = func := by
        rcases List.mem_append.mp hf with hf | hf
        · exact absurd (h.mem_names.mpr (.inr ⟨f, hf, rfl⟩)) hin
        · exact List.mem_singleton.mp hf
      rw [hfunc] at hin ⊢
      rw [List.idxOf_append_of_notMem hin, List.idxOf_cons_self, Nat.add_zero, ← h.length, List.getElem?_concat_length]
  kept name hin hnot := by
    dsimp only
    rw [List.getElem?_append_left (h.idxOf_lt hin)]
    exact h.kept name hin fun f hf => hnot f (List.mem_append_left _ hf)

theorem PatchPlace.RowsAfter.step (h : place.RowsAfter base values addrs done rows) {func : PatchFunction}
    (hsame : ∀ f ∈ done, f.name = func.name → place.newAddress f = place.newAddress func) :
    place.RowsAfter base values addrs (done ++ [func]) (place.tableStep base rows func) := by
  unfold PatchPlace.tableStep
  by_cases hmem : func.name.bytes ∈ base
  · rw [if_pos hmem]
    exact h.changed hmem hsame
  · rw [if_neg hmem]
    exact h.added hmem hsame

end

theorem rowsAfter_patchedTable (hbase : place.BaseTable base values) (addrs : List UInt64) {funcs : List PatchFunction}
    (hsame : ∀ f ∈ funcs, ∀ g ∈ funcs, f.name = g.name → place.newAddress f = place.newAddress g) :
    place.RowsAfter base values addrs funcs
      (place.patchedTable base (base ++ addrs.map fun _ => [], values ++ addrs) funcs) := by
  induction funcs using List.reverseRecOn with
  | nil =>
    refine ⟨hbase.null, by simp [PatchPlace.patchedTable, hbase.table.length], by simp [PatchPlace.patchedTable], by simp, ?_⟩
    intro name hin _
    have hlt : base.idxOf name < values.length := by
      rw [hbase.table.length]
      exact List.idxOf_lt_length_iff.mpr hin
    exact List.getElem?_append_left hlt
  | append_singleton done func ih =>
    have hdone := ih fun f hf g hg => hsame f (List.mem_append_left _ hf) g (List.mem_append_left _ hg)
    have hstep := hdone.step fun f hf => hsame f (List.mem_append_left _ hf) func (by simp)
    unfold PatchPlace.patchedTable at hstep ⊢
    rw [List.foldl_append]
    exact hstep

/-! ## The functions are found -/

theorem foundAt_iff {e : PatchElf} {names : List (List UInt8)} {values : List UInt64} (h : TableOf e names values)
    {name : CString} {addr : UInt64} : FoundAt e name addr ↔
      name.bytes ∈ names ∧ names.idxOf name.bytes ≠ 0 ∧ values[names.idxOf name.bytes]? = some addr := by
  unfold FoundAt
  rw [h.lookup name]
  constructor
  · rintro ⟨idx, sym, hidx, hne, hsym, hvalue⟩
    have hfirst := (Except.ok.inj hidx).symm
    have hmem : name.bytes ∈ names := by
      by_contra hno
      rw [firstIdx_of_notMem hno] at hfirst
      exact hne hfirst
    rw [firstIdx_of_mem hmem] at hfirst
    have hlt := List.idxOf_lt_length_iff.mpr hmem
    obtain ⟨sym', hsym', -, hvalue'⟩ := h.entry_of_lt hlt
    rw [← hfirst] at hsym'
    cases hsym.symm.trans hsym'
    exact ⟨hmem, hfirst ▸ hne, hvalue'.trans (congrArg some hvalue)⟩
  · rintro ⟨hmem, hne, hvalue⟩
    have hlt := List.idxOf_lt_length_iff.mpr hmem
    have hname : names[names.idxOf name.bytes]? = some name.bytes := by
      rw [List.getElem?_eq_getElem hlt, List.getElem_idxOf]
    obtain ⟨sym, hsym, -, hval⟩ := h.entry _ _ _ hname hvalue
    exact ⟨_, sym, by rw [firstIdx_of_mem hmem], hne, hsym, hval⟩

theorem FoundAt.unique {e : PatchElf} {name : CString} {a b : UInt64} (ha : FoundAt e name a) (hb : FoundAt e name b) :
    a = b := by
  obtain ⟨idx, sym, hidx, -, hsym, rfl⟩ := ha
  obtain ⟨idx', sym', hidx', -, hsym', rfl⟩ := hb
  cases hidx.symm.trans hidx'
  cases hsym.symm.trans hsym'
  rfl

theorem symbolsRight_of_run (hbase : place.BaseTable base values) {addrs : List UInt64} {start : PatchElf}
    (hstart : place.StartTable base values addrs start) {t : Target H} {funcs : List PatchFunction}
    (hnames : ∀ func ∈ funcs, func.name.bytes ≠ []) (hroom : place.RoomFor start funcs) {s' : PatchState H}
    (hrun : applyFunctionPatches process place ⟨start, t⟩ funcs = .ok s')
    (hsame : ∀ f ∈ funcs, ∀ g ∈ funcs, f.name = g.name → place.newAddress f = place.newAddress g) :
    place.SymbolsRight funcs s'.patchedBin := by
  have hstart : place.TableOnWay base start (base ++ addrs.map fun _ => [], values ++ addrs) := hstart
  have hfinal := patchedTable_ok hbase hnames hroom hstart hrun
  have hrows := rowsAfter_patchedTable hbase addrs hsame
  have hnull : (place.patchedTable base (base ++ addrs.map fun _ => [], values ++ addrs) funcs).1.head? = some [] := by
    rw [hrows.names, List.head?_append, List.head?_append, hbase.null]
    rfl
  constructor
  · intro func hfunc
    have hpos := idxOf_pos hnull (hnames func hfunc)
    exact (foundAt_iff hfinal.table).mpr
      ⟨hrows.mem_names.mpr (.inr ⟨func, hfunc, rfl⟩), by omega, hrows.value func hfunc⟩
  · intro name hnot addr
    have hbytes : ∀ func ∈ funcs, func.name.bytes ≠ name.bytes := fun func hfunc heq =>
      hnot func hfunc (CString.eq_of_bytes heq)
    have hmem : name.bytes ∈ (place.patchedTable base (base ++ addrs.map fun _ => [], values ++ addrs) funcs).1 ↔
        name.bytes ∈ base := by
      rw [hrows.mem_names]
      exact ⟨fun h => h.elim id fun ⟨func, hfunc, heq⟩ => absurd heq (hbytes func hfunc), .inl⟩
    rw [foundAt_iff hfinal.table, foundAt_iff hbase.table, hmem]
    apply and_congr_right
    intro hin
    rw [hrows.idxOf_base hin, hrows.kept _ hin hbytes]

end

/-- **Every function is found in the patched binary at its new address, and all else as before, exactly when the run finds
what it looks at and functions of one name have one address.** -/
theorem functionsFound_iff {base : List (List UInt8)} {values addrs : List UInt64} (hbase : place.BaseTable base values)
    {start : PatchElf} (hstart : place.StartTable base values addrs start) (t : Target H) (funcs : List PatchFunction)
    (hnames : ∀ func ∈ funcs, func.name.bytes ≠ []) (hroom : place.RoomFor start funcs) :
    (∃ s', applyFunctionPatches process place ⟨start, t⟩ funcs = .ok s' ∧
        place.SymbolsRight funcs s'.patchedBin) ↔
      (∀ func ∈ funcs, place.Patchable process t.heap func) ∧
        ∀ f ∈ funcs, ∀ g ∈ funcs, f.name = g.name → place.newAddress f = place.newAddress g := by
  have hends : (∃ s', applyFunctionPatches process place ⟨start, t⟩ funcs = .ok s') ↔
      ∀ func ∈ funcs, place.Patchable process t.heap func := applyFunctionPatches_ends hroom
  constructor
  · rintro ⟨s', hrun, hright⟩
    refine ⟨hends.mp ⟨s', hrun⟩, fun f hf g hg hname => ?_⟩
    have hfound := hright.found f hf
    rw [hname] at hfound
    exact hfound.unique (hright.found g hg)
  · rintro ⟨hpatchable, hsame⟩
    obtain ⟨s', hrun⟩ := hends.mpr hpatchable
    exact ⟨s', hrun, symbolsRight_of_run hbase hstart hnames hroom hrun hsame⟩

theorem baseTable_short : shortPlace.BaseTable [[], [102], [103]] [0, 0x401000, 0x401005] where
  table := {
    strTblIdx_pos := by decide
    length := rfl
    size := by decide
    count := by decide
    entry := fun i name value hname hvalue => by
      match i with
      | 0 =>
        cases hname
        cases hvalue
        exact ⟨⟨List.replicate 24 0, rfl⟩, by decide, by decide, by decide⟩
      | 1 =>
        cases hname
        cases hvalue
        exact ⟨.newFunction 1 1 0x401000, by decide, by decide, by decide⟩
      | 2 =>
        cases hname
        cases hvalue
        exact ⟨.newFunction 3 1 0x401005, by decide, by decide, by decide⟩
      | i + 3 => cases hname }
  null := rfl

/-- `.text.new` has been copied in. -/
theorem copiedIn_short : ∃ start, addSectionSymbols shortBin [(9, 0x500000)] = .ok start ∧
    shortPlace.StartTable [[], [102], [103]] [0, 0x401000, 0x401005] [0x500000] start ∧
      start.strtab.dBuf.length = 5 ∧ start.symtabData.dBuf.length = 96 := by
  have hcopied : addSectionSymbols shortPlace.targetBin [(9, 0x500000)] = .ok _ := rfl
  exact ⟨_, hcopied, baseTable_short.copiedIn (by decide) hcopied, by decide, by decide⟩

theorem functionsFound_short : ∃ start, addSectionSymbols shortBin [(9, 0x500000)] = .ok start ∧
    ∃ s', applyFunctionPatches (mappedProcess keptHeap) shortPlace ⟨start, zeroTarget⟩ [patchF, patchH] = .ok s' ∧
      shortPlace.SymbolsRight [patchF, patchH] s'.patchedBin := by
  obtain ⟨start, hcopied, hstart, hstrings, hsymbols⟩ := copiedIn_short
  have hroom : shortPlace.RoomFor start [patchF, patchH] := ⟨by rw [hstrings]; decide, by rw [hsymbols]; decide⟩
  exact ⟨start, hcopied, (functionsFound_iff _ _ baseTable_short hstart zeroTarget [patchF, patchH] (by decide) hroom).mpr
    ⟨patchable_short, by decide⟩⟩

end Katana
