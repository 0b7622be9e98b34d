/-
  Katana.LinkMap — looking a symbol up in the hash table of a library that the target has loaded
  (locateSymbolInLinkMap in patcher/linkmap.c, strnmatchTarget of patcher/target.c).

  Everything is read from the target: the library's name, its dynamic section up to the null tag, the bucket
  for the hash of the name, and the chain of symbol indices from there. Nothing bounds the chain but an index
  of 0, one above the number of chains, and a symbol whose name begins with the one that is looked for.

  Proved, for every memory that can be read, entry of the link map, name and hash:
  - `nameLoop_eq`: the loop over the library's name is left after its first turn.
  - `dynamicLoop_eq` / `chainLoop_eq`: the loops of the lookup as a fold and a walk over what is in the memory.
  - `locatesRight_iff`: the lookup ends, without a step that C leaves undefined and with a symbol of that name,
    exactly if it does not come to the chain, or there is a bucket, the chain stops before an index is met
    again, and the first symbol in it whose name begins with that one has no longer name or is imported.
-/
import Katana.DictionaryNodes
import Katana.DwarfVm
import Katana.Lib.Follow
import Mathlib.Data.FinEnum

namespace Katana

open Lib
open Nodes (CString strlen)

variable {H : Type} (process : Process H)

/-! ## What is read -/

structure LinkMap where
  lAddr : UInt64
  lName : UInt64
  lLd : UInt64
  deriving DecidableEq, Repr

structure Dyn where
  dTag : UInt64
  dPtr : UInt64
  deriving DecidableEq, Repr

def Dyn.ofBytes (bytes : List UInt8) : Dyn := ⟨addrOfBytes (bytes.take 8), addrOfBytes (bytes.drop 8)⟩

structure RuntimeSym where
  stName : UInt32
  stShndx : UInt16
  stValue : UInt64
  deriving DecidableEq, Repr

def wordOfBytes (bytes : List UInt8) : UInt32 := UInt32.ofNat (leNat bytes)

def RuntimeSym.ofBytes (bytes : List UInt8) : RuntimeSym :=
  ⟨wordOfBytes (bytes.take 4), UInt16.ofNat (leNat ((bytes.drop 6).take 2)), addrOfBytes ((bytes.drop 8).take 8)⟩

/-- A symbol without a value in `SHN_UNDEF`, which the library imports itself. -/
def RuntimeSym.Imported (sym : RuntimeSym) : Prop := sym.stValue = 0 ∧ sym.stShndx = 0

instance (sym : RuntimeSym) : Decidable sym.Imported := inferInstanceAs (Decidable (_ ∧ _))

/-- It tells a failed read from success. -/
def memcpyFromTargetNoDeath (t : Target H) (addr : UInt64) (numBytes : Int32) : Except Fault (Option (List UInt8)) :=
  match memcpyFromTarget process t addr numBytes with
  | .ok data => .ok (some data)
  | .error e => if e = ptraceFailed then .ok none else .error e

/-- `len` and `len+1` are ints. -/
def strnmatchTarget (t : Target H) (str : CString) (strInTarget : UInt64) : Except Fault Bool := do
  defined (strlen str + 1 < 2 ^ 31)
  let buf ← memcpyFromTarget process t strInTarget (Int32.ofNat (strlen str) + 1)
  .ok (stringOf (buf.set (strlen str) 0) = str.bytes)

/-! ## locateSymbolInLinkMap -/

/-- The loop over the library's name, from `maxName` bytes on. -/
def nameLoop (t : Target H) (lName : UInt64) (nameBuf : List UInt8) (maxName : Nat) : Except Fault (List UInt8) := do
  let bytes ← memcpyFromTarget process t lName (Int32.ofNat maxName)
  let nameBuf := bytes ++ nameBuf.drop maxName
  if nameBuf.getD maxName 0 ≠ 0 ∧ maxName + 32 ≤ 256 then nameLoop t lName nameBuf (maxName + 32)
  else .ok (nameBuf.set 255 0)
termination_by 256 - maxName

/-- The addresses that are taken from the dynamic section. -/
structure DynTables where
  hashtable : UInt64
  strtab : UInt64
  symtab : UInt64
  deriving DecidableEq, Repr

namespace DynTables

/-- The switch over the tag: `DT_HASH`, `DT_STRTAB` and `DT_SYMTAB`. -/
def note (tables : DynTables) (dyn : Dyn) : DynTables :=
  if dyn.dTag = 4 then { tables with hashtable := dyn.dPtr }
  else if dyn.dTag = 5 then { tables with strtab := dyn.dPtr }
  else if dyn.dTag = 6 then { tables with symtab := dyn.dPtr }
  else tables

def Missing (tables : DynTables) : Prop := tables.symtab = 0 ∨ tables.strtab = 0 ∨ tables.hashtable = 0

instance (tables : DynTables) : Decidable tables.Missing := inferInstanceAs (Decidable (_ ∨ _))

def buckets (tables : DynTables) : UInt64 := tables.hashtable + 8

def chains (tables : DynTables) (numBuckets : UInt32) : UInt64 := tables.hashtable + 8 + 4 * numBuckets.toUInt64

end DynTables

/-- The loop over the dynamic section, from entry `i` on. The counter is an int: `turns` is how often it can be read before
it overflows. -/
def dynamicLoop (t : Target H) (lLd : UInt64) : Nat → Nat → DynTables → Except Fault DynTables
  | 0, _, _ => .error .undefined
  | turns + 1, i, tables => do
    let dyn := Dyn.ofBytes (← memcpyFromTarget process t (lLd + UInt64.ofNat (16 * i)) 16)
    if dyn.dTag = 0 then .ok tables
    else dynamicLoop t lLd turns (i + 1) (tables.note dyn)

structure Located where
  name : UInt64
  result : UInt64
  deriving DecidableEq, Repr

/-- What is looked for, and where. -/
structure Lookup where
  lm : LinkMap
  tables : DynTables
  symName : CString
  numBuckets : UInt32
  numChains : UInt32

def lookAt (t : Target H) (l : Lookup) (symIdx : UInt32) : Except Fault (Option (Option Located)) := do
  let sym := RuntimeSym.ofBytes (← memcpyFromTarget process t (l.tables.symtab + 24 * symIdx.toUInt64) 24)
  if ← strnmatchTarget process t l.symName (l.tables.strtab + sym.stName.toUInt64) then
    if sym.Imported then .ok (some none)
    else .ok (some (some ⟨l.tables.strtab + sym.stName.toUInt64, l.lm.lAddr + sym.stValue⟩))
  else if l.numChains < symIdx then .ok (some none)
  else .ok none

def chainLoop (t : Target H) (l : Lookup) : Nat → UInt32 → Except Halt (Option Located)
  | 0, _ => .error .outOfFuel
  | fuel + 1, symIdx =>
    if symIdx = 0 then .ok none
    else do
      match ← (lookAt process t l symIdx).mapError .fault with
      | some found => .ok found
      | none =>
        let bytes ← (memcpyFromTarget process t (l.tables.chains l.numBuckets + 4 * symIdx.toUInt64) 4).mapError .fault
        chainLoop t l fuel (wordOfBytes bytes)

def searchTables (fuel : Nat) (t : Target H) (lm : LinkMap) (tables : DynTables) (symName : CString) (symNameHash : Int32) :
    Except Halt (Option Located) := do
  match ← (memcpyFromTargetNoDeath process t tables.hashtable 4).mapError .fault with
  | none => .ok none
  | some bytes =>
    let numBuckets := wordOfBytes bytes
    let numChains := wordOfBytes (← (memcpyFromTarget process t (tables.hashtable + 4) 4).mapError .fault)
    (defined (numBuckets ≠ 0)).mapError .fault
    let bytes ← (memcpyFromTarget process t
      (tables.buckets + 4 * (symNameHash.toUInt32 % numBuckets).toUInt64) 4).mapError .fault
    chainLoop process t ⟨lm, tables, symName, numBuckets, numChains⟩ fuel (wordOfBytes bytes)

def locateSymbolInLinkMap (fuel : Nat) (t : Target H) (lm : LinkMap) (symName : CString) (symNameHash : Int32) :
    Except Halt (Option Located) := do
  let nameBuf ← (nameLoop process t lm.lName (List.replicate 256 0) 32).mapError .fault
  if stringOf nameBuf = [] then .ok none
  else
    let tables ← (dynamicLoop process t lm.lLd (2 ^ 31) 0 ⟨0, 0, 0⟩).mapError .fault
    if tables.Missing then .ok none
    else searchTables process fuel t lm tables symName symNameHash

/-! ## What is in the memory -/

def wordAt (m : Memory) (a : UInt64) : UInt32 := wordOfBytes (m.read a 4)

def dynAt (m : Memory) (lLd : UInt64) (i : Nat) : Dyn := Dyn.ofBytes (m.read (lLd + UInt64.ofNat (16 * i)) 16)

/-- The addresses in `k` entries from entry `i` on. -/
def notedFrom (m : Memory) (lLd : UInt64) (i k : Nat) (tables : DynTables) : DynTables :=
  (List.range' i k).foldl (fun tables j => tables.note (dynAt m lLd j)) tables

/-- The dynamic section has `n` entries before its null tag. -/
structure NullAt (m : Memory) (lLd : UInt64) (n : Nat) : Prop where
  null : (dynAt m lLd n).dTag = 0
  before : ∀ i < n, (dynAt m lLd i).dTag ≠ 0

def Begins (m : Memory) (a : UInt64) (name : CString) : Prop := m.read a (strlen name) = name.bytes

def HasName (m : Memory) (a : UInt64) (name : CString) : Prop := m.read a (strlen name + 1) = name.bytes ++ [0]

instance (m : Memory) (a : UInt64) (name : CString) : Decidable (Begins m a name) := inferInstanceAs (Decidable (_ = _))

namespace Lookup
variable (m : Memory) (l : Lookup)

def symAt (symIdx : UInt32) : RuntimeSym := RuntimeSym.ofBytes (m.read (l.tables.symtab + 24 * symIdx.toUInt64) 24)

def nameAt (symIdx : UInt32) : UInt64 := l.tables.strtab + (l.symAt m symIdx).stName.toUInt64

/-- The index at the head of the chain for the hash. -/
def first (symNameHash : Int32) : UInt32 :=
  wordAt m (l.tables.buckets + 4 * (symNameHash.toUInt32 % l.numBuckets).toUInt64)

/-- The next index of the chain. -/
def next (symIdx : UInt32) : UInt32 := wordAt m (l.tables.chains l.numBuckets + 4 * symIdx.toUInt64)

/-- What is returned at an index that the chain stops at. -/
def stop (symIdx : UInt32) : Option (Option Located) :=
  if symIdx = 0 then some none
  else if Begins m (l.nameAt m symIdx) l.symName then
    if (l.symAt m symIdx).Imported then some none
    else some (some ⟨l.nameAt m symIdx, l.lm.lAddr + (l.symAt m symIdx).stValue⟩)
  else if l.numChains < symIdx then some none
  else none

/-- There is a bucket, and the chain stops before an index is met again. At the first symbol whose name begins with the one
that is looked for, and that is not imported, the name ends there. -/
structure Fits (symNameHash : Int32) : Prop where
  bucket : l.numBuckets ≠ 0
  short : l.first m symNameHash ≠ 0 → strlen l.symName < loopBound
  unrepeated : Unrepeated (l.next m) (l.stop m) (l.first m symNameHash)
  ended : ∀ k, (∀ i < k, l.stop m ((l.next m)^[i] (l.first m symNameHash)) = none) →
    ∀ symIdx, symIdx = (l.next m)^[k] (l.first m symNameHash) → symIdx ≠ 0 →
      Begins m (l.nameAt m symIdx) l.symName → ¬ (l.symAt m symIdx).Imported →
        m (l.nameAt m symIdx + UInt64.ofNat (strlen l.symName)) = 0

end Lookup

def lookupIn (m : Memory) (lm : LinkMap) (tables : DynTables) (symName : CString) : Lookup :=
  ⟨lm, tables, symName, wordAt m tables.hashtable, wordAt m (tables.hashtable + 4)⟩

/-- The library has no name or lacks a table, or the chain fits. -/
def LookupFits (m : Memory) (lm : LinkMap) (symName : CString) (symNameHash : Int32) : Prop :=
  m lm.lName = 0 ∨ ∃ n < 2 ^ 31, NullAt m lm.lLd n ∧
    ((notedFrom m lm.lLd 0 n ⟨0, 0, 0⟩).Missing ∨
      (lookupIn m lm (notedFrom m lm.lLd 0 n ⟨0, 0, 0⟩) symName).Fits m symNameHash)

/-- With all memory mapped, the lookup ends with no step undefined, and the symbol it finds has the name. -/
def LocatesRight (malloc : H → UInt64 → UInt64 × H) (t : Target H) (lm : LinkMap) (symName : CString) (symNameHash : Int32) :
    Prop :=
  ∃ fuel found, locateSymbolInLinkMap (mappedProcess malloc) fuel t lm symName symNameHash = .ok found ∧
    ∀ s ∈ found, HasName t.bytes s.name symName

/-! ## The loops -/

section Mapped
variable {malloc : H → UInt64 → UInt64 × H} {t : Target H}

theorem read_ok (addr : UInt64) {numBytes : Int32} {n : Nat} (hn : numBytes.toInt.toNat = n) (hle : n ≤ loopBound) :
    memcpyFromTarget (mappedProcess malloc) t addr numBytes = .ok (t.bytes.read addr n) := by
  rw [memcpyFromTarget_total t addr (by rw [hn]; exact hle), hn]

/-- The loop over the name is left after its first turn. -/
theorem nameLoop_eq (lName : UInt64) :
    nameLoop (mappedProcess malloc) t lName (List.replicate 256 0) 32 =
      .ok (t.bytes.read lName 32 ++ List.replicate 224 0) := by
  rw [nameLoop, read_ok lName (show (Int32.ofNat 32).toInt.toNat = 32 from rfl) (by decide), bind_ok]
  have hzero : (t.bytes.read lName 32 ++ (List.replicate 256 0).drop 32).getD 32 0 = 0 := by
    rw [List.getD_append_right _ _ _ _ (by simp), List.drop_replicate]
    rw [List.getD_eq_getElem?_getD, List.getElem?_replicate_of_lt (by simp), Option.getD_some]
  have hset : (t.bytes.read lName 32 ++ List.replicate 224 0).set 255 0 = t.bytes.read lName 32 ++ List.replicate 224 0 := by
    rw [List.set_append_right _ _ (by simp), List.set_replicate_self]
  dsimp only
  rw [if_neg fun h => h.1 hzero, List.drop_replicate, hset]

theorem nameless_iff (lName : UInt64) :
    stringOf (t.bytes.read lName 32 ++ List.replicate 224 0) = [] ↔ t.bytes lName = 0 := by
  show (t.bytes lName :: (t.bytes.read (lName + 1) 31 ++ List.replicate 224 0)).takeWhile (· ≠ 0) = [] ↔ _
  rw [List.takeWhile_cons]
  split <;> simp_all

theorem notedFrom_succ (m : Memory) (lLd : UInt64) (i k : Nat) (tables : DynTables) :
    notedFrom m lLd i (k + 1) tables = notedFrom m lLd (i + 1) k (tables.note (dynAt m lLd i)) := by
  unfold notedFrom
  rw [List.range'_succ, List.foldl_cons]

theorem dynamicLoop_eq {lLd : UInt64} {turns i : Nat} {tables found : DynTables} :
    dynamicLoop (mappedProcess malloc) t lLd turns i tables = .ok found ↔
      ∃ k < turns, (dynAt t.bytes lLd (i + k)).dTag = 0 ∧ (∀ j < k, (dynAt t.bytes lLd (i + j)).dTag ≠ 0) ∧
        found = notedFrom t.bytes lLd i k tables := by
  induction turns generalizing i tables with
  | zero => simp [dynamicLoop]
  | succ turns ih =>
    rw [dynamicLoop, read_ok _ (show (16 : Int32).toInt.toNat = 16 from rfl) (by decide), bind_ok]
    show (if (dynAt t.bytes lLd i).dTag = 0 then _ else _) = _ ↔ _
    by_cases hnull : (dynAt t.bytes lLd i).dTag = 0
    · rw [if_pos hnull]
      constructor
      · intro h
        cases h
        exact ⟨0, Nat.succ_pos turns, hnull, fun j hj => absurd hj (Nat.not_lt_zero j), rfl⟩
      · rintro ⟨k, -, -, hbefore, rfl⟩
        cases k with
        | zero => rfl
        | succ k => exact absurd hnull (hbefore 0 (Nat.succ_pos k))
    · rw [if_neg hnull, ih]
      have hstep : ∀ j, i + 1 + j = i + (j + 1) := fun j => by omega
      constructor
      · rintro ⟨k, hk, hend, hbefore, hfound⟩
        refine ⟨k + 1, Nat.succ_lt_succ hk, by rw [← hstep]; exact hend, fun j hj => ?_, by rw [notedFrom_succ, hfound]; rfl⟩
        cases j with
        | zero => exact hnull
        | succ j =>
          rw [← hstep]
          exact hbefore j (Nat.lt_of_succ_lt_succ hj)
      · rintro ⟨k, hk, hend, hbefore, hfound⟩
        cases k with
        | zero => exact absurd hend hnull
        | succ k =>
          refine ⟨k, Nat.lt_of_succ_lt_succ hk, ?_, fun j hj => ?_, ?_⟩
          · rw [hstep]
            exact hend
          · rw [hstep]
            exact hbefore (j + 1) (Nat.succ_lt_succ hj)
          · rw [hfound, notedFrom_succ]
            rfl

theorem stringOf_eq_iff {buf : List UInt8} {name : CString} (hlen : buf.length = strlen name) :
    stringOf (buf ++ [0]) = name.bytes ↔ buf = name.bytes := by
  constructor
  · intro h
    have hpre : name.bytes <+: buf ++ [0] := h ▸ List.takeWhile_prefix _
    have htake := List.prefix_iff_eq_take.mp hpre
    rw [htake]
    exact (List.take_left' hlen).symm
  · rintro rfl
    exact stringOf_terminated name.noNul []

theorem intLength {n : Nat} (h : n + 1 < 2 ^ 31) : (Int32.ofNat n + 1).toInt.toNat = n + 1 := by
  rw [Int32.toInt_add, Int32.toInt_ofNat_of_lt (by omega), Int.bmod_eq_of_le (by simp; omega) (by simp; omega)]
  rfl

theorem strnmatchTarget_eq {name : CString} (hshort : strlen name < loopBound) (addr : UInt64) :
    strnmatchTarget (mappedProcess malloc) t name addr = .ok (decide (Begins t.bytes addr name)) := by
  have hbound : strlen name < 2 ^ 31 - 8 := hshort
  have hset : (t.bytes.read addr (strlen name + 1)).set (strlen name) 0 = t.bytes.read addr (strlen name) ++ [0] := by
    rw [Memory.read_append, List.set_append_right _ _ (by simp), Memory.length_read, Nat.sub_self]
    rfl
  unfold strnmatchTarget
  rw [defined_of (by omega), bind_ok, read_ok addr (intLength (by omega)) hshort, bind_ok, hset]
  congr 1
  exact decide_eq_decide.mpr (stringOf_eq_iff (by simp))

theorem strnmatchTarget_long {name : CString} (hlong : ¬ strlen name < loopBound) (addr : UInt64) :
    strnmatchTarget (mappedProcess malloc) t name addr = .error .undefined := by
  unfold strnmatchTarget
  by_cases hint : strlen name + 1 < 2 ^ 31
  · have hlen : (Int32.ofNat (strlen name) + 1).toInt.toNat = strlen name + 1 := intLength hint
    unfold memcpyFromTarget copyFromTarget
    rw [defined_of hint, bind_ok, hlen, defined_not (Nat.not_le_of_gt (Nat.lt_succ_of_le (Nat.le_of_not_lt hlong)))]
    rfl
  · rw [defined_not hint]
    rfl

variable {l : Lookup}

theorem lookAt_eq (hshort : strlen l.symName < loopBound) {symIdx : UInt32} (hidx : symIdx ≠ 0) :
    lookAt (mappedProcess malloc) t l symIdx = .ok (l.stop t.bytes symIdx) := by
  unfold lookAt
  rw [read_ok _ (show (24 : Int32).toInt.toNat = 24 from rfl) (by decide), bind_ok]
  dsimp only
  rw [strnmatchTarget_eq hshort, bind_ok]
  unfold Lookup.stop
  rw [if_neg hidx]
  show (if decide (Begins t.bytes (l.nameAt t.bytes symIdx) l.symName) = true then _ else _) = _
  by_cases hbegins : Begins t.bytes (l.nameAt t.bytes symIdx) l.symName
  · rw [if_pos (decide_eq_true hbegins), if_pos hbegins]
    show (if (l.symAt t.bytes symIdx).Imported then _ else _) = _
    split <;> rfl
  · rw [if_neg (by simpa using hbegins), if_neg hbegins]
    split <;> rfl

theorem chainLoop_eq (hshort : strlen l.symName < loopBound) (fuel : Nat) (symIdx : UInt32) :
    chainLoop (mappedProcess malloc) t l fuel symIdx =
      match follow (l.next t.bytes) (l.stop t.bytes) fuel symIdx with
      | some found => .ok found
      | none => .error .outOfFuel := by
  induction fuel generalizing symIdx with
  | zero => rfl
  | succ fuel ih =>
    rw [chainLoop, follow]
    by_cases hidx : symIdx = 0
    · rw [if_pos hidx, show l.stop t.bytes symIdx = some none from if_pos hidx]
    · rw [if_neg hidx, lookAt_eq hshort hidx]
      cases hstop : l.stop t.bytes symIdx with
      | some found => rfl
      | none =>
        rw [read_ok _ (show (4 : Int32).toInt.toNat = 4 from rfl) (by decide)]
        exact ih _

/-- With a longer name the first symbol is not compared. -/
theorem chainLoop_long (hlong : ¬ strlen l.symName < loopBound) {fuel : Nat} {symIdx : UInt32} (hidx : symIdx ≠ 0)
    (found : Option Located) : chainLoop (mappedProcess malloc) t l fuel symIdx ≠ .ok found := by
  intro h
  cases fuel with
  | zero => cases h
  | succ fuel =>
    rw [chainLoop, if_neg hidx, lookAt, read_ok _ (show (24 : Int32).toInt.toNat = 24 from rfl) (by decide), bind_ok] at h
    dsimp only at h
    rw [strnmatchTarget_long hlong] at h
    cases h

/-! ## The lookup -/

theorem searchTables_eq (fuel : Nat) (lm : LinkMap) (tables : DynTables) (symName : CString) (symNameHash : Int32) :
    searchTables (mappedProcess malloc) fuel t lm tables symName symNameHash =
      if (lookupIn t.bytes lm tables symName).numBuckets = 0 then .error (.fault .undefined)
      else chainLoop (mappedProcess malloc) t (lookupIn t.bytes lm tables symName) fuel
        ((lookupIn t.bytes lm tables symName).first t.bytes symNameHash) := by
  have hfour : ∀ addr, memcpyFromTarget (mappedProcess malloc) t addr 4 = .ok (t.bytes.read addr 4) := fun addr =>
    read_ok addr rfl (by decide)
  unfold searchTables memcpyFromTargetNoDeath
  rw [hfour tables.hashtable, hfour (tables.hashtable + 4)]
  show ((defined (wordAt t.bytes tables.hashtable ≠ 0)).mapError Halt.fault >>= _) =
    if wordAt t.bytes tables.hashtable = 0 then _ else _
  by_cases hzero : wordAt t.bytes tables.hashtable = 0
  · rw [if_pos hzero, defined_not (not_not_intro hzero)]
    rfl
  · rw [if_neg hzero, defined_of hzero]
    rw [hfour]
    rfl

/-- The string at an address that begins with the name is the name if it ends there. -/
theorem hasName_iff {a : UInt64} {name : CString} :
    HasName t.bytes a name ↔ Begins t.bytes a name ∧ t.bytes (a + UInt64.ofNat (strlen name)) = 0 := by
  unfold HasName Begins
  rw [Memory.read_append]
  constructor
  · intro h
    obtain ⟨hbegin, hend⟩ := List.append_inj h (by simp [strlen])
    exact ⟨hbegin, by simpa [Memory.read] using hend⟩
  · rintro ⟨hbegin, hend⟩
    rw [hbegin]
    simp [Memory.read, hend]

theorem stop_found {m : Memory} {symIdx : UInt32} {s : Located} :
    l.stop m symIdx = some (some s) ↔ symIdx ≠ 0 ∧ Begins m (l.nameAt m symIdx) l.symName ∧ ¬ (l.symAt m symIdx).Imported ∧
      s = ⟨l.nameAt m symIdx, l.lm.lAddr + (l.symAt m symIdx).stValue⟩ := by
  unfold Lookup.stop
  split
  · simp_all
  · split
    · split
      · simp_all
      · simp_all [eq_comm]
    · split <;> simp_all

/-- The search of a chain ends with a symbol of the name exactly if the chain fits. -/
theorem search_iff (lm : LinkMap) (tables : DynTables) (symName : CString) (symNameHash : Int32) :
    (∃ fuel found, searchTables (mappedProcess malloc) fuel t lm tables symName symNameHash = .ok found ∧
      ∀ s ∈ found, HasName t.bytes s.name symName) ↔
      (lookupIn t.bytes lm tables symName).Fits t.bytes symNameHash := by
  set l := lookupIn t.bytes lm tables symName with hl
  have hname : l.symName = symName := rfl
  constructor
  · rintro ⟨fuel, found, hsearch, hnamed⟩
    rw [searchTables_eq, ← hl] at hsearch
    split at hsearch
    · cases hsearch
    · rename_i hbucket
      by_cases hshort : strlen l.symName < loopBound
      · rw [chainLoop_eq hshort] at hsearch
        split at hsearch
        · rename_i found' hfollow
          cases hsearch
          refine ⟨hbucket, fun _ => hshort, follow_ends_iff.mp ⟨fuel, found, hfollow⟩, ?_⟩
          obtain ⟨k, -, hk, hbefore⟩ := follow_eq_some_iff.mp hfollow
          rintro j hj symIdx rfl hidx hbegins himported
          have hfound := stop_found.mpr ⟨hidx, hbegins, himported, rfl⟩
          -- the first index that stops the chain is the one that it is followed to
          obtain rfl : j = k := first_stop hfound hj hk hbefore
          rw [hfound] at hk
          cases hk
          exact (hasName_iff.mp (hnamed _ rfl)).2
        · cases hsearch
      · by_cases hfirst : l.first t.bytes symNameHash = 0
        · refine ⟨hbucket, fun h => absurd hfirst h, ?_, ?_⟩
          · intro i j hij _
            exact ⟨0, Nat.zero_lt_of_lt hij, by rw [Function.iterate_zero_apply, hfirst]; rfl⟩
          · rintro k hk symIdx rfl hidx
            cases k with
            | zero => exact absurd hfirst hidx
            | succ k =>
              have hnone := hk 0 (Nat.succ_pos k)
              rw [Function.iterate_zero_apply, hfirst] at hnone
              cases hnone
        · exact absurd hsearch (chainLoop_long hshort hfirst found)
  · intro h
    by_cases hfirst : l.first t.bytes symNameHash = 0
    · refine ⟨1, none, ?_, fun s hs => by cases hs⟩
      rw [searchTables_eq, ← hl, if_neg h.bucket, hfirst]
      rfl
    · have hshort := h.short hfirst
      obtain ⟨fuel, found, hfollow⟩ := follow_ends_iff.mpr h.unrepeated
      refine ⟨fuel, found, by rw [searchTables_eq, ← hl, if_neg h.bucket, chainLoop_eq hshort, hfollow], ?_⟩
      intro s hs
      obtain ⟨k, -, hk, hbefore⟩ := follow_eq_some_iff.mp hfollow
      rw [Option.mem_def.mp hs] at hk
      obtain ⟨hidx, hbegins, himported, rfl⟩ := stop_found.mp hk
      exact hasName_iff.mpr ⟨hbegins, h.ended k hbefore _ rfl hidx hbegins himported⟩

theorem nullAt_unique {m : Memory} {lLd : UInt64} {n k : Nat} (hn : NullAt m lLd n) (hk : NullAt m lLd k) : n = k :=
  first_unique hn.null hn.before hk.null hk.before

theorem dynamicLoop_nullAt {lLd : UInt64} {found : DynTables} :
    dynamicLoop (mappedProcess malloc) t lLd (2 ^ 31) 0 ⟨0, 0, 0⟩ = .ok found ↔
      ∃ n < 2 ^ 31, NullAt t.bytes lLd n ∧ found = notedFrom t.bytes lLd 0 n ⟨0, 0, 0⟩ := by
  rw [dynamicLoop_eq]
  constructor
  · rintro ⟨n, hn, hnull, hbefore, hfound⟩
    rw [Nat.zero_add] at hnull
    refine ⟨n, hn, ⟨hnull, fun i hi => ?_⟩, hfound⟩
    have hi := hbefore i hi
    rwa [Nat.zero_add] at hi
  · rintro ⟨n, hn, hnull, hfound⟩
    refine ⟨n, hn, by rw [Nat.zero_add]; exact hnull.null, fun i hi => ?_, hfound⟩
    rw [Nat.zero_add]
    exact hnull.before i hi

theorem locate_eq (fuel : Nat) (lm : LinkMap) (symName : CString) (symNameHash : Int32) :
    locateSymbolInLinkMap (mappedProcess malloc) fuel t lm symName symNameHash =
      if t.bytes lm.lName = 0 then .ok none
      else (dynamicLoop (mappedProcess malloc) t lm.lLd (2 ^ 31) 0 ⟨0, 0, 0⟩).mapError .fault >>= fun tables =>
        if tables.Missing then .ok none
        else searchTables (mappedProcess malloc) fuel t lm tables symName symNameHash := by
  unfold locateSymbolInLinkMap
  rw [nameLoop_eq]
  show (if stringOf (t.bytes.read lm.lName 32 ++ List.replicate 224 0) = [] then _ else _) = _
  simp only [nameless_iff]

theorem LocatesRight.fits {lm : LinkMap} {symName : CString} {symNameHash : Int32}
    (h : LocatesRight malloc t lm symName symNameHash) : LookupFits t.bytes lm symName symNameHash := by
  obtain ⟨fuel, found, hlocate, hnamed⟩ := h
  rw [locate_eq] at hlocate
  by_cases hnameless : t.bytes lm.lName = 0
  · exact .inl hnameless
  · rw [if_neg hnameless] at hlocate
    cases hdynamic : dynamicLoop (mappedProcess malloc) t lm.lLd (2 ^ 31) 0 ⟨0, 0, 0⟩ with
    | error e =>
      rw [hdynamic] at hlocate
      cases hlocate
    | ok tables =>
      rw [hdynamic] at hlocate
      obtain ⟨n, hn, hnull, rfl⟩ := dynamicLoop_nullAt.mp hdynamic
      refine .inr ⟨n, hn, hnull, ?_⟩
      by_cases hmissing : (notedFrom t.bytes lm.lLd 0 n ⟨0, 0, 0⟩).Missing
      · exact .inl hmissing
      · exact .inr ((search_iff lm _ symName symNameHash).mp ⟨fuel, found, (if_neg hmissing).symm.trans hlocate, hnamed⟩)

theorem LookupFits.right {lm : LinkMap} {symName : CString} {symNameHash : Int32}
    (h : LookupFits t.bytes lm symName symNameHash) : LocatesRight malloc t lm symName symNameHash := by
  rcases h with hnameless | ⟨n, hn, hnull, hfits⟩
  · exact ⟨0, none, by rw [locate_eq, if_pos hnameless], fun s hs => by cases hs⟩
  · by_cases hnameless : t.bytes lm.lName = 0
    · exact ⟨0, none, by rw [locate_eq, if_pos hnameless], fun s hs => by cases hs⟩
    · have hdynamic := (@dynamicLoop_nullAt _ malloc t lm.lLd _).mpr ⟨n, hn, hnull, rfl⟩
      by_cases hmissing : (notedFrom t.bytes lm.lLd 0 n ⟨0, 0, 0⟩).Missing
      · refine ⟨0, none, ?_, fun s hs => by cases hs⟩
        rw [locate_eq, if_neg hnameless, hdynamic]
        exact if_pos hmissing
      · obtain ⟨fuel, found, hsearch, hnamed⟩ := (search_iff lm _ symName symNameHash).mpr (hfits.resolve_left hmissing)
        refine ⟨fuel, found, ?_, hnamed⟩
        rw [locate_eq, if_neg hnameless, hdynamic]
        exact (if_neg hmissing).trans hsearch

/-- **The lookup ends as it should exactly if it does not come to the chain or the chain fits.** -/
theorem locatesRight_iff (malloc : H → UInt64 → UInt64 × H) (t : Target H) (lm : LinkMap) (symName : CString)
    (symNameHash : Int32) : LocatesRight malloc t lm symName symNameHash ↔ LookupFits t.bytes lm symName symNameHash :=
  ⟨LocatesRight.fits, LookupFits.right⟩

end Mapped

/-! ## A table without buckets -/

/-- A library with a name at 0 and its dynamic section at 8, of which the hash table at 128 has no bucket. -/
def noBuckets : Memory := fun a =>
  ([97, 0, 0, 0, 0, 0, 0, 0,
    4, 0, 0, 0, 0, 0, 0, 0, 128, 0, 0, 0, 0, 0, 0, 0,
    5, 0, 0, 0, 0, 0, 0, 0, 1, 0, 0, 0, 0, 0, 0, 0,
    6, 0, 0, 0, 0, 0, 0, 0, 1, 0, 0, 0, 0, 0, 0, 0] : List UInt8).getD a.toNat 0

theorem noBuckets_null : NullAt noBuckets 8 3 := ⟨by decide, by decide⟩

/-- The hash is divided by the number of buckets. -/
theorem not_locatesRight : ¬ ∀ (t : Target Unit) (lm : LinkMap) (symName : CString) (symNameHash : Int32),
    (∃ n, NullAt t.bytes lm.lLd n) → LocatesRight keptHeap t lm symName symNameHash := by
  intro h
  have hlocates := h ⟨noBuckets, (), 0, 0⟩ ⟨0, 0, 8⟩ ⟨[102], by decide⟩ 102 ⟨3, noBuckets_null⟩
  rcases hlocates.fits with hname | ⟨n, -, hnull, hfits⟩
  · exact absurd hname (by decide)
  · cases nullAt_unique hnull noBuckets_null
    rcases hfits with hmissing | hfits
    · exact absurd hmissing (by decide)
    · exact hfits.bucket (by decide)

end Katana
