/-
  Katana.Relocation — applying a relocation to the target's memory, the section's data or both
  (applyRelocation of relocation.c), for the builds of 32 and of 64 bits.

  A symbol without a value is relocated to its entry in the PLT, any other to its value. Either way the value
  is a word, of which fewer bytes are stored where the branch says so.

  Proved, for every relocation, symbol, PLT entry, section and target whose memory is mapped:
  - `relocatedValue_width`: how many bytes each branch stores.
  - `applyRelocation_eq`: what a call makes of the section and of the memory.
  - `writesField_iff`: the field alone is written exactly if its branch narrows the word to it.
-/
import Katana.DwarfVm
import Katana.ReplaceRaw

namespace Katana

open Lib

/-! ## applyRelocation -/

/-- `KATANA_X86_ARCH` and `KATANA_X86_64_ARCH`. -/
inductive Arch where
  | x86
  | x86_64
  deriving DecidableEq, Repr

def Arch.size : Arch → Nat
  | .x86 => 4
  | .x86_64 => 8

abbrev Arch.Addr (arch : Arch) := BitVec (8 * arch.size)

/-- What is kept of a 64-bit field of a GElf structure. -/
def Arch.addr (arch : Arch) (x : UInt64) : arch.Addr := x.toBitVec.setWidth _

structure RelocInfo (arch : Arch) where
  rOffset : arch.Addr
  symIdx : Nat
  relocType : UInt8
  rAddend : arch.Addr
  deriving DecidableEq

/-- The section that a relocation applies to: `sh_addr`, `SHF_ALLOC` of its flags, and the data. -/
structure RelocScn where
  shAddr : UInt64
  alloc : Bool
  data : List UInt8
  deriving DecidableEq

/-- The values of `ELF_STORAGE_TYPE` and the two together. -/
inductive StorageType where
  | inMem
  | onDisk
  | both
  deriving DecidableEq, Repr

namespace StorageType

def Mem (type : StorageType) : Prop := type ≠ .onDisk

def Disk (type : StorageType) : Prop := type ≠ .inMem

instance (type : StorageType) : Decidable type.Mem := inferInstanceAs (Decidable (_ ≠ _))

instance (type : StorageType) : Decidable type.Disk := inferInstanceAs (Decidable (_ ≠ _))

end StorageType

def FromPLT (sym : ElfSym) : Prop := sym.stShndx = 0 ∧ sym.stValue = 0 ∧ sym.stType = 2

instance (sym : ElfSym) : Decidable (FromPLT sym) := inferInstanceAs (Decidable (_ ∧ _))

section
variable {arch : Arch}

def signExtend32To64 (val : BitVec 32) : BitVec 64 := val.signExtend 64

/-- `newAddrAccessed` and `bytesInAddr` for the symbol at `symIdx`. `plt` is what getPLTEntryForSym returns, if it
does; it only reads. The types are `R_386_32` and `R_X86_64_64` (1), `R_386_PC32` and `R_X86_64_PC32` (2),
`R_X86_64_32` (10), `R_X86_64_32S` (11) and `R_X86_64_PC64` (24). -/
def relocatedValue (rel : RelocInfo arch) (sym : ElfSym) (plt : Option arch.Addr) : Except Fault (arch.Addr × Nat) :=
  if FromPLT sym then
    match plt with
    | none => .error (.death "could not find symbol in PLT\n")
    | some entry =>
      if rel.relocType = 2 then .ok (entry - rel.rOffset - 4, 4)
      else if rel.relocType = 24 then .ok (entry - rel.rOffset - 8, arch.size)
      else .ok (entry, arch.size)
  else
    let addrNew := arch.addr sym.stValue
    if rel.relocType = 1 ∨ rel.relocType = 10 then
      .ok (addrNew + rel.rAddend, if arch = .x86_64 ∧ rel.relocType = 10 then 4 else arch.size)
    else if rel.relocType = 2 then
      .ok (addrNew + rel.rAddend - rel.rOffset, if arch = .x86_64 then 4 else arch.size)
    else if rel.relocType = 11 then
      .ok (addrNew + (signExtend32To64 (rel.rAddend.setWidth 32)).setWidth _, arch.size)
    else
      .error (.death ("relocation type " ++ toString rel.relocType.toNat ++ " we can't handle yet (for RELA)\n"))

/-- Where in the section's data an address lies. -/
def placeOf (shAddr : UInt64) (addr : arch.Addr) : Nat := (addr - arch.addr shAddr).toNat

variable {H : Type} (process : Process H)

/-- `IN_MEM & type && shdr.sh_flags & SHF_ALLOC`. The target has the words of eight bytes of Katana.Target; where all is
mapped, it makes no difference in how many steps they are written. -/
def storeInMem (type : StorageType) (alloc : Bool) (t : Target H) (addrToBeRelocated : arch.Addr) (bytes : List UInt8)
    (bytesInAddr : Nat) : Except Fault (Target H) :=
  if type.Mem ∧ alloc = true then
    memcpyToTarget process t (UInt64.ofNat addrToBeRelocated.toNat) bytes (Int32.ofNat bytesInAddr)
  else .ok t

/-- `ON_DISK & type`. -/
def storeOnDisk (type : StorageType) (scn : RelocScn) (addrToBeRelocated : arch.Addr) (bytes : List UInt8) :
    Except Fault (List UInt8) :=
  if type.Disk then memcpyMirror scn.data (placeOf scn.shAddr addrToBeRelocated) bytes else .ok scn.data

/-- The data and the target afterwards. -/
def applyRelocation (rel : RelocInfo arch) (sym : ElfSym) (plt : Option arch.Addr) (scn : RelocScn) (t : Target H)
    (type : StorageType) : Except Fault (List UInt8 × Target H) :=
  if type = .inMem ∧ scn.alloc = false then .ok (scn.data, t)
  else do
    let (newAddrAccessed, bytesInAddr) ← relocatedValue rel sym plt
    let bytes := toLE arch.size newAddrAccessed.toNat
    let t ← storeInMem process type scn.alloc t rel.rOffset bytes bytesInAddr
    let data ← storeOnDisk type scn rel.rOffset (bytes.take bytesInAddr)
    .ok (data, t)

/-! ## The field -/

/-- The bytes of the field, for the types that are handled in the build. -/
def fieldWidth (arch : Arch) (relocType : UInt8) : Option Nat :=
  match arch with
  | .x86 => if relocType = 1 ∨ relocType = 2 then some 4 else none
  | .x86_64 =>
    if relocType = 1 ∨ relocType = 24 then some 8
    else if relocType = 2 ∨ relocType = 10 ∨ relocType = 11 then some 4
    else none

/-- The section's data with the field stored in them, where the type says so. -/
def StorageType.dataWith (type : StorageType) (place : Nat) (field data : List UInt8) : List UInt8 :=
  if type.Disk then replacedBytes place field data else data

/-- The memory with the field stored in it, where the type says so and the section is in it. -/
def StorageType.memoryWith (type : StorageType) (alloc : Bool) (addr : UInt64) (field : List UInt8) (bytes : Memory) :
    Memory :=
  if type.Mem ∧ alloc = true then bytes.write addr field else bytes

/-- With all memory mapped and the field inside the section: whatever the section and the memory hold, exactly the field
is written, with one value for both. Where katana ends instead, nothing is. -/
def WritesField (malloc : H → UInt64 → UInt64 × H) (rel : RelocInfo arch) (sym : ElfSym) (plt : Option arch.Addr)
    (shAddr : UInt64) (alloc : Bool) (t : Target H) (type : StorageType) (width : Nat) : Prop :=
  ∀ (data : List UInt8) (bytes : Memory), placeOf shAddr rel.rOffset + width ≤ data.length →
    match applyRelocation (mappedProcess malloc) rel sym plt ⟨shAddr, alloc, data⟩ { t with bytes } type with
    | .error e => e ≠ .undefined
    | .ok (data', t') => ∃ field : List UInt8, field.length = width ∧
        data' = type.dataWith (placeOf shAddr rel.rOffset) field data ∧
        t' = { t with bytes := type.memoryWith alloc (UInt64.ofNat rel.rOffset.toNat) field bytes }

/-- The build has words of 32 bits; or the type is neither of the signed nor, in the PLT, of the unsigned 32 bits. Without
an entry in the PLT nothing is written. -/
def Narrowed (arch : Arch) (relocType : UInt8) (sym : ElfSym) (plt : Option arch.Addr) : Prop :=
  arch = .x86 ∨ (FromPLT sym ∧ plt = none) ∨ (relocType ≠ 11 ∧ ¬ (FromPLT sym ∧ relocType = 10))

/-! ## What is stored -/

variable {rel : RelocInfo arch} {sym : ElfSym} {plt : Option arch.Addr} {width : Nat}

theorem relocatedValue_fails {e : Fault} (h : relocatedValue rel sym plt = .error e) : e ≠ .undefined := by
  rintro rfl
  unfold relocatedValue at h
  split at h
  · split at h
    · cases h
    · repeat' split at h
      all_goals cases h
  · dsimp only at h
    repeat' split at h
    all_goals cases h

/-- The build of 32 bits stores four bytes for both its types. -/
theorem relocatedValue_x86 {rel : RelocInfo .x86} {plt : Option (Arch.Addr .x86)} {value : Arch.Addr .x86}
    {bytesInAddr : Nat} (h : relocatedValue rel sym plt = .ok (value, bytesInAddr)) : bytesInAddr = 4 := by
  unfold relocatedValue at h
  split at h
  · split at h
    · cases h
    · repeat' split at h
      all_goals cases h
      all_goals rfl
  · dsimp only at h
    repeat' split at h
    all_goals cases h
    all_goals simp_all [Arch.size]

theorem relocatedValue_x86_64 {rel : RelocInfo .x86_64} {plt : Option (Arch.Addr .x86_64)} {value : Arch.Addr .x86_64}
    {bytesInAddr : Nat} (h : relocatedValue rel sym plt = .ok (value, bytesInAddr)) :
    bytesInAddr = if rel.relocType = 2 ∨ (rel.relocType = 10 ∧ ¬ FromPLT sym) then 4 else 8 := by
  unfold relocatedValue at h
  split at h
  · rename_i hplt
    split at h
    · cases h
    · repeat' split at h
      all_goals cases h
      all_goals simp_all [Arch.size]
  · rename_i hplt
    dsimp only at h
    repeat' split at h
    all_goals cases h
    all_goals simp_all [Arch.size]

/-- The word or a half of it is stored, which is the field or twice as much. -/
theorem relocatedValue_width {value : arch.Addr} {bytesInAddr : Nat} (hwidth : fieldWidth arch rel.relocType = some width)
    (h : relocatedValue rel sym plt = .ok (value, bytesInAddr)) :
    (bytesInAddr = 4 ∨ bytesInAddr = arch.size) ∧ (Narrowed arch rel.relocType sym plt ∧ bytesInAddr = width ∨
      ¬ Narrowed arch rel.relocType sym plt ∧ bytesInAddr = 8 ∧ width = 4) := by
  have hfound : ¬ (FromPLT sym ∧ plt = none) := by
    rintro ⟨hplt, rfl⟩
    unfold relocatedValue at h
    rw [if_pos hplt] at h
    cases h
  unfold Narrowed
  cases arch with
  | x86 =>
    have hfour := relocatedValue_x86 h
    unfold fieldWidth at hwidth
    dsimp only at hwidth
    split at hwidth <;> simp_all
  | x86_64 =>
    have hbytes := relocatedValue_x86_64 h
    unfold fieldWidth at hwidth
    dsimp only at hwidth
    generalize rel.relocType = relocType at hbytes hwidth ⊢
    split at hwidth
    · rename_i hword
      rcases hword with rfl | rfl <;> simp_all [Arch.size]
    · split at hwidth
      · rename_i hhalf
        by_cases hplt : FromPLT sym
        · rcases hhalf with rfl | rfl | rfl <;> simp_all [Arch.size]
        · rcases hhalf with rfl | rfl | rfl <;> simp_all [Arch.size]
      · cases hwidth

theorem narrowed_of_fails {e : Fault} (h : relocatedValue rel sym plt = .error e) : Narrowed arch rel.relocType sym plt := by
  unfold relocatedValue at h
  split at h
  · rename_i hplt
    split at h
    · exact .inr (.inl ⟨hplt, rfl⟩)
    · repeat' split at h
      all_goals cases h
  · rename_i hplt
    dsimp only at h
    refine .inr (.inr ⟨fun heleven => ?_, fun hten => hplt hten.1⟩)
    rw [heleven] at h
    simp at h

variable {malloc : H → UInt64 → UInt64 × H} {scn : RelocScn} {t : Target H} {type : StorageType}

theorem bytesInAddr_toInt {n : Nat} (h : n = 4 ∨ n = arch.size) : (Int32.ofNat n).toInt = n := by
  rcases h with rfl | rfl
  · rfl
  · cases arch <;> rfl

/-- No more is stored than a word has. -/
theorem bytesInAddr_le {n : Nat} (h : n = 4 ∨ n = arch.size) : n ≤ arch.size := by
  rcases h with rfl | rfl
  · cases arch <;> decide
  · exact Nat.le_refl _

def storedBytes (value : arch.Addr) (n : Nat) : List UInt8 := (toLE arch.size value.toNat).take n

theorem length_storedBytes {n : Nat} (h : n = 4 ∨ n = arch.size) (value : arch.Addr) :
    (storedBytes value n).length = n := by
  unfold storedBytes
  rw [List.length_take_of_le]
  rw [length_toLE]
  exact bytesInAddr_le h

theorem storeInMem_ok {n : Nat} (hn : n = 4 ∨ n = arch.size) (alloc : Bool) (addr value : arch.Addr) :
    storeInMem (mappedProcess malloc) type alloc t addr (toLE arch.size value.toNat) n =
      .ok { t with bytes := type.memoryWith alloc (UInt64.ofNat addr.toNat) (storedBytes value n) t.bytes } := by
  have hint := bytesInAddr_toInt hn
  have hbound : n ≤ loopBound := (bytesInAddr_le hn).trans (by cases arch <;> decide)
  have hlen : n ≤ (toLE arch.size value.toNat).length := by
    rw [length_toLE]
    exact bytesInAddr_le hn
  unfold storeInMem StorageType.memoryWith storedBytes
  generalize UInt64.ofNat addr.toNat = addr
  split
  · have hcount : writtenCount addr (Int32.ofNat n) = n := by
      unfold writtenCount
      rw [if_pos (by omega), hint, Int.toNat_natCast]
    obtain ⟨t', ht'⟩ := @memcpyToTarget_total _ malloc t addr (toLE arch.size value.toNat) (Int32.ofNat n) (by omega)
      (by rw [hint, Int.toNat_natCast]; exact hbound)
    rw [ht', memcpyToTarget_ok (by rw [hcount]; exact hlen) ht', hcount]
  · rfl

/-- What a call makes of the data and of the memory. -/
theorem applyRelocation_eq {value : arch.Addr} {n : Nat} (hn : n = 4 ∨ n = arch.size)
    (hvalue : relocatedValue rel sym plt = .ok (value, n)) (hstored : ¬ (type = .inMem ∧ scn.alloc = false)) :
    applyRelocation (mappedProcess malloc) rel sym plt scn t type =
      storeOnDisk type scn rel.rOffset (storedBytes value n) >>= fun data => .ok (data,
        { t with bytes := type.memoryWith scn.alloc (UInt64.ofNat rel.rOffset.toNat) (storedBytes value n) t.bytes }) := by
  unfold applyRelocation
  rw [if_neg hstored, hvalue, bind_ok]
  dsimp only
  rw [storeInMem_ok hn, bind_ok]
  rfl

theorem applyRelocation_early (hearly : type = .inMem ∧ scn.alloc = false) :
    applyRelocation (mappedProcess malloc) rel sym plt scn t type = .ok (scn.data, t) := if_pos hearly

theorem applyRelocation_fails {e : Fault} (hstored : ¬ (type = .inMem ∧ scn.alloc = false))
    (h : relocatedValue rel sym plt = .error e) :
    applyRelocation (mappedProcess malloc) rel sym plt scn t type = .error e := by
  unfold applyRelocation
  rw [if_neg hstored, h]
  rfl

/-- A field inside the data is stored in them. -/
theorem storeOnDisk_ok {addr : arch.Addr} {field : List UInt8}
    (h : placeOf scn.shAddr addr + field.length ≤ scn.data.length) :
    storeOnDisk type scn addr field = .ok (type.dataWith (placeOf scn.shAddr addr) field scn.data) := by
  unfold storeOnDisk StorageType.dataWith
  split
  · unfold memcpyMirror
    rw [defined_of h, bind_ok]
    rfl
  · rfl

/-! ## What is written -/

/-- Nothing is written for a section that is not in memory. -/
theorem writesField_early {shAddr : UInt64} {alloc : Bool} (hearly : type = .inMem ∧ alloc = false) :
    WritesField malloc rel sym plt shAddr alloc t type width := by
  intro data bytes hfit
  rw [applyRelocation_early hearly]
  refine ⟨List.replicate width 0, List.length_replicate, ?_, ?_⟩
  · exact (if_neg (not_not_intro hearly.1)).symm
  · unfold StorageType.memoryWith
    rw [if_neg (by rw [hearly.2]; simp)]

theorem writesField_of_narrowed {shAddr : UInt64} {alloc : Bool} (hwidth : fieldWidth arch rel.relocType = some width)
    (hnarrowed : Narrowed arch rel.relocType sym plt) : WritesField malloc rel sym plt shAddr alloc t type width := by
  by_cases hearly : type = .inMem ∧ alloc = false
  · exact writesField_early hearly
  · intro data bytes hfit
    cases hvalue : relocatedValue rel sym plt with
    | error e =>
      rw [applyRelocation_fails hearly hvalue]
      exact relocatedValue_fails hvalue
    | ok result =>
      obtain ⟨value, n⟩ := result
      obtain ⟨hn, ⟨-, rfl⟩ | ⟨hnot, -, -⟩⟩ := relocatedValue_width hwidth hvalue
      · have hlen := length_storedBytes hn value
        rw [applyRelocation_eq hn hvalue hearly, storeOnDisk_ok (by rw [hlen]; exact hfit), bind_ok]
        exact ⟨storedBytes value n, hlen, rfl, rfl⟩
      · exact absurd hnarrowed hnot

/-- Eight bytes in memory are not four, whatever these are, if the byte behind was another. -/
theorem write_eight_ne {addr : UInt64} {eight four : List UInt8} (height : eight.length = 8) (hfour : four.length = 4) :
    Memory.write (fun _ => eight.getD 4 0 + 1) addr eight ≠ Memory.write (fun _ => eight.getD 4 0 + 1) addr four := by
  have hoff : (addr + 4 - addr).toNat = 4 := by
    rw [UInt64.add_comm, UInt64.add_sub_cancel]
    rfl
  have hleft : Memory.write (fun _ => eight.getD 4 0 + 1) addr eight (addr + 4) = eight.getD 4 0 := by
    rw [Memory.write_apply _ _ _ (by omega), hoff, List.getElem?_eq_getElem (by omega), List.getD_eq_getElem _ _ (by omega)]
    rfl
  have hright : Memory.write (fun _ => eight.getD 4 0 + 1) addr four (addr + 4) = eight.getD 4 0 + 1 := by
    rw [Memory.write_apply _ _ _ (by omega), hoff, List.getElem?_eq_none (by omega)]
    rfl
  intro h
  have hsame : eight.getD 4 0 = eight.getD 4 0 + 1 := by rw [← hright, ← h, hleft]
  generalize eight.getD 4 0 = b at hsame
  have hnat := congrArg UInt8.toNat hsame
  rw [UInt8.toNat_add] at hnat
  have hlt := b.toNat_lt
  simp only [UInt8.reduceToNat] at hnat
  omega

theorem WritesField.narrowed {shAddr : UInt64} {alloc : Bool} (hwidth : fieldWidth arch rel.relocType = some width)
    (hstored : ¬ (type = .inMem ∧ alloc = false)) (h : WritesField malloc rel sym plt shAddr alloc t type width) :
    Narrowed arch rel.relocType sym plt := by
  cases hvalue : relocatedValue rel sym plt with
  | error e => exact narrowed_of_fails hvalue
  | ok result =>
    obtain ⟨value, n⟩ := result
    obtain ⟨hn, ⟨hnarrowed, -⟩ | ⟨-, rfl, rfl⟩⟩ := relocatedValue_width hwidth hvalue
    · exact hnarrowed
    · have hlen := length_storedBytes hn value
      -- the data end with the field, and the byte behind it in memory is another than the one that is written
      have hwritten := h (List.replicate (placeOf shAddr rel.rOffset + 4) 0)
        (fun _ => (storedBytes value 8).getD 4 0 + 1) (by rw [List.length_replicate])
      rw [applyRelocation_eq hn hvalue hstored] at hwritten
      unfold storeOnDisk at hwritten
      by_cases hdisk : type.Disk
      · dsimp only at hwritten
        rw [if_pos hdisk, memcpyMirror, defined_not (by rw [List.length_replicate, hlen]; omega)] at hwritten
        exact absurd rfl hwritten
      · rw [if_neg hdisk] at hwritten
        obtain ⟨field, hfield, -, ht⟩ := hwritten
        have htype : type = .inMem := not_not.mp hdisk
        have halloc : alloc = true := by
          rw [← Bool.not_eq_false]
          exact fun hno => hstored ⟨htype, hno⟩
        have hmem : type.Mem ∧ alloc = true := ⟨by rw [htype]; decide, halloc⟩
        have hbytes := congrArg Target.bytes ht
        unfold StorageType.memoryWith at hbytes
        rw [if_pos hmem, if_pos hmem] at hbytes
        exact absurd hbytes (write_eight_ne hlen hfield)

/-- **The field alone is written exactly if nothing is or its branch narrows the word to it.** -/
theorem writesField_iff (malloc : H → UInt64 → UInt64 × H) (rel : RelocInfo arch) (sym : ElfSym) (plt : Option arch.Addr)
    (shAddr : UInt64) (alloc : Bool) (t : Target H) (type : StorageType) {width : Nat}
    (hwidth : fieldWidth arch rel.relocType = some width) :
    WritesField malloc rel sym plt shAddr alloc t type width ↔
      (type = .inMem ∧ alloc = false) ∨ Narrowed arch rel.relocType sym plt := by
  constructor
  · intro h
    by_cases hearly : type = .inMem ∧ alloc = false
    · exact .inl hearly
    · exact .inr (h.narrowed hwidth hearly)
  · rintro (hearly | hnarrowed)
    · exact writesField_early hearly
    · exact writesField_of_narrowed hwidth hnarrowed

end

/-- A relocation of a signed half word at the start of a section. -/
def signedHalf : RelocInfo .x86_64 := ⟨0, 1, 11, 0⟩

/-- One relative to the program counter is stored as four bytes. -/
theorem pc32_writesField : WritesField keptHeap (⟨0, 1, 2, 0⟩ : RelocInfo .x86_64) ⟨0x400000, 0, 1, 1⟩ none 0 true zeroTarget
    .both 4 :=
  (writesField_iff keptHeap (⟨0, 1, 2, 0⟩ : RelocInfo .x86_64) ⟨0x400000, 0, 1, 1⟩ none 0 true zeroTarget .both rfl).mpr
    (.inr (.inr (.inr (by decide))))

/-- A signed half word is stored with the half behind it. -/
theorem not_writesField : ¬ ∀ (arch : Arch) (rel : RelocInfo arch) (sym : ElfSym) (plt : Option arch.Addr) (shAddr : UInt64)
    (alloc : Bool) (t : Target Unit) (type : StorageType) (width : Nat), fieldWidth arch rel.relocType = some width →
    WritesField keptHeap rel sym plt shAddr alloc t type width := by
  intro h
  have hnarrowed := (h .x86_64 signedHalf ⟨0x400000, 0, 1, 1⟩ none 0 true zeroTarget .both 4 rfl).narrowed rfl (by decide)
  rcases hnarrowed with harch | hplt | htype
  · cases harch
  · exact absurd hplt.1 (by decide)
  · exact absurd rfl htype.1

end Katana
