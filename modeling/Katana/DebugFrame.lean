/-
  Katana.DebugFrame — reading `.eh_frame` and `.debug_frame` (readDebugFrame in fderead.c).

  libdwarf takes the records apart; the reader keeps what it needs of them. It works out itself where the
  augmentation data of a record is loaded: for a CIE by summing up the sizes before it, for an FDE by
  looking for the data in the record. The map it returns leads from the offset of an FDE to its slot.

  Proved:
  - `cieAugdataAddress_add`: what the sum leaves out, for every CIE.
  - `parse_moved`: what a wrong address makes of a personality pointer.
  - `not_cieAugdataAddress`: the sum is never the address of the data.
-/
import Katana.Augmentation
import Katana.Dwarf.FdeRead
import Katana.MapNodes
import Katana.Lsda.Read
import Katana.Rules

namespace Katana

open Lib

/-! ## What libelf and libdwarf give -/

structure DwarfCie where
  version : UInt8
  augmenter : List Char
  codeAlign : UInt64
  dataAlign : Int64
  returnAddrRuleNum : UInt16
  /-- From the initial instructions to the end of the section. -/
  initInstr : List UInt8
  initInstrLen : UInt64
  augdata : List UInt8
  cieOff : UInt64
  deriving DecidableEq, Repr

structure DwarfFde where
  cieIndex : Nat
  /-- From the instructions to the end of the section. -/
  instrs : List UInt8
  ilen : UInt64
  lowPC : UInt64
  addrRange : UInt64
  fdeBytes : List UInt8
  fdeOffset : UInt64
  augdata : List UInt8
  deriving DecidableEq, Repr

/-- An object file. A section is its address and its data. -/
structure FrameObject where
  isPO : Bool
  isEHFrame : Bool
  ehAddress : UInt64
  ehFrameHdr : Option (UInt64 × List UInt8)
  exceptTable : Option (UInt64 × List UInt8)
  cies : List DwarfCie
  fdes : List DwarfFde

/-! ## CIEs -/

/-- The address of the CIE, and the sizes of what is taken to be before the augmentation data: the length, the id
and the version, the string with its zero, and one byte for each of the alignments and the register. -/
def cieAugdataAddress (ehAddress : UInt64) (dcie : DwarfCie) : UInt64 :=
  ehAddress + dcie.cieOff + 4 + 4 + 1 + UInt64.ofNat (dcie.augmenter.length + 1) + 1 + 1 + 1

/-- What `readDebugFrame` asserts of a CIE. The code alignment is unsigned, the data alignment is not. -/
structure CieAsserted (dcie : DwarfCie) : Prop where
  codeAlign : dcie.codeAlign < 64
  dataAlign : dcie.dataAlign < 64
  returnAddrRuleNum : dcie.returnAddrRuleNum < 64

instance (dcie : DwarfCie) : Decidable (CieAsserted dcie) :=
  decidable_of_iff (dcie.codeAlign < 64 ∧ dcie.dataAlign < 64 ∧ dcie.returnAddrRuleNum < 64)
    ⟨fun h => ⟨h.1, h.2.1, h.2.2⟩, fun h => ⟨h.codeAlign, h.dataAlign, h.returnAddrRuleNum⟩⟩

def DwarfCie.toCIE (dcie : DwarfCie) : CIE where
  initialInstructions := []
  dataAlign := dcie.dataAlign
  codeAlign := dcie.codeAlign
  returnAddrRuleNum := dcie.returnAddrRuleNum
  version := dcie.version
  addressSize := 0
  segmentSize := 0
  augmentationFlags := .none
  fdePointerEncoding := 0
  fdeLSDAPointerEncoding := 0
  personalityPointerEncoding := 0
  personalityFunction := 0

/-- A CIE that was read, with its initial rules. -/
structure LoadedCIE where
  cie : CIE
  initialRules : Dictionary PoRegRule

/-- One turn of the loop over the CIEs: those read so far, and the stack of remembered rules, which is never emptied. -/
def readCIE (config : ElfBitwidth) (ehAddress : UInt64) (st : List LoadedCIE × List (Dictionary PoRegRule))
    (dcie : DwarfCie) :
    Except Fault (List LoadedCIE × List (Dictionary PoRegRule)) := do
  assert (CieAsserted dcie)
  let cie ← parseAugmentationStringAndData config dcie.toCIE dcie.augmenter dcie.augdata (cieAugdataAddress ehAddress dcie)
  let (initialInstructions, _) ← parseFDEInstructions dcie.initInstr (cInt dcie.initInstrLen.toNat)
  let rules ← evaluateInstructionsToRules cie initialInstructions (dictCreate 100) st.2 0 (-1)
  -- whatever the file says
  let cie := { cie with initialInstructions, codeAlign := 1 }
  .ok (st.1 ++ [⟨cie, rules.rules⟩], rules.stateStack)

/-! ## FDEs -/

/-- An FDE with the fields that only the reader sets. -/
structure LoadedFDE extends FDE where
  memSize : Int32
  offset : Int32
  deriving DecidableEq, Repr

def memchr (bytes : List UInt8) (start : Nat) (c : UInt8) (n : Nat) : Except Fault (Option Nat) :=
  match ((bytes.drop start).take n).findIdx? (· == c) with
  | some i => .ok (some (start + i))
  | none => if start + n ≤ bytes.length then .ok none else .error .undefined

/-- The inner loop: whether `augdata[j]`, `augdata[j+1]` and so on are the bytes at `ptr`; `j` is an int. -/
def sameBytes : Nat → List UInt8 → List UInt8 → Except Fault Bool
  | _, [], _ => .ok true
  | _, _ :: _, [] => .error .undefined
  | j, a :: augdata, b :: ptr =>
    if a ≠ b then .ok false
    else defined (j + 1 < 2 ^ 31) >>= fun _ => sameBytes (j + 1) augdata ptr

/-- The outer loop, from `iterationOffset` on; gives the position of the first match. -/
def findAugmentation (fdeBytes augdata : List UInt8) : Nat → Int → Except Fault Nat
  | 0, _ => .error .undefined
  | fuel + 1, iterationOffset => do
    defined (0 ≤ iterationOffset)
    match ← memchr fdeBytes iterationOffset.toNat (augdata.headD 0) fdeBytes.length with
    | none => .error (.death "Augmentation data seemingly does not exist when scanning raw data!\n")
    | some ptr =>
      let isMatch ← sameBytes 1 augdata.tail (fdeBytes.drop (ptr + 1))
      if isMatch then .ok ptr else findAugmentation fdeBytes augdata fuel (cInt (ptr + 1))

/-- `augDataOffset`. Every turn but the last moves on in the record. -/
def augDataOffset (dfde : DwarfFde) : Except Fault UInt64 := do
  let ptr ← findAugmentation dfde.fdeBytes dfde.augdata (dfde.fdeBytes.length + 1) 0
  .ok (dfde.fdeOffset + UInt64.ofNat ptr)

/-- The pointer's place among those found before it, or the end, where it is added; the count is an int. -/
def lsdaIndex (lsdaPointers : List UInt64) (lsdaPointer : UInt64) : Except Fault (List UInt64 × Nat) :=
  match lsdaPointers.findIdx? (lsdaPointer == ·) with
  | some i => .ok (lsdaPointers, i)
  | none =>
    defined (lsdaPointers.length + 1 < 2 ^ 31) >>= fun _ => .ok (lsdaPointers ++ [lsdaPointer], lsdaPointers.length)

/-- The LSDA pointer in an FDE's augmentation data. -/
def fdeLsdaPointer (config : ElfBitwidth) (cie : CIE) (augDataAddress : UInt64) (augmentationData : List UInt8) :
    Except Fault UInt64 := do
  let size ← getPointerSizeFromEHPointerEncoding config cie.fdeLSDAPointerEncoding
  if cInt augmentationData.length < size then
    .error (.death "Mismatch between CIE and FDE: FDE does not have expected LSDA pointer augmentation data\n")
  else
    let (lsdaPointer, _) ←
      decodeEHPointer config augmentationData (cInt augmentationData.length) augDataAddress cie.fdeLSDAPointerEncoding
    .ok lsdaPointer

def parseFDEAugmentationData (config : ElfBitwidth) (cie : CIE) (fde : LoadedFDE) (augDataAddress : UInt64)
    (augmentationData : List UInt8) (lsdaPointers : List UInt64) : Except Fault (LoadedFDE × List UInt64) := do
  if cie.augmentationFlags.fdeLsda then
    let lsdaPointer ← fdeLsdaPointer config cie augDataAddress augmentationData
    let (lsdaPointers, i) ← lsdaIndex lsdaPointers lsdaPointer
    .ok ({ fde with hasLSDAPointer := true, lsdaIdx := UInt64.ofNat i }, lsdaPointers)
  else .ok (fde, lsdaPointers)

/-- The key of an FDE in the map: its offset as an int. -/
def DwarfFde.key (dfde : DwarfFde) : Int32 := dfde.fdeOffset.toUInt32.toInt32

def DwarfFde.toFDE (dfde : DwarfFde) (isPO : Bool) (idx : Nat) (instructions : List RegInstruction) : LoadedFDE where
  cie := dfde.cieIndex
  instructions := instructions
  lowpc := dfde.lowPC.toUInt32.toInt32
  highpc := if isPO then 0 else (dfde.lowPC + dfde.addrRange).toUInt32.toInt32
  hasLSDAPointer := false
  lsdaIdx := 0
  idx := Int32.ofNat idx
  memSize := if isPO then dfde.addrRange.toUInt32.toInt32 else 0
  offset := dfde.key

/-- The array of FDEs, the LSDA pointers found, and the map from offsets to slots of the array. -/
structure FrameRead where
  fdes : List LoadedFDE
  lsdaPointers : List UInt64
  result : Nodes.MapState Int32 Nat

def FrameRead.start : FrameRead := ⟨[], [], ⟨Nodes.noNodes, Nodes.mapCreate 100⟩⟩

/-- The augmentation data of an FDE, if it is looked at. -/
def readFDEAugmentation (config : ElfBitwidth) (object : FrameObject) (cie : CIE) (dfde : DwarfFde) (fde : LoadedFDE)
    (lsdaPointers : List UInt64) : Except Fault (LoadedFDE × List UInt64) := do
  if object.isEHFrame ∧ dfde.augdata ≠ [] then
    let augDataOffset ← augDataOffset dfde
    parseFDEAugmentationData config cie fde (object.ehAddress + augDataOffset) dfde.augdata lsdaPointers
  else .ok (fde, lsdaPointers)

/-- One turn of the loop over the FDEs. -/
def loadFDE (config : ElfBitwidth) (object : FrameObject) (cies : List LoadedCIE) (st : FrameRead) (dfde : DwarfFde) :
    Except Fault FrameRead := do
  let some loaded := cies[dfde.cieIndex]? | .error .undefined
  let (instructions, _) ← parseFDEInstructions dfde.instrs (cInt dfde.ilen.toNat)
  let fde := dfde.toFDE object.isPO st.fdes.length instructions
  let (fde, lsdaPointers) ← readFDEAugmentation config object loaded.cie dfde fde st.lsdaPointers
  let (heap, map) ← Nodes.mapInsert Nodes.intKeys st.result.heap st.result.map dfde.key st.fdes.length
  .ok ⟨st.fdes ++ [fde], lsdaPointers, ⟨heap, map⟩⟩

/-! ## readDebugFrame -/

/-- What is read of a file, the FDEs in the order of the file. -/
structure FrameContents where
  cies : List LoadedCIE
  frame : FrameRead
  ehHdrAddress : UInt64
  hdrTableEncoding : UInt8
  exceptTable : Option (List LSDA)

/-- `ehHdrAddress` and `hdrTableEncoding`, zero without an `.eh_frame_hdr`. -/
def readEhFrameHdr (object : FrameObject) : Except Fault (UInt64 × UInt8) :=
  match object.isEHFrame, object.ehFrameHdr with
  | true, some (address, data) => byteAt data 3 >>= fun encoding => .ok (address, encoding)
  | _, _ => .ok (0, 0)

/-- The exception table, if an `.eh_frame` is read and there is one. -/
def readExceptTable (config : ElfBitwidth) (object : FrameObject) (lsdaPointers : List UInt64) :
    Except Fault (Option (List LSDA)) :=
  match object.isEHFrame, object.exceptTable with
  | true, some (address, data) => parseExceptFrame config data address lsdaPointers >>= fun lsdas => .ok (some lsdas)
  | _, _ => .ok none

/-- `readDebugFrame` up to the sort of the FDEs. -/
def readDebugFrame (config : ElfBitwidth) (object : FrameObject) (stateStack : List (Dictionary PoRegRule)) :
    Except Fault FrameContents := do
  let (ehHdrAddress, hdrTableEncoding) ← readEhFrameHdr object
  let (cies, _) ← object.cies.foldlM (readCIE config object.ehAddress) ([], stateStack)
  let frame ← object.fdes.foldlM (loadFDE config object cies) .start
  let exceptTable ← readExceptTable config object frame.lsdaPointers
  .ok ⟨cies, frame, ehHdrAddress, hdrTableEncoding, exceptTable⟩

/-! ## Where the augmentation data of a CIE is -/

/-- A CIE with augmentation data as it lies in its section. The length and the id are longer in 64-bit DWARF, the numerals
may be padded, and from version 4 on there are the sizes of an address and of a segment. -/
structure CieLayout where
  lengthField : List UInt8
  cieId : List UInt8
  version : UInt8
  letters : List Char
  sizes : List UInt8
  codeAlign : Numeral
  dataAlign : Numeral
  returnAddrReg : Numeral
  augLength : Numeral
  augdata : List UInt8
  initInstrs : List UInt8
  length_le : 4 ≤ lengthField.length
  cieId_le : 4 ≤ cieId.length

namespace CieLayout

def head (record : CieLayout) : List UInt8 :=
  record.lengthField ++ record.cieId ++ [record.version] ++ cString ('z' :: record.letters) ++ record.sizes ++
    record.codeAlign.bytes ++ record.dataAlign.bytes ++ record.returnAddrReg.bytes ++ record.augLength.bytes

def bytes (record : CieLayout) : List UInt8 := record.head ++ record.augdata ++ record.initInstrs

/-- What the sum of the reader leaves out of the head. -/
def missing (record : CieLayout) : Nat :=
  (record.lengthField.length - 4) + (record.cieId.length - 4) + record.sizes.length + (record.codeAlign.length - 1) +
    (record.dataAlign.length - 1) + (record.returnAddrReg.length - 1) + record.augLength.length

theorem length_head (record : CieLayout) : record.head.length = 14 + record.letters.length + record.missing := by
  have h1 := record.length_le
  have h2 := record.cieId_le
  have h3 := record.codeAlign.length_pos
  have h4 := record.dataAlign.length_pos
  have h5 := record.returnAddrReg.length_pos
  simp only [head, cString, missing, List.length_append, List.length_map, List.length_cons, List.length_nil,
    Numeral.length_bytes]
  omega

/-- The numeral of the data's length at least. -/
theorem missing_pos (record : CieLayout) : 0 < record.missing := by
  have h := record.augLength.length_pos
  unfold missing
  omega

/-- The CIE lies in a section at the offset libdwarf gives, and libdwarf gives what it says. -/
structure Given (record : CieLayout) (sec : List UInt8) (dcie : DwarfCie) : Prop where
  lies : record.bytes <+: sec.drop dcie.cieOff.toNat
  size : sec.length < 2 ^ 64
  version : dcie.version = record.version
  augmenter : dcie.augmenter = 'z' :: record.letters
  codeAlign : dcie.codeAlign.toNat = record.codeAlign.value
  dataAlign : dcie.dataAlign.toInt = record.dataAlign.signedValue
  returnAddrRuleNum : dcie.returnAddrRuleNum.toNat = record.returnAddrReg.value
  augdata : dcie.augdata = record.augdata

def dataAddress (record : CieLayout) (ehAddress : UInt64) (dcie : DwarfCie) : UInt64 :=
  ehAddress + dcie.cieOff + UInt64.ofNat record.head.length

theorem Given.missing_lt {record : CieLayout} {sec : List UInt8} {dcie : DwarfCie} (h : record.Given sec dcie) :
    record.missing < 2 ^ 64 := by
  have hle := h.lies.length_le
  have hsize := h.size
  unfold bytes at hle
  simp only [List.length_append, List.length_drop, record.length_head] at hle
  omega

end CieLayout

/-- **What the sum leaves out.** -/
theorem cieAugdataAddress_add (ehAddress : UInt64) {sec : List UInt8} {dcie : DwarfCie} {record : CieLayout}
    (h : record.Given sec dcie) :
    cieAugdataAddress ehAddress dcie + UInt64.ofNat record.missing = record.dataAddress ehAddress dcie := by
  unfold cieAugdataAddress CieLayout.dataAddress
  rw [record.length_head, h.augmenter]
  have hlen : UInt64.ofNat (14 + record.letters.length + record.missing) =
      12 + UInt64.ofNat (('z' :: record.letters).length + 1) + UInt64.ofNat record.missing := by
    rw [List.length_cons, show (12 : UInt64) = UInt64.ofNat 12 from rfl, ← UInt64.ofNat_add, ← UInt64.ofNat_add]
    congr 1
    omega
  rw [hlen]
  grind

/-- A CIE whose pc-relative personality pointer is decoded `m` further on. -/
def CIE.moved (m : UInt64) (cie : CIE) : CIE :=
  { cie with
    personalityFunction :=
      if cie.augmentationFlags.personality = true ∧ peApplication cie.personalityPointerEncoding = .pcrel then
        cie.personalityFunction + m
      else cie.personalityFunction }

section Moved
variable {config : ElfBitwidth} {data : List UInt8} {address m : UInt64}

theorem decode_moved {len : Int} {encoding : UInt8} {pointer : UInt64} {k : Nat}
    (h : decodeEHPointer config data len address encoding = .ok (pointer, k)) :
    decodeEHPointer config data len (address + m) encoding =
      .ok (if peApplication encoding = .pcrel then pointer + m else pointer, k) := by
  obtain ⟨stored, hstored, h⟩ := bind_eq_ok.mp h
  unfold decodeEHPointer
  rw [hstored]
  cases happ : peApplication encoding <;> rw [happ] at h <;> cases h
  · simp
  · simp [UInt64.add_assoc]

theorem takeLetter_moved {cie : CIE} {off : Nat} {c : Char} {r : CIE × Nat}
    (h : takeLetter config data address cie off c = .ok r) :
    takeLetter config data (address + m) (cie.moved m) off c = .ok (r.1.moved m, r.2) := by
  unfold takeLetter at h ⊢
  split at h
  · cases h
    rfl
  · cases h
    rfl
  · obtain ⟨personality, hp, h⟩ := bind_eq_ok.mp h
    cases h
    have hmoved := decode_moved (m := m) hp
    have hcomm : address + UInt64.ofNat (off + 1) + m = address + m + UInt64.ofNat (off + 1) := by grind
    rw [hcomm] at hmoved
    rw [hmoved]
    simp [CIE.moved]
  · cases h
    rfl
  · cases h
    rfl

theorem letters_moved {letters : List Char} {st r : CIE × Nat}
    (h : letters.foldlM (parseLetter config data address) st = .ok r) :
    letters.foldlM (parseLetter config data (address + m)) (st.1.moved m, st.2) = .ok (r.1.moved m, r.2) := by
  induction letters generalizing st with
  | nil =>
    cases h
    rfl
  | cons c letters ih =>
    rw [List.foldlM_cons] at h ⊢
    obtain ⟨st1, h1, h⟩ := bind_eq_ok.mp h
    obtain ⟨u, hlt, htake⟩ := bind_eq_ok.mp h1
    have hstep : parseLetter config data (address + m) (st.1.moved m, st.2) c = .ok (st1.1.moved m, st1.2) := by
      unfold parseLetter
      rw [assert_of (assert_ok hlt), bind_ok]
      exact takeLetter_moved htake
    rw [hstep, bind_ok]
    exact ih h

/-- **An address `m` further on** moves a pc-relative personality pointer by `m`, and nothing else. -/
theorem parse_moved {cie cie' : CIE} {letters : List Char} (hnone : cie.augmentationFlags = .none)
    (h : parseAugmentationStringAndData config cie letters data address = .ok cie') :
    parseAugmentationStringAndData config cie letters data (address + m) = .ok (cie'.moved m) := by
  obtain ⟨st, hst, h⟩ := bind_eq_ok.mp h
  cases h
  have hoff : ¬ (cie.augmentationFlags.personality = true ∧ peApplication cie.personalityPointerEncoding = .pcrel) := by
    rw [hnone]
    simp [AugmentFlags.none]
  have hstart : cie.moved m = cie := by
    unfold CIE.moved
    rw [if_neg hoff]
  have hmoved := letters_moved (m := m) hst
  rw [hstart] at hmoved
  unfold parseAugmentationStringAndData
  rw [hmoved]
  rfl

end Moved

/-- **The sum is never the address of the data**, and a pc-relative personality pointer is never the one the file means. -/
theorem not_cieAugdataAddress {config : ElfBitwidth} {ehAddress : UInt64} {sec : List UInt8} {dcie : DwarfCie}
    {record : CieLayout} (h : record.Given sec dcie) :
    cieAugdataAddress ehAddress dcie ≠ record.dataAddress ehAddress dcie ∧
      ∀ st st' loaded meant, readCIE config ehAddress st dcie = .ok st' → st'.1.getLast? = some loaded →
        loaded.cie.augmentationFlags.personality = true → peApplication loaded.cie.personalityPointerEncoding = .pcrel →
        parseAugmentationStringAndData config dcie.toCIE dcie.augmenter dcie.augdata (record.dataAddress ehAddress dcie) =
          .ok meant →
        loaded.cie.personalityFunction ≠ meant.personalityFunction := by
  have hne : UInt64.ofNat record.missing ≠ 0 := by
    intro hzero
    have hnat := congrArg UInt64.toNat hzero
    rw [UInt64.toNat_ofNat_of_lt' h.missing_lt] at hnat
    exact absurd hnat (Nat.ne_of_gt record.missing_pos)
  have hmoves (x : UInt64) : x ≠ x + UInt64.ofNat record.missing := by
    intro heq
    exact hne (by grind)
  rw [← cieAugdataAddress_add ehAddress h]
  refine ⟨hmoves _, ?_⟩
  intro st st' loaded meant hread hloaded hpersonality hpcrel hmeant
  obtain ⟨_, -, hread⟩ := bind_eq_ok.mp hread
  obtain ⟨cie, hparse, hread⟩ := bind_eq_ok.mp hread
  obtain ⟨instrs, -, hread⟩ := bind_eq_ok.mp hread
  obtain ⟨rules, -, hread⟩ := bind_eq_ok.mp hread
  cases hread
  rw [List.getLast?_concat] at hloaded
  cases hloaded
  rw [parse_moved rfl hparse] at hmeant
  cases hmeant
  have hpointer : (cie.moved (UInt64.ofNat record.missing)).personalityFunction =
      cie.personalityFunction + UInt64.ofNat record.missing := if_pos ⟨hpersonality, hpcrel⟩
  rw [hpointer]
  exact hmoves _

def personalityLayout : CieLayout where
  lengthField := [22, 0, 0, 0]
  cieId := [0, 0, 0, 0]
  version := 1
  letters := ['P']
  sizes := []
  codeAlign := .ofNat 1
  dataAlign := .ofInt (-8)
  returnAddrReg := .ofNat 16
  augLength := .ofNat 5
  augdata := [0x1b, 0x20, 0, 0, 0]
  initInstrs := [0, 0, 0, 0]
  length_le := by decide
  cieId_le := by decide

def personalityCie : DwarfCie where
  version := 1
  augmenter := ['z', 'P']
  codeAlign := 1
  dataAlign := -8
  returnAddrRuleNum := 16
  initInstr := [0, 0, 0, 0]
  initInstrLen := 4
  augdata := [0x1b, 0x20, 0, 0, 0]
  cieOff := 0

theorem personalityLayout_given : personalityLayout.Given personalityLayout.bytes personalityCie where
  lies := List.prefix_refl _
  size := by
    rw [CieLayout.bytes, List.length_append, List.length_append, CieLayout.length_head]
    decide +kernel
  version := rfl
  augmenter := rfl
  codeAlign := (Numeral.value_ofNat 1).symm
  dataAlign := (show personalityCie.dataAlign.toInt = -8 by decide).trans (Numeral.signedValue_ofInt (-8)).symm
  returnAddrRuleNum := (Numeral.value_ofNat 16).symm
  augdata := rfl

/-- The address is one short, and so is the pointer. -/
theorem not_cieAugdataAddress_personality :
    cieAugdataAddress 0x1000 personalityCie ≠ personalityLayout.dataAddress 0x1000 personalityCie ∧
      ∀ st st' loaded meant, readCIE .elf64 0x1000 st personalityCie = .ok st' → st'.1.getLast? = some loaded →
        loaded.cie.augmentationFlags.personality = true → peApplication loaded.cie.personalityPointerEncoding = .pcrel →
        parseAugmentationStringAndData .elf64 personalityCie.toCIE personalityCie.augmenter personalityCie.augdata
          (personalityLayout.dataAddress 0x1000 personalityCie) = .ok meant →
        loaded.cie.personalityFunction ≠ meant.personalityFunction :=
  not_cieAugdataAddress personalityLayout_given

/-- Not every CIE that passes the assertions gets the address of its data. -/
theorem cieAugdataAddress_short : ¬ ∀ (ehAddress : UInt64) (sec : List UInt8) (dcie : DwarfCie) (record : CieLayout),
    record.Given sec dcie → CieAsserted dcie → cieAugdataAddress ehAddress dcie = record.dataAddress ehAddress dcie := by
  intro h
  have heq := h 0x1000 _ _ _ personalityLayout_given (by decide)
  revert heq
  decide +kernel

end Katana
