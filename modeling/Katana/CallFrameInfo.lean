/-
  Katana.CallFrameInfo — writing `.eh_frame`, `.debug_frame` and `.eh_frame_hdr` (callFrameInfo.c).

  A record is a length, an id or a CIE pointer, and parts of variable size; the length is summed up
  from the parts before they are written. Pc-relative pointers are encoded against the location the
  writer expects them to get.
-/
import Katana.Dwarf.Instr
import Katana.Lsda.Build

namespace Katana

open Lib

/-! ## The frame information -/

structure AugmentFlags where
  dataPresent : Bool
  fdeEnc : Bool
  fdeLsda : Bool
  personality : Bool
  deriving DecidableEq, Repr

def AugmentFlags.none : AugmentFlags := ⟨false, false, false, false⟩

structure CIE where
  initialInstructions : List RegInstruction
  dataAlign : Int64
  codeAlign : UInt64
  returnAddrRuleNum : UInt16
  version : UInt8
  addressSize : Int32
  segmentSize : Int32
  augmentationFlags : AugmentFlags
  fdePointerEncoding : UInt8
  fdeLSDAPointerEncoding : UInt8
  personalityPointerEncoding : UInt8
  personalityFunction : UInt64
  deriving DecidableEq, Repr

structure FDE where
  /-- The CIE the FDE points to, by its number: both readers give the `idx` of a CIE its position. -/
  cie : Nat
  instructions : List RegInstruction
  lowpc : Int32
  highpc : Int32
  hasLSDAPointer : Bool
  lsdaIdx : UInt64
  /-- Its place in the section that was read, or in the script. -/
  idx : Int32
  deriving DecidableEq, Repr

structure CallFrameInfo where
  fdes : List FDE
  cies : List CIE
  isEHFrame : Bool
  ehAddress : UInt64
  ehHdrAddress : UInt64
  exceptTableAddress : UInt64
  hdrTableEncoding : UInt8
  exceptTable : Option (List LSDA)
  deriving DecidableEq, Repr

def addrOfInt (x : Int32) : UInt64 := x.toInt64.toUInt64

/-! ## CIEs -/

namespace CIE

/-- What `strcat` builds: `z`, and then the letters in a fixed order. -/
def augmentationString (cie : CIE) : List Char :=
  if cie.augmentationFlags.dataPresent then
    'z' :: ((if cie.augmentationFlags.personality then ['P'] else []) ++
      (if cie.augmentationFlags.fdeLsda then ['L'] else []) ++
      (if cie.augmentationFlags.fdeEnc then ['R'] else []))
  else []

end CIE

def cString (s : List Char) : List UInt8 := s.map Char.toUInt8 ++ [0]

/-- The bytes of the personality pointer with its encoding. Past 32 bits four bytes are copied and eight
counted; `stale` is what the other four hold. -/
def personalityData (config : ElfBitwidth) (cie : CIE) (pointerLocation : UInt64) (stale : UInt32) :
    Except Fault (List UInt8) := do
  if cie.personalityFunction &&& 0xFFFFFFFF00000000 = 0 then
    let (personalityFunction, numBytesOut) ←
      encodeEHPointerFromEncoding config cie.personalityFunction cie.personalityPointerEncoding pointerLocation
    .ok (cie.personalityPointerEncoding :: toLE numBytesOut personalityFunction.toNat)
  else
    -- DW_EH_PE_udata8
    .ok (0x04 :: (toLE 4 cie.personalityFunction.toNat ++ toLE 4 stale.toNat))

/-- `before` is the length of what is expected before the augmentation data. -/
def cieAugmentationData (config : ElfBitwidth) (cie : CIE) (before : UInt64) (stale : UInt32) :
    Except Fault (List UInt8) := do
  let personality ←
    if cie.augmentationFlags.personality then personalityData config cie (before + 1) stale else .ok []
  .ok (personality ++ (if cie.augmentationFlags.fdeLsda then [cie.fdeLSDAPointerEncoding] else []) ++
    (if cie.augmentationFlags.fdeEnc then [cie.fdePointerEncoding] else []))

def CIE.codeAlignLEB (cie : CIE) : List UInt8 := uintToLEB128 (cie.codeAlign.toNat % 2 ^ 32)

def CIE.dataAlignLEB (cie : CIE) : List UInt8 := intToLEB128 (Int.bmod cie.dataAlign.toInt (2 ^ 32))

def CIE.returnAddrRegLEB (cie : CIE) : List UInt8 := uintToLEB128 cie.returnAddrRuleNum.toNat

/-- The sizes the CIE's length and its pointer's location have in common: those of the string and the three LEBs. -/
def CIE.headSizes (cie : CIE) : Nat :=
  (cString cie.augmentationString).length + cie.codeAlignLEB.length + cie.dataAlignLEB.length + cie.returnAddrRegLEB.length

/-- Where the augmentation data of a CIE at `start` is expected: after the 9 bytes up to the version and these. -/
def CIE.expectedDataAddress (cie : CIE) (ehAddress : UInt64) (start : Nat) : UInt64 :=
  ehAddress + UInt64.ofNat start + 9 + UInt64.ofNat cie.headSizes

/-- The augmentation data of a CIE at `start`, if it has any. -/
def cieData (config : ElfBitwidth) (cfi : CallFrameInfo) (stale : UInt32) (cie : CIE) (start : Nat) :
    Except Fault (List UInt8) :=
  if cie.augmentationFlags.dataPresent then
    cieAugmentationData config cie (cie.expectedDataAddress cfi.ehAddress start) stale
  else .ok []

def augmentationLengthLEB (flags : AugmentFlags) (data : List UInt8) : List UInt8 :=
  if flags.dataPresent then uintToLEB128 data.length else []

/-- `paddingNeeded` after a record of `length` bytes; a modulus of zero is undefined, and a padding that
is negative as an int cannot be allocated. -/
def paddingFor (length : Nat) (addressSize : Int32) : Except Fault Nat := do
  let m := addressSize.toUInt32.toNat
  defined (m ≠ 0)
  let r := length % 2 ^ 32 % m
  if r = 0 then .ok 0
  else if 2 ^ 31 ≤ m - r then .error (.death "No enough memory at %s:line %d ")
  else .ok (m - r)

/-- Several `addToGrowingBuffer`s in a row. -/
def writeAll (buf : GrowingBuffer) (parts : List (List UInt8)) : Except Fault GrowingBuffer :=
  parts.foldlM addToGrowingBuffer buf

def cieId (isEHFrame : Bool) : Nat := if isEHFrame then 0 else 0xffffffff

def buildCIERawData (config : ElfBitwidth) (cfi : CallFrameInfo) (stale : UInt32) (cie : CIE) (buf : GrowingBuffer) :
    Except Fault GrowingBuffer := do
  assert (cie.addressSize.toInt < 256)
  assert (cie.segmentSize.toInt < 256)
  let cieAugmentationData ← cieData config cfi stale cie buf.len
  let augmentationDataLength := augmentationLengthLEB cie.augmentationFlags cieAugmentationData
  let rawInstructions ← serializeDwarfRegInstructions cie.initialInstructions
  let length := 5 + cie.headSizes + cieAugmentationData.length + augmentationDataLength.length +
    rawInstructions.instrs.length + if 4 ≤ cie.version.toNat then 2 else 0
  let paddingNeeded ← paddingFor length cie.addressSize
  writeAll buf [
    toLE 4 (length + paddingNeeded) ++ toLE 4 (cieId cfi.isEHFrame) ++ [cie.version],
    cString cie.augmentationString,
    if 4 ≤ cie.version.toNat then [cie.addressSize.toInt8.toUInt8, cie.segmentSize.toInt8.toUInt8] else [],
    cie.codeAlignLEB, cie.dataAlignLEB, cie.returnAddrRegLEB,
    augmentationDataLength, cieAugmentationData, rawInstructions.instrs, List.replicate paddingNeeded 0]

/-! ## FDEs -/

/-- The initial location with its size, and the size of the address range. -/
def fdeLocation (config : ElfBitwidth) (cfi : CallFrameInfo) (cie : CIE) (fde : FDE) (pointerLocation : UInt64) :
    Except Fault (UInt64 × Nat × Nat) := do
  if cfi.isEHFrame then
    let (initialLocation, n) ←
      encodeEHPointerFromEncoding config (addrOfInt fde.lowpc) cie.fdePointerEncoding pointerLocation
    .ok (initialLocation, n, 4)
  else
    -- the assertion on the range's size covers both
    assert (0 ≤ cie.addressSize.toInt ∧ cie.addressSize.toInt ≤ 8)
    .ok (addrOfInt fde.lowpc, cie.addressSize.toInt.toNat, cie.addressSize.toInt.toNat)

/-- The LSDA pointer's bytes, where the CIE announces one; an FDE without one then is logged as an error, which
ends the program. -/
def fdeAugmentationData (config : ElfBitwidth) (cie : CIE) (fde : FDE) (lsdaPointers : List UInt64) (address : UInt64) :
    Except Fault (List UInt8) := do
  if cie.augmentationFlags.dataPresent ∧ cie.augmentationFlags.fdeLsda then
    if fde.hasLSDAPointer then
      let some pointer := lsdaPointers[fde.lsdaIdx.toNat]? | .error .undefined
      let (encodedLSDAPointer, n) ← encodeEHPointerFromEncoding config pointer cie.fdeLSDAPointerEncoding address
      .ok (toLE n encodedLSDAPointer.toNat)
    else .error (.death "FDE doesn't have an LSDA pointer even though its CIE says it should\n")
  else .ok []

def buildFDERawData (config : ElfBitwidth) (cfi : CallFrameInfo) (cieOffsets : List Nat) (lsdaPointers : List UInt64)
    (fde : FDE) (buf : GrowingBuffer) : Except Fault GrowingBuffer := do
  let some cie := cfi.cies[fde.cie]? | .error .undefined
  let rawInstructions ← serializeDwarfRegInstructions fde.instructions
  let some cieOffset := cieOffsets[fde.cie]? | .error .undefined
  -- in .eh_frame the CIE pointer is relative to its own position
  let cieOffset := if cfi.isEHFrame then buf.len - cieOffset + 4 else cieOffset
  let (initialLocation, initialLocationByteLen, addressRangeByteLen) ←
    fdeLocation config cfi cie fde (cfi.ehAddress + UInt64.ofNat buf.len + 8)
  let range := fde.highpc.toInt - fde.lowpc.toInt
  defined (-2 ^ 31 ≤ range ∧ range < 2 ^ 31)
  -- one byte is kept for the length of the augmentation data
  let augmentationData ← fdeAugmentationData config cie fde lsdaPointers
    (cfi.ehAddress + UInt64.ofNat buf.len + 8 + UInt64.ofNat (initialLocationByteLen + addressRangeByteLen + 1))
  let augmentationDataLength := augmentationLengthLEB cie.augmentationFlags augmentationData
  let length := 4 + initialLocationByteLen + addressRangeByteLen + augmentationDataLength.length + augmentationData.length +
    rawInstructions.instrs.length
  let paddingNeeded ← paddingFor length cie.addressSize
  writeAll buf [
    toLE 4 (length + paddingNeeded) ++ toLE 4 cieOffset,
    toLE initialLocationByteLen initialLocation.toNat,
    toLE addressRangeByteLen (UInt64.ofInt range).toNat,
    augmentationDataLength, augmentationData, rawInstructions.instrs, List.replicate paddingNeeded 0]

/-! ## The section -/

/-- The section's bytes with `cieOffsets` and `fdeOffsets`. -/
structure FrameSection where
  buf : GrowingBuffer
  cieOffsets : List Nat
  fdeOffsets : List Nat
  deriving DecidableEq, Repr

def addCIE (config : ElfBitwidth) (cfi : CallFrameInfo) (stale : Nat → UInt32) (sec : FrameSection) (cie : CIE) :
    Except Fault FrameSection := do
  let buf ← buildCIERawData config cfi (stale sec.cieOffsets.length) cie sec.buf
  .ok { sec with buf, cieOffsets := sec.cieOffsets ++ [sec.buf.len] }

def addFDE (config : ElfBitwidth) (cfi : CallFrameInfo) (lsdaPointers : List UInt64) (sec : FrameSection) (fde : FDE) :
    Except Fault FrameSection := do
  let buf ← buildFDERawData config cfi sec.cieOffsets lsdaPointers fde sec.buf
  .ok { sec with buf, fdeOffsets := sec.fdeOffsets ++ [sec.buf.len] }

/-- The buffer starts out with 10000 bytes. -/
def emptySection : FrameSection := ⟨⟨[], 10000, by simp, by norm_num⟩, [], []⟩

def buildFrameSection (config : ElfBitwidth) (cfi : CallFrameInfo) (stale : Nat → UInt32) (lsdaPointers : List UInt64) :
    Except Fault FrameSection := do
  let sec ← cfi.cies.foldlM (addCIE config cfi stale) emptySection
  cfi.fdes.foldlM (addFDE config cfi lsdaPointers) sec

/-! ## .eh_frame_hdr -/

structure EhFrameHdrTableEntry where
  initialLocation : Int32
  fdeAddress : Int32
  deriving DecidableEq, Repr

/-- The difference is one of ints. -/
def compareEhFrameHdrTableEntries (a b : EhFrameHdrTableEntry) : Except Fault Int := do
  let d := a.initialLocation.toInt - b.initialLocation.toInt
  defined (-2 ^ 31 ≤ d ∧ d < 2 ^ 31)
  .ok d

/-- Puts an element before the first one it does not come after. -/
def insertSorted {α : Type} (cmp : α → α → Except Fault Int) (a : α) : List α → Except Fault (List α)
  | [] => .ok [a]
  | b :: l => do
    let c ← cmp a b
    if c ≤ 0 then .ok (a :: b :: l)
    else
      let l ← insertSorted cmp a l
      .ok (b :: l)

/-- `qsort`, free to compare any two elements: undefined unless all comparisons are defined. -/
def qsort {α : Type} (cmp : α → α → Except Fault Int) (l : List α) : Except Fault (List α) := do
  defined (∀ a ∈ l, ∀ b ∈ l, (cmp a b).isOk)
  l.foldrM (insertSorted cmp) []

def hdrTableEntry (cfi : CallFrameInfo) (fde : FDE) (fdeOffset : Nat) : EhFrameHdrTableEntry where
  initialLocation := (addrOfInt fde.lowpc - cfi.ehHdrAddress).toInt64.toInt32
  fdeAddress := (cfi.ehAddress + UInt64.ofNat fdeOffset - cfi.ehHdrAddress).toInt64.toInt32

def hdrEntryBytes (entry : EhFrameHdrTableEntry) : List UInt8 :=
  toLE 4 entry.initialLocation.toUInt32.toNat ++ toLE 4 entry.fdeAddress.toUInt32.toNat

def hdrHeader (cfi : CallFrameInfo) (ehFramePtr : UInt64) : List UInt8 :=
  [1, 0x1b, 0x03, cfi.hdrTableEncoding] ++ toLE 4 ehFramePtr.toNat ++ toLE 4 cfi.fdes.length

def hdrTable (cfi : CallFrameInfo) (fdeOffsets : List Nat) : List EhFrameHdrTableEntry :=
  List.zipWith (hdrTableEntry cfi) cfi.fdes fdeOffsets

def buildEhFrameHdr (config : ElfBitwidth) (cfi : CallFrameInfo) (fdeOffsets : List Nat) : Except Fault (List UInt8) := do
  -- DW_EH_PE_sdata4 | DW_EH_PE_pcrel
  let (ehFramePtr, numBytesOut) ← encodeEHPointerFromEncoding config cfi.ehAddress 0x1b (cfi.ehHdrAddress + 4)
  assert (numBytesOut = 4)
  let hdrBuf ← addToGrowingBuffer .zero (hdrHeader cfi ehFramePtr)
  let table ← qsort compareEhFrameHdrTableEntries (hdrTable cfi fdeOffsets)
  let hdrBuf ← writeAll hdrBuf (table.map hdrEntryBytes)
  .ok hdrBuf.data

/-! ## buildCallFrameSectionData -/

/-- The sections' bytes; their headers only copy the addresses and lengths. -/
structure CallFrameSectionData where
  ehData : List UInt8
  ehHdrData : List UInt8
  gccExceptTableData : List UInt8
  deriving DecidableEq, Repr

/-- `lsdaPointers` is not set without an exception table, so that no FDE may look one up. -/
def buildLsdaPointers (config : ElfBitwidth) (cfi : CallFrameInfo) : Except Fault ExceptSection :=
  match cfi.exceptTable with
  | some lsdas => if cfi.isEHFrame then buildExceptTableRawData config cfi.exceptTableAddress lsdas else .ok ⟨.zero, []⟩
  | none => .ok ⟨.zero, []⟩

def buildCallFrameSectionData (config : ElfBitwidth) (cfi : CallFrameInfo) (stale : Nat → UInt32) :
    Except Fault CallFrameSectionData := do
  let exceptTable ← buildLsdaPointers config cfi
  let sec ← buildFrameSection config cfi stale exceptTable.lsdaPointers
  let ehHdrData ← if cfi.isEHFrame then buildEhFrameHdr config cfi sec.fdeOffsets else .ok []
  .ok ⟨sec.buf.data, ehHdrData, exceptTable.buf.data⟩

end Katana
