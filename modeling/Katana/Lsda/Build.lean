/-
  Katana.Lsda.Build — writing `.gcc_except_table` (buildExceptTableRawData in exceptTable.c).

  An LSDA is written as a header, its call-site table, its action table and its type table. Actions
  link to one another by index; the bytes link by self-relative displacement, so the writer follows
  each chain of actions and keeps the offset every action got.
-/
import Katana.EhPe
import Katana.GrowingBuffer

namespace Katana

open Lib

/-! ## The tables -/

structure CallSiteRecord where
  position : UInt64
  length : UInt64
  landingPadPosition : UInt64
  /-- Only valid if `hasAction`. -/
  firstAction : UInt64
  hasAction : Bool
  deriving DecidableEq, Repr

structure ActionRecord where
  /-- An index into the type table, or -1 (`TYPE_IDX_MATCH_ALL`). -/
  typeFilterIndex : Int32
  /-- Only valid if `hasNextAction`. -/
  nextAction : UInt64
  hasNextAction : Bool
  deriving DecidableEq, Repr

structure LSDA where
  lpStart : UInt64
  callSiteTable : List CallSiteRecord
  actionTable : List ActionRecord
  ttEncoding : UInt8
  typeTable : List UInt64
  deriving DecidableEq, Repr

/-! ## The action table -/

/-- `typeFilterIndex+1` as a word. -/
def ActionRecord.typeWord (action : ActionRecord) : UInt64 := UInt64.ofInt (action.typeFilterIndex.toInt + 1)

/-- The bytes so far and `actionIdxToOffset`. -/
structure ActionState where
  buf : GrowingBuffer
  actionIdxToOffset : List Nat
  deriving DecidableEq, Repr

/-- The inner loop: writes the chain of actions from `idx` on, up to one that is already written. -/
def writeChain (actionTable : List ActionRecord) : Nat → ActionState → Nat → Except Fault ActionState
  | 0, _, _ => .error .undefined
  | fuel + 1, st, idx => do
    let some action := actionTable[idx]? | .error .undefined
    let actionIdxToOffset := st.actionIdxToOffset.set idx st.buf.len
    defined (action.typeFilterIndex.toInt < 2 ^ 31 - 1)
    let buf ← addUlebToGrowingBuffer st.buf action.typeWord.toNat
    if action.hasNextAction then
      let some target := actionIdxToOffset[action.nextAction.toNat]? | .error .undefined
      if target ≠ 0 ∨ action.nextAction = 0 then
        -- already written: a self-relative offset
        let buf ← addSlebToGrowingBuffer buf (UInt64.ofInt (target - buf.len)).toNat
        .ok ⟨buf, actionIdxToOffset⟩
      else
        let buf ← addToGrowingBuffer buf [1]
        writeChain actionTable fuel ⟨buf, actionIdxToOffset⟩ action.nextAction.toNat
    else
      let buf ← addToGrowingBuffer buf [0]
      .ok ⟨buf, actionIdxToOffset⟩

def writeAction (actionTable : List ActionRecord) (st : ActionState) (j : Nat) : Except Fault ActionState :=
  if st.actionIdxToOffset.getD j 0 ≠ 0 then .ok st
  else writeChain actionTable (actionTable.length + 1) st j

def writeActionTable (actionTable : List ActionRecord) : Except Fault ActionState :=
  (List.range actionTable.length).foldlM (writeAction actionTable) ⟨.zero, List.replicate actionTable.length 0⟩

/-! ## The call-site table -/

def writeCallSite (actionIdxToOffset : List Nat) (buf : GrowingBuffer) (callSite : CallSiteRecord) :
    Except Fault GrowingBuffer := do
  let buf ← addUlebToGrowingBuffer buf callSite.position.toNat
  let buf ← addUlebToGrowingBuffer buf callSite.length.toNat
  let buf ← addUlebToGrowingBuffer buf callSite.landingPadPosition.toNat
  if callSite.hasAction then
    match actionIdxToOffset[callSite.firstAction.toNat]? with
    | none => .error (.death "Invalid firstAction for call site, index is too high\n")
    -- one more than it really is, to tell an offset from no action
    | some offset => addUlebToGrowingBuffer buf (1 + offset)
  else addToGrowingBuffer buf [0]

def writeCallSiteTable (actionIdxToOffset : List Nat) (callSiteTable : List CallSiteRecord) : Except Fault GrowingBuffer :=
  callSiteTable.foldlM (writeCallSite actionIdxToOffset) .zero

/-! ## The type table's base -/

/-- Whether adding up to three to the numeral's value keeps its length. -/
def foundRoom (leb : List UInt8) : Bool :=
  (List.range leb.length).any fun idx =>
    let b := (leb.getD idx 0).toNat
    (b &&& 0x7f != 0x7f && 0 < idx) || b &&& 0x70 != 0x70

/-- The numeral with its last byte marked and a zero byte after it. -/
def padLEB (leb : List UInt8) : List UInt8 :=
  leb.dropLast ++ [UInt8.ofNat ((leb.getLastD 0).toNat ||| 0x80), 0]

/-- The numeral written for the type table's base, and the padding before the table. `before` is the number
of bytes of the LSDA written so far, `tables` those of the two tables with the call-site header. -/
def ttBaseLEB (before tables ttSize : Nat) : Except Fault (List UInt8 × Nat) := do
  let guess := encodeAsLEB128 (toLE 8 (tables + ttSize)) false
  let ttBaseOffsetNumBytes := if foundRoom guess then guess.length else guess.length + 1
  let offsetStartToTTTop := before + ttBaseOffsetNumBytes + tables
  let misalignment := if offsetStartToTTTop % 4 ≠ 0 then 4 - offsetStartToTTTop % 4 else 0
  let ttBaseOffset := offsetStartToTTTop + misalignment + ttSize - before - ttBaseOffsetNumBytes
  let leb := encodeAsLEB128 (toLE 8 ttBaseOffset) false
  if leb.length < ttBaseOffsetNumBytes then
    assert (ttBaseOffsetNumBytes - leb.length = 1)
    .ok (padLEB leb, misalignment)
  else .ok (leb.take ttBaseOffsetNumBytes, misalignment)

/-! ## One LSDA -/

def writeTypeTable (config : ElfBitwidth) (exceptTableAddress : UInt64) (ttEncoding : UInt8) (ttEntrySize : Nat) :
    List (UInt64 × Nat) → GrowingBuffer → Except Fault GrowingBuffer
  | [], buf => .ok buf
  | (type, j) :: entries, buf => do
    let buf ← writeTypeTable config exceptTableAddress ttEncoding ttEntrySize entries buf
    let pointerLocation := exceptTableAddress + UInt64.ofNat buf.len + UInt64.ofNat (j * ttEntrySize)
    let (typeinfo, numBytesOut) ← encodeEHPointerFromEncoding config type ttEncoding pointerLocation
    assert (numBytesOut = ttEntrySize)
    addToGrowingBuffer buf (toLE ttEntrySize typeinfo.toNat)

def writeLSDA (config : ElfBitwidth) (exceptTableAddress : UInt64) (buf : GrowingBuffer) (lsda : LSDA) :
    Except Fault GrowingBuffer := do
  let lsdaStartOffset := buf.len
  let buf ←
    if lsda.lpStart ≠ 0 then do
      let buf ← addToGrowingBuffer buf [0x01]
      addUlebToGrowingBuffer buf lsda.lpStart.toNat
    else addToGrowingBuffer buf [ehPeOmit]
  let buf ← addToGrowingBuffer buf [lsda.ttEncoding]
  let actions ← writeActionTable lsda.actionTable
  let callSiteBuf ← writeCallSiteTable actions.actionIdxToOffset lsda.callSiteTable
  let ttEntrySize ← getPointerSizeFromEHPointerEncoding config lsda.ttEncoding
  let ttSize := ttEntrySize * lsda.typeTable.length
  let callSiteLengthLEB := encodeAsLEB128 (toLE 4 callSiteBuf.len) false
  let tables := 1 + callSiteLengthLEB.length + callSiteBuf.len + actions.buf.len
  -- the sum is of C ints
  defined (tables + ttSize < 2 ^ 31)
  let (ttBaseOffsetLEB, misalignment) ← ttBaseLEB (buf.len - lsdaStartOffset) tables ttSize
  let buf ← if lsda.ttEncoding ≠ ehPeOmit then addToGrowingBuffer buf ttBaseOffsetLEB else .ok buf
  let buf ← addToGrowingBuffer buf [0x01]
  let buf ← addToGrowingBuffer buf callSiteLengthLEB
  let buf ← addToGrowingBuffer buf callSiteBuf.data
  let buf ← addToGrowingBuffer buf actions.buf.data
  if lsda.ttEncoding ≠ ehPeOmit then
    let buf ← addToGrowingBuffer buf (toLE misalignment 0)
    writeTypeTable config exceptTableAddress lsda.ttEncoding ttEntrySize lsda.typeTable.zipIdx buf
  else .ok buf

/-! ## The section -/

structure ExceptSection where
  buf : GrowingBuffer
  lsdaPointers : List UInt64
  deriving DecidableEq, Repr

def writeAlignedLSDA (config : ElfBitwidth) (exceptTableAddress : UInt64) (sec : ExceptSection) (lsda : LSDA) :
    Except Fault ExceptSection := do
  let misalignment := sec.buf.len % 4
  let buf ← if misalignment ≠ 0 then addToGrowingBuffer sec.buf (toLE (4 - misalignment) 0) else .ok sec.buf
  assert (buf.len % 4 = 0)
  let lsdaPointers := sec.lsdaPointers ++ [exceptTableAddress + UInt64.ofNat buf.len]
  let buf ← writeLSDA config exceptTableAddress buf lsda
  .ok ⟨buf, lsdaPointers⟩

def buildExceptTableRawData (config : ElfBitwidth) (exceptTableAddress : UInt64) (lsdas : List LSDA) :
    Except Fault ExceptSection :=
  lsdas.foldlM (writeAlignedLSDA config exceptTableAddress) ⟨.zero, []⟩

end Katana
