/-
  Katana.Lsda.Read — reading `.gcc_except_table` back (parseExceptFrame in exceptTable.c).

  `data` is the whole section and `offset` a position in it. The end of the action table is written
  nowhere: it is taken to be the end of the last record that some call site leads to.
-/
import Katana.Lsda.Build

namespace Katana

open Lib

def cInt (z : Int) : Int := Int.bmod z (2 ^ 32)

/-- A pointer at `offset` of the section. -/
def decodeAt (config : ElfBitwidth) (data : List UInt8) (sectionAddress : UInt64) (offset : Nat) (encoding : UInt8) :
    Except Fault (UInt64 × Nat) :=
  decodeEHPointer config (data.drop offset) (cInt (data.length - offset)) (sectionAddress + UInt64.ofNat offset) encoding

/-! ## readCallSiteTable -/

def readCallSite (config : ElfBitwidth) (data : List UInt8) (sectionAddress : UInt64) (callSiteFormat : UInt8)
    (offset : Nat) :
    Except Fault (CallSiteRecord × Nat) := do
  if data.length < offset then .error (.death "Malformed gcc_except_table\n")
  else
    let (position, n1) ← decodeAt config data sectionAddress offset callSiteFormat
    let (length, n2) ← decodeAt config data sectionAddress (offset + n1) callSiteFormat
    let (landingPadPosition, n3) ← decodeAt config data sectionAddress (offset + n1 + n2) callSiteFormat
    let (firstAction, n4) ← decodeAt config data sectionAddress (offset + n1 + n2 + n3) callSiteFormat
    -- biased by one, so that zero is no action; still a byte offset into the action table
    .ok (⟨position, length, landingPadPosition, firstAction - 1, firstAction != 0⟩, n1 + n2 + n3 + n4)

/-- The loop of `readCallSiteTable`; `size` is `callSiteTableSize-i`. -/
def readCallSites (config : ElfBitwidth) (data : List UInt8) (sectionAddress : UInt64) (callSiteFormat : UInt8) :
    Nat → Nat → Nat → Except Fault (List CallSiteRecord)
  | _, _, 0 => .ok []
  | 0, _, _ + 1 => .error .undefined
  | fuel + 1, offset, size + 1 => do
    let (callSite, n) ← readCallSite config data sectionAddress callSiteFormat offset
    if size + 1 < n then .error (.death "Call site table in .gcc_except_frame was not properly formatted\n")
    else
      let rest ← readCallSites config data sectionAddress callSiteFormat fuel (offset + n) (size + 1 - n)
      .ok (callSite :: rest)

def readCallSiteTable (config : ElfBitwidth) (data : List UInt8) (sectionAddress : UInt64) (offset callSiteTableSize : Nat)
    (callSiteFormat : UInt8) : Except Fault (List CallSiteRecord) := do
  let callSites ← readCallSites config data sectionAddress callSiteFormat (data.length + 1) offset callSiteTableSize
  if data.length < offset + callSiteTableSize then
    .error (.death "Malformed LSDA in .gcc_except_table, ran out of space while reading the call site table\n")
  else .ok callSites

/-! ## readActionTable -/

/-- `actionTable`, `actionOffsets` and `highestActionOffset`. -/
structure ReadActions where
  actionTable : List ActionRecord
  actionOffsets : List Nat
  highestActionOffset : Nat
  deriving DecidableEq, Repr

/-- `actionTable[previousActionIdx].nextAction=actionIdx`, if there is a previous action. -/
def ReadActions.link (st : ReadActions) (previousActionIdx : Option Nat) (actionIdx : Nat) : ReadActions :=
  match previousActionIdx with
  | none => st
  | some i => { st with actionTable := st.actionTable.modify i fun a => { a with nextAction := UInt64.ofNat actionIdx } }

/-- One record: the type index, the displacement to the next record (zero for none) and the bytes read. -/
def readAction (data : List UInt8) (position : Nat) : Except Fault (Nat × Int × Nat) := do
  let (typeIdx, numBytesOut) ← leb128ToUWord (data.drop position)
  let (nextRecordPtr, numBytesOut2) ← leb128ToSWord (data.drop (position + numBytesOut))
  -- made relative to the start of the record
  let nextRecordPtr := if nextRecordPtr ≠ 0 then nextRecordPtr + numBytesOut else nextRecordPtr
  .ok (typeIdx, nextRecordPtr, numBytesOut + numBytesOut2)

/-- The record as `readActionTable` stores it, `nextAction` not yet known. -/
def newAction (typeIdx : Nat) (nextRecordPtr : Int) : ActionRecord where
  typeFilterIndex := if typeIdx = 0 then -1 else Int32.ofNat (typeIdx - 1)
  nextAction := 0
  hasNextAction := nextRecordPtr ≠ 0

/-- Follows a chain from the record `actionOffset` into the table at `offset`; gives the index of that
record. A record that was read before ends the chain. -/
def followChain (data : List UInt8) (offset : Nat) :
    Nat → ReadActions → Nat → Option Nat → Except Fault (ReadActions × Nat)
  | 0, _, _, _ => .error .undefined
  | fuel + 1, st, actionOffset, previousActionIdx =>
    match st.actionOffsets.findIdx? (· == actionOffset) with
    | some actionIdx => .ok (st.link previousActionIdx actionIdx, actionIdx)
    | none => do
      let (typeIdx, nextRecordPtr, n) ← readAction data ((offset + actionOffset) % 2 ^ 64)
      let actionIdx := st.actionTable.length
      let st := ReadActions.link ⟨st.actionTable ++ [newAction typeIdx nextRecordPtr], st.actionOffsets ++ [actionOffset],
        max st.highestActionOffset (actionOffset + n)⟩ previousActionIdx actionIdx
      if nextRecordPtr = 0 then .ok (st, actionIdx)
      else
        let (st, _) ← followChain data offset fuel st (UInt64.ofInt (actionOffset + nextRecordPtr)).toNat (some actionIdx)
        .ok (st, actionIdx)

def readChain (data : List UInt8) (offset : Nat) (acc : ReadActions × List CallSiteRecord) (callSite : CallSiteRecord) :
    Except Fault (ReadActions × List CallSiteRecord) := do
  let (st, callSites) := acc
  if callSite.hasAction then
    let (st, actionIdx) ← followChain data offset (data.length + 1) st callSite.firstAction.toNat none
    .ok (st, callSites ++ [{ callSite with firstAction := UInt64.ofNat actionIdx }])
  else .ok (st, callSites ++ [callSite])

def readActionTable (data : List UInt8) (offset : Nat) (callSiteTable : List CallSiteRecord) :
    Except Fault (ReadActions × List CallSiteRecord) :=
  callSiteTable.foldlM (readChain data offset) (⟨[], [], 0⟩, [])

/-! ## readTypeTable -/

/-- The entries at `ttOffset`, `ttOffset-ttEntrySize` and so on, while they are not negative. -/
def readTypeTable (config : ElfBitwidth) (data : List UInt8) (sectionAddress : UInt64) (offset ttBase : Nat)
    (ttEncoding : UInt8) :
    Except Fault (List UInt64) := do
  if ttEncoding ≠ ehPeOmit then
    let ttEntrySize ← getPointerSizeFromEHPointerEncoding config ttEncoding
    let ttOffset := Int.bmod (ttBase - ttEntrySize - offset) (2 ^ 64)
    let count := if 0 ≤ ttOffset then ttOffset.toNat / ttEntrySize + 1 else 0
    (List.range count).mapM fun ttIdx => do
      let position := offset + (ttOffset.toNat - ttIdx * ttEntrySize)
      let (type, _) ← decodeEHPointer config (data.drop position) ttEntrySize
        (sectionAddress + UInt64.ofNat position) ttEncoding
      .ok type
  else .ok []

/-! ## parseExceptFrame -/

/-- What comes before the call-site table; `offset` is where that starts. -/
structure LsdaHeader where
  lpStart : UInt64
  ttEncoding : UInt8
  ttBase : Nat
  callSiteFormat : UInt8
  callSiteTableSize : Nat
  offset : Nat
  deriving DecidableEq, Repr

def byteAt (data : List UInt8) (offset : Nat) : Except Fault UInt8 :=
  match data[offset]? with
  | some b => .ok b
  | none => .error .undefined

def parseLsdaHeader (config : ElfBitwidth) (data : List UInt8) (sectionAddress : UInt64) (offset : Nat) :
    Except Fault LsdaHeader := do
  let lpStartFormat ← byteAt data offset
  let (lpStart, n1) ←
    if lpStartFormat ≠ ehPeOmit then decodeAt config data sectionAddress (offset + 1) lpStartFormat else .ok (0, 0)
  let offset := offset + 1 + n1
  let ttEncoding ← byteAt data offset
  let (ttBase, n2) ←
    if ttEncoding ≠ ehPeOmit then do
      let d ← decodeLEB128 (data.drop (offset + 1)) false
      assert (d.numBytes ≤ 8)
      -- made relative to the section
      .ok ((leNat (d.result.take d.numBytes) + (offset + 1 + d.numSeptetsRead)) % 2 ^ 64, d.numSeptetsRead)
    else .ok (0, 0)
  let offset := offset + 1 + n2
  let callSiteFormat ← byteAt data offset
  let (callSiteTableSize, n3) ← decodeAt config data sectionAddress (offset + 1) callSiteFormat
  let offset := offset + 1 + n3
  if data.length < offset then
    .error (.death "Malformed LSDA in .gcc_except_table, ran out of space while reading the header\n")
  else .ok ⟨lpStart, ttEncoding, ttBase, callSiteFormat, callSiteTableSize.toNat, offset⟩

/-- The header, the call sites and the actions of the LSDA at `offset`, and where its action table ends. -/
def parseTables (config : ElfBitwidth) (data : List UInt8) (sectionAddress : UInt64) (offset : Nat) :
    Except Fault (LsdaHeader × List CallSiteRecord × List ActionRecord × Nat) := do
  let header ← parseLsdaHeader config data sectionAddress offset
  let callSites ← readCallSiteTable config data sectionAddress header.offset header.callSiteTableSize header.callSiteFormat
  let offset := header.offset + header.callSiteTableSize
  let (st, callSites) ← readActionTable data offset callSites
  .ok (header, callSites, st.actionTable, offset + st.highestActionOffset)

/-- One turn of the loop of `parseExceptFrame`. -/
def parseLSDA (config : ElfBitwidth) (data : List UInt8) (sectionAddress lsdaPointer : UInt64) : Except Fault LSDA := do
  let offset := (lsdaPointer - sectionAddress).toNat
  if data.length < offset then
    .error (.death "Failed to parse except table, request for LSDA pointer outside allowable range\n")
  else
    let (header, callSites, actions, offset) ← parseTables config data sectionAddress offset
    if data.length < offset then
      .error (.death "Malformed LSDA in .gcc_except_table, ran out of space while reading the action table\n")
    else
      let types ← readTypeTable config data sectionAddress offset header.ttBase header.ttEncoding
      if header.ttEncoding ≠ ehPeOmit ∧ data.length < header.ttBase then
        .error (.death "Malformed LSDA in .gcc_except_table\n")
      else .ok ⟨header.lpStart, callSites, actions, header.ttEncoding, types⟩

def parseExceptFrame (config : ElfBitwidth) (data : List UInt8) (sectionAddress : UInt64) (lsdaPointers : List UInt64) :
    Except Fault (List LSDA) :=
  if data.length = 0 then .ok [] else lsdaPointers.mapM (parseLSDA config data sectionAddress)

end Katana
