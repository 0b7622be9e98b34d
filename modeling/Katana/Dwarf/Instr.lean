/-
  Katana.Dwarf.Instr — DWARF call-frame instructions and expressions and their binary form
  (dwarf_instr.c).

  A `RegInstruction` is the form the patcher works with, a `DwarfInstruction` the one with its
  operands encoded; `serializeDwarfRegInstructions` goes from a list of the first to bytes.
-/
import Katana.GrowingBuffer
import Katana.Register

namespace Katana

open Lib

/-! ## Opcodes -/

/-- `DW_CFA_*`; `other` is any opcode the code gives no case. -/
inductive CfaOp where
  | nop | setLoc | advanceLoc | advanceLoc1 | advanceLoc2 | advanceLoc4
  | offset | offsetExtended | offsetExtendedSf | valOffset | valOffsetSf
  | restore | restoreExtended | undefined | sameValue | register
  | rememberState | restoreState
  | defCfa | defCfaSf | defCfaRegister | defCfaOffset | defCfaOffsetSf
  | defCfaExpression | expression | valExpression
  | gnuArgsSize | katanaFixups | katanaFixupsPointer
  | other (code : Nat)
  deriving DecidableEq, Repr

def CfaOp.code : CfaOp → Nat
  | nop => 0x00 | setLoc => 0x01 | advanceLoc1 => 0x02 | advanceLoc2 => 0x03 | advanceLoc4 => 0x04
  | offsetExtended => 0x05 | restoreExtended => 0x06 | undefined => 0x07 | sameValue => 0x08 | register => 0x09
  | rememberState => 0x0a | restoreState => 0x0b | defCfa => 0x0c | defCfaRegister => 0x0d | defCfaOffset => 0x0e
  | defCfaExpression => 0x0f | expression => 0x10 | offsetExtendedSf => 0x11 | defCfaSf => 0x12
  | defCfaOffsetSf => 0x13 | valOffset => 0x14 | valOffsetSf => 0x15 | valExpression => 0x16
  | katanaFixups => 0x21 | katanaFixupsPointer => 0x22 | gnuArgsSize => 0x2e
  | advanceLoc => 0x40 | offset => 0x80 | restore => 0xc0
  | other code => code

/-- `DW_OP_*`; `other` is any opcode the code gives no case. -/
inductive DwOp where
  | lit (n : Fin 32) | reg (n : Fin 32) | breg (n : Fin 32)
  | dup | drop | opOver | swap | rot | deref | xderef | pushObjectAddress | formTlsAddress | callFrameCfa
  | abs | and | div | minus | mod | mul | neg | not | or | plus | shl | shr | shra | xor
  | le | ge | eq | lt | gt | ne | nop
  | const1u | const1s | pick | derefSize | xderefSize
  | const2u | const2s | skip | bra
  | const4u | const4s | const8u | const8s | addr
  | constu | plusUconst | consts | fbreg | bregx
  | other (code : Nat)
  deriving DecidableEq, Repr

def DwOp.code : DwOp → Nat
  | addr => 0x03 | deref => 0x06 | const1u => 0x08 | const1s => 0x09 | const2u => 0x0a | const2s => 0x0b
  | const4u => 0x0c | const4s => 0x0d | const8u => 0x0e | const8s => 0x0f | constu => 0x10 | consts => 0x11
  | dup => 0x12 | drop => 0x13 | opOver => 0x14 | pick => 0x15 | swap => 0x16 | rot => 0x17 | xderef => 0x18
  | abs => 0x19 | and => 0x1a | div => 0x1b | minus => 0x1c | mod => 0x1d | mul => 0x1e | neg => 0x1f
  | not => 0x20 | or => 0x21 | plus => 0x22 | plusUconst => 0x23 | shl => 0x24 | shr => 0x25 | shra => 0x26
  | xor => 0x27 | bra => 0x28 | eq => 0x29 | ge => 0x2a | gt => 0x2b | le => 0x2c | lt => 0x2d | ne => 0x2e
  | skip => 0x2f | lit n => 0x30 + n | reg n => 0x50 + n | breg n => 0x70 + n
  | fbreg => 0x91 | bregx => 0x92 | derefSize => 0x94 | xderefSize => 0x95 | nop => 0x96
  | pushObjectAddress => 0x97 | formTlsAddress => 0x9b | callFrameCfa => 0x9c
  | other code => code

/-! ## Instructions -/

structure DwarfExprInstr where
  type : DwOp
  arg1 : UInt64
  arg2 : UInt64
  deriving DecidableEq, Repr

abbrev DwarfExpr := List DwarfExprInstr

structure RegInstruction where
  type : CfaOp
  arg1 : UInt64
  expr : DwarfExpr
  arg1Reg : PoReg
  arg2 : UInt64
  arg2Reg : PoReg
  arg3 : UInt64
  deriving DecidableEq, Repr

/-- An instruction with every byte zero but its opcode. -/
def RegInstruction.blank (type : CfaOp) : RegInstruction := ⟨type, 0, [], .zero, 0, .zero, 0⟩

/-- An instruction with its operands encoded; each list holds the bytes its `NumBytes` counts. -/
structure DwarfInstruction where
  opcode : CfaOp
  arg1Bytes : List UInt8
  arg2Bytes : List UInt8
  arg3Bytes : List UInt8
  arg1 : UInt64
  arg2 : UInt64
  deriving DecidableEq, Repr

def DwarfInstruction.blank (opcode : CfaOp) : DwarfInstruction := ⟨opcode, [], [], [], 0, 0⟩

/-- Bytes as they accumulate; both sizes are C ints. -/
structure DwarfInstructions where
  instrs : List UInt8
  allocated : Nat
  deriving DecidableEq, Repr

/-! ## addInstruction -/

def addBytes (instrs : DwarfInstructions) (bytes : List UInt8) : Except Fault DwarfInstructions := do
  if instrs.allocated - instrs.instrs.length < bytes.length then
    let allocated := max (instrs.allocated * 2) (instrs.allocated + bytes.length * 2)
    defined (allocated < 2 ^ 31)
    .ok ⟨instrs.instrs ++ bytes, allocated⟩
  else .ok ⟨instrs.instrs ++ bytes, instrs.allocated⟩

/-- The low byte of a word or-ed into an opcode. -/
def packed (opcode : CfaOp) (arg : UInt64) : UInt8 := UInt8.ofNat (opcode.code ||| arg.toNat)

def instructionBytes (instr : DwarfInstruction) : Except Fault (List UInt8) := do
  let b := UInt8.ofNat instr.opcode.code
  match instr.opcode with
  | .nop | .sameValue => .ok [b]
  | .offset =>
    assert (instr.arg1.toNat < 128)
    .ok (packed .offset instr.arg1 :: instr.arg2Bytes)
  | .restoreExtended | .defCfaRegister | .defCfaOffset | .defCfaOffsetSf | .defCfaExpression | .gnuArgsSize | .undefined =>
    .ok (b :: instr.arg1Bytes)
  | .offsetExtended | .offsetExtendedSf | .valOffset | .valOffsetSf | .register | .expression | .valExpression
  | .defCfa | .defCfaSf =>
    .ok (b :: (instr.arg1Bytes ++ instr.arg2Bytes))
  | .katanaFixups | .katanaFixupsPointer => .ok (b :: (instr.arg1Bytes ++ instr.arg2Bytes ++ instr.arg3Bytes))
  | .setLoc =>
    assert (instr.arg1Bytes.length = 8)
    .ok (b :: instr.arg1Bytes)
  | .advanceLoc =>
    if instr.arg1.toNat > 0xc0 then .error (.death "Location will not fit into encoding for DW_CFA_advance_loc\n")
    else .ok [packed .advanceLoc instr.arg1]
  | .advanceLoc1 =>
    if instr.arg1.toNat > 0xFF then .error (.death "Location will not fit into encoding for DW_CFA_advance_loc1\n")
    else .ok (b :: toLE 1 instr.arg1.toNat)
  | .advanceLoc2 =>
    if instr.arg1.toNat > 0xFFFF then .error (.death "Location will not fit into encoding for DW_CFA_advance_loc\n")
    else .ok (b :: toLE 2 instr.arg1.toNat)
  | .advanceLoc4 =>
    if instr.arg1.toNat > 0xFFFFFFFF then .error (.death "Location will not fit into encoding for DW_CFA_advance_loc\n")
    else .ok (b :: toLE 4 instr.arg1.toNat)
  | .restore => .ok [packed .restore instr.arg1]
  | .rememberState | .restoreState => .ok [b]
  | .other code => .error (.death ("Dwarf instruction with opcode " ++ toString code ++ " not supported\n"))

def addInstruction (instrs : DwarfInstructions) (instr : DwarfInstruction) : Except Fault DwarfInstructions := do
  let bytes ← instructionBytes instr
  addBytes instrs bytes

/-! ## Expressions -/

/-- What the encoder writes after an opcode: nothing, the low bytes of `arg1`, `arg1` as an unsigned or
a signed LEB, or `arg1` as an unsigned and `arg2` as a signed one. -/
inductive EncodeShape where
  | none | bytes (k : Nat) | uleb | sleb | ulebSleb
  deriving DecidableEq, Repr

def DwOp.encodeShape : DwOp → Option EncodeShape
  | lit _ | reg _ | dup | drop | opOver | swap | rot | deref | xderef | pushObjectAddress | formTlsAddress | callFrameCfa
  | abs | and | div | minus | mod | mul | neg | not | or | plus | shl | shr | shra | xor
  | le | ge | eq | lt | gt | ne | nop => some .none
  | const1u | const1s | pick | derefSize | xderefSize => some (.bytes 1)
  | const2u | const2s | skip | bra => some (.bytes 2)
  | const4u | const4s => some (.bytes 4)
  | const8u | const8s => some (.bytes 8)
  | addr => some (.bytes 8)
  | constu | plusUconst => some .uleb
  | consts | fbreg | breg _ => some .sleb
  | bregx => some .ulebSleb
  | other _ => Option.none

def encodeDwarfExprInstr (instr : DwarfExprInstr) (buf : GrowingBuffer) : Except Fault GrowingBuffer := do
  -- all expression instructions start with a 1-byte opcode
  let buf ← addToGrowingBuffer buf [UInt8.ofNat instr.type.code]
  match instr.type.encodeShape with
  | some .none => .ok buf
  | some (.bytes k) => addToGrowingBuffer buf (toLE k instr.arg1.toNat)
  | some .uleb => addToGrowingBuffer buf (encodeAsLEB128 (toLE 8 instr.arg1.toNat) false)
  | some .sleb => addToGrowingBuffer buf (encodeAsLEB128 (toLE 8 instr.arg1.toNat) true)
  | some .ulebSleb =>
    let buf ← addToGrowingBuffer buf (encodeAsLEB128 (toLE 8 instr.arg1.toNat) false)
    addToGrowingBuffer buf (encodeAsLEB128 (toLE 8 instr.arg2.toNat) true)
  | Option.none =>
    .error (.death ("While encoding DWARF expression, unsupported DW_OP with code 0x" ++ hex instr.type.code ++ "\n"))

/-- The block's bytes as far as the `usint` byte count goes. -/
def encodeDwarfExprAsFormBlock (expr : DwarfExpr) : Except Fault (List UInt8) := do
  let blockData ← expr.foldlM (fun buf instr => encodeDwarfExprInstr instr buf) GrowingBuffer.zero
  let lengthData := uintToLEB128 blockData.len
  .ok ((lengthData ++ blockData.data).take (usint (lengthData.length + blockData.len)))

/-! ## serializeDwarfRegInstructions -/

def regInstructionToRawDwarfInstruction (inst : RegInstruction) : Except Fault DwarfInstruction := do
  let result := DwarfInstruction.blank inst.type
  match inst.type with
  | .setLoc | .advanceLoc | .advanceLoc1 | .advanceLoc2 | .advanceLoc4 => .ok { result with arg1 := inst.arg1 }
  | .offset =>
    let arg1Bytes ← encodeRegAsLEB128 inst.arg1Reg
    if inst.arg1Reg.type ≠ .basic then
      .error (.death "Cannot use a non-basic register as an operation to DW_CFA_offset\n")
    else
      -- since it's being encoded with the operand
      assert (arg1Bytes.length = 1)
      .ok { result with
        arg1Bytes
        arg1 := inst.arg1Reg.u.toInt64.toUInt64
        arg2 := inst.arg2
        arg2Bytes := intToLEB128 (Int.bmod inst.arg2.toNat (2 ^ 32)) }
  | .register =>
    let arg1Bytes ← encodeRegAsLEB128 inst.arg1Reg
    let arg2Bytes ← encodeRegAsLEB128 inst.arg2Reg
    .ok { result with arg1Bytes, arg2Bytes }
  | .offsetExtended | .defCfa =>
    let arg1Bytes ← encodeRegAsLEB128 inst.arg1Reg
    .ok { result with arg1Bytes, arg2Bytes := encodeAsLEB128 (toLE 8 inst.arg2.toNat) false }
  | .offsetExtendedSf =>
    let arg1Bytes ← encodeRegAsLEB128 inst.arg1Reg
    .ok { result with arg1Bytes, arg2Bytes := encodeAsLEB128 (toLE 8 inst.arg2.toNat) true }
  | .defCfaRegister | .restoreExtended | .undefined | .sameValue =>
    let arg1Bytes ← encodeRegAsLEB128 inst.arg1Reg
    .ok { result with arg1Bytes }
  | .defCfaOffset | .gnuArgsSize => .ok { result with arg1Bytes := encodeAsLEB128 (toLE 8 inst.arg1.toNat) false }
  | .defCfaOffsetSf => .ok { result with arg1Bytes := encodeAsLEB128 (toLE 8 inst.arg1.toNat) true }
  | .restore => .ok { result with arg1 := inst.arg1 }
  | .rememberState | .restoreState | .nop => .ok result
  | .defCfaExpression =>
    let arg1Bytes ← encodeDwarfExprAsFormBlock inst.expr
    .ok { result with arg1Bytes }
  | .expression | .valExpression =>
    let arg1Bytes ← encodeRegAsLEB128 inst.arg1Reg
    let arg2Bytes ← encodeDwarfExprAsFormBlock inst.expr
    .ok { result with arg1Bytes, arg2Bytes }
  | type => .error (.death ("unsupported DWARF instruction 0x" ++ hex type.code))

def serializeDwarfRegInstructions (regInstrs : List RegInstruction) : Except Fault DwarfInstructions :=
  regInstrs.foldlM (fun result inst => do
    let instr ← regInstructionToRawDwarfInstruction inst
    addInstruction result instr) ⟨[], 0⟩

end Katana
