/-
  Katana.Dwarf.Encoding — call-frame instructions and expressions as DWARF encodes them (sections 7.23
  and 7.7.1), and patch registers as register.c does.

  An `Instruction` is one with its operands as they are encoded, so that its numerals may be padded;
  `bytes` writes it, and `Means` says which instruction of the patcher's form it is.

  The two steps are the turns of the reader's loops over the bytes from an opcode on.

  Proved:
  - `parseDwarfExpression_inFrame` / `parseFDEInstructions_inFrame`: where every step takes exactly the
    bytes of its own instruction, the loops return what the steps do, and stop behind the last one.
-/
import Mathlib.Data.List.ReduceOption
import Katana.Lib.Decoding
import Katana.Dwarf.Codec

namespace Katana

open Lib

/-! ## Expressions -/

inductive OperandFormat where
  | none | unsigned (k : Nat) | signed (k : Nat) | uleb | sleb | ulebSleb
  deriving DecidableEq, Repr

/-- Section 7.7.1, for the opcodes that have a name here; an address has the eight bytes of the target's. -/
def DwOp.format : DwOp → Option OperandFormat
  | lit _ | reg _ | dup | drop | opOver | swap | rot | deref | xderef | pushObjectAddress | formTlsAddress | callFrameCfa
  | abs | and | div | minus | mod | mul | neg | not | or | plus | shl | shr | shra | xor
  | le | ge | eq | lt | gt | ne | nop => some .none
  | const1u | pick | derefSize | xderefSize => some (.unsigned 1)
  | const1s => some (.signed 1)
  | const2u => some (.unsigned 2)
  | const2s | skip | bra => some (.signed 2)
  | const4u => some (.unsigned 4)
  | const4s => some (.signed 4)
  | const8u | addr => some (.unsigned 8)
  | const8s => some (.signed 8)
  | constu | plusUconst => some .uleb
  | consts | fbreg | breg _ => some .sleb
  | bregx => some .ulebSleb
  | other _ => Option.none

namespace Encoding

/-- An operation with its operand; `other` is any of the operations without a name here, with its operand's bytes. -/
inductive Operation where
  | plain (op : DwOp) (h : op.format = some .none)
  | unsigned (op : DwOp) (k : Nat) (h : op.format = some (.unsigned k)) (x : Nat) (hx : x < 256 ^ k)
  | signed (op : DwOp) (k : Nat) (h : op.format = some (.signed k)) (x : Nat) (hx : x < 256 ^ k)
  | uleb (op : DwOp) (h : op.format = some .uleb) (n : Numeral)
  | sleb (op : DwOp) (h : op.format = some .sleb) (n : Numeral)
  | bregx (reg : Numeral) (offset : Numeral)
  | other (byte : UInt8) (h : DwOp.ofByte byte = .other byte.toNat) (operand : List UInt8)

namespace Operation

def opcode : Operation → UInt8
  | plain op _ | unsigned op _ _ _ _ | signed op _ _ _ _ | uleb op _ _ | sleb op _ _ => UInt8.ofNat op.code
  | bregx _ _ => UInt8.ofNat DwOp.bregx.code
  | other byte _ _ => byte

def operand : Operation → List UInt8
  | plain _ _ => []
  | unsigned _ k _ x _ | signed _ k _ x _ => toLE k x
  | uleb _ _ n | sleb _ _ n => n.bytes
  | bregx reg offset => reg.bytes ++ offset.bytes
  | other _ _ operand => operand

def bytes (o : Operation) : List UInt8 := o.opcode :: o.operand

/-- The operation `o` with its operand. -/
def Means (o : Operation) (instr : DwarfExprInstr) : Prop :=
  match o with
  | plain op _ => instr.type = op
  | unsigned op _ _ x _ => instr.type = op ∧ instr.arg1.toNat = x
  | signed op k _ x _ => instr.type = op ∧ signedWord instr.arg1 = Int.bmod x (256 ^ k : Nat)
  | uleb op _ n => instr.type = op ∧ instr.arg1.toNat = n.value
  | sleb op _ n => instr.type = op ∧ signedWord instr.arg1 = n.signedValue
  | bregx reg offset =>
    instr.type = .bregx ∧ instr.arg1.toNat = reg.value ∧ signedWord instr.arg2 = offset.signedValue
  | other byte _ _ => instr.type = .other byte.toNat

end Operation

structure Block where
  ops : List Operation
  size : Numeral
  size_eq : size.value = (ops.flatMap Operation.bytes).length

def Block.bytes (b : Block) : List UInt8 := b.size.bytes ++ b.ops.flatMap Operation.bytes

end Encoding

/-! ## Registers -/

/-- The number a patch register is encoded as: the byte of its type, and over it its size, where the type has
one, and its offset or index. -/
def PoReg.word (r : PoReg) : Option Nat :=
  let index := r.u.toUInt32.toNat
  match r.type with
  | .currTargNew => some (0xF1 + 256 * (r.size.toUInt32.toNat + 2 ^ 32 * index))
  | .currTargOld => some (0xF2 + 256 * (r.size.toUInt32.toNat + 2 ^ 32 * index))
  | .expr => if r.size = 0 then some (0xF3 + 256 * index) else none
  | .oldSymVal => if r.size = 0 then some (0xF4 + 256 * index) else none
  | .newSymVal => if r.size = 0 then some (0xF5 + 256 * index) else none
  | .cfa => if r.size = 0 then some (0xF6 + 256 * index) else none
  | .none | .basic | .poStart | .poEnd => none

namespace Encoding

structure PatchRegister where
  reg : PoReg
  numeral : Numeral
  word_eq : reg.word = some numeral.value

/-- DWARF's register numbers, and the registers of a patch. -/
inductive Register where
  | number (n : Numeral)
  | patch (r : PatchRegister)

namespace Register

def numeral : Register → Numeral
  | number n => n
  | patch r => r.numeral

def bytes (reg : Register) : List UInt8 := reg.numeral.bytes

def Means (reg : Register) (r : PoReg) : Prop :=
  match reg with
  | number n => r.type = .basic ∧ r.u.toInt = n.value
  | patch p => r = p.reg

end Register

/-! ## Instructions -/

/-- The instructions `parseFDEInstructions` has a case for, with their operands. -/
inductive Instruction where
  | plain (op : CfaOp) (h : op = .nop ∨ op = .rememberState ∨ op = .restoreState)
  | advanceLoc (delta : Fin 64)
  | offset (reg : Fin 64) (offset : Numeral)
  | restore (reg : Fin 64)
  | setLoc (address : UInt64)
  | advanceLoc1 (delta : UInt8)
  | advanceLoc2 (delta : UInt16)
  | advanceLoc4 (delta : UInt32)
  | register1 (op : CfaOp) (h : op = .undefined ∨ op = .sameValue ∨ op = .defCfaRegister) (reg : Register)
  | register (reg reg2 : Register)
  | offsetExtended (reg : Register) (offset : Numeral)
  | offsetExtendedSf (reg : Register) (offset : Numeral)
  | defCfa (reg : Register) (offset : Numeral)
  | uleb (op : CfaOp) (h : op = .defCfaOffset ∨ op = .gnuArgsSize) (n : Numeral)
  | defCfaOffsetSf (offset : Numeral)
  | defCfaExpression (block : Block)
  | regBlock (op : CfaOp) (h : op = .expression ∨ op = .valExpression) (reg : Register) (block : Block)
  | fixups (op : CfaOp) (h : op = .katanaFixups ∨ op = .katanaFixupsPointer) (reg reg2 : PatchRegister) (index : Numeral)

namespace Instruction

def op : Instruction → CfaOp
  | plain op _ | register1 op _ _ | uleb op _ _ | regBlock op _ _ _ | fixups op _ _ _ _ => op
  | advanceLoc _ => .advanceLoc
  | offset _ _ => .offset
  | restore _ => .restore
  | setLoc _ => .setLoc
  | advanceLoc1 _ => .advanceLoc1
  | advanceLoc2 _ => .advanceLoc2
  | advanceLoc4 _ => .advanceLoc4
  | register _ _ => .register
  | offsetExtended _ _ => .offsetExtended
  | offsetExtendedSf _ _ => .offsetExtendedSf
  | defCfa _ _ => .defCfa
  | defCfaOffsetSf _ => .defCfaOffsetSf
  | defCfaExpression _ => .defCfaExpression

def opcode (i : Instruction) : UInt8 :=
  match i with
  | advanceLoc x | offset x _ | restore x => UInt8.ofNat (i.op.code + x)
  | _ => UInt8.ofNat i.op.code

def operands : Instruction → List UInt8
  | plain _ _ | advanceLoc _ | restore _ => []
  | offset _ n | uleb _ _ n | defCfaOffsetSf n => n.bytes
  | setLoc address => toLE 8 address.toNat
  | advanceLoc1 delta => toLE 1 delta.toNat
  | advanceLoc2 delta => toLE 2 delta.toNat
  | advanceLoc4 delta => toLE 4 delta.toNat
  | register1 _ _ reg => reg.bytes
  | register reg reg2 => reg.bytes ++ reg2.bytes
  | offsetExtended reg n | offsetExtendedSf reg n | defCfa reg n => reg.bytes ++ n.bytes
  | defCfaExpression block => block.bytes
  | regBlock _ _ reg block => reg.bytes ++ block.bytes
  | fixups _ _ reg reg2 index => reg.numeral.bytes ++ reg2.numeral.bytes ++ index.bytes

def bytes (i : Instruction) : List UInt8 := i.opcode :: i.operands

end Instruction

end Encoding

/-! ## The steps of the two loops -/

def exprStep : List UInt8 → Except Fault (DwarfExprInstr × Nat)
  | [] => .error .undefined
  | b :: data => do
    let type := DwOp.ofByte b
    let (arg1, k) ← parseDwarfOperand type data
    .ok (⟨type, UInt64.ofNat arg1, 0⟩, k + 1)

def fdeStep : List UInt8 → Except Fault (Option RegInstruction × Nat)
  | [] => .error .undefined
  | b :: data => do
    let (instr, k) ← parseInstruction b data
    .ok (instr, k + 1)

namespace Encoding

/-- The expression is read operation by operation, each as itself and with its own bytes. -/
def ExprInFrame (ops : List Operation) (rest : List UInt8) (expr : DwarfExpr) : Prop :=
  InFrame exprStep Operation.bytes (fun o _ instr => o.Means instr) ops rest expr

/-- The instruction `i` with its operands; a `nop` leaves nothing. -/
def Instruction.Means (i : Instruction) (rest : List UInt8) : Option RegInstruction → Prop
  | none => i.op = .nop
  | some r => r.type = i.op ∧
    match i with
    | plain op _ => op ≠ .nop
    | advanceLoc delta => r.arg1.toNat = delta
    | restore reg => r.arg1Reg = .basic (Int32.ofNat reg)
    | offset reg n => r.arg1Reg = .basic (Int32.ofNat reg) ∧ r.arg2.toNat = n.value
    | setLoc address => r.arg1 = address
    | advanceLoc1 delta => r.arg1.toNat = delta.toNat
    | advanceLoc2 delta => r.arg1.toNat = delta.toNat
    | advanceLoc4 delta => r.arg1.toNat = delta.toNat
    | register1 _ _ reg => reg.Means r.arg1Reg
    | register reg reg2 => reg.Means r.arg1Reg ∧ reg2.Means r.arg2Reg
    | offsetExtended reg n | defCfa reg n => reg.Means r.arg1Reg ∧ r.arg2.toNat = n.value
    | offsetExtendedSf reg n => reg.Means r.arg1Reg ∧ signedWord r.arg2 = n.signedValue
    | uleb _ _ n => r.arg1.toNat = n.value
    | defCfaOffsetSf n => signedWord r.arg1 = n.signedValue
    | defCfaExpression block => ExprInFrame block.ops rest r.expr
    | regBlock _ _ reg block => reg.Means r.arg1Reg ∧ ExprInFrame block.ops rest r.expr
    | fixups _ _ reg reg2 index => r.arg1Reg = reg.reg ∧ r.arg2Reg = reg2.reg ∧ r.arg3.toNat = index.value

/-- The instructions are read one after the other, each as itself and with its own bytes. -/
def FDEInFrame (code : List Instruction) (rest : List UInt8) (read : List (Option RegInstruction)) : Prop :=
  InFrame fdeStep Instruction.bytes Instruction.Means code rest read

end Encoding

open Encoding

theorem parseDwarfExpression_inFrame {ops : List Operation} {rest : List UInt8} {expr : DwarfExpr}
    (h : ExprInFrame ops rest expr) (hlen : (ops.flatMap Operation.bytes).length < 2 ^ 32) :
    parseDwarfExpression (ops.flatMap Operation.bytes ++ rest) (ops.flatMap Operation.bytes).length = .ok expr := by
  unfold ExprInFrame at h
  induction h with
  | nil rest => rfl
  | @cons o ops rest instr expr hstep _ _ ih =>
    rw [Operation.bytes, List.cons_append] at hstep
    obtain ⟨⟨arg1, k⟩, hoperand, hstep⟩ := bind_eq_ok.mp hstep
    simp only [Except.ok.injEq, Prod.mk.injEq, List.length_cons, Nat.add_right_cancel_iff] at hstep
    obtain ⟨rfl, hk⟩ := hstep
    simp only [List.flatMap_cons, Operation.bytes, List.length_append, List.length_cons] at hlen ⊢
    have hsub : uintSub (o.operand.length + (ops.flatMap Operation.bytes).length) o.operand.length =
        (ops.flatMap Operation.bytes).length := by
      rw [uintSub_of_le (by omega) (by omega)]
      omega
    rw [List.append_assoc, List.cons_append, show o.operand.length + 1 + (ops.flatMap Operation.bytes).length =
      o.operand.length + (ops.flatMap Operation.bytes).length + 1 by omega, parseDwarfExpression_cons, hoperand, bind_ok]
    dsimp only
    rw [hk, List.drop_left, hsub, ih (by omega), bind_ok]

/-- One turn of the loop over the bytes of an instruction. -/
theorem parseFDEInstructions_turn {byte : UInt8} {operands data : List UInt8} {instr : Option RegInstruction} {len : Nat}
    (h : parseInstruction byte (operands ++ data) = .ok (instr, operands.length)) :
    parseFDEInstructions (byte :: (operands ++ data)) (operands.length + 1 + len : Nat) = (do
      let (rest, left) ← parseFDEInstructions data len
      .ok (instr.toList ++ rest, left)) := by
  have hlen : ((operands.length + 1 + len : Nat) : Int) - operands.length - 1 = (len : Nat) := by push_cast; ring
  unfold parseFDEInstructions
  rw [List.length_cons, parseFDELoop, if_neg (by push_cast; omega)]
  dsimp only
  rw [h, bind_ok]
  dsimp only
  rw [List.drop_left, hlen, parseFDELoop_fuel
    (show data.length < (operands ++ data).length + 1 by rw [List.length_append]; omega)
    (show data.length < data.length + 1 by omega)]

theorem parseFDEInstructions_inFrame {code : List Instruction} {rest : List UInt8} {read : List (Option RegInstruction)}
    (h : FDEInFrame code rest read) :
    parseFDEInstructions (code.flatMap Instruction.bytes ++ rest) (code.flatMap Instruction.bytes).length =
      .ok (read.reduceOption, rest) := by
  unfold FDEInFrame at h
  induction h with
  | nil rest =>
    unfold parseFDEInstructions parseFDELoop
    rw [if_pos (by simp)]
    rfl
  | @cons i code rest instr read hstep _ _ ih =>
    rw [Instruction.bytes, List.cons_append] at hstep
    obtain ⟨⟨instr', k⟩, hinstr, hstep⟩ := bind_eq_ok.mp hstep
    simp only [Except.ok.injEq, Prod.mk.injEq, List.length_cons, Nat.add_right_cancel_iff] at hstep
    obtain ⟨rfl, rfl⟩ := hstep
    rw [List.flatMap_cons, Instruction.bytes, List.append_assoc, List.cons_append, List.length_append, List.length_cons,
      parseFDEInstructions_turn hinstr, ih, bind_ok]
    cases instr' with
    | none => rfl
    | some r => rfl

end Katana
