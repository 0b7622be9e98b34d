/-
  Katana.Dwarf.FdeRead — reading call-frame instructions and expressions back (fderead.c).

  Each reader takes the bytes from the opcode on, to the end of the buffer they lie in: a read past
  the end is undefined. Both loops get the buffer's length as fuel, since every turn moves the
  pointer on by at least the opcode.
-/
import Katana.Dwarf.Instr

namespace Katana

open Lib

/-! ## Opcodes -/

/-- An opcode byte that `DW_OP_*` names. -/
def DwOp.ofByte (b : UInt8) : DwOp :=
  let n := b.toNat
  if 0x30 ≤ n ∧ n < 0x50 then .lit (Fin.ofNat 32 (n - 0x30))
  else if 0x50 ≤ n ∧ n < 0x70 then .reg (Fin.ofNat 32 (n - 0x50))
  else if 0x70 ≤ n ∧ n < 0x90 then .breg (Fin.ofNat 32 (n - 0x70))
  else
    (([.dup, .drop, .opOver, .swap, .rot, .deref, .xderef, .pushObjectAddress, .formTlsAddress, .callFrameCfa,
        .abs, .and, .div, .minus, .mod, .mul, .neg, .not, .or, .plus, .shl, .shr, .shra, .xor,
        .le, .ge, .eq, .lt, .gt, .ne, .nop, .const1u, .const1s, .pick, .derefSize, .xderefSize,
        .const2u, .const2s, .skip, .bra, .const4u, .const4s, .const8u, .const8s, .addr,
        .constu, .plusUconst, .consts, .fbreg, .bregx] : List DwOp).find? fun op => op.code == n).getD (.other n)

/-! ## parseDwarfExpression -/

def readSigned (k : Nat) (p : List UInt8) : Except Fault Nat := do
  let arg ← readLE k p
  sextend arg k

/-- A LEB operand as the bytes it decodes to, in a zeroed word, and the bytes it took. -/
def readLebWord (signed : Bool) (p : List UInt8) : Except Fault (Nat × Nat) := do
  let d ← decodeLEB128 p signed
  assert (d.numBytes ≤ 8)
  .ok (leNat (d.result.take d.numBytes), d.numSeptetsRead)

/-- What the decoder reads after an opcode. -/
inductive DecodeShape where
  | none | unsigned (k : Nat) | signed (k : Nat) | uleb | sleb
  deriving DecidableEq, Repr

/-- The cases of `parseDwarfExpression`'s switch. -/
def DwOp.decodeShape : DwOp → Option DecodeShape
  | lit _ | reg _ | dup | drop | opOver | swap | rot | deref | xderef | pushObjectAddress | formTlsAddress | callFrameCfa
  | abs | and | div | minus | mod | mul | neg | not | or | plus | shl | shr | shra | xor
  | le | ge | eq | lt | gt | ne | nop => some .none
  | const1u | pick | derefSize | xderefSize => some (.unsigned 1)
  | const1s => some (.signed 1)
  | const2u => some (.unsigned 2)
  | const2s | skip | bra => some (.signed 2)
  | const4u => some (.unsigned 4)
  | const4s => some (.signed 4)
  | const8u => some (.unsigned 8)
  | const8s => some (.signed 8)
  | addr => some (.unsigned 8)
  | constu | plusUconst => some .uleb
  | consts | fbreg | breg _ => some .sleb
  | bregx | other _ => Option.none

/-- The operand of `type` at `p`, and the number of its bytes. -/
def parseDwarfOperand (type : DwOp) (p : List UInt8) : Except Fault (Nat × Nat) := do
  match type.decodeShape with
  | some .none => .ok (0, 0)
  | some (.unsigned k) =>
    let arg1 ← readLE k p
    .ok (arg1, k)
  | some (.signed k) =>
    let arg1 ← readSigned k p
    .ok (arg1, k)
  | some .uleb => readLebWord false p
  | some .sleb => readLebWord true p
  | Option.none => .error (.death ("Unsupported DW_OP with code 0x" ++ hex type.code ++ "\n"))

/-- `len-=k` on an unsigned int. -/
def uintSub (len k : Nat) : Nat := (len + 2 ^ 32 - k) % 2 ^ 32

def parseDwarfLoop : Nat → List UInt8 → Nat → Except Fault DwarfExpr
  | _, _, 0 => .ok []
  | 0, _, _ + 1 => .error .undefined
  | _ + 1, [], _ + 1 => .error .undefined
  | fuel + 1, b :: data, len + 1 => do
    let type := DwOp.ofByte b
    let (arg1, k) ← parseDwarfOperand type data
    let rest ← parseDwarfLoop fuel (data.drop k) (uintSub len k)
    .ok (⟨type, UInt64.ofNat arg1, 0⟩ :: rest)

def parseDwarfExpression (data : List UInt8) (len : Nat) : Except Fault DwarfExpr :=
  parseDwarfLoop (data.length + 1) data len

/-! ## parseFDEInstructions -/

def isPoRegType (b : UInt8) : Bool := 0xF0 < b.toNat && b.toNat < 0xF7

def readPoReg (p : List UInt8) : Except Fault (PoReg × Nat) := do
  match p with
  | [] => .error .undefined
  | b :: _ =>
    if isPoRegType b then readRegFromLEB128 p
    else .error (.death "register of unexpected format for po\n")

/-- The length of an expression block and the expression, and the bytes of both. -/
def readExprBlock (p : List UInt8) : Except Fault (DwarfExpr × Nat) := do
  let (exprBytesLen, uleblen) ← leb128ToUInt p
  let expr ← parseDwarfExpression (p.drop uleblen) exprBytesLen
  .ok (expr, uleblen + exprBytesLen)

/-- The opcode of a byte: the high two bits for the three that carry an operand, the low six for the rest. -/
def CfaOp.ofByte (byte : UInt8) : CfaOp :=
  let high := byte.toNat &&& 0xc0
  let low := byte.toNat &&& 0x3f
  (([.advanceLoc, .restore, .offset] : List CfaOp).find? fun op => op.code == high).getD
    ((([.nop, .setLoc, .advanceLoc1, .advanceLoc2, .advanceLoc4, .offsetExtended, .restoreExtended, .undefined, .sameValue,
        .register, .rememberState, .restoreState, .defCfa, .defCfaRegister, .defCfaOffset, .defCfaExpression, .expression,
        .offsetExtendedSf, .defCfaSf, .defCfaOffsetSf, .valOffset, .valOffsetSf, .valExpression, .katanaFixups,
        .katanaFixupsPointer, .gnuArgsSize] : List CfaOp).find? fun op => op.code == low).getD (.other low))

/-- One turn of the loop: the instruction whose opcode byte is `byte` and the bytes it took after it;
`none` for the `nop`s, which use no slot of the result. -/
def parseInstruction (byte : UInt8) (p : List UInt8) : Except Fault (Option RegInstruction × Nat) := do
  let low := byte.toNat &&& 0x3f
  let type := CfaOp.ofByte byte
  let result := RegInstruction.blank type
  match type with
  | .advanceLoc | .restore =>
    .ok (some { result with arg1 := UInt64.ofNat low, arg1Reg := .basic (Int32.ofNat low) }, 0)
  | .offset =>
    let (arg2, uleblen) ← leb128ToUWord p
    .ok (some { result with
      arg1 := UInt64.ofNat low, arg1Reg := .basic (Int32.ofNat low), arg2 := UInt64.ofNat arg2 }, uleblen)
  | .setLoc =>
    -- this assumes 32-bit
    let arg1 ← readLE 4 p
    .ok (some { result with arg1 := UInt64.ofNat arg1 }, 4)
  | .advanceLoc1 =>
    let delta ← readLE 1 p
    .ok (some { result with arg1 := UInt64.ofNat delta }, 1)
  | .advanceLoc2 =>
    -- the cast is of the byte read, not of the pointer
    let delta ← readLE 1 p
    .ok (some { result with arg1 := UInt64.ofNat delta }, 2)
  | .advanceLoc4 =>
    let delta ← readLE 4 p
    .ok (some { result with arg1 := UInt64.ofNat delta }, 4)
  | .offsetExtended =>
    let (arg1Reg, uleblen) ← readRegFromLEB128 p
    -- the pointer does not move over the second operand
    let (arg2, _) ← leb128ToUWord (p.drop uleblen)
    .ok (some { result with arg1Reg, arg2 := UInt64.ofNat arg2 }, uleblen)
  | .offsetExtendedSf =>
    let (arg1Reg, uleblen) ← readRegFromLEB128 p
    let (arg2, _) ← leb128ToSWord (p.drop uleblen)
    .ok (some { result with arg1Reg, arg2 := UInt64.ofInt arg2 }, uleblen)
  | .undefined | .sameValue | .defCfaRegister =>
    let (arg1Reg, uleblen) ← readRegFromLEB128 p
    .ok (some { result with arg1Reg }, uleblen)
  | .register =>
    let (arg1Reg, uleblen) ← readRegFromLEB128 p
    let (arg2Reg, uleblen2) ← readRegFromLEB128 (p.drop uleblen)
    .ok (some { result with arg1Reg, arg2Reg }, uleblen + uleblen2)
  | .katanaFixups | .katanaFixupsPointer =>
    let (arg1Reg, uleblen) ← readPoReg p
    let (arg2Reg, uleblen2) ← readPoReg (p.drop uleblen)
    let (arg3, uleblen3) ← leb128ToUInt (p.drop (uleblen + uleblen2))
    .ok (some { result with arg1Reg, arg2Reg, arg3 := UInt64.ofNat arg3 }, uleblen + uleblen2 + uleblen3)
  | .defCfa =>
    let (arg1Reg, uleblen) ← readRegFromLEB128 p
    let (arg2, uleblen2) ← leb128ToUInt (p.drop uleblen)
    .ok (some { result with arg1Reg, arg2 := UInt64.ofNat arg2 }, uleblen + uleblen2)
  | .defCfaOffset | .gnuArgsSize =>
    let (arg1, uleblen) ← leb128ToUInt p
    .ok (some { result with arg1 := UInt64.ofNat arg1 }, uleblen)
  | .defCfaOffsetSf =>
    let (arg1, uleblen) ← leb128ToInt p
    .ok (some { result with arg1 := UInt64.ofInt arg1 }, uleblen)
  | .rememberState | .restoreState => .ok (some result, 0)
  | .expression | .valExpression =>
    let (arg1Reg, uleblen) ← readRegFromLEB128 p
    let (expr, blocklen) ← readExprBlock (p.drop uleblen)
    .ok (some { result with arg1Reg, expr }, uleblen + blocklen)
  | .defCfaExpression =>
    let (expr, blocklen) ← readExprBlock p
    .ok (some { result with expr }, blocklen)
  | .nop => .ok (none, 0)
  | .restoreExtended | .defCfaSf | .valOffset | .valOffsetSf | .other _ =>
    .error (.death ("dwarf cfa instruction 0x" ++ hex low ++ " not yet handled in parseFDEInstructions\n"))

/-! ### One equation per operand layout -/

section Parse
variable {type : CfaOp} (p : List UInt8)

theorem parse_plain (h : type = .rememberState ∨ type = .restoreState) :
    parseInstruction (UInt8.ofNat type.code) p = .ok (some (.blank type), 0) := by
  rcases h with rfl | rfl <;> rfl

theorem parse_register1 (h : type = .undefined ∨ type = .sameValue ∨ type = .defCfaRegister) :
    parseInstruction (UInt8.ofNat type.code) p = (do
      let (arg1Reg, uleblen) ← readRegFromLEB128 p
      .ok (some { RegInstruction.blank type with arg1Reg }, uleblen)) := by
  rcases h with rfl | rfl | rfl <;> rfl

theorem parse_register2 (h : type = .register) : parseInstruction (UInt8.ofNat type.code) p = (do
    let (arg1Reg, uleblen) ← readRegFromLEB128 p
    let (arg2Reg, uleblen2) ← readRegFromLEB128 (p.drop uleblen)
    .ok (some { RegInstruction.blank .register with arg1Reg, arg2Reg }, uleblen + uleblen2)) := by
  rw [h]; rfl

theorem parse_defCfa (h : type = .defCfa) : parseInstruction (UInt8.ofNat type.code) p = (do
    let (arg1Reg, uleblen) ← readRegFromLEB128 p
    let (arg2, uleblen2) ← leb128ToUInt (p.drop uleblen)
    .ok (some { RegInstruction.blank .defCfa with arg1Reg, arg2 := UInt64.ofNat arg2 }, uleblen + uleblen2)) := by
  rw [h]; rfl

theorem parse_uleb (h : type = .defCfaOffset ∨ type = .gnuArgsSize) :
    parseInstruction (UInt8.ofNat type.code) p = (do
      let (arg1, uleblen) ← leb128ToUInt p
      .ok (some { RegInstruction.blank type with arg1 := UInt64.ofNat arg1 }, uleblen)) := by
  rcases h with rfl | rfl <;> rfl

theorem parse_sleb (h : type = .defCfaOffsetSf) : parseInstruction (UInt8.ofNat type.code) p = (do
    let (arg1, uleblen) ← leb128ToInt p
    .ok (some { RegInstruction.blank .defCfaOffsetSf with arg1 := UInt64.ofInt arg1 }, uleblen)) := by
  rw [h]; rfl

theorem parse_offset {byte : UInt8} (h : CfaOp.ofByte byte = .offset) : parseInstruction byte p = (do
    let (arg2, uleblen) ← leb128ToUWord p
    .ok (some { RegInstruction.blank .offset with
      arg1 := UInt64.ofNat (byte.toNat &&& 0x3f), arg1Reg := .basic (Int32.ofNat (byte.toNat &&& 0x3f)),
      arg2 := UInt64.ofNat arg2 }, uleblen)) := by
  unfold parseInstruction
  simp only [h]

theorem parse_offsetExtended (h : type = .offsetExtended) : parseInstruction (UInt8.ofNat type.code) p = (do
    let (arg1Reg, uleblen) ← readRegFromLEB128 p
    let (arg2, _) ← leb128ToUWord (p.drop uleblen)
    .ok (some { RegInstruction.blank .offsetExtended with arg1Reg, arg2 := UInt64.ofNat arg2 }, uleblen)) := by
  rw [h]; rfl

theorem parse_offsetExtendedSf (h : type = .offsetExtendedSf) : parseInstruction (UInt8.ofNat type.code) p = (do
    let (arg1Reg, uleblen) ← readRegFromLEB128 p
    let (arg2, _) ← leb128ToSWord (p.drop uleblen)
    .ok (some { RegInstruction.blank .offsetExtendedSf with arg1Reg, arg2 := UInt64.ofInt arg2 }, uleblen)) := by
  rw [h]; rfl

theorem parse_block (h : type = .defCfaExpression) : parseInstruction (UInt8.ofNat type.code) p = (do
    let (expr, blocklen) ← readExprBlock p
    .ok (some { RegInstruction.blank .defCfaExpression with expr }, blocklen)) := by
  rw [h]; rfl

theorem parse_regBlock (h : type = .expression ∨ type = .valExpression) :
    parseInstruction (UInt8.ofNat type.code) p = (do
      let (arg1Reg, uleblen) ← readRegFromLEB128 p
      let (expr, blocklen) ← readExprBlock (p.drop uleblen)
      .ok (some { RegInstruction.blank type with arg1Reg, expr }, uleblen + blocklen)) := by
  rcases h with rfl | rfl <;> rfl

end Parse

def parseFDELoop : Nat → List UInt8 → Int → Except Fault (List RegInstruction × List UInt8)
  | fuel, bytes, len =>
    if len ≤ 0 then .ok ([], bytes)
    else
      match fuel, bytes with
      | 0, _ => .error .undefined
      | _ + 1, [] => .error .undefined
      | fuel + 1, byte :: bytes => do
        let (instr, k) ← parseInstruction byte bytes
        let (rest, left) ← parseFDELoop fuel (bytes.drop k) (len - k - 1)
        .ok (instr.toList ++ rest, left)

def parseFDEInstructions (bytes : List UInt8) (len : Int) : Except Fault (List RegInstruction × List UInt8) :=
  parseFDELoop (bytes.length + 1) bytes len

end Katana
