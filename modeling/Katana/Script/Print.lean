/-
  Katana.Script.Print — a dwarfscript is written (emitDwarfscript in shell/commands/dwarfscriptCommand.cpp, with
  printInstruction and printExpr of dwarf_instr.c, printReg of register.c and printEHPointerEncoding of eh_pe.c).

  The text is what is written into the file. The functions of libc that print are given by the formats the code uses:
  an integer is written signed or unsigned, to the base of ten or sixteen, whatever type it has in the structure.
-/
import Katana.Script.Lexer
import Katana.CallFrameInfo

namespace Katana.Script

open Lib

/-! ## Formats -/

def hexDigits (n : Nat) : Text := text "0x" ++ digits 16 n

/-- A word as `%zi` takes it. -/
def signedWord (w : UInt64) : Int := w.toInt64.toInt

/-- `printReg` with `DWIPF_NO_REG_NAMES`. -/
def printReg (reg : PoReg) : Except Fault Text :=
  match reg.type with
  | .basic => .ok (text "r" ++ signedDigits reg.u.toInt)
  | _ => (strForReg reg).map text

def dwpeFormat (encoding : UInt8) : Option Text :=
  match encoding.toNat &&& 0xF with
  | 0x0 => some (text "DW_EH_PE_absptr") | 0x1 => some (text "DW_EH_PE_uleb128") | 0x2 => some (text "DW_EH_PE_udata2")
  | 0x3 => some (text "DW_EH_PE_udata4") | 0x4 => some (text "DW_EH_PE_udata8") | 0x9 => some (text "DW_EH_PE_sleb128")
  | 0xA => some (text "DW_EH_PE_sdata2") | 0xB => some (text "DW_EH_PE_sdata4") | 0xC => some (text "DW_EH_PE_sdata8")
  | _ => none

def dwpeApplication (encoding : UInt8) : Option Text :=
  match encoding.toNat &&& 0xF0 with
  | 0x10 => some (text "DW_EH_PE_pcrel") | 0x20 => some (text "DW_EH_PE_textrel") | 0x30 => some (text "DW_EH_PE_datarel")
  | 0x40 => some (text "DW_EH_PE_funcrel") | 0x50 => some (text "DW_EH_PE_aligned")
  | 0x90 => some (text "DW_EH_PE_indirect, DW_EH_PE_pcrel")
  | _ => none

def printEHPointerEncoding (encoding : UInt8) : Except Fault Text :=
  if encoding = ehPeOmit then .ok (text "DW_EH_PE_omit")
  else
    match dwpeFormat encoding with
    | none =>
      .error (.death ("Trying to print an unknown pointer encoding format 0x" ++ hex (encoding.toNat &&& 0xF) ++ "\n"))
    | some format =>
      if encoding.toNat &&& 0xF0 = 0 then .ok format
      else
        match dwpeApplication encoding with
        | none => .error (.death ("Trying to print an unknown pointer encoding application 0x" ++
            hex (encoding.toNat &&& 0xF0) ++ "\n"))
        | some application => .ok (format ++ text ", " ++ application)

/-! ## Expressions -/

/-- `dwarfExpressionNames`. -/
def dwarfExpressionName (type : DwOp) : Option Text :=
  match type with
  | .addr => some (text "DW_OP_addr") | .deref => some (text "DW_OP_deref") | .const1u => some (text "DW_OP_const1u")
  | .const1s => some (text "DW_OP_const1s") | .const2u => some (text "DW_OP_const2u")
  | .const2s => some (text "DW_OP_const2s") | .const4u => some (text "DW_OP_const4u")
  | .const4s => some (text "DW_OP_const4s") | .const8u => some (text "DW_OP_const8u")
  | .const8s => some (text "DW_OP_const8s") | .constu => some (text "DW_OP_constu") | .consts => some (text "DW_OP_consts")
  | .dup => some (text "DW_OP_dup") | .drop => some (text "DW_OP_drop") | .opOver => some (text "DW_OP_over")
  | .pick => some (text "DW_OP_pick") | .swap => some (text "DW_OP_swap") | .rot => some (text "DW_OP_rot")
  | .xderef => some (text "DW_OP_xderef") | .abs => some (text "DW_OP_abs") | .and => some (text "DW_OP_and")
  | .div => some (text "DW_OP_div") | .minus => some (text "DW_OP_minus") | .mod => some (text "DW_OP_mod")
  | .mul => some (text "DW_OP_mul") | .neg => some (text "DW_OP_neg") | .not => some (text "DW_OP_not")
  | .or => some (text "DW_OP_or") | .plus => some (text "DW_OP_plus") | .plusUconst => some (text "DW_OP_plus_uconst")
  | .shl => some (text "DW_OP_shl") | .shr => some (text "DW_OP_shr") | .shra => some (text "DW_OP_shra")
  | .xor => some (text "DW_OP_xor") | .bra => some (text "DW_OP_bra") | .eq => some (text "DW_OP_eq")
  | .ge => some (text "DW_OP_ge") | .gt => some (text "DW_OP_gt") | .le => some (text "DW_OP_le")
  | .lt => some (text "DW_OP_lt") | .ne => some (text "DW_OP_ne") | .skip => some (text "DW_OP_skip")
  | .lit n => some (text "DW_OP_lit" ++ digits 10 n) | .reg n => some (text "DW_OP_reg" ++ digits 10 n)
  | .breg n => some (text "DW_OP_breg" ++ digits 10 n) | .other 0x90 => some (text "DW_OP_regx")
  | .fbreg => some (text "DW_OP_fbreg") | .bregx => some (text "DW_OP_bregx") | .other 0x93 => some (text "DW_OP_piece")
  | .derefSize => some (text "DW_OP_deref_size") | .xderefSize => some (text "DW_OP_xderef_size")
  | .nop => some (text "DW_OP_nop") | .pushObjectAddress => some (text "DW_OP_push_object_address")
  | .other 0x98 => some (text "DW_OP_call2") | .other 0x99 => some (text "DW_OP_call4")
  | .other 0x9a => some (text "DW_OP_call_ref") | .formTlsAddress => some (text "DW_OP_form_tls_address")
  | .callFrameCfa => some (text "DW_OP_call_frame_cfa") | .other 0x9d => some (text "DW_OP_bit_piece")
  | .other 0x9e => some (text "DW_OP_implicit_value") | .other 0x9f => some (text "DW_OP_stack_value")
  | .other _ => none

def printOperands (instr : DwarfExprInstr) : Text :=
  match instr.type with
  | .const1u | .pick | .derefSize | .xderefSize | .const2u | .skip | .bra | .const4u | .const8u | .addr | .constu
  | .plusUconst => text " " ++ hexDigits instr.arg1.toNat
  | .const1s | .const2s | .const4s | .const8s | .consts | .breg _ | .fbreg =>
    text " " ++ signedDigits (signedWord instr.arg1)
  -- ` 0x%zx 0x%zi`
  | .bregx => text " " ++ hexDigits instr.arg1.toNat ++ text " 0x" ++ signedDigits (signedWord instr.arg2)
  | _ => []

def printExprInstruction (instr : DwarfExprInstr) : Except Fault Text :=
  match dwarfExpressionName instr.type with
  | none => .error .undefined
  | some name => .ok (text "\t\t" ++ name ++ printOperands instr ++ text "\n")

/-- `dwarfscript` is `DWIPF_DWARFSCRIPT`. -/
def printExpr (dwarfscript : Bool) (expr : DwarfExpr) : Except Fault Text := do
  let lines ← expr.mapM printExprInstruction
  if dwarfscript then .ok (text "begin EXPRESSION\n" ++ lines.flatten ++ text "end EXPRESSION\n") else .ok lines.flatten

/-! ## Instructions -/

def printRegOr (reg : PoReg) (arg : Int) : Except Fault Text :=
  if reg.type = .none then .ok (text "r" ++ signedDigits arg) else printReg reg

/-- `printInstruction` with `DWIPF_NO_REG_NAMES`. -/
def printInstruction (dwarfscript : Bool) (inst : RegInstruction) : Except Fault Text :=
  match inst.type with
  | .setLoc => .ok (text "DW_CFA_set_loc " ++ signedDigits (signedWord inst.arg1) ++ text "\n")
  | .advanceLoc => .ok (text "DW_CFA_advance_loc " ++ signedDigits (signedWord inst.arg1) ++ text "\n")
  | .advanceLoc1 => .ok (text "DW_CFA_advance_loc1 " ++ signedDigits (signedWord inst.arg1) ++ text "\n")
  | .advanceLoc2 => .ok (text "DW_CFA_advance_loc2 " ++ signedDigits (signedWord inst.arg1) ++ text "\n")
  | .advanceLoc4 => .ok (text "DW_CFA_advance_loc4 " ++ signedDigits (signedWord inst.arg1) ++ text "\n")
  | .undefined => .ok (text "DW_CFA_undefined " ++ (text "r" ++ signedDigits (signedWord inst.arg1)) ++ text "\n")
  | .offset => .ok (text "DW_CFA_offset " ++ (text "r" ++ signedDigits (signedWord inst.arg1)) ++ text " " ++
      digits 10 inst.arg2.toNat ++ text "\n")
  | .offsetExtended => do
    let reg ← printReg inst.arg1Reg
    .ok (text "DW_CFA_offset_extended " ++ reg ++ text " " ++ digits 10 inst.arg2.toNat ++ text "\n")
  | .offsetExtendedSf => do
    let reg ← printReg inst.arg1Reg
    .ok (text "DW_CFA_offset_extended_sf " ++ reg ++ text " " ++ signedDigits (signedWord inst.arg2) ++ text "\n")
  | .restore => do
    let reg ← printRegOr inst.arg1Reg (signedWord inst.arg1)
    .ok (text "DW_CFA_restore " ++ reg ++ text " " ++ text "\n")
  | .register => do
    let reg ← printRegOr inst.arg1Reg (signedWord inst.arg1)
    let reg2 ← printRegOr inst.arg2Reg inst.arg2.toNat
    .ok (text "DW_CFA_register " ++ reg ++ text " " ++ reg2 ++ text " " ++ text "\n")
  | .katanaFixups | .katanaFixupsPointer => do
    let reg ← printRegOr inst.arg1Reg (signedWord inst.arg1)
    let reg2 ← printRegOr inst.arg2Reg inst.arg2.toNat
    -- the first case falls through to the second
    .ok ((if inst.type = .katanaFixups then text "DW_CFA_KATANA_fixups " else []) ++ text "DW_CFA_KATANA_fixups_pointer " ++
      reg ++ text " " ++ reg2 ++ text " fde#" ++ digits 10 inst.arg3.toNat ++ text " \n")
  | .defCfa => do
    let reg ← printRegOr inst.arg1Reg (signedWord inst.arg1)
    .ok (text "DW_CFA_def_cfa " ++ reg ++ text " " ++ signedDigits (signedWord inst.arg2) ++ text " " ++ text "\n")
  | .defCfaRegister => do
    let reg ← printRegOr inst.arg1Reg (signedWord inst.arg1)
    .ok (text "DW_CFA_def_cfa_register " ++ reg ++ text "\n")
  | .defCfaOffset => .ok (text "DW_CFA_def_cfa_offset " ++ digits 10 inst.arg1.toNat ++ text "\n")
  -- without the `_sf`
  | .defCfaOffsetSf => .ok (text "DW_CFA_def_cfa_offset " ++ signedDigits (signedWord inst.arg1) ++ text "\n")
  | .rememberState => .ok (text "DW_CFA_remember_state\n")
  | .restoreState => .ok (text "DW_CFA_restore_state\n")
  | .nop => .ok (text "DW_CFA_nop\n")
  | .expression => do
    let reg ← printReg inst.arg1Reg
    let expr ← printExpr dwarfscript inst.expr
    .ok (text "DW_CFA_expression " ++ reg ++ text "\n" ++ expr)
  | .defCfaExpression => do
    let expr ← printExpr dwarfscript inst.expr
    .ok (text "DW_CFA_def_cfa_expression " ++ expr)
  | .valExpression => do
    let reg ← printReg inst.arg1Reg
    let expr ← printExpr dwarfscript inst.expr
    .ok (text "DW_CFA_val_expression " ++ reg ++ text "\n" ++ expr)
  | .gnuArgsSize => .ok (text "DW_CFA_GNU_args_size " ++ signedDigits (signedWord inst.arg1) ++ text "\n")
  | .restoreExtended | .sameValue | .valOffset | .valOffsetSf | .defCfaSf | .other _ =>
    .error (.death ("unsupported DWARF instruction 0x" ++ hex inst.type.code ++ " in printInstruction"))

def printInstructions (dwarfscript : Bool) (instructions : List RegInstruction) : Except Fault Text := do
  let lines ← instructions.mapM (printInstruction dwarfscript)
  .ok (text "begin INSTRUCTIONS\n" ++ lines.flatten ++ text "end INSTRUCTIONS\n")

/-! ## Records -/

def line (name : String) (value : Text) : Text := text name ++ (value ++ text "\n")

def encodingLine (name : String) (present : Bool) (encoding : UInt8) : Except Fault Text :=
  if present then do
    let value ← printEHPointerEncoding encoding
    .ok (line name value)
  else .ok []

/-- `idx` is the CIE's position, an int. -/
def printCIEInfo (idx : Nat) (cie : CIE) : Except Fault Text := do
  defined (idx < 2 ^ 31)
  let fdePtrEnc ← encodingLine "fde_ptr_enc: " cie.augmentationFlags.fdeEnc cie.fdePointerEncoding
  let fdeLsdaPtrEnc ← encodingLine "fde_lsda_ptr_enc: " cie.augmentationFlags.fdeLsda cie.fdeLSDAPointerEncoding
  let personalityPtrEnc ←
    encodingLine "personality_ptr_enc: " cie.augmentationFlags.personality cie.personalityPointerEncoding
  let instructions ← printInstructions false cie.initialInstructions
  .ok (text "begin CIE\n" ++ line "index: " (digits 10 idx) ++ line "version: " (digits 10 cie.version.toNat) ++
    line "data_align: " (signedDigits cie.dataAlign.toInt) ++ line "code_align: " (signedDigits (signedWord cie.codeAlign)) ++
    line "return_addr_rule: " (digits 10 cie.returnAddrRuleNum.toNat) ++ fdePtrEnc ++ fdeLsdaPtrEnc ++ personalityPtrEnc ++
    (if cie.augmentationFlags.personality then line "personality: " (hexDigits cie.personalityFunction.toNat) else []) ++
    instructions ++ text "end CIE\n")

/-- `guess` is `getFunctionNameAtPC`, which ends the program at a name that cannot be demangled. -/
def printFDEInfo (guess : Int32 → Except Fault Text) (cies : List CIE) (fde : FDE) : Except Fault Text := do
  let name ← guess fde.lowpc
  defined (fde.cie < cies.length)
  defined (-2 ^ 31 ≤ fde.highpc.toInt - fde.lowpc.toInt ∧ fde.highpc.toInt - fde.lowpc.toInt < 2 ^ 31)
  let instructions ← printInstructions true fde.instructions
  .ok (text "#function guess: " ++ name ++ text "\n" ++ text "begin FDE\n" ++
    line "index: " (signedDigits fde.idx.toInt) ++
    line "cie_index: " (digits 10 fde.cie) ++ line "initial_location: " (hexDigits fde.lowpc.toUInt32.toNat) ++
    line "address_range: " (hexDigits (fde.highpc - fde.lowpc).toUInt32.toNat) ++
    (if fde.hasLSDAPointer then line "lsda_idx: " (hexDigits fde.lsdaIdx.toNat) else []) ++ instructions ++
    text "end FDE\n")

def printCallSite (idx : Nat) (callSite : CallSiteRecord) : Text :=
  text "#call site " ++ digits 10 idx ++ text "\n" ++ text "begin CALL_SITE\n" ++
    line "position: " (hexDigits callSite.position.toNat) ++ line "length: " (hexDigits callSite.length.toNat) ++
    line "landing_pad: " (hexDigits callSite.landingPadPosition.toNat) ++
    line "has_action: " (text (if callSite.hasAction then "true" else "false")) ++
    (if callSite.hasAction then line "first_action: " (signedDigits (signedWord callSite.firstAction)) else []) ++
    text "end CALL_SITE\n"

def printAction (idx : Nat) (action : ActionRecord) : Text :=
  text "#action " ++ digits 10 idx ++ text "\n" ++ text "begin ACTION\n" ++
    line "type_idx: "
      (if action.typeFilterIndex = -1 then text "match_all" else signedDigits action.typeFilterIndex.toInt) ++
    line "next: " (if action.hasNextAction then signedDigits (signedWord action.nextAction) else text "none") ++
    text "end ACTION\n"

def printTypeEntry (idx : Nat) (entry : UInt64) : Text :=
  text "#type entry " ++ digits 10 idx ++ text "\n" ++ line "typeinfo: " (hexDigits entry.toNat)

def printLSDA (idx : Nat) (lsda : LSDA) : Except Fault Text := do
  let ttEncoding ← printEHPointerEncoding lsda.ttEncoding
  .ok (text "#LSDA " ++ digits 10 idx ++ text "\n" ++ text "begin LSDA\n" ++
    line "lpstart: " (hexDigits lsda.lpStart.toNat) ++ line "typeinfo_enc: " ttEncoding ++
    (lsda.callSiteTable.mapIdx printCallSite).flatten ++ (lsda.actionTable.mapIdx printAction).flatten ++
    (lsda.typeTable.mapIdx printTypeEntry).flatten ++ text "end LSDA\n")

/-- One after the other, with their positions. -/
def printAll {α : Type} (print : Nat → α → Except Fault Text) (l : List α) : Except Fault Text := do
  let texts ← (l.mapIdx fun i a => (i, a)).mapM fun p => print p.1 p.2
  .ok texts.flatten

/-- `emitDwarfscript`, from the call-frame information on; the numbers of CIEs and FDEs are ints. -/
def emitDwarfscript (guess : Int32 → Except Fault Text) (cfi : CallFrameInfo) : Except Fault Text := do
  let hdrTableEnc ← encodingLine "eh_hdr_table_enc: " cfi.isEHFrame cfi.hdrTableEncoding
  defined (cfi.cies.length < 2 ^ 31)
  let cies ← printAll printCIEInfo cfi.cies
  defined (cfi.fdes.length < 2 ^ 31)
  let fdes ← printAll (fun _ => printFDEInfo guess cfi.cies) cfi.fdes
  let lsdas ← printAll printLSDA (cfi.exceptTable.getD [])
  .ok (line "section_type: " (text (if cfi.isEHFrame then "\".eh_frame\"" else "\".debug_frame\"")) ++
    line "section_addr: " (hexDigits cfi.ehAddress.toNat) ++
    (if cfi.isEHFrame then line "eh_hdr_addr: " (hexDigits cfi.ehHdrAddress.toNat) ++
      line "except_table_addr: " (hexDigits cfi.exceptTableAddress.toNat) else []) ++ hdrTableEnc ++
    cies ++ fdes ++ lsdas)

end Katana.Script
