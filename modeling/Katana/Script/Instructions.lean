/-
  Katana.Script.Instructions — what is kept of the instructions of a dwarfscript.

  An instruction is printed by `printInstruction` and read by the rule of its name. `DW_CFA_def_cfa_offset_sf` is
  printed under another name, the expressions of a CIE without the lines around them, and several instructions not at
  all; `DW_CFA_undefined` and `DW_CFA_offset` are printed with the number next to their register.

  Proved:
  - `readsItems_instruction`: an instruction is read if it is kept, and where it is read as the same.
  - `reads_instructions`: so is the section of instructions of a CIE or an FDE.
-/
import Katana.Script.Expressions

namespace Katana.Script

open Lib RegInstruction

/-! ## Registers -/

structure RegKept (reg : PoReg) : Prop where
  basic : reg.type = .basic
  nonneg : 0 ≤ reg.u.toInt

instance (reg : PoReg) : Decidable (RegKept reg) :=
  decidable_of_iff (reg.type = .basic ∧ 0 ≤ reg.u.toInt) ⟨fun h => ⟨h.1, h.2⟩, fun h => ⟨h.basic, h.nonneg⟩⟩

section
variable {reg : PoReg} {arg : Int} {w : Text} {d : UInt8}

theorem plain_text_hex (n : Nat) : Plain (text (hex n)) := by
  rw [text_hex]
  exact fun b hb => plain_of_isHexDigit (isHexDigit_digits n b hb)

theorem plain_text_toString (x : Int) : Plain (text (toString x)) := by
  rw [text_toString]
  exact (printed_signed x).plain

/-- The name of a register that is not one of the machine. -/
theorem printReg_braces {reg : PoReg} {w : Text} (htype : reg.type ≠ .basic) (h : printReg reg = .ok w) :
    Plain w ∧ ∃ b v, w = 123 :: b :: v ∧ b ∈ text "CENO" := by
  obtain ⟨type, size, u⟩ := reg
  cases type with
  | basic => exact absurd rfl htype
  | none | poStart | poEnd => cases h
  | currTargOld | currTargNew =>
    cases h
    simp only [text_append]
    refine ⟨?_, 67, _, rfl, by decide⟩
    exact plain_append (plain_append (plain_append (plain_append (by decide +kernel) (plain_text_hex _)) (by decide +kernel))
      (plain_text_hex _)) (by decide +kernel)
  | expr =>
    cases h
    simp only [text_append]
    exact ⟨plain_append (plain_append (by decide +kernel) (plain_text_hex _)) (by decide +kernel), 69, _, rfl, by decide⟩
  | newSymVal =>
    cases h
    simp only [text_append]
    refine ⟨?_, 78, _, rfl, by decide⟩
    exact plain_append (plain_append (by decide +kernel) (plain_text_toString _)) (by decide +kernel)
  | oldSymVal =>
    cases h
    simp only [text_append]
    refine ⟨?_, 79, _, rfl, by decide⟩
    exact plain_append (plain_append (by decide +kernel) (plain_text_toString _)) (by decide +kernel)
  | cfa =>
    cases h
    exact ⟨by decide +kernel, 67, _, rfl, by decide⟩

/-- **A register.** -/
theorem reads_printReg {P : Token → Prop} (h : printReg reg = .ok w) (hd : d = space ∨ d = newline) :
    Reads P registerLit (w ++ [d]) (RegKept reg) (RegKept reg) reg.u := by
  by_cases htype : reg.type = .basic
  · have hw : w = text "r" ++ signedDigits reg.u.toInt := by
      unfold printReg at h
      rw [htype] at h
      exact (Except.ok.inj h).symm
    have hread : Reads P registerLit (text "r" ++ signedDigits reg.u.toInt ++ [d]) _ _ _ := reads_index reg.u.toInt hd
    rw [intOf_index] at hread
    rw [hw]
    exact hread.imp RegKept.nonneg fun hu => ⟨htype, hu⟩
  · obtain ⟨hplain, b, v, rfl, hb⟩ := printReg_braces htype h
    obtain ⟨t, more, hpieces, ht⟩ := pieces_brace (v := v) hb
    exact (reads_notRegister hplain hpieces ht hd).imp (fun hk => htype hk.basic) False.elim

/-- The register, or the number next to it where there is none. -/
def regOrIndex (reg : PoReg) (arg : Int) : Int32 := if reg.type = .none then intOf arg else reg.u

theorem reads_printRegOr {P : Token → Prop} (h : printRegOr reg arg = .ok w) (hd : d = space ∨ d = newline) :
    Reads P registerLit (w ++ [d]) ((reg.type = .none ∧ 0 ≤ arg) ∨ RegKept reg) ((reg.type = .none ∧ 0 ≤ arg) ∨ RegKept reg)
      (regOrIndex reg arg) := by
  unfold printRegOr at h
  unfold regOrIndex
  by_cases htype : reg.type = .none
  · rw [if_pos htype] at h ⊢
    cases h
    exact (reads_index arg hd).imp (fun hk => hk.elim And.right fun hreg => absurd (htype.symm.trans hreg.basic) (by simp))
      fun harg => .inl ⟨htype, harg⟩
  · rw [if_neg htype] at h ⊢
    exact (reads_printReg h hd).imp (fun hk => hk.elim (fun hnone => absurd hnone.1 htype) id) .inr

end

/-! ## Instructions -/

/-- The number next to a register, where it is printed, is read as the register. -/
structure NumberKept (arg : UInt64) (reg : PoReg) : Prop where
  basic : reg.type = .basic
  nonneg : arg.toNat < 2 ^ 63
  number : intOf arg.toNat = reg.u

instance (arg : UInt64) (reg : PoReg) : Decidable (NumberKept arg reg) :=
  decidable_of_iff (reg.type = .basic ∧ arg.toNat < 2 ^ 63 ∧ intOf arg.toNat = reg.u)
    ⟨fun h => ⟨h.1, h.2.1, h.2.2⟩, fun h => ⟨h.basic, h.nonneg, h.number⟩⟩

/-- The operands of an instruction are kept; `dwarfscript` is that of `printExpr`. -/
def Kept (dwarfscript : Bool) (inst : RegInstruction) : Prop :=
  match inst.type with
  | .setLoc | .advanceLoc | .advanceLoc1 | .advanceLoc2 | .advanceLoc4 | .gnuArgsSize => inst.arg1.toNat < 2 ^ 31
  | .defCfaOffset => Short inst.arg1
  | .undefined => NumberKept inst.arg1 inst.arg1Reg
  | .offset => NumberKept inst.arg1 inst.arg1Reg ∧ Short inst.arg2
  | .offsetExtended => RegKept inst.arg1Reg ∧ Short inst.arg2
  | .offsetExtendedSf => RegKept inst.arg1Reg ∧ SignedShort inst.arg2
  | .restore => (inst.arg1Reg.type = .none ∧ inst.arg1.toNat < 2 ^ 31) ∨ RegKept inst.arg1Reg
  | .register => RegKept inst.arg1Reg ∧ RegKept inst.arg2Reg
  | .defCfa => RegKept inst.arg1Reg ∧ inst.arg2.toNat < 2 ^ 31
  | .defCfaRegister => RegKept inst.arg1Reg
  | .rememberState | .restoreState | .nop => True
  | .defCfaExpression => dwarfscript = true ∧ ExprKept inst.expr
  | .expression | .valExpression => dwarfscript = true ∧ RegKept inst.arg1Reg ∧ ExprKept inst.expr
  | _ => False

instance (dwarfscript : Bool) (inst : RegInstruction) : Decidable (Kept dwarfscript inst) := by
  obtain ⟨type, _, _, _, _, _, _⟩ := inst
  cases type <;> dsimp only [Kept] <;> infer_instance

/-- The instruction its lines are read as. -/
def readInstruction (inst : RegInstruction) : RegInstruction :=
  match inst.type with
  | .setLoc | .advanceLoc | .advanceLoc1 | .advanceLoc2 | .advanceLoc4 | .gnuArgsSize =>
    { RegInstruction.blank inst.type with arg1 := readSigned inst.arg1 }
  | .defCfaOffset => { RegInstruction.blank .defCfaOffset with arg1 := readWord inst.arg1 }
  | .defCfaOffsetSf => { RegInstruction.blank .defCfaOffset with arg1 := readSigned inst.arg1 }
  | .undefined => makeBasicRegister1 (.blank .undefined) (intOf (signedWord inst.arg1))
  | .offset => { makeBasicRegister1 (.blank .offset) (intOf (signedWord inst.arg1)) with arg2 := readWord inst.arg2 }
  | .offsetExtended => { makeBasicRegister1 (.blank .offsetExtended) inst.arg1Reg.u with arg2 := readWord inst.arg2 }
  | .offsetExtendedSf => { makeBasicRegister1 (.blank .offsetExtendedSf) inst.arg1Reg.u with arg2 := readSigned inst.arg2 }
  | .restore | .defCfaRegister => makeBasicRegister1 (.blank inst.type) (regOrIndex inst.arg1Reg (signedWord inst.arg1))
  | .register =>
    makeBasicRegister2 (makeBasicRegister1 (.blank .register) (regOrIndex inst.arg1Reg (signedWord inst.arg1)))
      (regOrIndex inst.arg2Reg inst.arg2.toNat)
  | .defCfa =>
    { makeBasicRegister1 (.blank .defCfa) (regOrIndex inst.arg1Reg (signedWord inst.arg1)) with
      arg2 := readSigned inst.arg2 }
  | .defCfaExpression => { RegInstruction.blank .defCfaExpression with expr := inst.expr.map readOp }
  | .expression | .valExpression =>
    { makeBasicRegister1 (.blank inst.type) inst.arg1Reg.u with expr := inst.expr.map readOp }
  | type => .blank type

section Instruction
variable {inst : RegInstruction} {dwarfscript : Bool} {d : UInt8} {t u : Text} {K C : Prop}

def printedNames : List (String × CfaOp) := [
  ("DW_CFA_set_loc ", .setLoc), ("DW_CFA_advance_loc ", .advanceLoc), ("DW_CFA_advance_loc1 ", .advanceLoc1),
  ("DW_CFA_advance_loc2 ", .advanceLoc2), ("DW_CFA_advance_loc4 ", .advanceLoc4), ("DW_CFA_undefined ", .undefined),
  ("DW_CFA_offset ", .offset), ("DW_CFA_offset_extended ", .offsetExtended),
  ("DW_CFA_offset_extended_sf ", .offsetExtendedSf), ("DW_CFA_restore ", .restore), ("DW_CFA_register ", .register),
  ("DW_CFA_def_cfa ", .defCfa), ("DW_CFA_def_cfa_register ", .defCfaRegister), ("DW_CFA_def_cfa_offset ", .defCfaOffset),
  ("DW_CFA_remember_state\n", .rememberState), ("DW_CFA_restore_state\n", .restoreState), ("DW_CFA_nop\n", .nop),
  ("DW_CFA_expression ", .expression), ("DW_CFA_def_cfa_expression ", .defCfaExpression),
  ("DW_CFA_val_expression ", .valExpression), ("DW_CFA_GNU_args_size ", .gnuArgsSize)]

theorem wordsOf_printedNames : ∀ p ∈ printedNames, wordsOf (text p.1) = some [.cfa p.2] := by
  decide +kernel

/-- An instruction that is printed as a name and the operands behind it. -/
theorem readsItems_named (name : String) (op : CfaOp) {instr : RegInstruction} {acc : List RegInstruction}
    (hname : (name, op) ∈ printedNames) (ht : t = text name ++ u) (h : Reads NotBegin (instructionStmt op) u K C instr) :
    ReadsItems NotBegin (· = .keyword .end_) instructionItem t K C acc (acc ++ [instr]) := by
  rw [ht]
  exact readsItems_of (lexes_words (wordsOf_printedNames _ hname)) (by simp) rfl (fun _ => rfl) (h.map (acc ++ [·]))

section Values
variable {w : UInt64} {u : Int32} {reg : PoReg}

theorem signedWord_nonneg : 0 ≤ signedWord w ↔ w.toNat < 2 ^ 63 := by
  have hlt := w.toNat_lt
  rw [signedWord_eq]
  split <;> omega

theorem numberKept_iff : NumberKept w reg ↔ 0 ≤ signedWord w ∧ reg.type = .basic ∧ intOf (signedWord w) = reg.u := by
  rw [signedWord_nonneg]
  constructor
  · intro h
    exact ⟨h.nonneg, h.basic, by rw [signedWord_of_lt h.nonneg, h.number]⟩
  · intro h
    obtain ⟨hnonneg, hbasic, hnumber⟩ := h
    exact ⟨hbasic, hnonneg, by rw [← hnumber, signedWord_of_lt hnonneg]⟩

theorem operand_basic_iff : (PoReg.basic u).operand = reg.operand ↔ reg.type = .basic ∧ u = reg.u := by
  unfold PoReg.operand PoReg.basic
  rw [Operand.reg.injEq, Int32.toInt_inj]
  exact and_congr_left' eq_comm

/-- A register that came back was one of the machine. -/
theorem regKept_of_operand {arg : Int} (h : (reg.type = .none ∧ 0 ≤ arg) ∨ RegKept reg)
    (hsame : (PoReg.basic u).operand = reg.operand) : RegKept reg := by
  rcases h with ⟨hnone, -⟩ | hreg
  · rw [(operand_basic_iff.mp hsame).1] at hnone
    cases hnone
  · exact hreg

theorem regOrIndex_of_kept (h : RegKept reg) (arg : Int) : regOrIndex reg arg = reg.u := by
  unfold regOrIndex
  rw [if_neg (by simp [h.basic])]

theorem operand_of_kept (h : RegKept reg) : (PoReg.basic reg.u).operand = reg.operand :=
  operand_basic_iff.mpr ⟨h.basic, rfl⟩

/-- The number of a register that is restored. -/
theorem restored_iff {inst : RegInstruction}
    (h : (inst.arg1Reg.type = .none ∧ 0 ≤ signedWord inst.arg1) ∨ RegKept inst.arg1Reg) :
    (PoReg.basic (regOrIndex inst.arg1Reg (signedWord inst.arg1))).operand = inst.restored ↔
      (inst.arg1Reg.type = .none ∧ inst.arg1.toNat < 2 ^ 31) ∨ RegKept inst.arg1Reg := by
  unfold restored
  rcases h with ⟨hnone, hnonneg⟩ | hreg
  · have hlt := signedWord_nonneg.mp hnonneg
    have hnot : ¬ RegKept inst.arg1Reg := fun hreg => absurd (hnone.symm.trans hreg.basic) (by simp)
    have hindex : regOrIndex inst.arg1Reg (signedWord inst.arg1) = intOf inst.arg1.toNat := by
      unfold regOrIndex
      rw [if_pos hnone, signedWord_of_lt hlt]
    rw [if_pos hnone, hindex]
    unfold PoReg.operand PoReg.basic
    rw [Operand.reg.injEq]
    constructor
    · intro hsame
      have hval : (intOf inst.arg1.toNat).toInt = inst.arg1.toNat := hsame.2
      have hhi := (intOf inst.arg1.toNat).toInt_lt
      exact .inl ⟨hnone, by omega⟩
    · intro hkept
      rcases hkept with ⟨-, hshort⟩ | hreg
      · exact ⟨rfl, intOf_toInt (by omega) (by omega)⟩
      · exact absurd hreg hnot
  · have hne : ¬ inst.arg1Reg.type = .none := by simp [hreg.basic]
    rw [if_neg hne, regOrIndex_of_kept hreg]
    exact ⟨fun _ => .inr hreg, fun _ => operand_of_kept hreg⟩

end Values

/-- What is kept is read as the same. -/
theorem same_readInstruction (h : Kept dwarfscript inst) : Same (readInstruction inst) inst := by
  obtain ⟨type, arg1, expr, arg1Reg, arg2, arg2Reg, arg3⟩ := inst
  cases type with
  | nop | rememberState | restoreState => exact ⟨rfl, rfl⟩
  | setLoc | advanceLoc | advanceLoc1 | advanceLoc2 | advanceLoc4 | gnuArgsSize =>
    exact ⟨rfl, congrArg (fun w => [Operand.num w]) (readSigned_nonneg_iff.mpr h).2⟩
  | defCfaOffset => exact ⟨rfl, congrArg (fun w => [Operand.num w]) (readWord_iff.mpr h)⟩
  | undefined =>
    obtain ⟨-, hreg⟩ := numberKept_iff.mp h
    exact ⟨rfl, congrArg (fun o => [o]) (operand_basic_iff.mpr hreg)⟩
  | offset =>
    obtain ⟨hnumber, hshort⟩ : NumberKept arg1 arg1Reg ∧ Short arg2 := h
    obtain ⟨-, hreg⟩ := numberKept_iff.mp hnumber
    exact ⟨rfl, congrArg₂ (fun o w => [o, Operand.num w]) (operand_basic_iff.mpr hreg) (readWord_iff.mpr hshort)⟩
  | offsetExtended =>
    obtain ⟨hreg, hshort⟩ : RegKept arg1Reg ∧ Short arg2 := h
    exact ⟨rfl, congrArg₂ (fun o w => [o, Operand.num w]) (operand_of_kept hreg) (readWord_iff.mpr hshort)⟩
  | offsetExtendedSf =>
    obtain ⟨hreg, hshort⟩ : RegKept arg1Reg ∧ SignedShort arg2 := h
    exact ⟨rfl, congrArg₂ (fun o w => [o, Operand.num w]) (operand_of_kept hreg) (readSigned_iff.mpr hshort)⟩
  | defCfa =>
    obtain ⟨hreg, hsmall⟩ : RegKept arg1Reg ∧ arg2.toNat < 2 ^ 31 := h
    have hoperand := operand_of_kept hreg
    rw [← regOrIndex_of_kept hreg (signedWord arg1)] at hoperand
    exact ⟨rfl, congrArg₂ (fun o w => [o, Operand.num w]) hoperand (readSigned_nonneg_iff.mpr hsmall).2⟩
  | defCfaRegister =>
    have hreg : RegKept arg1Reg := h
    have hoperand := operand_of_kept hreg
    rw [← regOrIndex_of_kept hreg (signedWord arg1)] at hoperand
    exact ⟨rfl, congrArg (fun o => [o]) hoperand⟩
  | register =>
    obtain ⟨hreg, hreg2⟩ : RegKept arg1Reg ∧ RegKept arg2Reg := h
    have hoperand := operand_of_kept hreg
    have hoperand2 := operand_of_kept hreg2
    rw [← regOrIndex_of_kept hreg (signedWord arg1)] at hoperand
    rw [← regOrIndex_of_kept hreg2 arg2.toNat] at hoperand2
    exact ⟨rfl, congrArg₂ (fun o o2 => [o, o2]) hoperand hoperand2⟩
  | restore =>
    have hkept : (arg1Reg.type = .none ∧ arg1.toNat < 2 ^ 31) ∨ RegKept arg1Reg := h
    have hread : (arg1Reg.type = .none ∧ 0 ≤ signedWord arg1) ∨ RegKept arg1Reg :=
      hkept.imp_left fun hnone => ⟨hnone.1, signedWord_nonneg.mpr (by omega)⟩
    exact ⟨rfl, congrArg (fun o => [o])
      ((@restored_iff ⟨.restore, arg1, expr, arg1Reg, arg2, arg2Reg, arg3⟩ hread).mpr hkept)⟩
  | defCfaExpression =>
    obtain ⟨-, hexpr⟩ : dwarfscript = true ∧ ExprKept expr := h
    exact ⟨rfl, congrArg (fun o => [o]) (exprOperand_eq_iff.mpr (same_readOps hexpr.operations))⟩
  | expression | valExpression =>
    obtain ⟨-, hreg, hexpr⟩ : dwarfscript = true ∧ RegKept arg1Reg ∧ ExprKept expr := h
    exact ⟨rfl, congrArg₂ (fun o o2 => [o, o2]) (operand_of_kept hreg)
      (exprOperand_eq_iff.mpr (same_readOps hexpr.operations))⟩
  | restoreExtended | sameValue | valOffset | valOffsetSf | defCfaSf | defCfaOffsetSf | katanaFixups | katanaFixupsPointer
  | other _ => exact h.elim

theorem plain_printRegOr {reg : PoReg} {arg : Int} {w : Text} (h : printRegOr reg arg = .ok w) : Plain w := by
  have hindex (x : Int) : Plain (text "r" ++ signedDigits x) := plain_append (by decide) (printed_signed x).plain
  unfold printRegOr at h
  split at h
  · cases h
    exact hindex arg
  · by_cases htype : reg.type = .basic
    · unfold printReg at h
      rw [htype] at h
      cases h
      exact hindex _
    · exact (printReg_braces htype h).1

/-- The end of the line of `DW_CFA_KATANA_fixups`, of which a part is a comment. -/
theorem lexes_fde (n : Nat) : Lexes (text "fde#" ++ (digits 10 n ++ text " \n")) [.keyword .fde] := by
  have hcomment : Lexes (pound :: (digits 10 n ++ [space] ++ [newline])) [] := lexes_comment (by
    intro hmem
    rcases List.mem_append.mp hmem with hmem | hmem
    · exact absurd (isDigit_digits n _ hmem) (by decide)
    · exact absurd hmem (by decide))
  have hpick (rest : Text) : pick lexRules
      (102 :: ([100, 101] ++ (pound :: (digits 10 n ++ [space] ++ [newline]) ++ rest))) = some (3, .keyword .fde) := by
    have hrules : lexRules.filter (·.canStart 102) = [
        wordRule "first_action" (.keyword .firstAction), wordRule "fde_ptr_enc" (.keyword .fdePtrEnc),
        wordRule "fde_lsda_ptr_enc" (.keyword .fdeLsdaPtrEnc), wordRule "fde" (.keyword .fde),
        wordRule "false" (.boolLit false), identifierRule, invalidRule] := rfl
    rw [pick_filter, hrules]
    rfl
  have hlex := lexes_pick (by decide) hpick hcomment
  have htext : text "fde#" ++ (digits 10 n ++ text " \n") =
      102 :: [100, 101] ++ pound :: (digits 10 n ++ [space] ++ [newline]) := by
    simp only [List.append_assoc]
    rfl
  rw [htext]
  exact hlex

/-- The expressions of a CIE are printed without the lines a section has to begin with. -/
theorem reads_bareExpression {expr : DwarfExpr} {a : DwarfExpr} (h : printExpr false expr = .ok t) :
    Reads NotBegin expressionBlock t False False a := by
  unfold printExpr at h
  obtain ⟨lines, hlines, h⟩ := bind_eq_ok.mp h
  cases h
  obtain ⟨tokens, hlex, hhead, -⟩ := readsItems_mapM printExprInstruction expr opsRead _ _
    (fun done instr rest _ line hline => by
      rw [opsRead_snoc]
      exact readsItems_operation hline _) hlines
  exact ⟨tokens, hlex, yields_notBegin (fun _ ht => ht) hhead⟩

theorem reads_printExpr {expr : DwarfExpr} (h : printExpr dwarfscript expr = .ok t) :
    Reads NotBegin expressionBlock t (dwarfscript = true ∧ ExprKept expr)
      (List.Forall₂ DwarfExprInstr.Same (expr.map readOp) expr → dwarfscript = true ∧ ExprKept expr) (expr.map readOp) := by
  cases dwarfscript with
  | true => exact (reads_expression h).imp And.right fun hc hsame => ⟨rfl, hc hsame⟩
  | false => exact (reads_bareExpression h).imp (fun hk => absurd hk.1 (by simp)) False.elim

/-- `DW_CFA_KATANA_fixups` is an identifier to the scanner. -/
theorem readsItems_fixups {reg reg2 : PoReg} {arg arg2 : Int} {w w2 : Text} {n : Nat} {acc acc' : List RegInstruction}
    (both : Bool) (hw : printRegOr reg arg = .ok w) (hw2 : printRegOr reg2 arg2 = .ok w2) :
    ReadsItems NotBegin (· = .keyword .end_) instructionItem
      ((if both then text "DW_CFA_KATANA_fixups " else []) ++ text "DW_CFA_KATANA_fixups_pointer " ++ w ++ text " " ++ w2 ++
        text " fde#" ++ digits 10 n ++ text " \n") False False acc acc' := by
  have hfirst : ∃ name more, Lexes ((if both then text "DW_CFA_KATANA_fixups " else []) ++
      text "DW_CFA_KATANA_fixups_pointer ") (.identifier name :: more) := by
    cases both with
    | true =>
      exact ⟨text "DW_CFA_KATANA_fixups", [.identifier (text "DW_CFA_KATANA_fixups_pointer")],
        lexes_words (by decide +kernel)⟩
    | false => exact ⟨text "DW_CFA_KATANA_fixups_pointer", [], lexes_words (by decide +kernel)⟩
  obtain ⟨name, more, hfirst⟩ := hfirst
  have hspace : space = space ∨ space = newline := .inl rfl
  have hlex := hfirst.append ((lexes_word hspace (plain_printRegOr hw)).append
    ((lexes_word hspace (plain_printRegOr hw2)).append (lexes_fde n)))
  have hstuck : ReadsItems NotBegin (· = .keyword .end_) instructionItem _ False False acc acc' :=
    readsItems_stuck hlex (by simp) rfl (by simp)
  refine hstuck.of_text ?_
  simp only [List.append_assoc]
  rfl

/-- One number, with its sign, which is refused. -/
theorem readsItems_advance (name : String) (op : CfaOp) (hname : (name, op) ∈ printedNames)
    (hstmt : instructionStmt op = nonnegIntLit >>= fun arg1 => pure { RegInstruction.blank op with arg1 := addrOfInt arg1 })
    (arg1 : UInt64) (acc : List RegInstruction) :
    ReadsItems NotBegin (· = .keyword .end_) instructionItem (text name ++ signedDigits (signedWord arg1) ++ text "\n")
      (arg1.toNat < 2 ^ 31) (readSigned arg1 = arg1 → arg1.toNat < 2 ^ 31) acc
      (acc ++ [{ RegInstruction.blank op with arg1 := readSigned arg1 }]) := by
  have hread := ((printed_signed (signedWord arg1)).nonneg (P := NotBegin) (.inr rfl)).map fun arg1 =>
    { RegInstruction.blank op with arg1 := addrOfInt arg1 }
  rw [← hstmt] at hread
  exact (readsItems_named name op hname (List.append_assoc _ _ _) hread).imp (fun hk => (readSigned_nonneg_iff.mpr hk).1)
    fun hc hsame => readSigned_nonneg_iff.mp ⟨hc, hsame⟩

/-- **An instruction** is read if it is kept, and where it is read as the same. -/
theorem readsItems_instruction (h : printInstruction dwarfscript inst = .ok t) (acc : List RegInstruction) :
    ReadsItems NotBegin (· = .keyword .end_) instructionItem t (Kept dwarfscript inst)
      (Same (readInstruction inst) inst → Kept dwarfscript inst) acc (acc ++ [readInstruction inst]) := by
  obtain ⟨type, arg1, expr, arg1Reg, arg2, arg2Reg, arg3⟩ := inst
  have hspace : space = space ∨ space = newline := .inl rfl
  have hnewline : newline = space ∨ newline = newline := .inr rfl
  have hsigned := printed_signed (signedWord arg1)
  have hnum {w v : UInt64} (hw : [Operand.num w] = [Operand.num v]) : w = v := Operand.num.inj (List.cons.inj hw).1
  cases type with
  | nop =>
    cases h
    exact (readsItems_named "DW_CFA_nop\n" .nop (by simp [printedNames])
      (List.append_nil _).symm (reads_pure _)).imp (fun _ => trivial) fun _ _ => trivial
  | rememberState =>
    cases h
    exact (readsItems_named "DW_CFA_remember_state\n" .rememberState (by simp [printedNames])
      (List.append_nil _).symm (reads_pure _)).imp (fun _ => trivial) fun _ _ => trivial
  | restoreState =>
    cases h
    exact (readsItems_named "DW_CFA_restore_state\n" .restoreState (by simp [printedNames])
      (List.append_nil _).symm (reads_pure _)).imp (fun _ => trivial) fun _ _ => trivial
  | setLoc =>
    cases h
    exact (readsItems_advance "DW_CFA_set_loc " .setLoc (by simp [printedNames]) rfl arg1 acc).imp id
      fun hc hsame => hc (hnum hsame.2)
  | advanceLoc =>
    cases h
    exact (readsItems_advance "DW_CFA_advance_loc " .advanceLoc (by simp [printedNames]) rfl arg1 acc).imp id
      fun hc hsame => hc (hnum hsame.2)
  | advanceLoc1 =>
    cases h
    exact (readsItems_advance "DW_CFA_advance_loc1 " .advanceLoc1 (by simp [printedNames]) rfl arg1 acc).imp id
      fun hc hsame => hc (hnum hsame.2)
  | advanceLoc2 =>
    cases h
    exact (readsItems_advance "DW_CFA_advance_loc2 " .advanceLoc2 (by simp [printedNames]) rfl arg1 acc).imp id
      fun hc hsame => hc (hnum hsame.2)
  | advanceLoc4 =>
    cases h
    exact (readsItems_advance "DW_CFA_advance_loc4 " .advanceLoc4 (by simp [printedNames]) rfl arg1 acc).imp id
      fun hc hsame => hc (hnum hsame.2)
  | gnuArgsSize =>
    cases h
    exact (readsItems_advance "DW_CFA_GNU_args_size " .gnuArgsSize (by simp [printedNames]) rfl arg1 acc).imp id
      fun hc hsame => hc (hnum hsame.2)
  | defCfaOffset =>
    cases h
    refine ReadsItems.imp (readsItems_named "DW_CFA_def_cfa_offset " .defCfaOffset (by simp [printedNames])
      (List.append_assoc _ _ _)
      (((printed_decimal arg1.toNat).nonneg hnewline).map _)) (fun _ => by omega) fun _ hsame => readWord_iff.mp ?_
    exact Operand.num.inj (List.cons.inj hsame.2).1
  | defCfaOffsetSf =>
    cases h
    exact ReadsItems.imp (readsItems_named "DW_CFA_def_cfa_offset " .defCfaOffset (by simp [printedNames])
      (List.append_assoc _ _ _)
      ((hsigned.nonneg hnewline).map _)) False.elim fun _ hsame => absurd hsame.1 (by simp [readInstruction, blank])
  | undefined =>
    cases h
    refine ReadsItems.imp (readsItems_named "DW_CFA_undefined " .undefined (by simp [printedNames])
      (List.append_assoc _ _ _)
      ((reads_index (signedWord arg1) hnewline).map _)) (fun hk => (numberKept_iff.mp hk).1)
      fun hc hsame => numberKept_iff.mpr ⟨hc, ?_⟩
    exact operand_basic_iff.mp (List.cons.inj hsame.2).1
  | offset =>
    cases h
    refine ReadsItems.imp (readsItems_named "DW_CFA_offset " .offset (by simp [printedNames])
      (by simp only [List.append_assoc]; rfl)
      ((reads_index (signedWord arg1) hspace).bind (((printed_decimal arg2.toNat).nonneg hnewline).map _)))
      (fun hk => ⟨(numberKept_iff.mp hk.1).1, by omega⟩) fun hc hsame => ?_
    obtain ⟨hoperand, hrest⟩ := List.cons.inj hsame.2
    exact ⟨numberKept_iff.mpr ⟨hc.1, operand_basic_iff.mp hoperand⟩,
      readWord_iff.mp (Operand.num.inj (List.cons.inj hrest).1)⟩
  | offsetExtended =>
    obtain ⟨reg, hreg, h⟩ := bind_eq_ok.mp h
    cases h
    refine ReadsItems.imp (readsItems_named "DW_CFA_offset_extended " .offsetExtended (by simp [printedNames])
      (by simp only [List.append_assoc]; rfl)
      ((reads_printReg hreg hspace).bind (((printed_decimal arg2.toNat).nonneg hnewline).map _)))
      (fun hk => ⟨hk.1, by omega⟩) fun hc hsame => ⟨hc.1, readWord_iff.mp ?_⟩
    exact Operand.num.inj (List.cons.inj (List.cons.inj hsame.2).2).1
  | offsetExtendedSf =>
    obtain ⟨reg, hreg, h⟩ := bind_eq_ok.mp h
    cases h
    refine ReadsItems.imp (readsItems_named "DW_CFA_offset_extended_sf " .offsetExtendedSf (by simp [printedNames])
      (by simp only [List.append_assoc]; rfl)
      ((reads_printReg hreg hspace).bind (((printed_signed (signedWord arg2)).int hnewline).map _)))
      (fun hk => ⟨hk.1, trivial⟩) fun hc hsame => ⟨hc.1, readSigned_iff.mp ?_⟩
    exact Operand.num.inj (List.cons.inj (List.cons.inj hsame.2).2).1
  | restore =>
    obtain ⟨reg, hreg, h⟩ := bind_eq_ok.mp h
    cases h
    refine ReadsItems.imp (readsItems_named "DW_CFA_restore " .restore (by simp [printedNames])
      (by simp only [List.append_assoc]; rfl)
      (((reads_printRegOr hreg hspace).before hnewline).map _)) (fun hk => ?_) fun hc hsame => ?_
    · exact Or.imp_left (fun hnone => ⟨hnone.1, signedWord_nonneg.mpr (by have := hnone.2; omega)⟩) hk
    · exact (@restored_iff ⟨.restore, arg1, expr, arg1Reg, arg2, arg2Reg, arg3⟩ hc).mp (List.cons.inj hsame.2).1
  | register =>
    obtain ⟨reg, hreg, h⟩ := bind_eq_ok.mp h
    obtain ⟨reg2, hreg2, h⟩ := bind_eq_ok.mp h
    cases h
    refine ReadsItems.imp (readsItems_named "DW_CFA_register " .register (by simp [printedNames])
      (by simp only [List.append_assoc]; rfl)
      ((reads_printRegOr hreg hspace).bind (((reads_printRegOr hreg2 hspace).before hnewline).map _)))
      (fun hk => ⟨.inr hk.1, .inr hk.2⟩) fun hc hsame => ?_
    obtain ⟨hoperand, hrest⟩ := List.cons.inj hsame.2
    exact ⟨regKept_of_operand hc.1 hoperand, regKept_of_operand hc.2 (List.cons.inj hrest).1⟩
  | defCfa =>
    obtain ⟨reg, hreg, h⟩ := bind_eq_ok.mp h
    cases h
    refine ReadsItems.imp (readsItems_named "DW_CFA_def_cfa " .defCfa (by simp [printedNames])
      (by simp only [List.append_assoc]; rfl)
      ((reads_printRegOr hreg hspace).bind ((((printed_signed (signedWord arg2)).nonneg hspace).before hnewline).map _)))
      (fun hk => ⟨.inr hk.1, (readSigned_nonneg_iff.mpr hk.2).1⟩) fun hc hsame => ?_
    obtain ⟨hoperand, hrest⟩ := List.cons.inj hsame.2
    exact ⟨regKept_of_operand hc.1 hoperand,
      readSigned_nonneg_iff.mp ⟨hc.2, Operand.num.inj (List.cons.inj hrest).1⟩⟩
  | defCfaRegister =>
    obtain ⟨reg, hreg, h⟩ := bind_eq_ok.mp h
    cases h
    refine ReadsItems.imp (readsItems_named "DW_CFA_def_cfa_register " .defCfaRegister (by simp [printedNames])
      (List.append_assoc _ _ _)
      ((reads_printRegOr hreg hnewline).map _)) (fun hk => .inr hk) fun hc hsame => ?_
    exact regKept_of_operand hc (List.cons.inj hsame.2).1
  | defCfaExpression =>
    obtain ⟨block, hblock, h⟩ := bind_eq_ok.mp h
    cases h
    refine ReadsItems.imp (readsItems_named "DW_CFA_def_cfa_expression " .defCfaExpression (by simp [printedNames])
      rfl
      ((reads_printExpr hblock).map _)) (fun hk => hk) fun hc hsame => hc (exprOperand_eq_iff.mp ?_)
    exact (List.cons.inj hsame.2).1
  | expression =>
    obtain ⟨reg, hreg, h⟩ := bind_eq_ok.mp h
    obtain ⟨block, hblock, h⟩ := bind_eq_ok.mp h
    cases h
    refine ReadsItems.imp (readsItems_named "DW_CFA_expression " .expression (by simp [printedNames])
      (by simp only [List.append_assoc]; rfl)
      ((reads_printReg hreg hnewline).bind ((reads_printExpr hblock).map _)))
      (fun hk => ⟨hk.2.1, hk.1, hk.2.2⟩) fun hc hsame => ?_
    obtain ⟨hscript, hexpr⟩ := hc.2 (exprOperand_eq_iff.mp (List.cons.inj (List.cons.inj hsame.2).2).1)
    exact ⟨hscript, hc.1, hexpr⟩
  | valExpression =>
    obtain ⟨reg, hreg, h⟩ := bind_eq_ok.mp h
    obtain ⟨block, hblock, h⟩ := bind_eq_ok.mp h
    cases h
    refine ReadsItems.imp (readsItems_named "DW_CFA_val_expression " .valExpression (by simp [printedNames])
      (by simp only [List.append_assoc]; rfl)
      ((reads_printReg hreg hnewline).bind ((reads_printExpr hblock).map _)))
      (fun hk => ⟨hk.2.1, hk.1, hk.2.2⟩) fun hc hsame => ?_
    obtain ⟨hscript, hexpr⟩ := hc.2 (exprOperand_eq_iff.mp (List.cons.inj (List.cons.inj hsame.2).2).1)
    exact ⟨hscript, hc.1, hexpr⟩
  | katanaFixups =>
    obtain ⟨reg, hreg, h⟩ := bind_eq_ok.mp h
    obtain ⟨reg2, hreg2, h⟩ := bind_eq_ok.mp h
    cases h
    exact (readsItems_fixups true hreg hreg2).imp False.elim False.elim
  | katanaFixupsPointer =>
    obtain ⟨reg, hreg, h⟩ := bind_eq_ok.mp h
    obtain ⟨reg2, hreg2, h⟩ := bind_eq_ok.mp h
    cases h
    exact (readsItems_fixups false hreg hreg2).imp False.elim False.elim
  | restoreExtended | sameValue | valOffset | valOffsetSf | defCfaSf | other _ => cases h

theorem printReg_ok {reg : PoReg} (h : RegKept reg) : ∃ w, printReg reg = .ok w := by
  unfold printReg
  rw [h.basic]
  exact ⟨_, rfl⟩

theorem printRegOr_ok {reg : PoReg} (h : reg.type = .none ∨ RegKept reg) (arg : Int) : ∃ w, printRegOr reg arg = .ok w := by
  unfold printRegOr
  rcases h with hnone | hreg
  · rw [if_pos hnone]
    exact ⟨_, rfl⟩
  · rw [if_neg (by simp [hreg.basic])]
    exact printReg_ok hreg

theorem printInstruction_ok (h : Kept dwarfscript inst) : ∃ t, printInstruction dwarfscript inst = .ok t := by
  obtain ⟨type, arg1, expr, arg1Reg, arg2, arg2Reg, arg3⟩ := inst
  cases type with
  | offsetExtended | offsetExtendedSf =>
    obtain ⟨w, hw⟩ := printReg_ok (show RegKept arg1Reg from h.1)
    exact ⟨_, by simp only [printInstruction, hw, bind_ok]; rfl⟩
  | restore =>
    have hkept : (arg1Reg.type = .none ∧ arg1.toNat < 2 ^ 31) ∨ RegKept arg1Reg := h
    obtain ⟨w, hw⟩ := printRegOr_ok (hkept.imp_left And.left) (signedWord arg1)
    exact ⟨_, by simp only [printInstruction, hw, bind_ok]; rfl⟩
  | register =>
    obtain ⟨hreg, hreg2⟩ : RegKept arg1Reg ∧ RegKept arg2Reg := h
    obtain ⟨w, hw⟩ := printRegOr_ok (.inr hreg) (signedWord arg1)
    obtain ⟨w2, hw2⟩ := printRegOr_ok (.inr hreg2) arg2.toNat
    exact ⟨_, by simp only [printInstruction, hw, hw2, bind_ok]; rfl⟩
  | defCfa =>
    obtain ⟨w, hw⟩ := printRegOr_ok (.inr (show RegKept arg1Reg from h.1)) (signedWord arg1)
    exact ⟨_, by simp only [printInstruction, hw, bind_ok]; rfl⟩
  | defCfaRegister =>
    obtain ⟨w, hw⟩ := printRegOr_ok (.inr (show RegKept arg1Reg from h)) (signedWord arg1)
    exact ⟨_, by simp only [printInstruction, hw, bind_ok]; rfl⟩
  | defCfaExpression =>
    obtain ⟨rfl, hexpr⟩ : dwarfscript = true ∧ ExprKept expr := h
    obtain ⟨t, ht⟩ := printExpr_ok hexpr
    exact ⟨_, by simp only [printInstruction, ht, bind_ok]; rfl⟩
  | expression | valExpression =>
    obtain ⟨rfl, hreg, hexpr⟩ : dwarfscript = true ∧ RegKept arg1Reg ∧ ExprKept expr := h
    obtain ⟨w, hw⟩ := printReg_ok hreg
    obtain ⟨t, ht⟩ := printExpr_ok hexpr
    exact ⟨_, by simp only [printInstruction, hw, ht, bind_ok]; rfl⟩
  | restoreExtended | sameValue | valOffset | valOffsetSf | defCfaSf | defCfaOffsetSf | katanaFixups | katanaFixupsPointer
  | other _ => exact h.elim
  | _ => exact ⟨_, rfl⟩

theorem printInstructions_ok {instructions : List RegInstruction} (h : ∀ inst ∈ instructions, Kept dwarfscript inst) :
    ∃ t, printInstructions dwarfscript instructions = .ok t := by
  obtain ⟨lines, hlines⟩ := mapM_exists fun inst hinst => printInstruction_ok (h inst hinst)
  exact ⟨_, by simp only [printInstructions, hlines, bind_ok]; rfl⟩

theorem same_readInstructions {instructions : List RegInstruction} (h : ∀ inst ∈ instructions, Kept dwarfscript inst) :
    List.Forall₂ Same (instructions.map readInstruction) instructions :=
  List.forall₂_map_left_iff.mpr (List.forall₂_same.mpr fun inst hinst => same_readInstruction (h inst hinst))

/-- **The instructions of a section** are read if all are kept, and where all are read as the same. -/
theorem reads_instructions {P : Token → Prop} {instructions : List RegInstruction}
    (h : printInstructions dwarfscript instructions = .ok t) :
    ReadsFrom (.keyword .begin_) P instructionSection t (∀ inst ∈ instructions, Kept dwarfscript inst)
      (List.Forall₂ Same (instructions.map readInstruction) instructions → ∀ inst ∈ instructions, Kept dwarfscript inst)
      (instructions.map readInstruction) := by
  unfold printInstructions at h
  obtain ⟨lines, hlines, h⟩ := bind_eq_ok.mp h
  cases h
  have hitems := readsItems_mapM (printInstruction dwarfscript) instructions (fun done => done.map readInstruction)
    (fun _ => Kept dwarfscript) (fun _ inst => Same (readInstruction inst) inst → Kept dwarfscript inst)
    (fun done inst rest _ line hline => by
      rw [List.map_append]
      exact readsItems_instruction hline _) hlines
  have hblock : ReadsFrom (.keyword .begin_) P instructionSection _ _ _ _ :=
    (readsFrom_expectBegin "INSTRUCTIONS\n" (by simp [sectionNames])).bind
      (hitems.closed (f := pure) "INSTRUCTIONS\n" (by simp [sectionNames]) (yields_pure _) (by simp) rfl fun _ => rfl)
  rw [List.append_assoc]
  refine hblock.imp (fun hk => ⟨trivial, each_iff.mpr hk, trivial⟩) fun hc hsame inst hmem => ?_
  exact each_iff.mp hc.2.1 inst hmem (List.forall₂_same.mp (List.forall₂_map_left_iff.mp hsame) inst hmem)

end Instruction

end Katana.Script
