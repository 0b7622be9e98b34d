/-
  Katana.Dwarf.Codec — which call-frame instructions come back from their serialized bytes.

  `serializeDwarfRegInstructions` and `parseFDEInstructions` each have a switch over the opcodes.
  The reader drops `DW_CFA_nop`s; an instruction that is read back denotes the same opcode and the
  same operands (`Same`). Where the two switches differ the instruction is not `Faithful`:
  `DW_CFA_same_value` is written without its register, the second operand of the extended offsets is
  not skipped, `DW_CFA_restore_extended` has no reader, the packed opcodes take more than six bits,
  and the widths of several operands differ.

  Proved:
  - `parse_faithful`: a list of faithful instructions is read back, whatever their operands.
  - `faithful_of_parseAll`: the bytes of one instruction that is not faithful are never read back as it.
  - `roundTrips_iff`: every prefix of an accepted list is read back exactly when every instruction of
    the list is faithful.
-/
import Mathlib.Data.List.Induction
import Katana.Dwarf.ExprCodec

namespace Katana

open Lib

/-! ## What an instruction says -/

inductive Operand where
  | reg (type : RegType) (index : Int)
  | num (arg : UInt64)
  | expr (ops : List (DwOp × List UInt64))
  deriving DecidableEq, Repr

def PoReg.operand (r : PoReg) : Operand := .reg r.type r.u.toInt

def exprOperand (expr : DwarfExpr) : Operand := .expr (expr.map fun instr => (instr.type, instr.operands))

namespace RegInstruction

/-- The register `DW_CFA_restore` names: `arg1Reg`, or the number `arg1` when that is not used, as
`printInstruction` prints it. -/
def restored (inst : RegInstruction) : Operand :=
  if inst.arg1Reg.type = .none then .reg .basic inst.arg1.toNat else inst.arg1Reg.operand

def operands (inst : RegInstruction) : List Operand :=
  match inst.type with
  | .nop | .rememberState | .restoreState | .other _ => []
  | .setLoc | .advanceLoc | .advanceLoc1 | .advanceLoc2 | .advanceLoc4 | .defCfaOffset | .defCfaOffsetSf | .gnuArgsSize =>
    [.num inst.arg1]
  | .restore => [inst.restored]
  | .restoreExtended | .undefined | .sameValue | .defCfaRegister => [inst.arg1Reg.operand]
  | .offset | .offsetExtended | .offsetExtendedSf | .valOffset | .valOffsetSf | .defCfa | .defCfaSf =>
    [inst.arg1Reg.operand, .num inst.arg2]
  | .register => [inst.arg1Reg.operand, inst.arg2Reg.operand]
  | .defCfaExpression => [exprOperand inst.expr]
  | .expression | .valExpression => [inst.arg1Reg.operand, exprOperand inst.expr]
  | .katanaFixups | .katanaFixupsPointer => [inst.arg1Reg.operand, inst.arg2Reg.operand, .num inst.arg3]

/-- The same opcode with the same operands. -/
def Same (a b : RegInstruction) : Prop := a.type = b.type ∧ a.operands = b.operands

instance (a b : RegInstruction) : Decidable (Same a b) := inferInstanceAs (Decidable (_ ∧ _))

/-- The opcode and the operands are ones the reader gives back. -/
def Faithful (inst : RegInstruction) : Prop :=
  match inst.type with
  | .nop | .rememberState | .restoreState | .advanceLoc1 | .advanceLoc4 => True
  | .advanceLoc => inst.arg1.toNat < 64
  | .advanceLoc2 => inst.arg1.toNat < 256
  | .offset =>
    inst.arg1Reg.u.toUInt32.toNat < 64 ∧
      (inst.arg2.toNat < 2 ^ 31 ∨ 2 ^ 35 - 2 ^ 31 ≤ inst.arg2.toNat ∧ inst.arg2.toNat < 2 ^ 35 - 2 ^ 27)
  | .restore => inst.restored = .reg .basic (inst.arg1.toNat % 64 : Nat)
  | .undefined | .defCfaRegister => readsBack inst.arg1Reg.u
  | .register => readsBack inst.arg1Reg.u ∧ readsBack inst.arg2Reg.u
  | .offsetExtended | .offsetExtendedSf => readsBack inst.arg1Reg.u ∧ inst.arg2 = 0
  | .defCfa => readsBack inst.arg1Reg.u ∧ inst.arg2.toNat < 2 ^ 32
  | .defCfaOffset | .gnuArgsSize => inst.arg1.toNat < 2 ^ 32
  | .defCfaOffsetSf => inst.arg1.toNat < 2 ^ 27 ∨ 2 ^ 64 - 2 ^ 27 ≤ inst.arg1.toNat
  | .defCfaExpression => BlockFaithful inst.expr
  | .expression | .valExpression => readsBack inst.arg1Reg.u ∧ BlockFaithful inst.expr
  | _ => False

instance (inst : RegInstruction) : Decidable inst.Faithful := by
  unfold Faithful; split <;> infer_instance

end RegInstruction

open RegInstruction

/-- Whatever the serializer accepts, the reader gives back without the `nop`s, with nothing left over. -/
def RoundTrips (l : List RegInstruction) : Prop :=
  ∀ d, serializeDwarfRegInstructions l = .ok d →
    ∃ l', parseFDEInstructions d.instrs d.instrs.length = .ok (l', []) ∧
      List.Forall₂ Same l' (l.filter (·.type ≠ .nop))

/-! ## Serializing one instruction -/

def rawBytes (inst : RegInstruction) : Except Fault (List UInt8) := do
  let instr ← regInstructionToRawDwarfInstruction inst
  instructionBytes instr

theorem addBytes_ok {instrs d : DwarfInstructions} {bytes : List UInt8} (h : addBytes instrs bytes = .ok d) :
    d.instrs = instrs.instrs ++ bytes := by
  unfold addBytes at h
  split at h
  · obtain ⟨-, -, h⟩ := bind_eq_ok.mp h
    cases h; rfl
  · cases h; rfl

/-- The bytes of a list, instruction by instruction. -/
inductive Emits : List RegInstruction → List UInt8 → Prop where
  | nil : Emits [] []
  | cons {inst : RegInstruction} {l : List RegInstruction} {bytes rest : List UInt8} :
    rawBytes inst = .ok bytes → Emits l rest → Emits (inst :: l) (bytes ++ rest)

theorem emits_of_foldlM {l : List RegInstruction} {d0 d : DwarfInstructions}
    (h : l.foldlM (fun result inst => do
      let instr ← regInstructionToRawDwarfInstruction inst
      addInstruction result instr) d0 = .ok d) :
    ∃ bytes, Emits l bytes ∧ d.instrs = d0.instrs ++ bytes := by
  induction l generalizing d0 with
  | nil => cases h; exact ⟨[], .nil, by simp⟩
  | cons inst l ih =>
    rw [List.foldlM_cons] at h
    obtain ⟨d1, h1, h⟩ := bind_eq_ok.mp h
    obtain ⟨instr, hinstr, h1⟩ := bind_eq_ok.mp h1
    obtain ⟨bytes, hbytes, h1⟩ := bind_eq_ok.mp h1
    obtain ⟨rest, hrest, hd⟩ := ih h
    refine ⟨bytes ++ rest, .cons (bind_eq_ok.mpr ⟨instr, hinstr, hbytes⟩) hrest, ?_⟩
    rw [hd, addBytes_ok h1, List.append_assoc]

theorem emits_of_serialize {l : List RegInstruction} {d : DwarfInstructions}
    (h : serializeDwarfRegInstructions l = .ok d) : Emits l d.instrs := by
  obtain ⟨bytes, hbytes, hd⟩ := emits_of_foldlM h
  rw [hd]; exact hbytes

theorem serialize_of_append {p l : List RegInstruction} {d : DwarfInstructions}
    (h : serializeDwarfRegInstructions (p ++ l) = .ok d) : ∃ d', serializeDwarfRegInstructions p = .ok d' := by
  unfold serializeDwarfRegInstructions at h
  rw [List.foldlM_append] at h
  obtain ⟨d', hd', -⟩ := bind_eq_ok.mp h
  exact ⟨d', hd'⟩

theorem emits_append {p l : List RegInstruction} {b : List UInt8} (h : Emits (p ++ l) b) :
    ∃ bp bl, Emits p bp ∧ Emits l bl ∧ b = bp ++ bl := by
  induction p generalizing b with
  | nil => exact ⟨[], b, .nil, h, rfl⟩
  | cons inst p ih =>
    cases h with
    | cons hb h =>
      obtain ⟨bp, bl, hp, hl, rfl⟩ := ih h
      exact ⟨_, bl, .cons hb hp, hl, (List.append_assoc _ _ _).symm⟩

/-! ## The reader's loop -/

def parseAll (bytes : List UInt8) : Except Fault (List RegInstruction × List UInt8) :=
  parseFDEInstructions bytes bytes.length

theorem parseFDELoop_fuel {fuel fuel' : Nat} {bytes : List UInt8} (h : bytes.length < fuel) (h' : bytes.length < fuel')
    (len : Int) : parseFDELoop fuel bytes len = parseFDELoop fuel' bytes len := by
  induction fuel generalizing fuel' bytes len with
  | zero => omega
  | succ fuel ih =>
    obtain ⟨fuel', rfl⟩ := Nat.exists_eq_add_of_le' (show 1 ≤ fuel' by omega)
    unfold parseFDELoop
    split
    · rfl
    · cases bytes with
      | nil => rfl
      | cons byte bytes =>
        simp only [List.length_cons] at h h'
        dsimp only
        refine congrArg _ (funext fun ⟨instr, k⟩ => ?_)
        have hd : (bytes.drop k).length ≤ bytes.length := by simp
        dsimp only
        rw [ih (show (bytes.drop k).length < fuel by omega) (show (bytes.drop k).length < fuel' by omega)]

@[simp] theorem parseAll_nil : parseAll [] = .ok ([], []) := rfl

/-- One turn of the loop. -/
theorem parseAll_cons (byte : UInt8) (bytes : List UInt8) :
    parseAll (byte :: bytes) = (do
      let (instr, k) ← parseInstruction byte bytes
      let (rest, left) ← parseAll (bytes.drop k)
      .ok (instr.toList ++ rest, left)) := by
  unfold parseAll parseFDEInstructions
  rw [List.length_cons, parseFDELoop, if_neg (by push_cast; omega)]
  dsimp only
  refine congrArg _ (funext fun ⟨instr, k⟩ => ?_)
  have hd : (bytes.drop k).length ≤ bytes.length := by simp
  dsimp only
  by_cases hk : k ≤ bytes.length
  · rw [parseFDELoop_fuel (show (bytes.drop k).length < bytes.length + 1 by omega)
      (show (bytes.drop k).length < (bytes.drop k).length + 1 by omega)]
    congr 3
    rw [List.length_drop]; push_cast; omega
  · -- the pointer went past the end, and the loop stops with nothing left
    rw [List.drop_eq_nil_of_le (by omega)]
    unfold parseFDELoop
    rw [if_pos (by push_cast; omega), if_pos (by simp)]

/-! ## The bytes of each opcode -/

abbrev signedWord (x : UInt64) : Int := Int.bmod x.toNat (2 ^ 64)

abbrev PoReg.number (r : PoReg) : Nat := r.u.toUInt32.toNat

/-- What an accepted instruction is written as. -/
def Written (inst : RegInstruction) (b : List UInt8) : Prop :=
  let code := UInt8.ofNat inst.type.code
  let r1 := inst.arg1Reg
  let r2 := inst.arg2Reg
  match inst.type with
  | .nop | .rememberState | .restoreState | .sameValue => b = [code]
  | .advanceLoc => inst.arg1.toNat ≤ 0xc0 ∧ b = [packed .advanceLoc inst.arg1]
  | .restore => b = [packed .restore inst.arg1]
  | .advanceLoc1 => inst.arg1.toNat ≤ 0xFF ∧ b = code :: toLE 1 inst.arg1.toNat
  | .advanceLoc2 => inst.arg1.toNat ≤ 0xFFFF ∧ b = code :: toLE 2 inst.arg1.toNat
  | .advanceLoc4 => inst.arg1.toNat ≤ 0xFFFFFFFF ∧ b = code :: toLE 4 inst.arg1.toNat
  | .offset =>
    r1.type = .basic ∧ r1.number < 128 ∧
      b = UInt8.ofNat (0x80 ||| r1.number) :: intToLEB128 (Int.bmod inst.arg2.toNat (2 ^ 32))
  | .undefined | .defCfaRegister | .restoreExtended => r1.type = .basic ∧ b = code :: uleb r1.number
  | .register => r1.type = .basic ∧ r2.type = .basic ∧ b = code :: (uleb r1.number ++ uleb r2.number)
  | .offsetExtended | .defCfa => r1.type = .basic ∧ b = code :: (uleb r1.number ++ uleb inst.arg2.toNat)
  | .offsetExtendedSf => r1.type = .basic ∧ b = code :: (uleb r1.number ++ sleb (signedWord inst.arg2))
  | .defCfaOffset | .gnuArgsSize => b = code :: uleb inst.arg1.toNat
  | .defCfaOffsetSf => b = code :: sleb (signedWord inst.arg1)
  | .defCfaExpression => ∃ block, encodeDwarfExprAsFormBlock inst.expr = .ok block ∧ b = code :: block
  | .expression | .valExpression =>
    r1.type = .basic ∧ ∃ block, encodeDwarfExprAsFormBlock inst.expr = .ok block ∧ b = code :: (uleb r1.number ++ block)
  | _ => False

/-- A small register index keeps its value as a word. -/
theorem wideIndex {u : Int32} (h : u.toUInt32.toNat < 128) : u.toInt64.toUInt64.toNat = u.toUInt32.toNat := by
  have hmsb : u.toBitVec.msb = false := by
    rw [BitVec.msb_eq_decide]
    have : u.toBitVec.toNat < 128 := h
    simp only [decide_eq_false_iff_not]
    omega
  show (u.toBitVec.signExtend 64).toNat = u.toBitVec.toNat
  rw [BitVec.toNat_signExtend, hmsb]
  have : u.toBitVec.toNat < 128 := h
  simp [BitVec.toNat_setWidth]
  omega

theorem written_of_rawBytes {inst : RegInstruction} {b : List UInt8} (h : rawBytes inst = .ok b) : Written inst b := by
  obtain ⟨raw, hraw, h⟩ := bind_eq_ok.mp h
  unfold regInstructionToRawDwarfInstruction at hraw
  unfold Written
  cases ht : inst.type <;> simp only [ht] at hraw ⊢
  case nop | rememberState | restoreState =>
    cases hraw; cases h; rfl
  case sameValue =>
    obtain ⟨b1, -, hraw⟩ := bind_eq_ok.mp hraw
    cases hraw; cases h; rfl
  case restore =>
    cases hraw; cases h; rfl
  case advanceLoc | advanceLoc1 | advanceLoc2 | advanceLoc4 =>
    cases hraw
    simp only [instructionBytes, DwarfInstruction.blank] at h
    split at h
    · cases h
    · cases h; exact ⟨by omega, rfl⟩
  case offset =>
    obtain ⟨b1, hb1, hraw⟩ := bind_eq_ok.mp hraw
    obtain ⟨hbasic, rfl⟩ := encodeRegAsLEB128_ok.mp hb1
    rw [if_neg (not_not.mpr hbasic)] at hraw
    obtain ⟨⟨⟩, hone, hraw⟩ := bind_eq_ok.mp hraw
    have hlen : ulebLen inst.arg1Reg.number = 1 := by
      rw [← length_uleb]
      exact assert_ok hone
    have hlt : inst.arg1Reg.number < 128 := (ulebLen_le_iff (by norm_num)).mp hlen.le
    cases hraw
    obtain ⟨-, -, h⟩ := bind_eq_ok.mp h
    simp only [Except.ok.injEq] at h
    refine ⟨hbasic, hlt, ?_⟩
    rw [← h, packed, wideIndex hlt]
    rfl
  case undefined | defCfaRegister | restoreExtended =>
    obtain ⟨b1, hb1, hraw⟩ := bind_eq_ok.mp hraw
    obtain ⟨hbasic, rfl⟩ := encodeRegAsLEB128_ok.mp hb1
    cases hraw; cases h
    exact ⟨hbasic, rfl⟩
  case register =>
    obtain ⟨b1, hb1, hraw⟩ := bind_eq_ok.mp hraw
    obtain ⟨b2, hb2, hraw⟩ := bind_eq_ok.mp hraw
    obtain ⟨hbasic, rfl⟩ := encodeRegAsLEB128_ok.mp hb1
    obtain ⟨hbasic2, rfl⟩ := encodeRegAsLEB128_ok.mp hb2
    cases hraw; cases h
    exact ⟨hbasic, hbasic2, rfl⟩
  case offsetExtended | defCfa =>
    obtain ⟨b1, hb1, hraw⟩ := bind_eq_ok.mp hraw
    obtain ⟨hbasic, rfl⟩ := encodeRegAsLEB128_ok.mp hb1
    rw [encodeWord_unsigned] at hraw
    cases hraw; cases h
    exact ⟨hbasic, rfl⟩
  case offsetExtendedSf =>
    obtain ⟨b1, hb1, hraw⟩ := bind_eq_ok.mp hraw
    obtain ⟨hbasic, rfl⟩ := encodeRegAsLEB128_ok.mp hb1
    rw [encodeWord_signed] at hraw
    cases hraw
    simp only [instructionBytes, DwarfInstruction.blank, Except.ok.injEq] at h
    exact ⟨hbasic, h.symm⟩
  case defCfaOffset | gnuArgsSize =>
    rw [encodeWord_unsigned] at hraw
    cases hraw; cases h; rfl
  case defCfaOffsetSf =>
    rw [encodeWord_signed] at hraw
    cases hraw
    simp only [instructionBytes, DwarfInstruction.blank, Except.ok.injEq] at h
    exact h.symm
  case defCfaExpression =>
    obtain ⟨b1, hb1, hraw⟩ := bind_eq_ok.mp hraw
    cases hraw; cases h
    exact ⟨b1, hb1, rfl⟩
  case expression | valExpression =>
    obtain ⟨b1, hb1, hraw⟩ := bind_eq_ok.mp hraw
    obtain ⟨b2, hb2, hraw⟩ := bind_eq_ok.mp hraw
    obtain ⟨hbasic, rfl⟩ := encodeRegAsLEB128_ok.mp hb1
    cases hraw; cases h
    exact ⟨hbasic, b2, hb2, rfl⟩
  case setLoc =>
    -- the address was never encoded, and its size assertion fails
    cases hraw
    cases h
  case valOffset | valOffsetSf | defCfaSf | katanaFixups | katanaFixupsPointer | other =>
    cases hraw

/-! ## Reading one instruction back -/

/-- How the bytes `byte :: ops` of `inst` read: in full when it is faithful, whatever follows them; and on
their own as another instruction, if at all, when it is not. -/
structure ReadsAs (inst : RegInstruction) (byte : UInt8) (ops : List UInt8) : Prop where
  faithful : inst.Faithful → ∀ rest, ∃ x, parseInstruction byte (ops ++ rest) = .ok (some x, ops.length) ∧ Same x inst
  alone : ∀ o k, parseInstruction byte ops = .ok (o, k) → ∃ x, o = some x ∧ (Same x inst → inst.Faithful)

theorem readReg_ok {u : Int32} {rest : List UInt8} {r : PoReg} {k : Nat}
    (h : readRegFromLEB128 (uleb u.toUInt32.toNat ++ rest) = .ok (r, k)) :
    readsBack u ∧ r = .basic u ∧ k = ulebLen u.toUInt32.toNat := by
  obtain ⟨hback, hnot⟩ := readRegFromLEB128_uleb u rest
  by_cases hu : readsBack u
  · rw [hback hu] at h
    cases h
    exact ⟨hu, rfl, rfl⟩
  · obtain ⟨e, he⟩ := hnot hu
    rw [he] at h
    cases h

theorem operand_basic {r : PoReg} (h : r.type = .basic) : (PoReg.basic r.u).operand = r.operand := by
  unfold PoReg.operand PoReg.basic
  rw [h]

theorem readsAs_plain {inst : RegInstruction} (ht : inst.type = .rememberState ∨ inst.type = .restoreState) :
    ReadsAs inst (UInt8.ofNat inst.type.code) [] := by
  have hf : inst.Faithful := by unfold Faithful; rcases ht with ht | ht <;> rw [ht] <;> trivial
  have hparse : ∀ p, parseInstruction (UInt8.ofNat inst.type.code) p = .ok (some (RegInstruction.blank inst.type), 0) := by
    intro p; rcases ht with ht | ht <;> rw [ht] <;> rfl
  refine ⟨fun _ rest => ⟨_, hparse rest, rfl, ?_⟩, ?_⟩
  · unfold operands; rcases ht with ht | ht <;> rw [ht] <;> rfl
  · intro o k h
    rw [hparse] at h
    cases h
    exact ⟨_, rfl, fun _ => hf⟩

/-- `DW_CFA_undefined` and `DW_CFA_def_cfa_register`. -/
theorem readsAs_register1 {inst : RegInstruction} (ht : inst.type = .undefined ∨ inst.type = .defCfaRegister)
    (hbasic : inst.arg1Reg.type = .basic) :
    ReadsAs inst (UInt8.ofNat inst.type.code) (uleb inst.arg1Reg.number) := by
  have hf : inst.Faithful ↔ readsBack inst.arg1Reg.u := by unfold Faithful; rcases ht with ht | ht <;> rw [ht]
  have hparse := fun p => parse_register1 p (ht.imp_right Or.inr)
  refine ⟨fun h rest => ?_, ?_⟩
  · refine ⟨{ RegInstruction.blank inst.type with arg1Reg := .basic inst.arg1Reg.u }, ?_, rfl, ?_⟩
    · rw [hparse, (readRegFromLEB128_uleb _ rest).1 (hf.mp h), length_uleb]; rfl
    · unfold operands
      rcases ht with ht | ht <;> simp only [ht, RegInstruction.blank, operand_basic hbasic]
  · intro o k h
    rw [hparse] at h
    obtain ⟨⟨r, len⟩, hr, h⟩ := bind_eq_ok.mp h
    rw [← List.append_nil (uleb _)] at hr
    cases h
    exact ⟨_, rfl, fun _ => hf.mpr (readReg_ok hr).1⟩

theorem readsAs_register2 {inst : RegInstruction} (ht : inst.type = .register) (hbasic : inst.arg1Reg.type = .basic)
    (hbasic2 : inst.arg2Reg.type = .basic) :
    ReadsAs inst (UInt8.ofNat inst.type.code) (uleb inst.arg1Reg.number ++ uleb inst.arg2Reg.number) := by
  have hf : inst.Faithful ↔ readsBack inst.arg1Reg.u ∧ readsBack inst.arg2Reg.u := by unfold Faithful; rw [ht]
  have hparse := fun p => parse_register2 p ht
  refine ⟨fun h rest => ?_, ?_⟩
  · obtain ⟨h1, h2⟩ := hf.mp h
    refine ⟨{ RegInstruction.blank .register with arg1Reg := .basic inst.arg1Reg.u, arg2Reg := .basic inst.arg2Reg.u },
      ?_, ht.symm, ?_⟩
    · rw [hparse, List.append_assoc, (readRegFromLEB128_uleb _ _).1 h1]
      simp only [bind_ok, List.drop_left' (length_uleb _), (readRegFromLEB128_uleb _ rest).1 h2,
        List.length_append, length_uleb]
    · unfold operands
      simp only [ht, RegInstruction.blank, operand_basic hbasic, operand_basic hbasic2]
  · intro o k h
    rw [hparse] at h
    obtain ⟨⟨r, len⟩, hr, h⟩ := bind_eq_ok.mp h
    obtain ⟨⟨r2, len2⟩, hr2, h⟩ := bind_eq_ok.mp h
    obtain ⟨h1, rfl, rfl⟩ := readReg_ok hr
    rw [List.drop_left' (length_uleb _), ← List.append_nil (uleb _)] at hr2
    cases h
    exact ⟨_, rfl, fun _ => hf.mpr ⟨h1, (readReg_ok hr2).1⟩⟩

theorem readsAs_defCfa {inst : RegInstruction} (ht : inst.type = .defCfa) (hbasic : inst.arg1Reg.type = .basic) :
    ReadsAs inst (UInt8.ofNat inst.type.code) (uleb inst.arg1Reg.number ++ uleb inst.arg2.toNat) := by
  have hf : inst.Faithful ↔ readsBack inst.arg1Reg.u ∧ inst.arg2.toNat < 2 ^ 32 := by unfold Faithful; rw [ht]
  have hparse := fun p => parse_defCfa p ht
  refine ⟨fun h rest => ?_, ?_⟩
  · obtain ⟨h1, h2⟩ := hf.mp h
    refine ⟨{ RegInstruction.blank .defCfa with arg1Reg := .basic inst.arg1Reg.u, arg2 := UInt64.ofNat inst.arg2.toNat },
      ?_, ht.symm, ?_⟩
    · rw [hparse, List.append_assoc, (readRegFromLEB128_uleb _ _).1 h1]
      simp only [bind_ok, List.drop_left' (length_uleb _), leb128ToUInt_uleb inst.arg2.toNat_lt, if_pos h2,
        List.length_append, length_uleb]
    · unfold operands
      simp only [ht, RegInstruction.blank, operand_basic hbasic, UInt64.ofNat_toNat]
  · intro o k h
    rw [hparse] at h
    obtain ⟨⟨r, len⟩, hr, h⟩ := bind_eq_ok.mp h
    obtain ⟨⟨arg2, len2⟩, hr2, h⟩ := bind_eq_ok.mp h
    obtain ⟨h1, rfl, rfl⟩ := readReg_ok hr
    rw [List.drop_left' (length_uleb _), ← List.append_nil (uleb _), leb128ToUInt_uleb inst.arg2.toNat_lt] at hr2
    split at hr2
    · cases h
      exact ⟨_, rfl, fun _ => hf.mpr ⟨h1, by assumption⟩⟩
    · cases hr2

/-- `DW_CFA_def_cfa_offset` and `DW_CFA_GNU_args_size`. -/
theorem readsAs_offset {inst : RegInstruction} (ht : inst.type = .defCfaOffset ∨ inst.type = .gnuArgsSize) :
    ReadsAs inst (UInt8.ofNat inst.type.code) (uleb inst.arg1.toNat) := by
  have hf : inst.Faithful ↔ inst.arg1.toNat < 2 ^ 32 := by unfold Faithful; rcases ht with ht | ht <;> rw [ht]
  have hparse := fun p => parse_uleb p ht
  refine ⟨fun h rest => ?_, ?_⟩
  · refine ⟨{ RegInstruction.blank inst.type with arg1 := UInt64.ofNat inst.arg1.toNat }, ?_, rfl, ?_⟩
    · rw [hparse, leb128ToUInt_uleb inst.arg1.toNat_lt, if_pos (hf.mp h), length_uleb]; rfl
    · unfold operands
      rcases ht with ht | ht <;> simp only [ht, RegInstruction.blank, UInt64.ofNat_toNat]
  · intro o k h
    rw [hparse, ← List.append_nil (uleb _), leb128ToUInt_uleb inst.arg1.toNat_lt] at h
    by_cases hlt : inst.arg1.toNat < 2 ^ 32
    · rw [if_pos hlt] at h
      cases h
      exact ⟨_, rfl, fun _ => hf.mpr hlt⟩
    · rw [if_neg hlt] at h
      cases h

theorem ofInt_signedWord (x : UInt64) : UInt64.ofInt (signedWord x) = x :=
  (congrArg UInt64.ofNat (residueBytes_signed x)).trans UInt64.ofNat_toNat

theorem signedWord_eq (x : UInt64) : signedWord x = if x.toNat < 2 ^ 63 then (x.toNat : Int) else x.toNat - 2 ^ 64 := by
  have h := bmod_byte x.toNat_lt (show 2 ^ 64 % 2 = 0 by norm_num)
  have hiff : 2 * x.toNat < 2 ^ 64 ↔ x.toNat < 2 ^ 63 := by omega
  rw [signedWord, h]
  by_cases hx : x.toNat < 2 ^ 63
  · rw [if_pos (hiff.mpr hx), if_pos hx]
  · rw [if_neg (mt hiff.mp hx), if_neg hx]; norm_num

theorem readsAs_offsetSf {inst : RegInstruction} (ht : inst.type = .defCfaOffsetSf) :
    ReadsAs inst (UInt8.ofNat inst.type.code) (sleb (signedWord inst.arg1)) := by
  obtain ⟨hlo, hhi⟩ := signedWord_range inst.arg1
  have hread : ∀ rest, leb128ToInt (sleb (signedWord inst.arg1) ++ rest) = _ := leb128ToInt_sleb hlo hhi
  have hf : inst.Faithful ↔ slebLen (signedWord inst.arg1) ≤ 4 := by
    have hlt := inst.arg1.toNat_lt
    unfold Faithful
    rw [ht, slebLen_le_iff (by norm_num), signedWord_eq, FitsSeptets]
    dsimp only
    split <;> norm_num <;> omega
  have hparse := fun p => parse_sleb p ht
  refine ⟨fun h rest => ?_, ?_⟩
  · refine ⟨{ RegInstruction.blank .defCfaOffsetSf with arg1 := UInt64.ofInt (signedWord inst.arg1) }, ?_, ht.symm, ?_⟩
    · rw [hparse, hread, if_pos (hf.mp h), length_sleb]; rfl
    · unfold operands
      simp only [ht, RegInstruction.blank, ofInt_signedWord]
  · intro o k h
    rw [hparse, ← List.append_nil (sleb _), hread] at h
    by_cases hle : slebLen (signedWord inst.arg1) ≤ 4
    · rw [if_pos hle] at h
      cases h
      exact ⟨_, rfl, fun _ => hf.mpr hle⟩
    · rw [if_neg hle] at h
      cases h

theorem operands_advance {x : RegInstruction}
    (ht : x.type = .advanceLoc1 ∨ x.type = .advanceLoc2 ∨ x.type = .advanceLoc4) : x.operands = [.num x.arg1] := by
  unfold operands
  rcases ht with ht | ht | ht <;> rw [ht]

/-- `DW_CFA_advance_loc1`, `DW_CFA_advance_loc2` and `DW_CFA_advance_loc4`: `k` bytes written, `j` read. -/
theorem readsAs_advance {inst : RegInstruction} {k j : Nat}
    (ht : inst.type = .advanceLoc1 ∨ inst.type = .advanceLoc2 ∨ inst.type = .advanceLoc4) (hjk : j ≤ k)
    (hf : inst.Faithful ↔ inst.arg1.toNat < 256 ^ j)
    (hparse : ∀ p, parseInstruction (UInt8.ofNat inst.type.code) p = (do
      let delta ← readLE j p
      .ok (some { RegInstruction.blank inst.type with arg1 := UInt64.ofNat delta }, k))) :
    ReadsAs inst (UInt8.ofNat inst.type.code) (toLE k inst.arg1.toNat) := by
  have hread : ∀ rest, readLE j (toLE k inst.arg1.toNat ++ rest) = .ok (inst.arg1.toNat % 256 ^ j) := by
    intro rest
    obtain ⟨i, rfl⟩ := Nat.exists_eq_add_of_le hjk
    rw [toLE_append, List.append_assoc, readLE_toLE]
  have hlt : inst.arg1.toNat % 256 ^ j < 2 ^ 64 := lt_of_le_of_lt (Nat.mod_le _ _) inst.arg1.toNat_lt
  have hsame : Same { RegInstruction.blank inst.type with arg1 := UInt64.ofNat (inst.arg1.toNat % 256 ^ j) } inst ↔
      inst.Faithful := by
    unfold Same
    rw [operands_advance ht, operands_advance (by exact ht), hf]
    simp only [List.cons.injEq, Operand.num.injEq, and_true, ofNat_eq_iff hlt]
    exact (and_iff_right rfl).trans (Nat.mod_eq_iff_lt (by positivity))
  refine ⟨fun h rest => ⟨_, ?_, hsame.mpr h⟩, ?_⟩
  · rw [hparse, hread, length_toLE]; rfl
  · intro o n h
    rw [hparse, ← List.append_nil (toLE _ _), hread] at h
    cases h
    exact ⟨_, rfl, hsame.mp⟩

/-- What the opcodes that carry an operand in their low six bits read as. -/
def packedInstr (byte : UInt8) : RegInstruction :=
  { RegInstruction.blank (CfaOp.ofByte byte) with
    arg1 := UInt64.ofNat (byte.toNat &&& 0x3f), arg1Reg := .basic (Int32.ofNat (byte.toNat &&& 0x3f)) }

theorem parse_packed {byte : UInt8} (h : CfaOp.ofByte byte = .advanceLoc ∨ CfaOp.ofByte byte = .restore) (p : List UInt8) :
    parseInstruction byte p = .ok (some (packedInstr byte), 0) := by
  unfold parseInstruction packedInstr
  rcases h with h | h <;> simp only [h]

theorem packed_readsAs {inst : RegInstruction} {byte : UInt8}
    (h : CfaOp.ofByte byte = .advanceLoc ∨ CfaOp.ofByte byte = .restore)
    (hsame : Same (packedInstr byte) inst ↔ inst.Faithful) : ReadsAs inst byte [] := by
  refine ⟨fun hf rest => ⟨_, parse_packed h _, hsame.mpr hf⟩, ?_⟩
  intro o k hp
  rw [parse_packed h] at hp
  cases hp
  exact ⟨_, rfl, hsame.mp⟩

theorem advanceLoc_byte {n : Nat} (hn : n ≤ 0xc0) :
    (CfaOp.ofByte (UInt8.ofNat (0x40 ||| n)) = .advanceLoc ∨ CfaOp.ofByte (UInt8.ofNat (0x40 ||| n)) = .restore) ∧
    (CfaOp.ofByte (UInt8.ofNat (0x40 ||| n)) = .advanceLoc ∧ (UInt8.ofNat (0x40 ||| n)).toNat &&& 0x3f = n ↔ n < 64) := by
  have hlt : n < 193 := by omega
  clear hn
  revert n
  decide +kernel

theorem restore_byte {n : Nat} (hn : n < 256) :
    CfaOp.ofByte (UInt8.ofNat (0xc0 ||| n)) = .restore ∧ (UInt8.ofNat (0xc0 ||| n)).toNat &&& 0x3f = n % 64 := by
  revert n
  decide +kernel

theorem offset_byte {n : Nat} (hn : n < 128) :
    CfaOp.ofByte (UInt8.ofNat (0x80 ||| n)) = (if n < 64 then .offset else .restore) ∧
    (n < 64 → (UInt8.ofNat (0x80 ||| n)).toNat &&& 0x3f = n) := by
  revert n
  decide +kernel

theorem ofNat_or_mod (c n : Nat) : UInt8.ofNat (c ||| n) = UInt8.ofNat (c ||| n % 256) := by
  apply UInt8.toNat_inj.mp
  rw [UInt8.toNat_ofNat', UInt8.toNat_ofNat', Nat.or_mod_two_pow, Nat.or_mod_two_pow, show 256 = 2 ^ 8 by norm_num,
    Nat.mod_mod]

theorem readsAs_advanceLoc {inst : RegInstruction} (ht : inst.type = .advanceLoc) (hle : inst.arg1.toNat ≤ 0xc0) :
    ReadsAs inst (packed .advanceLoc inst.arg1) [] := by
  obtain ⟨hop, hiff⟩ := advanceLoc_byte hle
  refine packed_readsAs hop ?_
  have hlow : (UInt8.ofNat (0x40 ||| inst.arg1.toNat)).toNat &&& 0x3f < 2 ^ 64 :=
    lt_of_le_of_lt Nat.and_le_right (by norm_num)
  have hf : inst.Faithful ↔ inst.arg1.toNat < 64 := by unfold Faithful; rw [ht]
  have hops : inst.operands = [.num inst.arg1] := by unfold operands; rw [ht]
  have hpacked : CfaOp.ofByte (packed .advanceLoc inst.arg1) = .advanceLoc →
      (packedInstr (packed .advanceLoc inst.arg1)).operands =
        [.num (UInt64.ofNat ((packed .advanceLoc inst.arg1).toNat &&& 0x3f))] := by
    intro h
    unfold operands packedInstr RegInstruction.blank
    rw [h]
  rw [hf, ← hiff]
  unfold Same
  rw [hops, ht]
  constructor
  · rintro ⟨h1, h2⟩
    rw [hpacked h1, List.singleton_inj, Operand.num.injEq] at h2
    exact ⟨h1, (ofNat_eq_iff hlow).mp h2⟩
  · rintro ⟨h1, h2⟩
    refine ⟨h1, ?_⟩
    rw [hpacked h1, List.singleton_inj, Operand.num.injEq]
    exact (ofNat_eq_iff hlow).mpr h2

theorem readsAs_restore {inst : RegInstruction} (ht : inst.type = .restore) :
    ReadsAs inst (packed .restore inst.arg1) [] := by
  have hmod : inst.arg1.toNat % 256 < 256 := Nat.mod_lt _ (by norm_num)
  obtain ⟨hop, hlow⟩ := restore_byte hmod
  have hbyte : packed .restore inst.arg1 = UInt8.ofNat (0xc0 ||| inst.arg1.toNat % 256) := ofNat_or_mod _ _
  rw [hbyte]
  refine packed_readsAs (.inr hop) ?_
  have hf : inst.Faithful ↔ inst.restored = .reg .basic (inst.arg1.toNat % 64 : Nat) := by unfold Faithful; rw [ht]
  have hops : inst.operands = [inst.restored] := by unfold operands; rw [ht]
  have hpacked : (packedInstr (UInt8.ofNat (0xc0 ||| inst.arg1.toNat % 256))).operands =
      [.reg .basic (inst.arg1.toNat % 64 : Nat)] := by
    have hint : (Int32.ofNat (inst.arg1.toNat % 64)).toInt = (inst.arg1.toNat % 64 : Nat) :=
      Int32.toInt_ofNat_of_lt (by omega)
    unfold operands packedInstr RegInstruction.blank
    rw [hop]
    simp only [restored, PoReg.basic, PoReg.operand, hlow, Nat.mod_mod_of_dvd _ (show 64 ∣ 256 by norm_num), hint]
    rfl
  unfold Same
  rw [hf, hops, ht, hpacked]
  constructor
  · rintro ⟨-, h⟩
    exact (List.singleton_inj.mp h).symm
  · intro h
    exact ⟨hop, by rw [h]⟩

/-! ### DW_CFA_offset -/

/-- What the unsigned reader makes of an encoded int. -/
def readUnsigned (z : Int) : Nat := if 0 ≤ z then z.toNat else residue z (slebLen z)

theorem readUnsigned_lt {z : Int} (hlo : -2 ^ 31 ≤ z) (hhi : z < 2 ^ 31) : readUnsigned z < 2 ^ 64 := by
  unfold readUnsigned
  by_cases h0 : 0 ≤ z
  · rw [if_pos h0]; omega
  · have h5 : slebLen z ≤ 5 := (slebLen_le_iff (by norm_num)).mpr (by unfold FitsSeptets; norm_num; omega)
    rw [if_neg h0]
    calc residue z (slebLen z) < 128 ^ slebLen z := residue_lt _ _
      _ ≤ 128 ^ 5 := Nat.pow_le_pow_right (by norm_num) h5
      _ ≤ 2 ^ 64 := by norm_num

theorem leb128ToUWord_intToLEB128 {z : Int} (hlo : -2 ^ 31 ≤ z) (hhi : z < 2 ^ 31) (rest : List UInt8) :
    leb128ToUWord (intToLEB128 z ++ rest) = .ok (readUnsigned z, (intToLEB128 z).length) := by
  unfold readUnsigned
  by_cases h0 : 0 ≤ z
  · rw [intToLEB128_of_nonneg h0 (by omega), leb128ToUWord_uleb (by omega), if_pos h0, length_uleb]
  · have hne : slebDigits z ≠ [] := by
      rw [← List.length_pos_iff, slebDigits, length_fixed]; exact slebLen_pos z
    have h5 : slebLen z ≤ 5 := (slebLen_le_iff (by norm_num)).mpr (by unfold FitsSeptets; norm_num; omega)
    have hval : Nat.ofDigits 128 (slebDigits z) = residue z (slebLen z) := by
      rw [slebDigits, ofDigits_fixed, Nat.mod_eq_of_lt (residue_lt _ _)]
    have hlen : (slebDigits z).length = slebLen z := by rw [slebDigits, length_fixed]
    have hbytes := unsignedBytes_le (residue z (slebLen z)) (slebLen z)
    have hlt : residue z (slebLen z) < 256 ^ unsignedBytes (residue z (slebLen z)) (slebLen z) :=
      lt_unsignedBytes (residue_lt _ _)
    rw [intToLEB128_of_neg (by omega) hlo, if_neg h0, length_sleb]
    unfold leb128ToUWord sleb
    rw [decode_unsigned (slebDigits_lt z) hne, hval, hlen, bind_ok]
    simp only [usint_of_lt (show unsignedBytes (residue z (slebLen z)) (slebLen z) < 65536 by omega),
      usint_of_lt (show slebLen z < 65536 by omega)]
    rw [assert_of (by omega), bind_ok, take_toLE le_rfl, leNat_toLE, Nat.mod_eq_of_lt hlt]

/-- The int that `DW_CFA_offset` keeps of its operand reads back as the operand for small ones, and for the
negative ints of five septets, whose numeral has 35 bits. -/
theorem readUnsigned_iff (x : UInt64) :
    readUnsigned (Int.bmod x.toNat (2 ^ 32)) = x.toNat ↔
      x.toNat < 2 ^ 31 ∨ 2 ^ 35 - 2 ^ 31 ≤ x.toNat ∧ x.toNat < 2 ^ 35 - 2 ^ 27 := by
  have hlo := Int.le_bmod (x := x.toNat) (show 0 < 2 ^ 32 by norm_num)
  have hhi := Int.bmod_lt (x := x.toNat) (show 0 < 2 ^ 32 by norm_num)
  have hmod : Int.bmod x.toNat (2 ^ 32) % 2 ^ 32 = (x.toNat : Int) % 2 ^ 32 := Int.bmod_emod
  generalize hz : Int.bmod x.toNat (2 ^ 32) = z at *
  have h5 : slebLen z ≤ 5 := (slebLen_le_iff (by norm_num)).mpr (by unfold FitsSeptets; norm_num; omega)
  have h4 : slebLen z ≤ 4 ↔ -2 ^ 27 ≤ z ∧ z < 2 ^ 27 := by
    rw [slebLen_le_iff (by norm_num)]; unfold FitsSeptets; norm_num; omega
  unfold readUnsigned
  by_cases h0 : 0 ≤ z
  · rw [if_pos h0]; omega
  · rw [if_neg h0]
    have hpos := slebLen_pos z
    obtain ⟨hl, -⟩ := fits_slebLen z
    have hres : residue z (slebLen z) = (z + 128 ^ slebLen z).toNat := by
      unfold residue
      rw [← Int.add_mul_emod_self_left z _ 1, mul_one, Int.emod_eq_of_lt] <;> omega
    rw [hres]
    by_cases hle : slebLen z ≤ 4
    · have hpow : (128 : Int) ^ slebLen z ≤ 128 ^ 4 := pow_le_pow_right₀ (by norm_num) hle
      norm_num at hpow
      omega
    · rw [show slebLen z = 5 by omega]
      norm_num
      omega

theorem readsAs_packedOffset {inst : RegInstruction} (ht : inst.type = .offset) (hbasic : inst.arg1Reg.type = .basic)
    (hlt : inst.arg1Reg.number < 128) :
    ReadsAs inst (UInt8.ofNat (0x80 ||| inst.arg1Reg.number)) (intToLEB128 (Int.bmod inst.arg2.toNat (2 ^ 32))) := by
  obtain ⟨hop, hlow⟩ := offset_byte hlt
  have hf : inst.Faithful ↔ inst.arg1Reg.number < 64 ∧
    readUnsigned (Int.bmod inst.arg2.toNat (2 ^ 32)) = inst.arg2.toNat := by
    unfold Faithful
    rw [ht, readUnsigned_iff]
  have hz : -2 ^ 31 ≤ Int.bmod inst.arg2.toNat (2 ^ 32) ∧ Int.bmod inst.arg2.toNat (2 ^ 32) < 2 ^ 31 := by
    have hlo := Int.le_bmod (x := inst.arg2.toNat) (show 0 < 2 ^ 32 by norm_num)
    have hhi := Int.bmod_lt (x := inst.arg2.toNat) (show 0 < 2 ^ 32 by norm_num)
    exact ⟨by omega, by omega⟩
  have hread := leb128ToUWord_intToLEB128 hz.1 hz.2
  by_cases h64 : inst.arg1Reg.number < 64
  · rw [if_pos h64] at hop
    have hparse := fun p => parse_offset p hop
    rw [hlow h64, ofNat_toNat_int32] at hparse
    have hw := readUnsigned_lt hz.1 hz.2
    have hsame : Same { RegInstruction.blank .offset with
        arg1 := UInt64.ofNat inst.arg1Reg.number, arg1Reg := .basic inst.arg1Reg.u,
        arg2 := UInt64.ofNat (readUnsigned (Int.bmod inst.arg2.toNat (2 ^ 32))) } inst ↔ inst.Faithful := by
      unfold Same operands
      simp only [RegInstruction.blank, ht, operand_basic hbasic, List.cons.injEq, Operand.num.injEq, ofNat_eq_iff hw, hf,
        h64, true_and, and_true]
    refine ⟨fun h rest => ⟨_, ?_, hsame.mpr h⟩, ?_⟩
    · rw [hparse, hread]; rfl
    · intro o k h
      rw [hparse, ← List.append_nil (intToLEB128 _), hread] at h
      cases h
      exact ⟨_, rfl, hsame.mp⟩
  · rw [if_neg h64] at hop
    refine ⟨fun h => absurd (hf.mp h).1 h64, fun o k h => ?_⟩
    rw [parse_packed (.inr hop)] at h
    cases h
    refine ⟨_, rfl, fun hsame => ?_⟩
    have h1 : CfaOp.ofByte _ = inst.type := hsame.1
    rw [hop, ht] at h1
    cases h1

/-! ### Expressions -/

theorem exprOperand_eq_iff {a b : DwarfExpr} : exprOperand a = exprOperand b ↔ List.Forall₂ DwarfExprInstr.Same a b := by
  unfold exprOperand
  rw [Operand.expr.injEq]
  induction a generalizing b with
  | nil =>
    cases b with
    | nil => simp
    | cons y b => constructor <;> intro h <;> cases h
  | cons x a ih =>
    cases b with
    | nil => constructor <;> intro h <;> cases h
    | cons y b => simp [ih, DwarfExprInstr.Same]

theorem readsAs_defCfaExpression {inst : RegInstruction} {block : List UInt8} (ht : inst.type = .defCfaExpression)
    (hb : encodeDwarfExprAsFormBlock inst.expr = .ok block) : ReadsAs inst (UInt8.ofNat inst.type.code) block := by
  have hf : inst.Faithful ↔ BlockFaithful inst.expr := by unfold Faithful; rw [ht]
  have hparse := fun p => parse_block p ht
  have hops : ∀ e, Same { RegInstruction.blank .defCfaExpression with expr := e } inst ↔
      List.Forall₂ DwarfExprInstr.Same e inst.expr := by
    intro e
    unfold Same operands
    simp only [RegInstruction.blank, ht, List.cons.injEq, and_true, true_and, exprOperand_eq_iff]
  refine ⟨fun h rest => ?_, ?_⟩
  · obtain ⟨e, he, hsame⟩ := readExprBlock_faithful hb (hf.mp h) rest
    exact ⟨_, by rw [hparse, he]; rfl, (hops e).mpr hsame⟩
  · intro o k h
    rw [hparse] at h
    obtain ⟨⟨e, len⟩, he, h⟩ := bind_eq_ok.mp h
    cases h
    exact ⟨_, rfl, fun hsame => hf.mpr (faithful_of_readExprBlock hb he ((hops e).mp hsame))⟩

/-- `DW_CFA_expression` and `DW_CFA_val_expression`. -/
theorem readsAs_expression {inst : RegInstruction} {block : List UInt8}
    (ht : inst.type = .expression ∨ inst.type = .valExpression) (hbasic : inst.arg1Reg.type = .basic)
    (hb : encodeDwarfExprAsFormBlock inst.expr = .ok block) :
    ReadsAs inst (UInt8.ofNat inst.type.code) (uleb inst.arg1Reg.number ++ block) := by
  have hf : inst.Faithful ↔ readsBack inst.arg1Reg.u ∧ BlockFaithful inst.expr := by
    unfold Faithful; rcases ht with ht | ht <;> rw [ht]
  have hparse := fun p => parse_regBlock p ht
  have hops : ∀ e, Same { RegInstruction.blank inst.type with arg1Reg := .basic inst.arg1Reg.u, expr := e } inst ↔
      List.Forall₂ DwarfExprInstr.Same e inst.expr := by
    intro e
    unfold Same operands
    rcases ht with ht | ht <;>
      simp only [RegInstruction.blank, ht, List.cons.injEq, and_true, true_and, exprOperand_eq_iff, operand_basic hbasic]
  refine ⟨fun h rest => ?_, ?_⟩
  · obtain ⟨h1, h2⟩ := hf.mp h
    obtain ⟨e, he, hsame⟩ := readExprBlock_faithful hb h2 rest
    refine ⟨{ RegInstruction.blank inst.type with arg1Reg := .basic inst.arg1Reg.u, expr := e }, ?_, (hops e).mpr hsame⟩
    rw [hparse, List.append_assoc, (readRegFromLEB128_uleb _ _).1 h1]
    simp only [bind_ok, List.drop_left' (length_uleb _), he, List.length_append, length_uleb]
  · intro o k h
    rw [hparse] at h
    obtain ⟨⟨r, len⟩, hr, h⟩ := bind_eq_ok.mp h
    obtain ⟨⟨e, len2⟩, he, h⟩ := bind_eq_ok.mp h
    obtain ⟨h1, rfl, rfl⟩ := readReg_ok hr
    rw [List.drop_left' (length_uleb _)] at he
    cases h
    exact ⟨_, rfl, fun hsame => hf.mpr ⟨h1, faithful_of_readExprBlock hb he ((hops e).mp hsame)⟩⟩

/-! ## Lists -/

/-- The instructions of a list the reader keeps. -/
abbrev kept (l : List RegInstruction) : List RegInstruction := l.filter (·.type ≠ .nop)

theorem kept_single {inst : RegInstruction} (h : inst.type ≠ .nop) : kept [inst] = [inst] := by
  simp [kept, h]

/-- Every instruction but the irregular ones reads as `ReadsAs` says. -/
theorem readsAs_of_written {inst : RegInstruction} {b : List UInt8} (hw : Written inst b) (h0 : inst.type ≠ .nop)
    (h1 : inst.type ≠ .sameValue) (h2 : inst.type ≠ .offsetExtended) (h3 : inst.type ≠ .offsetExtendedSf)
    (h4 : inst.type ≠ .restoreExtended) : ∃ byte ops, b = byte :: ops ∧ ReadsAs inst byte ops := by
  unfold Written at hw
  cases ht : inst.type <;> simp only [ht] at hw <;> try exact absurd ht (by assumption)
  case rememberState => exact ⟨_, _, hw, ht ▸ readsAs_plain (.inl ht)⟩
  case restoreState => exact ⟨_, _, hw, ht ▸ readsAs_plain (.inr ht)⟩
  case advanceLoc => exact ⟨_, _, hw.2, readsAs_advanceLoc ht hw.1⟩
  case restore => exact ⟨_, _, hw, readsAs_restore ht⟩
  case advanceLoc1 =>
    have hf : inst.Faithful ↔ inst.arg1.toNat < 256 ^ 1 := by unfold Faithful; rw [ht]; simp; omega
    exact ⟨_, _, hw.2, ht ▸ readsAs_advance (.inl ht) le_rfl hf fun p => by rw [ht]; rfl⟩
  case advanceLoc2 =>
    have hf : inst.Faithful ↔ inst.arg1.toNat < 256 ^ 1 := by unfold Faithful; rw [ht]; simp
    exact ⟨_, _, hw.2, ht ▸ readsAs_advance (.inr (.inl ht)) (by norm_num) hf fun p => by rw [ht]; rfl⟩
  case advanceLoc4 =>
    have hf : inst.Faithful ↔ inst.arg1.toNat < 256 ^ 4 := by unfold Faithful; rw [ht]; simp; omega
    exact ⟨_, _, hw.2, ht ▸ readsAs_advance (.inr (.inr ht)) le_rfl hf fun p => by rw [ht]; rfl⟩
  case offset => exact ⟨_, _, hw.2.2, readsAs_packedOffset ht hw.1 hw.2.1⟩
  case undefined => exact ⟨_, _, hw.2, ht ▸ readsAs_register1 (.inl ht) hw.1⟩
  case defCfaRegister => exact ⟨_, _, hw.2, ht ▸ readsAs_register1 (.inr ht) hw.1⟩
  case register => exact ⟨_, _, hw.2.2, ht ▸ readsAs_register2 ht hw.1 hw.2.1⟩
  case defCfa => exact ⟨_, _, hw.2, ht ▸ readsAs_defCfa ht hw.1⟩
  case defCfaOffset => exact ⟨_, _, hw, ht ▸ readsAs_offset (.inl ht)⟩
  case gnuArgsSize => exact ⟨_, _, hw, ht ▸ readsAs_offset (.inr ht)⟩
  case defCfaOffsetSf => exact ⟨_, _, hw, ht ▸ readsAs_offsetSf ht⟩
  case defCfaExpression =>
    obtain ⟨block, hb, rfl⟩ := hw
    exact ⟨_, _, rfl, ht ▸ readsAs_defCfaExpression ht hb⟩
  case expression =>
    obtain ⟨hbasic, block, hb, rfl⟩ := hw
    exact ⟨_, _, rfl, ht ▸ readsAs_expression (.inl ht) hbasic hb⟩
  case valExpression =>
    obtain ⟨hbasic, block, hb, rfl⟩ := hw
    exact ⟨_, _, rfl, ht ▸ readsAs_expression (.inr ht) hbasic hb⟩

/-- What the reader's loop does after the instructions `out`. -/
def continued (out : List RegInstruction) (rest : List UInt8) : Except Fault (List RegInstruction × List UInt8) := do
  let (r, left) ← parseAll rest
  .ok (out ++ r, left)

/-- An empty result means that nothing but `nop`s was read. -/
theorem parseInstruction_none {byte : UInt8} {p : List UInt8} {k : Nat} (h : parseInstruction byte p = .ok (none, k)) :
    CfaOp.ofByte byte = .nop := by
  unfold parseInstruction at h
  cases hop : CfaOp.ofByte byte <;> simp only [hop] at h
  case nop => rfl
  all_goals simp [bind_eq_ok] at h

theorem ofByte_nop {byte : UInt8} (h : CfaOp.ofByte byte = .nop) : byte = 0 := by
  have hall : ∀ n < 256, CfaOp.ofByte (UInt8.ofNat n) = .nop → n = 0 := by decide +kernel
  have h0 := hall byte.toNat (UInt8.toNat_lt _) (by rw [UInt8.ofNat_toNat]; exact h)
  exact UInt8.toNat_inj.mp h0

theorem zero_of_parseAll {byte : UInt8} {p left : List UInt8} (h : parseAll (byte :: p) = .ok ([], left)) : byte = 0 := by
  rw [parseAll_cons] at h
  obtain ⟨⟨o, k⟩, ho, h⟩ := bind_eq_ok.mp h
  obtain ⟨⟨r, left'⟩, -, h⟩ := bind_eq_ok.mp h
  cases o with
  | none => exact ofByte_nop (parseInstruction_none ho)
  | some x => simp at h

/-- A numeral that starts with a zero byte is that byte. -/
theorem mark_zero {v n : Nat} {l : List UInt8} (h : mark (fixed 128 n v) = 0 :: l) : n = 1 ∧ v % 128 = 0 := by
  cases n with
  | zero => cases h
  | succ n =>
    cases n with
    | zero =>
      have h0 : UInt8.ofNat (v % 128) = 0 := (List.cons.inj h).1
      rw [← UInt8.toNat_inj, UInt8.toNat_ofNat'] at h0
      have : (0 : UInt8).toNat = 0 := rfl
      omega
    | succ n =>
      have h0 : UInt8.ofNat (v % 128 + 128) = 0 := (List.cons.inj h).1
      rw [← UInt8.toNat_inj, UInt8.toNat_ofNat'] at h0
      have : (0 : UInt8).toNat = 0 := rfl
      omega

theorem uleb_zero {v : Nat} {l : List UInt8} (h : uleb v = 0 :: l) : v = 0 := by
  obtain ⟨hn, hv⟩ := mark_zero h
  have := (ulebLen_le_iff (show 0 < 1 by norm_num)).mp hn.le
  omega

theorem sleb_zero {z : Int} {l : List UInt8} (h : sleb z = 0 :: l) : z = 0 := by
  obtain ⟨hn, hv⟩ := mark_zero h
  obtain ⟨hlo, hhi⟩ := (slebLen_le_iff (show 0 < 1 by norm_num)).mp hn.le
  rw [hn] at hv
  unfold residue at hv
  omega

/-- The operand of an extended offset as it is written. -/
def extendedOperand (inst : RegInstruction) : List UInt8 :=
  if inst.type = .offsetExtended then uleb inst.arg2.toNat else sleb (signedWord inst.arg2)

theorem extendedOperand_zero {inst : RegInstruction} (h : inst.arg2 = 0) : extendedOperand inst = [0] := by
  unfold extendedOperand
  rw [h]
  split <;> decide

theorem zero_of_extendedOperand {inst : RegInstruction} {l : List UInt8} (h : extendedOperand inst = 0 :: l) :
    inst.arg2 = 0 := by
  unfold extendedOperand at h
  split at h
  · exact UInt64.toNat_inj.mp (uleb_zero h)
  · rw [← ofInt_signedWord inst.arg2, sleb_zero h]; rfl

theorem extendedOperand_ne (inst : RegInstruction) : extendedOperand inst ≠ [] := by
  rw [← List.length_pos_iff]
  unfold extendedOperand
  split
  · rw [length_uleb]; exact ulebLen_pos _
  · rw [length_sleb]; exact slebLen_pos _

theorem written_extended {inst : RegInstruction} {b : List UInt8} (hw : Written inst b)
    (ht : inst.type = .offsetExtended ∨ inst.type = .offsetExtendedSf) :
    inst.arg1Reg.type = .basic ∧
      b = UInt8.ofNat inst.type.code :: (uleb inst.arg1Reg.number ++ extendedOperand inst) := by
  unfold Written at hw
  unfold extendedOperand
  rcases ht with ht | ht
  · simp only [ht] at hw
    rw [ht, if_pos rfl]
    exact hw
  · simp only [ht] at hw
    rw [ht, if_neg (by decide)]
    exact hw

/-- Reading an extended offset, whatever its operand: the register, and then the operand's bytes again. -/
theorem parse_extended {inst : RegInstruction} (ht : inst.type = .offsetExtended ∨ inst.type = .offsetExtendedSf)
    {rest : List UInt8} {o : Option RegInstruction} {k : Nat}
    (h : parseInstruction (UInt8.ofNat inst.type.code) (uleb inst.arg1Reg.number ++ rest) = .ok (o, k)) :
    readsBack inst.arg1Reg.u ∧ k = ulebLen inst.arg1Reg.number ∧
      ∃ arg2, o = some { RegInstruction.blank inst.type with arg1Reg := .basic inst.arg1Reg.u, arg2 } := by
  rcases ht with ht | ht
  · rw [parse_offsetExtended _ ht] at h
    obtain ⟨⟨r, len⟩, hr, h⟩ := bind_eq_ok.mp h
    obtain ⟨⟨arg2, len2⟩, -, h⟩ := bind_eq_ok.mp h
    obtain ⟨h1, rfl, rfl⟩ := readReg_ok hr
    cases h
    exact ⟨h1, rfl, UInt64.ofNat arg2, by rw [ht]⟩
  · rw [parse_offsetExtendedSf _ ht] at h
    obtain ⟨⟨r, len⟩, hr, h⟩ := bind_eq_ok.mp h
    obtain ⟨⟨arg2, len2⟩, -, h⟩ := bind_eq_ok.mp h
    obtain ⟨h1, rfl, rfl⟩ := readReg_ok hr
    cases h
    exact ⟨h1, rfl, UInt64.ofInt arg2, by rw [ht]⟩

/-- With a zero operand the bytes left over are a `nop`. -/
theorem parse_extended_zero {inst : RegInstruction} (ht : inst.type = .offsetExtended ∨ inst.type = .offsetExtendedSf)
    (hback : readsBack inst.arg1Reg.u) (rest : List UInt8) :
    parseInstruction (UInt8.ofNat inst.type.code) (uleb inst.arg1Reg.number ++ ([0] ++ rest)) =
      .ok (some { RegInstruction.blank inst.type with arg1Reg := .basic inst.arg1Reg.u, arg2 := 0 },
        ulebLen inst.arg1Reg.number) := by
  have hreg := (readRegFromLEB128_uleb inst.arg1Reg.u ([0] ++ rest)).1 hback
  rcases ht with ht | ht
  · have hzero : leb128ToUWord ([0] ++ rest) = .ok (0, 1) := leb128ToUWord_uleb (v := 0) (by norm_num) rest
    rw [ht]
    show (readRegFromLEB128 _ >>= _) = _
    rw [hreg, bind_ok]
    dsimp only
    rw [List.drop_left' (length_uleb _), hzero]
    rfl
  · have hzero : leb128ToSWord ([0] ++ rest) = .ok (0, 1) := by
      have h := leb128ToSWord_sleb (z := 0) (by norm_num) (by norm_num) rest
      exact h
    rw [ht]
    show (readRegFromLEB128 _ >>= _) = _
    rw [hreg, bind_ok]
    dsimp only
    rw [List.drop_left' (length_uleb _), hzero]
    rfl

/-- A faithful instruction is read back, and the reader goes on after its bytes. -/
theorem parseAll_faithful {inst : RegInstruction} {b : List UInt8} (hw : Written inst b) (hf : inst.Faithful)
    (rest : List UInt8) : ∃ out, List.Forall₂ Same out (kept [inst]) ∧ parseAll (b ++ rest) = continued out rest := by
  by_cases h0 : inst.type = .nop
  · unfold Written at hw
    rw [h0] at hw
    refine ⟨[], by simp [kept, h0], ?_⟩
    rw [hw, List.singleton_append, parseAll_cons]
    rfl
  by_cases hext : inst.type = .offsetExtended ∨ inst.type = .offsetExtendedSf
  · obtain ⟨hback, hzero⟩ : readsBack inst.arg1Reg.u ∧ inst.arg2 = 0 := by
      unfold Faithful at hf; rcases hext with ht | ht <;> rw [ht] at hf <;> exact hf
    obtain ⟨hbasic, hb⟩ := written_extended hw hext
    refine ⟨[{ RegInstruction.blank inst.type with arg1Reg := .basic inst.arg1Reg.u, arg2 := 0 }], ?_, ?_⟩
    · rw [kept_single h0]
      refine .cons ⟨rfl, ?_⟩ .nil
      unfold operands
      rcases hext with ht | ht <;> simp only [ht, RegInstruction.blank, operand_basic hbasic, hzero]
    · rw [hb, extendedOperand_zero hzero, List.cons_append, parseAll_cons, List.append_assoc,
        parse_extended_zero hext hback, bind_ok]
      dsimp only
      rw [List.drop_left' (length_uleb _), List.singleton_append, parseAll_cons]
      show (parseAll rest >>= _) >>= _ = continued _ rest
      unfold continued
      cases parseAll rest <;> rfl
  · have hreg : inst.type ≠ .sameValue ∧ inst.type ≠ .restoreExtended := by
      unfold Faithful at hf
      constructor <;> intro ht <;> rw [ht] at hf <;> exact hf
    obtain ⟨byte, ops, rfl, hreads⟩ := readsAs_of_written hw h0 hreg.1 (fun h => hext (.inl h))
      (fun h => hext (.inr h)) hreg.2
    obtain ⟨x, hx, hsame⟩ := hreads.faithful hf rest
    refine ⟨[x], ?_, ?_⟩
    · rw [kept_single h0]; exact .cons hsame .nil
    · rw [List.cons_append, parseAll_cons, hx, bind_ok]
      dsimp only
      rw [List.drop_left]
      rfl

/-- **Only a faithful instruction is read back from its own bytes.** -/
theorem faithful_of_parseAll {inst : RegInstruction} {b : List UInt8} {r : List RegInstruction} {left : List UInt8}
    (hw : Written inst b) (h : parseAll b = .ok (r, left)) (hs : List.Forall₂ Same r (kept [inst])) : inst.Faithful := by
  by_cases h0 : inst.type = .nop
  · unfold Faithful; rw [h0]; trivial
  rw [kept_single h0] at hs
  obtain ⟨x, rfl, hsame⟩ : ∃ x, r = [x] ∧ Same x inst := by
    cases hs with
    | cons h1 h2 => cases h2; exact ⟨_, rfl, h1⟩
  by_cases hsv : inst.type = .sameValue
  · -- the register was never written
    unfold Written at hw
    rw [hsv] at hw
    rw [hw] at h
    cases h
  by_cases hre : inst.type = .restoreExtended
  · unfold Written at hw
    rw [hre] at hw
    rw [hw.2, parseAll_cons] at h
    cases h
  by_cases hext : inst.type = .offsetExtended ∨ inst.type = .offsetExtendedSf
  · obtain ⟨-, hb⟩ := written_extended hw hext
    rw [hb, parseAll_cons] at h
    obtain ⟨⟨o, k⟩, ho, hcont⟩ := bind_eq_ok.mp h
    obtain ⟨⟨r', left'⟩, hrest, hout⟩ := bind_eq_ok.mp hcont
    obtain ⟨hback, rfl, arg2, rfl⟩ := parse_extended hext ho
    rw [List.drop_left' (length_uleb _)] at hrest
    have hnil : r' = [] := by
      simp only [Except.ok.injEq, Prod.mk.injEq, Option.toList_some, List.singleton_append, List.cons.injEq] at hout
      exact hout.1.2
    subst hnil
    obtain ⟨byte, l, hl⟩ := List.exists_cons_of_ne_nil (extendedOperand_ne inst)
    rw [hl] at hrest
    rw [zero_of_parseAll hrest] at hl
    unfold Faithful
    rcases hext with ht | ht <;> rw [ht] <;> exact ⟨hback, zero_of_extendedOperand hl⟩
  · obtain ⟨byte, ops, rfl, hreads⟩ := readsAs_of_written hw h0 hsv (fun h => hext (.inl h)) (fun h => hext (.inr h)) hre
    rw [parseAll_cons] at h
    obtain ⟨⟨o, k⟩, ho, h⟩ := bind_eq_ok.mp h
    obtain ⟨⟨r', left'⟩, -, h⟩ := bind_eq_ok.mp h
    obtain ⟨y, rfl, hy⟩ := hreads.alone o k ho
    cases h
    exact hy hsame

theorem forall₂_append {α β : Type} {R : α → β → Prop} {a b : List α} {c d : List β} (h : List.Forall₂ R a c)
    (h' : List.Forall₂ R b d) : List.Forall₂ R (a ++ b) (c ++ d) := by
  induction h with
  | nil => exact h'
  | cons hr _ ih => exact .cons hr ih

theorem forall₂_split {α β : Type} {R : α → β → Prop} {a b : List α} {c d : List β} (h : List.Forall₂ R a c)
    (h' : List.Forall₂ R (a ++ b) (c ++ d)) : List.Forall₂ R b d := by
  induction h with
  | nil => exact h'
  | cons _ _ ih =>
    cases h' with
    | cons _ h' => exact ih h'

/-- A list of faithful instructions is read back, and the reader goes on after its bytes. -/
theorem parse_faithful {l : List RegInstruction} {b : List UInt8} (he : Emits l b) (hf : ∀ inst ∈ l, inst.Faithful)
    (rest : List UInt8) : ∃ out, List.Forall₂ Same out (kept l) ∧ parseAll (b ++ rest) = continued out rest := by
  induction he generalizing rest with
  | nil =>
    refine ⟨[], .nil, ?_⟩
    unfold continued
    cases h : parseAll rest <;> simp [h]
  | @cons inst l bytes more hb _ ih =>
    obtain ⟨out, hout, hparse⟩ := ih (fun x hx => hf x (by simp [hx])) rest
    obtain ⟨out1, hout1, hparse1⟩ := parseAll_faithful (written_of_rawBytes hb) (hf inst (by simp)) (more ++ rest)
    refine ⟨out1 ++ out, ?_, ?_⟩
    · rw [← List.singleton_append, kept, List.filter_append]
      exact forall₂_append hout1 hout
    · rw [List.append_assoc, hparse1]
      unfold continued
      rw [hparse]
      unfold continued
      cases parseAll rest with
      | error e => rfl
      | ok r => obtain ⟨r, left⟩ := r; simp

/-- The step: after faithful instructions, the next one is read back only if it is faithful too. -/
theorem faithful_of_snoc {p : List RegInstruction} {inst : RegInstruction} {d : DwarfInstructions}
    (hd : serializeDwarfRegInstructions (p ++ [inst]) = .ok d) (hp : ∀ x ∈ p, x.Faithful)
    (hr : RoundTrips (p ++ [inst])) : inst.Faithful := by
  obtain ⟨bp, b, hbp, hb, hsplit⟩ := emits_append (emits_of_serialize hd)
  obtain ⟨out, hout, hparse⟩ := parse_faithful hbp hp b
  obtain ⟨l', hl', hsame⟩ := hr d hd
  have hall : parseAll (bp ++ b) = .ok (l', []) := by rw [← hsplit]; exact hl'
  rw [hparse] at hall
  obtain ⟨⟨r, left⟩, hb', hall⟩ := bind_eq_ok.mp hall
  simp only [Except.ok.injEq, Prod.mk.injEq] at hall
  obtain ⟨rfl, rfl⟩ := hall
  rw [List.filter_append] at hsame
  cases hb with
  | cons hraw hnil =>
    cases hnil
    rw [List.append_nil] at hb'
    exact faithful_of_parseAll (written_of_rawBytes hraw) hb' (forall₂_split hout hsame)

theorem faithful_of_prefixes {l : List RegInstruction} (hacc : ∃ d, serializeDwarfRegInstructions l = .ok d)
    (h : ∀ p, p <+: l → RoundTrips p) : ∀ inst ∈ l, inst.Faithful := by
  induction l using List.reverseRecOn with
  | nil => simp
  | append_singleton p inst ih =>
    obtain ⟨d, hd⟩ := hacc
    have hp := ih (serialize_of_append hd) fun q hq => h q (hq.trans (List.prefix_append _ _))
    intro x hx
    rcases List.mem_append.mp hx with hx | hx
    · exact hp x hx
    · rw [List.mem_singleton.mp hx]
      exact faithful_of_snoc hd hp (h _ List.prefix_rfl)

/-- **An accepted list and each of its prefixes are read back exactly when every instruction of the
list is faithful.** -/
theorem roundTrips_iff {l : List RegInstruction} (hacc : ∃ d, serializeDwarfRegInstructions l = .ok d) :
    (∀ p, p <+: l → RoundTrips p) ↔ ∀ inst ∈ l, inst.Faithful := by
  constructor
  · intro hp inst hinst
    exact faithful_of_prefixes hacc hp inst hinst
  · rintro hf p ⟨t, rfl⟩ d hd
    obtain ⟨out, hout, hparse⟩ :=
      parse_faithful (emits_of_serialize hd) (fun x hx => hf x (List.mem_append_left _ hx)) []
    refine ⟨out, ?_, hout⟩
    rw [List.append_nil] at hparse
    show parseAll d.instrs = _
    rw [hparse]
    unfold continued
    rw [parseAll_nil, bind_ok]
    dsimp only
    rw [List.append_nil]

/-- Two instructions whose bytes the reader takes back: `DW_CFA_register r0, r7` and `DW_CFA_advance_loc 5`. -/
def sampleProgram : List RegInstruction :=
  [{ blank .register with arg1Reg := .basic 0, arg2Reg := .basic 7 }, { blank .advanceLoc with arg1 := 5 }]

theorem roundTrips_iff_sampleProgram :
    (∃ d, serializeDwarfRegInstructions sampleProgram = .ok d) ∧
      ((∀ p, p <+: sampleProgram → RoundTrips p) ↔ ∀ inst ∈ sampleProgram, inst.Faithful) :=
  have h : ∃ d, serializeDwarfRegInstructions sampleProgram = .ok d :=
    ⟨⟨[0x09, 0, 7, 0x45], 6⟩, by decide +kernel⟩
  ⟨h, roundTrips_iff h⟩

/-- `DW_CFA_same_value` is written without its register, and its reader takes the next opcode for one. -/
theorem not_roundTrips_sameValue : ¬ ∀ l, RoundTrips l := by
  intro h
  have hser : serializeDwarfRegInstructions [{ blank .sameValue with arg1Reg := .basic 3 }, blank .rememberState] =
      .ok ⟨[0x08, 0x0a], 2⟩ := by decide +kernel
  obtain ⟨l', hl', hsame⟩ := h _ _ hser
  have hread : parseFDEInstructions [0x08, 0x0a] ([0x08, 0x0a] : List UInt8).length =
      .ok ([{ blank .sameValue with arg1Reg := .basic 10 }], []) := by decide +kernel
  rw [hread] at hl'
  cases hl'
  cases hsame with
  | cons _ hrest => cases hrest

end Katana
