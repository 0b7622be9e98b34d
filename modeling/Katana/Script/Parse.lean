/-
  Katana.Script.Parse — a dwarfscript is parsed (the grammar of shell/dwarfscript/dwarfscript.y) and compiled
  (compileDwarfscript in shell/commands/dwarfscriptCommand.cpp, up to the call-frame information).

  Every list of the grammar ends at the first token that starts none of its items, and every item is told by its first
  token, so that the parser goes down the grammar with the token it looks at. The actions run where a rule is complete.
-/
import Katana.Script.Lexer
import Katana.CallFrameInfo
import Katana.Lib.Run

namespace Katana.Script

open Lib

abbrev Parse := EStateM ParseEnd (List Token)

variable {α : Type}

/-! ## Tokens and lists -/

def yyerror (msg : String) : Parse α := throw (.yyerror msg)

def nextToken : Parse Token := fun toks =>
  match toks with
  | [] => .error (.yyerror syntaxError) []
  | t :: toks => .ok t toks

def expect (t : Token) : Parse Unit := do
  if (← nextToken) = t then pure () else yyerror syntaxError

/-- `T_BEGIN` and `T_END` with what they stand at. -/
def expectBegin (section_ : Keyword) : Parse Unit := do
  expect (.keyword .begin_)
  expect (.keyword section_)

def expectEnd (section_ : Keyword) : Parse Unit := do
  expect (.keyword .end_)
  expect (.keyword section_)

/-- An item's first token, and the parser of what comes behind it. -/
abbrev Item (α : Type) := α → Token → Option (Parse α)

/-- A list of items, each of which works on what the ones before have left. Each takes a token at least, and `fuel` is
one for each. -/
def itemList (item : Item α) : Nat → α → Parse α
  | 0, _ => throw (.fault .undefined)
  | fuel + 1, a => fun toks =>
    match toks with
    | [] => .ok a []
    | t :: toks =>
      match item a t with
      | none => .ok a (t :: toks)
      | some parse => (parse >>= itemList item fuel) toks

def items (item : Item α) (a : α) : Parse α := fun toks => itemList item (toks.length + 1) a toks

/-! ## Literals -/

def intLit : Parse IntLit := do
  match ← nextToken with
  | .intLit lit => pure lit
  | _ => yyerror syntaxError

/-- `int_lit` where its value is an int. -/
def int_ : Parse Int32 := do
  let lit ← intLit
  pure lit.savedInt

def nonnegIntLit : Parse Int32 := do
  let lit ← intLit
  if lit.minus then yyerror syntaxError else pure lit.savedInt

def registerLit : Parse Int32 := do
  match ← nextToken with
  | .register savedRegisterNumber => pure savedRegisterNumber
  | _ => yyerror syntaxError

def stringLit : Parse Text := do
  match ← nextToken with
  | .stringLiteral savedString => pure savedString
  | _ => yyerror syntaxError

def boolLit : Parse Bool := do
  match ← nextToken with
  | .boolLit value => pure value
  | _ => yyerror syntaxError

/-- The encodings between commas, or-ed together. -/
def dwPeLit : Parse Int32
  | .ptrEncoding savedInt :: .comma :: toks =>
    match dwPeLit toks with
    | .ok more toks => .ok (savedInt ||| more) toks
    | .error e toks => .error e toks
  | .ptrEncoding savedInt :: toks => .ok savedInt toks
  | toks => .error (.yyerror syntaxError) toks

def property (value : Parse α) : Parse α := do
  expect .colon
  value

/-- The low byte of an int. -/
def byteOfInt (x : Int32) : UInt8 := x.toUInt32.toUInt8

/-! ## Expressions -/

/-- A name as the key of a dictionary. -/
def nameOf (savedString : Text) : String := String.ofList (savedString.map fun b => Char.ofNat b.toNat)

/-- The literals behind an opcode. -/
def operands (type : DwOp) : Parse (List IntLit) :=
  match type with
  | .addr | .const1u | .const1s | .const2u | .const2s | .const4u | .const4s | .const8u | .const8s | .consts | .pick | .skip
  | .bra | .derefSize | .xderefSize | .other 0x90 => do
    let operand ← intLit
    pure [operand]
  | .bregx => do
    let reg ← intLit
    let operand ← intLit
    pure [reg, operand]
  | .constu => fun toks =>
    match toks with
    | .intLit ⟨false, savedInt⟩ :: toks => .ok [⟨false, savedInt⟩] toks
    | _ => .ok [] toks
  | _ => pure []

/-- `DW_OP_skip` and `DW_OP_bra` may have a label. -/
def flowOp : DwOp → Option FlowOp
  | .skip => some .skip
  | .bra => some .bra
  | _ => none

def dwOpStmt (type : DwOp) : Parse ExprStmt := fun toks =>
  match flowOp type, toks with
  | some flow, .identifier savedString :: toks => .ok (.jump flow (nameOf savedString)) toks
  | _, toks => (do
    let operands ← operands type
    pure (ExprStmt.op (.dwOp type operands))) toks

/-- `expr_stmt` and `label`. -/
def exprStmtItem : Token → Option (Parse ExprStmt)
  | .dwOp type => some (dwOpStmt type)
  | .litn savedInt => some (pure (.op (.litn savedInt)))
  | .regn savedInt => some (pure (.op (.regn savedInt)))
  | .bregn savedInt => some do
    let operand ← intLit
    pure (.op (.bregn savedInt operand))
  | .identifier savedString => some do
    expect .colon
    pure (.label (nameOf savedString))
  | _ => none

/-- A statement, and what it does. -/
def exprItem : Item ExprParse := fun expr t =>
  match exprStmtItem t with
  | none => none
  | some parse => some do
    let stmt ← parse
    Run.fromExcept (exprStmt expr stmt)

/-- `expression_section`, with its tokens. -/
def expressionBlock : Parse DwarfExpr := do
  expectBegin .expression
  let expr ← items exprItem ⟨[], 0, dictCreate 100⟩
  expectEnd .expression
  pure expr.instructions

/-! ## Instructions -/

def makeBasicRegister1 (instr : RegInstruction) (intval : Int32) : RegInstruction :=
  { instr with arg1 := addrOfInt intval, arg1Reg := .basic intval }

def makeBasicRegister2 (instr : RegInstruction) (intval : Int32) : RegInstruction :=
  { instr with arg2 := addrOfInt intval, arg2Reg := .basic intval }

/-- `instruction_stmt` behind its opcode; the node is a copy of the opcode's, which is zero. -/
def instructionStmt (op : CfaOp) : Parse RegInstruction :=
  match op with
  | .setLoc | .advanceLoc | .advanceLoc1 | .advanceLoc2 | .advanceLoc4 | .defCfaOffset | .gnuArgsSize => do
    let arg1 ← nonnegIntLit
    pure { RegInstruction.blank op with arg1 := addrOfInt arg1 }
  | .offset | .offsetExtended | .valOffset | .defCfa => do
    let reg ← registerLit
    let arg2 ← nonnegIntLit
    pure { makeBasicRegister1 (.blank op) reg with arg2 := addrOfInt arg2 }
  | .offsetExtendedSf | .valOffsetSf => do
    let reg ← registerLit
    let arg2 ← int_
    pure { makeBasicRegister1 (.blank op) reg with arg2 := addrOfInt arg2 }
  -- the type is the one without `_sf`
  | .defCfaSf => do
    let reg ← registerLit
    let arg2 ← int_
    pure { makeBasicRegister1 (.blank .defCfa) reg with arg2 := addrOfInt arg2 }
  | .defCfaOffsetSf => do
    let arg1 ← int_
    pure { RegInstruction.blank .defCfa with arg1 := addrOfInt arg1 }
  | .restore | .restoreExtended | .undefined | .sameValue | .defCfaRegister => do
    let reg ← registerLit
    pure (makeBasicRegister1 (.blank op) reg)
  | .register => do
    let reg ← registerLit
    let reg2 ← registerLit
    pure (makeBasicRegister2 (makeBasicRegister1 (.blank op) reg) reg2)
  | .nop | .rememberState | .restoreState => pure (.blank op)
  | .defCfaExpression => do
    let expr ← expressionBlock
    pure { RegInstruction.blank op with expr }
  | .expression | .valExpression => do
    let reg ← registerLit
    let expr ← expressionBlock
    pure { makeBasicRegister1 (.blank op) reg with expr }
  -- no token is for these
  | .katanaFixups | .katanaFixupsPointer | .other _ => yyerror syntaxError

def instructionItem : Item (List RegInstruction) := fun instructions t =>
  match t with
  | .cfa op => some do
    let instr ← instructionStmt op
    pure (instructions ++ [instr])
  | _ => none

def instructionSection : Parse (List RegInstruction) := do
  expectBegin .instructions
  let instructions ← items instructionItem []
  expectEnd .instructions
  pure instructions

/-! ## CIEs and FDEs -/

def zeroCIE : CIE := ⟨[], 0, 0, 0, 0, 0, 0, .none, 0, 0, 0, 0⟩

def cieProperty (idx : Nat) : Item CIE := fun cie t =>
  match t with
  | .keyword .index => some do
    let v ← property nonnegIntLit
    if v.toInt = idx then pure cie else yyerror "CIEs in dwarfscript must be listed in order of their indices\n"
  -- recomputed when the CIE is written
  | .keyword .length => some do
    let _ ← property nonnegIntLit
    pure cie
  | .keyword .version => some do
    let v ← property nonnegIntLit
    pure { cie with version := byteOfInt v }
  -- kept outside of the CIE
  | .keyword .augmentation => some do
    let _ ← property stringLit
    pure cie
  | .keyword .fdePtrEnc => some do
    let v ← property dwPeLit
    pure { cie with
      fdePointerEncoding := byteOfInt v
      augmentationFlags := { cie.augmentationFlags with fdeEnc := true, dataPresent := true } }
  | .keyword .fdeLsdaPtrEnc => some do
    let v ← property dwPeLit
    pure { cie with
      fdeLSDAPointerEncoding := byteOfInt v
      augmentationFlags := { cie.augmentationFlags with fdeLsda := true, dataPresent := true } }
  | .keyword .personalityPtrEnc => some do
    let v ← property dwPeLit
    pure { cie with
      personalityPointerEncoding := byteOfInt v
      augmentationFlags := { cie.augmentationFlags with personality := true, dataPresent := true } }
  | .keyword .personality => some do
    let v ← property nonnegIntLit
    pure { cie with
      personalityFunction := addrOfInt v
      augmentationFlags := { cie.augmentationFlags with personality := true, dataPresent := true } }
  | .keyword .addressSize => some do
    let v ← property nonnegIntLit
    pure { cie with addressSize := v }
  | .keyword .segmentSize => some do
    let v ← property nonnegIntLit
    pure { cie with segmentSize := v }
  | .keyword .dataAlign => some do
    let v ← property int_
    pure { cie with dataAlign := v.toInt64 }
  | .keyword .codeAlign => some do
    let v ← property nonnegIntLit
    pure { cie with codeAlign := addrOfInt v }
  | .keyword .returnAddrRule => some do
    let v ← property nonnegIntLit
    pure { cie with returnAddrRuleNum := v.toUInt32.toUInt16 }
  | _ => none

def finishCIE (isEHFrame : Bool) (cie : CIE) : CIE :=
  if cie.addressSize = 0 then { cie with addressSize := if isEHFrame then 4 else 8 } else cie

/-- `cie_section` behind its first tokens. The array is reallocated, and an FDE before it points to the old one. -/
def cieSection (cfi : CallFrameInfo) : Parse CallFrameInfo := do
  Run.fromExcept ((defined (cfi.cies.length < 2 ^ 31 ∧ cfi.fdes = [])).mapError .fault)
  let cie ← items (cieProperty cfi.cies.length) zeroCIE
  let initialInstructions ← instructionSection
  let cie ← items (cieProperty cfi.cies.length) { cie with initialInstructions }
  expectEnd .cie
  pure { cfi with cies := cfi.cies ++ [finishCIE cfi.isEHFrame cie] }

/-- `currentFDE`, whose CIE may not be known yet. -/
structure FdeParse where
  cie : Option Nat
  fde : FDE

def FdeParse.zero (idx : Int32) : FdeParse := ⟨none, ⟨0, [], 0, 0, false, 0, idx⟩⟩

def addInt (x y : Int32) : Except ParseEnd Int32 := do
  (defined (-2 ^ 31 ≤ x.toInt + y.toInt ∧ x.toInt + y.toInt < 2 ^ 31)).mapError .fault
  .ok (x + y)

def fdeProperty (numCIEs : Nat) : Item FdeParse := fun p t =>
  match t with
  | .keyword .index => some do
    let v ← property nonnegIntLit
    if v = p.fde.idx then pure p
    else yyerror "FDEs in dwarfscript must be listed in order of their indices. Found index %i when expectin %i\n"
  | .keyword .length => some do
    let _ ← property nonnegIntLit
    yyerror "length property not recognized for this section type\n"
  | .keyword .cieIndex => some do
    let v ← property nonnegIntLit
    if v.toInt < numCIEs then do
      Run.fromExcept ((defined (0 ≤ v.toInt)).mapError .fault)
      pure { p with cie := some v.toInt.toNat }
    else yyerror "cie_index specifies an index out of range. There are %i cies.\n"
  -- in case address range was encountered first
  | .keyword .initialLocation => some do
    let v ← property nonnegIntLit
    let highpc ← Run.fromExcept (addInt v p.fde.highpc)
    pure { p with fde := { p.fde with lowpc := v, highpc } }
  | .keyword .addressRange => some do
    let v ← property nonnegIntLit
    let highpc ← Run.fromExcept (addInt p.fde.lowpc v)
    pure { p with fde := { p.fde with highpc } }
  | .keyword .lsdaIdx => some do
    let v ← property nonnegIntLit
    pure { p with fde := { p.fde with hasLSDAPointer := true, lsdaIdx := addrOfInt v } }
  | _ => none

def FdeParse.finished (p : FdeParse) : Except ParseEnd FDE :=
  match p.cie with
  | none => .error (.yyerror "FDE section must specify the CIE associated with the FDE\n")
  | some cie => .ok { p.fde with cie }

def fdeSection (cfi : CallFrameInfo) : Parse CallFrameInfo := do
  Run.fromExcept ((defined (cfi.fdes.length < 2 ^ 31)).mapError .fault)
  let p ← items (fdeProperty cfi.cies.length) (.zero (Int32.ofNat cfi.fdes.length))
  let instructions ← instructionSection
  let p ← items (fdeProperty cfi.cies.length) { p with fde := { p.fde with instructions } }
  expectEnd .fde
  let fde ← Run.fromExcept p.finished
  pure { cfi with fdes := cfi.fdes ++ [fde] }

/-! ## LSDAs -/

def zeroCallSite : CallSiteRecord := ⟨0, 0, 0, 0, false⟩

def callSiteProperty : Item CallSiteRecord := fun callSite t =>
  match t with
  | .keyword .position => some do
    let v ← property nonnegIntLit
    pure { callSite with position := addrOfInt v }
  | .keyword .length => some do
    let v ← property nonnegIntLit
    pure { callSite with length := addrOfInt v }
  | .keyword .landingPad => some do
    let v ← property nonnegIntLit
    pure { callSite with landingPadPosition := addrOfInt v }
  | .keyword .hasAction => some do
    let hasAction ← property boolLit
    pure { callSite with hasAction }
  | .keyword .firstAction => some do
    let v ← property nonnegIntLit
    pure { callSite with firstAction := addrOfInt v }
  | _ => none

/-- `currentAction`, in memory nothing has been written to yet. -/
structure ActionParse where
  typeFilterIndex : Option Int32
  /-- `hasNextAction` and `nextAction`, where there is one. -/
  next : Option (Option UInt64)

def typeIdx : Parse Int32 := fun toks =>
  match toks with
  -- `TYPE_IDX_MATCH_ALL`
  | .keyword .matchAll :: toks => .ok (-1) toks
  | toks => nonnegIntLit toks

def nextAction : Parse (Option UInt64) := fun toks =>
  match toks with
  | .keyword .none_ :: toks => .ok none toks
  | toks => (do
    let v ← nonnegIntLit
    pure (some (addrOfInt v))) toks

def actionProperty : Item ActionParse := fun p t =>
  match t with
  | .keyword .typeIdx => some do
    let v ← property typeIdx
    pure { p with typeFilterIndex := some v }
  | .keyword .next => some do
    let v ← property nextAction
    pure { p with next := some v }
  | _ => none

/-- A record that is not complete is not defined; `nextAction` is not used where there is none. -/
def ActionParse.finished (p : ActionParse) : Except ParseEnd ActionRecord :=
  match p.typeFilterIndex, p.next with
  | some typeFilterIndex, some next => .ok ⟨typeFilterIndex, next.getD 0, next.isSome⟩
  | _, _ => .error (.fault .undefined)

/-- `call_site_section` and `action_section` behind `T_BEGIN`. -/
def lsdaSubsection (lsda : LSDA) : Parse LSDA := do
  match ← nextToken with
  | .keyword .callSite =>
    let callSite ← items callSiteProperty zeroCallSite
    expectEnd .callSite
    pure { lsda with callSiteTable := lsda.callSiteTable ++ [callSite] }
  | .keyword .action =>
    let p ← items actionProperty ⟨none, none⟩
    expectEnd .action
    let action ← Run.fromExcept p.finished
    pure { lsda with actionTable := lsda.actionTable ++ [action] }
  | _ => yyerror syntaxError

def lsdaPart : Item LSDA := fun lsda t =>
  match t with
  | .keyword .lpstart => some do
    let v ← property nonnegIntLit
    pure { lsda with lpStart := addrOfInt v }
  | .keyword .typeinfoEnc => some do
    let v ← property dwPeLit
    pure { lsda with ttEncoding := byteOfInt v }
  | .keyword .typeinfo => some do
    let v ← property nonnegIntLit
    pure { lsda with typeTable := lsda.typeTable ++ [addrOfInt v] }
  | .keyword .begin_ => some (lsdaSubsection lsda)
  | _ => none

def zeroLSDA : LSDA := ⟨0, [], [], 0, []⟩

def lsdaSection (cfi : CallFrameInfo) : Parse CallFrameInfo := do
  let lsda ← items lsdaPart zeroLSDA
  expectEnd .lsda
  pure { cfi with exceptTable := some (cfi.exceptTable.getD [] ++ [lsda]) }

/-! ## The whole script -/

def sectionType (cfi : CallFrameInfo) (savedString : Text) : Except ParseEnd CallFrameInfo :=
  let name := stringOf savedString
  if name = text ".eh_frame" ∨ name = text "eh_frame" then .ok { cfi with isEHFrame := true }
  else if name = text ".debug_frame" ∨ name = text "debug_frame" then .ok { cfi with isEHFrame := false }
  else .error (.yyerror "Unexpected section type for dwarfscript, expected \".eh_frame\" or \".debug_frame\"\n")

def topProperty : Item CallFrameInfo := fun cfi t =>
  match t with
  | .keyword .sectionType => some do
    let v ← property stringLit
    Run.fromExcept (sectionType cfi v)
  | .keyword .sectionAddr => some do
    let v ← property nonnegIntLit
    pure { cfi with ehAddress := addrOfInt v }
  | .keyword .ehHdrAddr => some do
    let v ← property nonnegIntLit
    pure { cfi with ehHdrAddress := addrOfInt v }
  | .keyword .ehHdrTableEnc => some do
    let v ← property dwPeLit
    pure { cfi with hdrTableEncoding := byteOfInt v }
  | .keyword .exceptTableAddr => some do
    let v ← property nonnegIntLit
    pure { cfi with exceptTableAddress := addrOfInt v }
  | _ => none

/-- A section behind `T_BEGIN`. -/
def sectionBody (cfi : CallFrameInfo) : Parse CallFrameInfo := do
  match ← nextToken with
  | .keyword .fde => fdeSection cfi
  | .keyword .cie => cieSection cfi
  | .keyword .lsda => lsdaSection cfi
  | _ => yyerror syntaxError

def sectionItem : Item CallFrameInfo := fun cfi t =>
  match t with
  | .keyword .begin_ => some (sectionBody cfi)
  | _ => none

def endOfInput : Parse Unit := fun toks =>
  match toks with
  | [] => .ok () []
  | toks => .error (.yyerror syntaxError) toks

def dwarfscript (cfi : CallFrameInfo) : Parse CallFrameInfo := do
  let cfi ← items topProperty cfi
  let cfi ← items sectionItem cfi
  endOfInput
  pure cfi

def defaults : CallFrameInfo := ⟨[], [], false, 0, 0, 0, 0x3b, none⟩

/-- `compileDwarfscript`, up to the call-frame information; all is scanned before it is parsed. -/
def compileDwarfscript (input : Text) : Except ParseEnd CallFrameInfo := do
  let toks ← (lexText input).mapError .fault
  match dwarfscript defaults toks with
  | .ok cfi _ => .ok cfi
  | .error e _ => .error e

end Katana.Script
