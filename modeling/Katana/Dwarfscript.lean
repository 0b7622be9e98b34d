/-
  Katana.Dwarfscript — labels in the expressions of a dwarfscript (shell/dwarfscript/dwarfscript.y).

  An operation that refers to a label stores where it stands itself until the label is defined, and is then
  filled in with the displacement; a label defined before is filled in at once. When the expression ends the
  labels are deleted, whether all of them were defined or not.

  Proved, for every expression:
  - `exprStmt_cases`: what one statement does to the operations, the length and the labels.
  - `parseStmts_cases`: an expression is refused at a statement, is too long, or all is as it should be so far.
  - `labelsResolved_iff`: exactly when the stored displacements are right.
-/
import Katana.Dictionary
import Katana.Dwarf.ExprCodec

namespace Katana

open Lib

/-! ## The statements of an expression -/

/-- A `T_INT` (written with a minus sign), `T_POS_INT` or `T_NONNEG_INT`; a hexadecimal one can be negative as an int. -/
structure IntLit where
  minus : Bool
  savedInt : Int32
  deriving DecidableEq, Repr

/-- `int_lit`, as it goes into an argument. -/
def IntLit.intval (lit : IntLit) : UInt64 := lit.savedInt.toInt64.toUInt64

def syntaxError : String := "syntax error"

def IntLit.nonneg (lit : IntLit) : Except String UInt64 := if lit.minus then .error syntaxError else .ok lit.intval

def DwOp.ofInt (type : Int) : DwOp :=
  if 0 ≤ type ∧ type < 256 then .ofByte (UInt8.ofNat type.toNat) else .other (type % 2 ^ 32).toNat

inductive OpStmt where
  /-- A `DW_OP_*` token and the literals after it. -/
  | dwOp (type : DwOp) (operands : List IntLit)
  | litn (savedInt : Int32)
  | regn (savedInt : Int32)
  | bregn (savedInt : Int32) (operand : IntLit)
  deriving DecidableEq, Repr

/-- The rules of the opcodes that stand alone; `DW_OP_plus_uconst` is one of them, and `other` has the pieces,
`DW_OP_implicit_value` and `DW_OP_stack_value`. -/
def dwOpAlone (type : DwOp) : Except String DwarfExprInstr :=
  match type with
  | .deref | .dup | .drop | .opOver | .swap | .rot | .xderef | .abs | .and | .div | .minus | .mod | .mul | .neg | .not
  | .or | .plus | .plusUconst | .shl | .shr | .shra | .xor | .eq | .ge | .gt | .le | .lt | .ne | .nop
  | .pushObjectAddress | .formTlsAddress | .callFrameCfa
  | .other 0x93 | .other 0x9d | .other 0x9e | .other 0x9f => .ok ⟨type, 0, 0⟩
  | .constu => .error "expected integer constant after DW_OP_constu\n"
  | .fbreg => .error "DW_OP_fbreg not implemented yet\n"
  | .other 0x98 => .error "DW_OP_call2 not implemented yet\n"
  | .other 0x99 => .error "DW_OP_call4 not implemented yet\n"
  | .other 0x9a => .error "DW_OP_call_ref not implemented yet\n"
  | _ => .error syntaxError

/-- The rules of the opcodes with one literal; `other` has `DW_OP_regx`. -/
def dwOpInt (type : DwOp) (operand : IntLit) : Except String DwarfExprInstr :=
  match type with
  | .addr | .const1u | .const2u | .const4u | .const8u | .constu | .pick | .xderefSize | .other 0x90 => do
    .ok ⟨type, ← operand.nonneg, 0⟩
  | .const1s | .const2s | .const4s | .const8s | .consts | .skip | .bra => .ok ⟨type, operand.intval, 0⟩
  | .derefSize => do
    let arg1 ← operand.nonneg
    if 255 < arg1 then .error "DW_OP_deref_size operand out of range\n" else .ok ⟨type, arg1, 0⟩
  | _ => .error syntaxError

/-- The operation of a statement, or what the parse ends with. -/
def OpStmt.opInstr : OpStmt → Except String DwarfExprInstr
  | .dwOp type [] => dwOpAlone type
  | .dwOp type [operand] => dwOpInt type operand
  | .dwOp .bregx [reg, operand] => do .ok ⟨.bregx, ← reg.nonneg, operand.intval⟩
  | .dwOp _ _ => .error syntaxError
  | .litn savedInt =>
    if 31 < savedInt then .error "DW_OP_lit cannot take value greater than 31\n"
    else .ok ⟨.ofInt (0x30 + savedInt.toInt), 0, 0⟩
  | .regn savedInt => .ok ⟨.ofInt (0x50 + savedInt.toInt), 0, 0⟩
  | .bregn savedInt operand => .ok ⟨.ofInt (0x70 + savedInt.toInt), operand.intval, 0⟩

/-- The operations that may refer to a label. -/
inductive FlowOp where
  | skip | bra
  deriving DecidableEq, Repr

def FlowOp.type : FlowOp → DwOp
  | skip => .skip
  | bra => .bra

inductive ExprStmt where
  | op (stmt : OpStmt)
  | jump (flow : FlowOp) (name : String)
  | label (name : String)
  deriving DecidableEq, Repr

/-! ## Parsing them -/

/-- `references` are the first `numReferences` of the array. -/
structure Label where
  byteLocation : Int
  locationKnown : Bool
  references : List Nat
  deriving DecidableEq, Repr

def Label.zero : Label := ⟨0, false, []⟩

structure ExprParse where
  instructions : DwarfExpr
  byteLength : Nat
  labels : Dictionary Label

/-- How a parse ends early: `YYERROR` or a syntax error, or the program does. -/
inductive ParseEnd where
  | yyerror (msg : String)
  | fault (fault : Fault)
  deriving DecidableEq, Repr

def addToDwarfExpression (expr : ExprParse) (instr : DwarfExprInstr) : Except Fault ExprParse := do
  -- encode this instruction in its binary form so we can figure out how long it is
  let buf ← encodeDwarfExprInstr instr .zero
  defined (expr.byteLength + buf.len < 2 ^ 31)
  .ok { expr with instructions := expr.instructions ++ [instr], byteLength := expr.byteLength + buf.len }

def fillInReference (opInstr : DwarfExprInstr) (labelByteLocation opInstrByteLocation : Int) :
    Except Fault DwarfExprInstr :=
  match opInstr.type with
  | .skip | .bra => do
    -- relative; -3 because of the length of these instructions
    let arg1 := labelByteLocation - opInstrByteLocation - 3
    defined (-2 ^ 31 ≤ arg1 ∧ arg1 < 2 ^ 31)
    .ok { opInstr with arg1 := UInt64.ofInt arg1 }
  | _ => .error (.death "Unexepected use of label reference, instruction not expected\n")

/-- `dictGet`, and the label it creates if there is none. -/
def getLabel (labels : Dictionary Label) (name : String) : Except Fault (Label × Dictionary Label) :=
  match dictGet labels name with
  | some lbl => .ok (lbl, labels)
  | none => do
    let labels ← dictInsert labels name .zero
    .ok (.zero, labels)

def flowControlLabelReference (expr : ExprParse) (opInstr : DwarfExprInstr) (name : String) :
    Except Fault (ExprParse × DwarfExprInstr) := do
  let (lbl, labels) ← getLabel expr.labels name
  if lbl.locationKnown then
    let opInstr ← fillInReference opInstr lbl.byteLocation expr.byteLength
    .ok ({ expr with labels }, opInstr)
  else
    -- the location is kept in `arg1`, and a reference to the operation, so that it can be filled in later
    let lbl := { lbl with references := lbl.references ++ [expr.instructions.length] }
    .ok ({ expr with labels := dictAssign labels name lbl }, { opInstr with arg1 := UInt64.ofNat expr.byteLength })

/-- A word as an int parameter. -/
def intOfWord (w : UInt64) : Int := w.toUInt32.toInt32.toInt

/-- One turn of the loop over `lbl->references`. -/
def fillReference (byteLocation : Int) (instructions : DwarfExpr) (idx : Nat) : Except Fault DwarfExpr :=
  match instructions[idx]? with
  | some opInstr => do
    let opInstr ← fillInReference opInstr byteLocation (intOfWord opInstr.arg1)
    .ok (instructions.set idx opInstr)
  | none => .error .undefined

def labelRule (expr : ExprParse) (name : String) : Except ParseEnd ExprParse := do
  let (lbl, labels) ← (getLabel expr.labels name).mapError .fault
  if lbl.locationKnown then .error (.yyerror ("Cannot redefine label '" ++ name ++ "'\n"))
  else
    let instructions ← (lbl.references.foldlM (fillReference expr.byteLength) expr.instructions).mapError .fault
    .ok ⟨instructions, expr.byteLength, dictAssign labels name ⟨expr.byteLength, true, []⟩⟩

def exprStmt (expr : ExprParse) : ExprStmt → Except ParseEnd ExprParse
  | .op stmt => do
    let opInstr ← stmt.opInstr.mapError .yyerror
    (addToDwarfExpression expr opInstr).mapError .fault
  | .jump flow name => do
    let (expr, opInstr) ← (flowControlLabelReference expr ⟨flow.type, 0, 0⟩ name).mapError .fault
    (addToDwarfExpression expr opInstr).mapError .fault
  | .label name => labelRule expr name

def parseStmts (expr : ExprParse) (stmts : List ExprStmt) : Except ParseEnd ExprParse := stmts.foldlM exprStmt expr

/-- `expression_section`: from zeroed `currentExpr` and new labels; these are deleted at the end. -/
def expressionSection (stmts : List ExprStmt) : Except ParseEnd DwarfExpr := do
  let expr ← parseStmts ⟨[], 0, dictCreate 100⟩ stmts
  .ok expr.instructions

/-! ## What it is for -/

def operationCount (stmts : List ExprStmt) : Nat :=
  stmts.countP fun s => match s with
    | .label _ => false
    | _ => true

/-- Every reference is to a label of the expression, and the displacement leads from behind the operation to it. -/
def JumpsRight (stmts : List ExprStmt) (expr : DwarfExpr) : Prop :=
  ∀ before flow name after, stmts = before ++ .jump flow name :: after →
    ∃ before' after', stmts = before' ++ .label name :: after' ∧
      ∃ instr, expr[operationCount before]? = some instr ∧ instr.type = flow.type ∧
        instr.signedArg = ((exprBytes (expr.take (operationCount before'))).length : Int) -
          (exprBytes (expr.take (operationCount before + 1))).length

/-- An expression that is not refused has its references resolved. -/
def LabelsResolved (stmts : List ExprStmt) : Prop :=
  match expressionSection stmts with
  | .ok expr => JumpsRight stmts expr
  | .error end_ => end_ ≠ .fault .undefined

/-! ## Where the statements come to lie -/

def OpStmt.instrOrNop (stmt : OpStmt) : DwarfExprInstr :=
  match stmt.opInstr with
  | .ok instr => instr
  | .error _ => ⟨.nop, 0, 0⟩

/-- The operation of a statement at `pos`, with the labels where `env` says. -/
def ExprStmt.resolved (env : String → Option Nat) (pos : Nat) : ExprStmt → DwarfExprInstr
  | .op stmt => stmt.instrOrNop
  | .jump flow name =>
    ⟨flow.type, match env name with
      | some l => UInt64.ofInt ((l : Int) - pos - 3)
      | none => UInt64.ofNat pos, 0⟩
  | .label _ => ⟨.nop, 0, 0⟩

def ExprStmt.length : ExprStmt → Nat
  | .op stmt => stmt.instrOrNop.bytes.length
  | .jump _ _ => 3
  | .label _ => 0

@[simp] theorem length_jump (flow : FlowOp) (name : String) : (ExprStmt.jump flow name).length = 3 := rfl

@[simp] theorem length_label (name : String) : (ExprStmt.label name).length = 0 := rfl

def encodedLength (stmts : List ExprStmt) : Nat := (stmts.map ExprStmt.length).sum

/-- The operations with the positions they come to lie at. -/
def placed (pos : Nat) : List ExprStmt → List (Nat × ExprStmt)
  | [] => []
  | .op stmt :: rest => (pos, .op stmt) :: placed (pos + (ExprStmt.op stmt).length) rest
  | .jump flow name :: rest => (pos, .jump flow name) :: placed (pos + 3) rest
  | .label _ :: rest => placed pos rest

def labelPos (pos : Nat) : List ExprStmt → String → Option Nat
  | [], _ => none
  | s :: rest, name => if s = .label name then some pos else labelPos (pos + s.length) rest name

/-- The operations, with every reference filled in whose label is known. -/
def resolvedExpr (stmts : List ExprStmt) : DwarfExpr := (placed 0 stmts).map fun p => p.2.resolved (labelPos 0 stmts) p.1

/-- A statement that is refused after these: an operation the grammar or the encoder has no case for, or a second
label of a name. -/
def Refused (before : List ExprStmt) : ExprStmt → Prop
  | .op stmt => ∀ instr, stmt.opInstr = .ok instr → instr.type.encodeShape = none
  | .jump _ _ => False
  | .label name => .label name ∈ before

def RefusedSomewhere (stmts : List ExprStmt) : Prop :=
  ∃ before s after, stmts = before ++ s :: after ∧ encodedLength before < 2 ^ 31 ∧ Refused before s

section Placed
variable {stmts done rest : List ExprStmt} {s : ExprStmt} {pos k : Nat} {name : String}

@[simp] theorem encodedLength_nil : encodedLength [] = 0 := rfl

@[simp] theorem encodedLength_cons : encodedLength (s :: rest) = s.length + encodedLength rest := by
  simp [encodedLength]

@[simp] theorem encodedLength_append : encodedLength (done ++ rest) = encodedLength done + encodedLength rest := by
  simp [encodedLength]

theorem placed_append : placed pos (done ++ rest) = placed pos done ++ placed (pos + encodedLength done) rest := by
  induction done generalizing pos with
  | nil => simp [placed]
  | cons s done ih =>
    cases s with
    | op stmt => simp [placed, ih, Nat.add_assoc]
    | jump flow name => simp [placed, ih, Nat.add_assoc]
    | label name => simp [placed, ih]

theorem length_placed : (placed pos stmts).length = operationCount stmts := by
  induction stmts generalizing pos with
  | nil => rfl
  | cons s stmts ih => cases s <;> simp_all [placed, operationCount]

/-- An operation lies inside what comes before the end. -/
theorem placed_inside {p : Nat × ExprStmt} (h : p ∈ placed pos stmts) :
    p.1 + p.2.length ≤ pos + encodedLength stmts := by
  induction stmts generalizing pos with
  | nil => cases h
  | cons s stmts ih =>
    cases s with
    | label name =>
      have := ih (show p ∈ placed pos stmts from h)
      simp
      omega
    | op stmt =>
      rcases List.mem_cons.mp h with rfl | h
      · simp
      · have := ih h
        simp
        omega
    | jump flow name =>
      rcases List.mem_cons.mp h with rfl | h
      · simp
      · have := ih h
        simp
        omega

theorem labelPos_append :
    labelPos pos (done ++ rest) name = (labelPos pos done name).or (labelPos (pos + encodedLength done) rest name) := by
  induction done generalizing pos with
  | nil => simp [labelPos]
  | cons s done ih =>
    by_cases hs : s = .label name
    · simp [labelPos, hs]
    · simp [labelPos, hs, ih, Nat.add_assoc]

theorem labelPos_eq_none : labelPos pos stmts name = none ↔ .label name ∉ stmts := by
  induction stmts generalizing pos with
  | nil => simp [labelPos]
  | cons s stmts ih =>
    by_cases hs : s = .label name
    · simp [labelPos, hs]
    · simp [labelPos, hs, ih, eq_comm]

/-- The label of a name is where the first one is. -/
theorem labelPos_first {after : List ExprStmt} (h : .label name ∉ done) :
    labelPos 0 (done ++ .label name :: after) name = some (encodedLength done) := by
  rw [labelPos_append, labelPos_eq_none.mpr h]
  simp [labelPos]

theorem length_resolved (env : String → Option Nat) (hs : ∀ name, s ≠ .label name) :
    (s.resolved env pos).bytes.length = s.length := by
  cases s with
  | op stmt => rfl
  | jump flow name => cases flow <;> simp [ExprStmt.resolved, FlowOp.type, DwarfExprInstr.bytes,
      DwarfExprInstr.operandBytes, DwOp.encodeShape]
  | label name => exact absurd rfl (hs name)

/-- The operations before a place take the bytes its position says. -/
theorem length_exprBytes (env : String → Option Nat) :
    (exprBytes ((placed pos stmts).map fun p => p.2.resolved env p.1)).length = encodedLength stmts := by
  induction stmts generalizing pos with
  | nil => rfl
  | cons s stmts ih =>
    cases s with
    | label name => simpa [placed] using ih
    | op stmt =>
      have : ((ExprStmt.op stmt).resolved env pos).bytes.length = _ := length_resolved env (by simp)
      simp [placed, exprBytes, this] at ih ⊢
      exact ih
    | jump flow name =>
      have : ((ExprStmt.jump flow name).resolved env pos).bytes.length = _ := length_resolved env (by simp)
      simp [placed, exprBytes, this] at ih ⊢
      exact ih

end Placed

/-! ## What one statement does -/

@[simp] theorem mapError_ok {ε ε' α : Type} (f : ε → ε') (a : α) : (Except.ok a : Except ε α).mapError f = .ok a := rfl

@[simp] theorem mapError_error {ε ε' α : Type} (f : ε → ε') (e : ε) :
    (Except.error e : Except ε α).mapError f = .error (f e) := rfl

def labelOf (labels : Dictionary Label) (name : String) : Label := (dictGet labels name).getD .zero

section Labels
variable {labels : Dictionary Label} {name : String}

theorem getLabel_ok : ∃ labels', getLabel labels name = .ok (labelOf labels name, labels') ∧
    (∀ name', labelOf labels' name' = labelOf labels name') ∧
    ∀ lbl name', labelOf (dictAssign labels' name lbl) name' = if name' = name then lbl else labelOf labels name' := by
  unfold getLabel labelOf
  cases hget : dictGet labels name with
  | some lbl =>
    refine ⟨labels, rfl, fun _ => rfl, fun lbl' name' => ?_⟩
    rw [dictGet_assign]
    by_cases hname : name' = name
    · simp [hname, hget]
    · simp [hname, Ne.symm hname]
  | none =>
    obtain ⟨labels', hins⟩ := dictInsert_ok hget Label.zero
    have hafter := dictGet_insert hins
    refine ⟨labels', by simp [hins], fun name' => ?_, fun lbl' name' => ?_⟩
    · rw [hafter]
      by_cases hname : name' = name
      · simp [hname, hget]
      · simp [hname]
    · rw [dictGet_assign, hafter]
      by_cases hname : name' = name
      · simp [hname]
      · simp [hname, Ne.symm hname]

end Labels

def filledIn (l : Nat) (instr : DwarfExprInstr) : DwarfExprInstr :=
  { instr with arg1 := UInt64.ofInt ((l : Int) - instr.arg1.toNat - 3) }

theorem intOfWord_ofNat {pos : Nat} (h : pos < 2 ^ 31) : intOfWord (UInt64.ofNat pos) = pos := by
  have hbmod : (pos : Int).bmod 4294967296 = pos := Int.bmod_eq_of_le (by omega) (by omega)
  simpa [intOfWord] using hbmod

theorem filledIn_ofNat {type : DwOp} {l pos : Nat} (h : pos < 2 ^ 31) :
    filledIn l ⟨type, UInt64.ofNat pos, 0⟩ = ⟨type, UInt64.ofInt ((l : Int) - pos - 3), 0⟩ := by
  have hmod : (UInt64.ofNat pos).toNat = pos := UInt64.toNat_ofNat_of_lt' (by
    show _ < 2 ^ 64
    omega)
  simp only [filledIn, hmod]

theorem fillInReference_ok {flow : FlowOp} {arg1 : UInt64} {l pos : Nat} (hl : l < 2 ^ 31)
    (hpos : -2 ^ 31 ≤ (l : Int) - pos - 3) :
    fillInReference ⟨flow.type, arg1, 0⟩ l pos = .ok ⟨flow.type, UInt64.ofInt ((l : Int) - pos - 3), 0⟩ := by
  have hrange : -2 ^ 31 ≤ (l : Int) - pos - 3 ∧ (l : Int) - pos - 3 < 2 ^ 31 := by omega
  cases flow <;> simp only [fillInReference, FlowOp.type, defined_of hrange, bind_ok]

/-- **The references are filled in**, each once, and nothing else. -/
theorem fillReferences_ok {l : Nat} {refs : List Nat} {instructions : DwarfExpr} (hl : l < 2 ^ 31) (hnodup : refs.Nodup)
    (hrefs : ∀ k ∈ refs, ∃ flow pos, instructions[k]? = some ⟨FlowOp.type flow, UInt64.ofNat pos, 0⟩ ∧ pos + 3 ≤ l) :
    ∃ instructions', refs.foldlM (fillReference l) instructions = .ok instructions' ∧
      ∀ k, instructions'[k]? = if k ∈ refs then (instructions[k]?).map (filledIn l) else instructions[k]? := by
  induction refs generalizing instructions with
  | nil => exact ⟨instructions, rfl, by simp⟩
  | cons idx refs ih =>
    obtain ⟨hnotin, hnodup⟩ := List.nodup_cons.mp hnodup
    obtain ⟨flow, pos, hget, hpos⟩ := hrefs idx (by simp)
    have hlt : idx < instructions.length := (List.getElem?_eq_some_iff.mp hget).1
    have hone : fillReference l instructions idx =
        .ok (instructions.set idx (filledIn l ⟨flow.type, UInt64.ofNat pos, 0⟩)) := by
      simp only [fillReference, hget, intOfWord_ofNat (show pos < 2 ^ 31 by omega),
        fillInReference_ok hl (show -2 ^ 31 ≤ (l : Int) - pos - 3 by omega), bind_ok, filledIn_ofNat (show pos < 2 ^ 31 by omega)]
    obtain ⟨instructions', hrun, hafter⟩ := @ih (instructions.set idx (filledIn l ⟨flow.type, UInt64.ofNat pos, 0⟩))
      hnodup (fun k hk => by
        have hne : idx ≠ k := fun h => hnotin (h ▸ hk)
        rw [List.getElem?_set_ne hne]
        exact hrefs k (by simp [hk]))
    refine ⟨instructions', ?_, fun k => ?_⟩
    · rw [List.foldlM_cons, hone, bind_ok, hrun]
    · rw [hafter]
      by_cases hk : idx = k
      · subst hk
        rw [if_neg hnotin, if_pos (by simp), List.getElem?_set_self hlt, hget, Option.map_some]
      · simp [List.getElem?_set_ne hk, Ne.symm hk]

/-- Adding an operation with these bytes. -/
theorem addToDwarfExpression_cases (expr : ExprParse) (instr : DwarfExprInstr) :
    (instr.type.encodeShape = none → ∃ msg, addToDwarfExpression expr instr = .error (.death msg)) ∧
    (instr.type.encodeShape ≠ none → addToDwarfExpression expr instr =
      if expr.byteLength + instr.bytes.length < 2 ^ 31 then
        .ok ⟨expr.instructions ++ [instr], expr.byteLength + instr.bytes.length, expr.labels⟩
      else .error .undefined) := by
  refine ⟨fun hs => ?_, fun hs => ?_⟩
  · obtain ⟨b, hb⟩ := @addToGrowingBuffer_total .zero [UInt8.ofNat instr.type.code]
      (by simp [GrowingBuffer.len, GrowingBuffer.zero])
    refine ⟨"While encoding DWARF expression, unsupported DW_OP with code 0x" ++ hex instr.type.code ++ "\n", ?_⟩
    simp only [addToDwarfExpression, encodeDwarfExprInstr, hb, bind_ok, hs, bind_error]
  · obtain ⟨buf, hbuf⟩ := encodeDwarfExprInstr_total hs (show GrowingBuffer.zero.len < 2 ^ 29 by decide)
    have hdata : buf.data = instr.bytes := (encodeDwarfExprInstr_ok hbuf).2
    have hlen : buf.len = instr.bytes.length := by rw [GrowingBuffer.len, hdata]
    simp only [addToDwarfExpression, hbuf, bind_ok, hlen]
    by_cases hfit : expr.byteLength + instr.bytes.length < 2 ^ 31
    · simp only [defined_of hfit, bind_ok, if_pos hfit]
    · simp only [defined_not hfit, bind_error, if_neg hfit]

/-- The state after some statements, none of which was refused. -/
structure Parsed (done : List ExprStmt) (expr : ExprParse) : Prop where
  bounded : encodedLength done < 2 ^ 31
  byteLength : expr.byteLength = encodedLength done
  instructions : expr.instructions = resolvedExpr done
  known : ∀ name l, labelPos 0 done name = some l → labelOf expr.labels name = ⟨l, true, []⟩
  unknown : ∀ name, labelPos 0 done name = none →
    (labelOf expr.labels name).locationKnown = false ∧ (labelOf expr.labels name).references.Nodup ∧
    ∀ k, k ∈ (labelOf expr.labels name).references ↔ ∃ pos flow, (placed 0 done)[k]? = some (pos, .jump flow name)

theorem parsed_nil : Parsed [] ⟨[], 0, dictCreate 100⟩ where
  bounded := by decide
  byteLength := rfl
  instructions := rfl
  known name l h := by cases h
  unknown name _ := by simp [labelOf, Label.zero, placed]

section Step
variable {done : List ExprStmt} {expr : ExprParse}

/-- What is no label leaves the labels where they are. -/
theorem labelPos_snoc {s : ExprStmt} (hs : ∀ name, s ≠ .label name) : labelPos 0 (done ++ [s]) = labelPos 0 done := by
  funext name
  rw [labelPos_append, labelPos, if_neg (hs name)]
  simp [labelPos]

theorem placed_snoc {s : ExprStmt} (hs : ∀ name, s ≠ .label name) :
    placed 0 (done ++ [s]) = placed 0 done ++ [(encodedLength done, s)] := by
  rw [placed_append]
  cases s with
  | op stmt => simp [placed]
  | jump flow name => simp [placed]
  | label name => exact absurd rfl (hs name)

theorem resolvedExpr_snoc {s : ExprStmt} (hs : ∀ name, s ≠ .label name) :
    resolvedExpr (done ++ [s]) = resolvedExpr done ++ [s.resolved (labelPos 0 done) (encodedLength done)] := by
  simp [resolvedExpr, placed_snoc hs, labelPos_snoc hs]

/-- **An operation is added**: the labels are those before it, save that its own label, when not known yet, has a
reference to it. -/
theorem Parsed.snoc {s : ExprStmt} {labels : Dictionary Label} (h : Parsed done expr) (hs : ∀ name, s ≠ .label name)
    (hfit : encodedLength (done ++ [s]) < 2 ^ 31)
    (hsame : ∀ name, (∀ flow, s ≠ .jump flow name) ∨ labelPos 0 done name ≠ none →
      labelOf labels name = labelOf expr.labels name)
    (hreferred : ∀ flow name, s = .jump flow name → labelPos 0 done name = none → labelOf labels name =
      { labelOf expr.labels name with
        references := (labelOf expr.labels name).references ++ [expr.instructions.length] }) :
    Parsed (done ++ [s]) ⟨expr.instructions ++ [s.resolved (labelPos 0 done) (encodedLength done)],
      expr.byteLength + s.length, labels⟩ where
  bounded := hfit
  byteLength := by simp [h.byteLength]
  instructions := by simp [resolvedExpr_snoc hs, h.instructions]
  known name l hl := by
    rw [labelPos_snoc hs] at hl
    rw [hsame name (.inr (by simp [hl]))]
    exact h.known name l hl
  unknown name hnone := by
    rw [labelPos_snoc hs] at hnone
    obtain ⟨hunknown, hnodup, hrefs⟩ := h.unknown name hnone
    have hcount : expr.instructions.length = (placed 0 done).length := by simp [h.instructions, resolvedExpr]
    rw [placed_snoc hs]
    by_cases hjump : ∃ flow, s = .jump flow name
    · obtain ⟨flow, rfl⟩ := hjump
      rw [hreferred flow name rfl hnone]
      refine ⟨hunknown, ?_, fun k => ?_⟩
      · rw [List.nodup_append]
        refine ⟨hnodup, by simp, fun k hk j hj hkj => ?_⟩
        obtain ⟨pos, flow', hk⟩ := (hrefs k).mp hk
        have := (List.getElem?_eq_some_iff.mp hk).1
        simp at hj
        omega
      · rw [List.mem_append, hrefs, List.mem_singleton, hcount]
        by_cases hk : k < (placed 0 done).length
        · rw [List.getElem?_append_left hk]
          constructor
          · rintro (hk' | hk')
            · exact hk'
            · omega
          · exact .inl
        · rw [List.getElem?_append_right (Nat.le_of_not_lt hk)]
          by_cases heq : k = (placed 0 done).length
          · simp [heq]
          · have hsub : k - (placed 0 done).length ≠ 0 := by omega
            obtain ⟨n, hn⟩ := Nat.exists_eq_succ_of_ne_zero hsub
            simp [List.getElem?_eq_none (Nat.le_of_not_lt hk), heq, hn]
    · rw [hsame name (.inl fun flow hflow => hjump ⟨flow, hflow⟩)]
      refine ⟨hunknown, hnodup, fun k => ?_⟩
      rw [hrefs]
      by_cases hk : k < (placed 0 done).length
      · rw [List.getElem?_append_left hk]
      · rw [List.getElem?_append_right (Nat.le_of_not_lt hk), List.getElem?_eq_none (Nat.le_of_not_lt hk)]
        refine iff_of_false (by simp) ?_
        rintro ⟨pos, flow, hget⟩
        have hmem := List.mem_of_getElem? hget
        simp only [List.mem_singleton, Prod.mk.injEq] at hmem
        exact hjump ⟨flow, hmem.2.symm⟩

theorem labelPos_le {stmts : List ExprStmt} {name : String} {pos l : Nat} (h : labelPos pos stmts name = some l) :
    l ≤ pos + encodedLength stmts := by
  induction stmts generalizing pos with
  | nil => cases h
  | cons s stmts ih =>
    by_cases hs : s = .label name
    · simp [labelPos, hs] at h
      omega
    · simp only [labelPos, hs, if_false] at h
      have := ih h
      simp
      omega

theorem placed_label {name : String} : placed 0 (done ++ [.label name]) = placed 0 done := by
  rw [placed_append]
  simp [placed]

theorem labelPos_label {name : String} (h : labelPos 0 done name = none) (name' : String) :
    labelPos 0 (done ++ [.label name]) name' =
      if name' = name then some (encodedLength done) else labelPos 0 done name' := by
  rw [labelPos_append]
  by_cases hname : name' = name
  · subst hname
    simp [h, labelPos]
  · simp [labelPos, hname, Ne.symm hname]

/-- Adding an operation to what was parsed: it fits, or the length overflows. -/
theorem Parsed.add {s : ExprStmt} (h : Parsed done expr) (hs : ∀ name, s ≠ .label name) {instr : DwarfExprInstr}
    (hinstr : s.resolved (labelPos 0 done) (encodedLength done) = instr) (hshape : instr.type.encodeShape ≠ none)
    (labels : Dictionary Label) :
    addToDwarfExpression { expr with labels } instr =
      if encodedLength (done ++ [s]) < 2 ^ 31 then
        .ok ⟨expr.instructions ++ [s.resolved (labelPos 0 done) (encodedLength done)], expr.byteLength + s.length, labels⟩
      else .error .undefined := by
  have hlen : instr.bytes.length = s.length := by rw [← hinstr, length_resolved _ hs]
  rw [(addToDwarfExpression_cases _ instr).2 hshape, hlen, hinstr]
  simp [h.byteLength]

theorem FlowOp.encodable (flow : FlowOp) : flow.type.encodeShape ≠ none := by
  cases flow <;> simp [FlowOp.type, DwOp.encodeShape]

inductive StmtResult (done : List ExprStmt) (s : ExprStmt) (result : Except ParseEnd ExprParse) : Prop
  | refused (hrefused : Refused done s) (end_ : ParseEnd) (hresult : result = .error end_) (hend : end_ ≠ .fault .undefined)
  | added (hrefused : ¬ Refused done s) (expr' : ExprParse) (hresult : result = .ok expr')
      (hparsed : Parsed (done ++ [s]) expr')
  | overflow (hrefused : ¬ Refused done s) (hlong : ¬ encodedLength (done ++ [s]) < 2 ^ 31)
      (hresult : result = .error (.fault .undefined))

theorem exprStmt_op (h : Parsed done expr) (stmt : OpStmt) : StmtResult done (.op stmt) (exprStmt expr (.op stmt)) := by
  have hs : ∀ name, ExprStmt.op stmt ≠ .label name := by simp
  cases hinstr : stmt.opInstr with
  | error msg => exact .refused (by simp [Refused, hinstr]) _ (by simp [exprStmt, hinstr]; rfl) (by simp)
  | ok instr =>
    by_cases hshape : instr.type.encodeShape = none
    · obtain ⟨msg, hadd⟩ := (addToDwarfExpression_cases expr instr).1 hshape
      exact .refused (by simp [Refused, hinstr, hshape]) _ (by simp [exprStmt, hinstr, hadd]; rfl) (by simp)
    · have hresolved : (ExprStmt.op stmt).resolved (labelPos 0 done) (encodedLength done) = instr := by
        simp [ExprStmt.resolved, OpStmt.instrOrNop, hinstr]
      have hadd := h.add hs hresolved hshape expr.labels
      by_cases hfit : encodedLength (done ++ [.op stmt]) < 2 ^ 31
      · rw [if_pos hfit] at hadd
        refine .added (by simp [Refused, hinstr, hshape]) _ (by simp [exprStmt, hinstr, hadd]; rfl) ?_
        exact h.snoc hs hfit (fun _ _ => rfl) (by simp)
      · rw [if_neg hfit] at hadd
        exact .overflow (by simp [Refused, hinstr, hshape]) hfit (by simp [exprStmt, hinstr, hadd])

/-- A reference is resolved as far as the labels are known, and noted down otherwise. -/
theorem flowControlLabelReference_cases (h : Parsed done expr) (flow : FlowOp) (name : String) :
    (∃ labels, flowControlLabelReference expr ⟨flow.type, 0, 0⟩ name =
        .ok ({ expr with labels }, (ExprStmt.jump flow name).resolved (labelPos 0 done) (encodedLength done)) ∧
      (∀ name', name' ≠ name ∨ labelPos 0 done name' ≠ none → labelOf labels name' = labelOf expr.labels name') ∧
      (labelPos 0 done name = none → labelOf labels name = { labelOf expr.labels name with
        references := (labelOf expr.labels name).references ++ [expr.instructions.length] })) ∨
    (¬ encodedLength done + 3 < 2 ^ 31 ∧ flowControlLabelReference expr ⟨flow.type, 0, 0⟩ name = .error .undefined) := by
  have hbounded := h.bounded
  obtain ⟨labels, hget, hsame, hassign⟩ := @getLabel_ok expr.labels name
  cases hpos : labelPos 0 done name with
  | some l =>
    have hl : l ≤ encodedLength done := by simpa using labelPos_le hpos
    rw [h.known name l hpos] at hget
    have hrun : flowControlLabelReference expr ⟨flow.type, 0, 0⟩ name =
        (fillInReference ⟨flow.type, 0, 0⟩ l (encodedLength done) >>= fun opInstr =>
          .ok ({ expr with labels }, opInstr)) := by
      simp only [flowControlLabelReference, hget, bind_ok, if_true, h.byteLength]
    rw [hrun]
    by_cases hrange : -2 ^ 31 ≤ (l : Int) - encodedLength done - 3
    · refine .inl ⟨labels, ?_, fun name' _ => hsame name', by simp⟩
      have hfill : fillInReference ⟨flow.type, 0, 0⟩ l (encodedLength done) = _ :=
        fillInReference_ok (show l < 2 ^ 31 by omega) hrange
      rw [hfill, bind_ok]
      simp [ExprStmt.resolved, hpos]
    · refine .inr ⟨by omega, ?_⟩
      have hnot : ¬ (-2 ^ 31 ≤ (l : Int) - encodedLength done - 3 ∧ (l : Int) - encodedLength done - 3 < 2 ^ 31) :=
        fun hboth => hrange hboth.1
      cases flow <;> simp only [fillInReference, FlowOp.type, defined_not hnot, bind_error]
  | none =>
    obtain ⟨hunknown, -, -⟩ := h.unknown name hpos
    refine .inl ⟨dictAssign labels name { labelOf expr.labels name with
      references := (labelOf expr.labels name).references ++ [expr.instructions.length] }, ?_, fun name' hname' => ?_, ?_⟩
    · simp [flowControlLabelReference, hget, hunknown, ExprStmt.resolved, hpos, h.byteLength]
    · rw [hassign, if_neg]
      rintro rfl
      exact hname'.elim (fun hne => hne rfl) (fun hne => hne hpos)
    · intro _
      rw [hassign, if_pos rfl]

theorem exprStmt_jump (h : Parsed done expr) (flow : FlowOp) (name : String) :
    StmtResult done (.jump flow name) (exprStmt expr (.jump flow name)) := by
  have hs : ∀ name', ExprStmt.jump flow name ≠ .label name' := by simp
  have hlen : encodedLength (done ++ [.jump flow name]) = encodedLength done + 3 := by simp
  rcases flowControlLabelReference_cases h flow name with ⟨labels, hrun, hsame, hreferred⟩ | ⟨hlong, hrun⟩
  · have hadd := h.add hs rfl (by simpa [ExprStmt.resolved] using flow.encodable) labels
    by_cases hfit : encodedLength (done ++ [.jump flow name]) < 2 ^ 31
    · rw [if_pos hfit] at hadd
      refine .added (by simp [Refused]) _ (by simp [exprStmt, hrun, hadd]; rfl) ?_
      refine h.snoc hs hfit (fun name' hname' => hsame name' ?_) (fun flow' name' heq hnone => ?_)
      · rcases hname' with hother | hknown
        · exact .inl fun heq => hother flow (by rw [heq])
        · exact .inr hknown
      · cases heq
        exact hreferred hnone
    · rw [if_neg hfit] at hadd
      exact .overflow (by simp [Refused]) hfit (by simp [exprStmt, hrun, hadd])
  · exact .overflow (by simp [Refused]) (by omega) (by simp [exprStmt, hrun])

theorem exprStmt_label (h : Parsed done expr) (name : String) :
    StmtResult done (.label name) (exprStmt expr (.label name)) := by
  have hbounded := h.bounded
  obtain ⟨labels, hget, -, hassign⟩ := @getLabel_ok expr.labels name
  cases hpos : labelPos 0 done name with
  | some l =>
    have hmem : .label name ∈ done := by
      by_contra hno
      rw [labelPos_eq_none.mpr hno] at hpos
      cases hpos
    refine .refused hmem (.yyerror ("Cannot redefine label '" ++ name ++ "'\n")) ?_ (by simp)
    rw [h.known name l hpos] at hget
    simp [exprStmt, labelRule, hget]
  | none =>
    obtain ⟨hunknown, hnodup, hrefs⟩ := h.unknown name hpos
    have hget? (k : Nat) : expr.instructions[k]? =
        ((placed 0 done)[k]?).map fun p => p.2.resolved (labelPos 0 done) p.1 := by
      rw [h.instructions, resolvedExpr, List.getElem?_map]
    obtain ⟨instructions, hfill, hafter⟩ := @fillReferences_ok (encodedLength done) (labelOf expr.labels name).references
      expr.instructions hbounded hnodup (fun k hk => by
        obtain ⟨pos, flow, hplaced⟩ := (hrefs k).mp hk
        have hinside := placed_inside (List.mem_of_getElem? hplaced)
        exact ⟨flow, pos, by simp [hget?, hplaced, ExprStmt.resolved, hpos], by simpa using hinside⟩)
    refine .added (labelPos_eq_none.mp hpos) ⟨instructions, encodedLength done,
      dictAssign labels name ⟨encodedLength done, true, []⟩⟩ ?_ ⟨by simpa using hbounded, by simp, ?_, ?_, ?_⟩
    · simp [exprStmt, labelRule, hget, hunknown, h.byteLength, hfill]
    · -- the references to this label are filled in, everything else stays
      apply List.ext_getElem?
      intro k
      rw [hafter, resolvedExpr, placed_label, List.getElem?_map, hget?]
      cases hk : (placed 0 done)[k]? with
      | none => simp
      | some p =>
        obtain ⟨pos, s⟩ := p
        have hreferred : k ∈ (labelOf expr.labels name).references ↔ ∃ flow, s = .jump flow name := by
          rw [hrefs, hk]
          simp
        cases s with
        | op stmt =>
          rw [if_neg (by simp [hreferred])]
          simp [ExprStmt.resolved]
        | label other =>
          rw [if_neg (by simp [hreferred])]
          simp [ExprStmt.resolved]
        | jump flow other =>
          have hinside : pos + 3 ≤ encodedLength done := by simpa using placed_inside (List.mem_of_getElem? hk)
          by_cases hother : other = name
          · rw [if_pos (by simp [hreferred, hother])]
            simp [ExprStmt.resolved, labelPos_label hpos, hother, hpos, filledIn_ofNat (show pos < 2 ^ 31 by omega)]
          · rw [if_neg (by simp [hreferred, hother])]
            simp [ExprStmt.resolved, labelPos_label hpos, hother]
    · intro name' l hl
      rw [labelPos_label hpos] at hl
      rw [hassign]
      by_cases hname : name' = name
      · rw [if_pos hname, Option.some.injEq] at hl
        simp [hname, hl]
      · rw [if_neg hname] at hl ⊢
        exact h.known name' l hl
    · intro name' hnone
      rw [labelPos_label hpos] at hnone
      by_cases hname : name' = name
      · rw [if_pos hname] at hnone
        cases hnone
      · rw [if_neg hname] at hnone
        rw [hassign, if_neg hname, placed_label]
        exact h.unknown name' hnone

/-- **One statement**, whatever it is. -/
theorem exprStmt_cases (h : Parsed done expr) (s : ExprStmt) : StmtResult done s (exprStmt expr s) := by
  cases s with
  | op stmt => exact exprStmt_op h stmt
  | jump flow name => exact exprStmt_jump h flow name
  | label name => exact exprStmt_label h name

end Step

/-! ## Whole expressions -/

inductive ParseResult (done rest : List ExprStmt) (result : Except ParseEnd ExprParse) : Prop
  | refused (before : List ExprStmt) (s : ExprStmt) (after : List ExprStmt) (hrest : rest = before ++ s :: after)
      (hfit : encodedLength (done ++ before) < 2 ^ 31) (hrefused : Refused (done ++ before) s) (end_ : ParseEnd)
      (hresult : result = .error end_) (hend : end_ ≠ .fault .undefined)
  | parsed (hrefused : ∀ before s after, rest = before ++ s :: after → ¬ Refused (done ++ before) s) (expr' : ExprParse)
      (hresult : result = .ok expr') (hparsed : Parsed (done ++ rest) expr')
  | overflow (hrefused : ∀ before s after, rest = before ++ s :: after → encodedLength (done ++ before) < 2 ^ 31 →
      ¬ Refused (done ++ before) s) (hlong : ¬ encodedLength (done ++ rest) < 2 ^ 31)
      (hresult : result = .error (.fault .undefined))

theorem parseStmts_cases {done rest : List ExprStmt} {expr : ExprParse} (h : Parsed done expr) :
    ParseResult done rest (parseStmts expr rest) := by
  induction rest generalizing done expr with
  | nil => exact .parsed (by simp) expr rfl (by simpa using h)
  | cons s rest ih =>
    have hrun : parseStmts expr (s :: rest) = (exprStmt expr s >>= fun expr' => parseStmts expr' rest) := rfl
    rw [hrun]
    cases exprStmt_cases h s with
    | refused hrefused end_ hresult hend =>
      rw [hresult, bind_error]
      exact .refused [] s rest rfl (by simpa using h.bounded) (by simpa using hrefused) end_ rfl hend
    | overflow hrefused hlong hresult =>
      rw [hresult, bind_error]
      refine .overflow (fun before s' after heq hfit => ?_) (by simp at hlong ⊢; omega) rfl
      rcases List.cons_eq_append_iff.mp heq with ⟨rfl, hnil⟩ | ⟨before', rfl, -⟩
      · cases hnil
        simpa using hrefused
      · simp at hlong hfit
        omega
    | added hrefused expr' hresult hparsed =>
      rw [hresult, bind_ok]
      cases ih hparsed with
      | refused before s' after hrest hfit hrefused' end_ hresult' hend =>
        exact .refused (s :: before) s' after (by rw [hrest]; rfl) (by simpa using hfit) (by simpa using hrefused') end_
          hresult' hend
      | parsed hnone expr'' hresult' hparsed' =>
        refine .parsed (fun before s' after heq => ?_) expr'' hresult' (by simpa using hparsed')
        rcases List.cons_eq_append_iff.mp heq with ⟨rfl, hnil⟩ | ⟨before', rfl, hcons⟩
        · cases hnil
          simpa using hrefused
        · simpa using hnone before' s' after hcons
      | overflow hnone hlong hresult' =>
        refine .overflow (fun before s' after heq hfit => ?_) (by simpa using hlong) hresult'
        rcases List.cons_eq_append_iff.mp heq with ⟨rfl, hnil⟩ | ⟨before', rfl, hcons⟩
        · cases hnil
          simpa using hrefused
        · simpa using hnone before' s' after hcons (by simpa using hfit)

/-- The operations of some first statements take the bytes of these statements. -/
theorem length_take_resolvedExpr (before after : List ExprStmt) :
    (exprBytes ((resolvedExpr (before ++ after)).take (operationCount before))).length = encodedLength before := by
  have htake : (resolvedExpr (before ++ after)).take (operationCount before) =
      (placed 0 before).map fun p => p.2.resolved (labelPos 0 (before ++ after)) p.1 := by
    have hlen : (placed 0 before).length = operationCount before := length_placed
    rw [resolvedExpr, placed_append, List.map_append, ← hlen, ← List.length_map, List.take_left]
  rw [htake, length_exprBytes]

theorem signedArg_ofInt {type : DwOp} {z : Int} (hlo : -2 ^ 63 ≤ z) (hhi : z < 2 ^ 63) :
    (⟨type, UInt64.ofInt z, 0⟩ : DwarfExprInstr).signedArg = z := bmod_ofInt hlo hhi

theorem jumpsRight_resolvedExpr {stmts : List ExprStmt} (hbounded : encodedLength stmts < 2 ^ 31)
    (hdefined : ∀ flow name, .jump flow name ∈ stmts → .label name ∈ stmts) : JumpsRight stmts (resolvedExpr stmts) := by
  intro before flow name after hjump
  have hlabel := hdefined flow name (by simp [hjump])
  obtain ⟨before', after', hsplit, hfirst⟩ := List.eq_append_cons_of_mem hlabel
  have hpos : labelPos 0 stmts name = some (encodedLength before') := by rw [hsplit, labelPos_first hfirst]
  have hlen : encodedLength stmts = encodedLength before + (3 + encodedLength after) := by simp [hjump]
  have hlen' : encodedLength stmts = encodedLength before' + encodedLength after' := by simp [hsplit]
  have hplaced : (placed 0 stmts)[operationCount before]? = some (encodedLength before, .jump flow name) := by
    rw [hjump, placed_append, List.getElem?_append_right (by rw [length_placed]), length_placed]
    simp [placed]
  have hget : (resolvedExpr stmts)[operationCount before]? =
      some ⟨flow.type, UInt64.ofInt ((encodedLength before' : Int) - encodedLength before - 3), 0⟩ := by
    simp [resolvedExpr, hplaced, ExprStmt.resolved, hpos]
  refine ⟨before', after', hsplit, _, hget, by rfl, ?_⟩
  have hto := length_take_resolvedExpr before' (.label name :: after')
  have hfrom := length_take_resolvedExpr (before ++ [.jump flow name]) after
  have hcount : operationCount (before ++ [.jump flow name]) = operationCount before + 1 := by simp [operationCount]
  rw [← hsplit] at hto
  rw [hcount, List.append_assoc, List.singleton_append, ← hjump] at hfrom
  rw [hto, hfrom, signedArg_ofInt (by omega) (by omega), encodedLength_append]
  simp only [encodedLength_cons, encodedLength_nil, length_jump]
  omega

/-- **When the references are resolved**: the expression is refused, or it is short enough and every label referred
to is defined in it. -/
theorem labelsResolved_iff (stmts : List ExprStmt) : LabelsResolved stmts ↔
    RefusedSomewhere stmts ∨
      (encodedLength stmts < 2 ^ 31 ∧ ∀ flow name, .jump flow name ∈ stmts → .label name ∈ stmts) := by
  have hrun : expressionSection stmts =
      (parseStmts ⟨[], 0, dictCreate 100⟩ stmts >>= fun expr => .ok expr.instructions) := rfl
  rw [LabelsResolved, hrun]
  cases @parseStmts_cases [] stmts _ parsed_nil with
  | refused before s after hrest hfit hrefused end_ hresult hend =>
    rw [hresult, bind_error]
    exact iff_of_true hend (.inl ⟨before, s, after, hrest, hfit, hrefused⟩)
  | overflow hnone hlong hresult =>
    rw [hresult, bind_error]
    refine iff_of_false (fun h => h rfl) ?_
    rintro (⟨before, s, after, heq, hfit, hrefused⟩ | ⟨hfit, -⟩)
    · exact hnone before s after heq hfit hrefused
    · exact hlong hfit
  | parsed hnone expr hresult hparsed =>
    rw [hresult, bind_ok, hparsed.instructions]
    constructor
    · intro hright
      refine .inr ⟨hparsed.bounded, fun flow name hjump => ?_⟩
      obtain ⟨before, after, hsplit⟩ := List.append_of_mem hjump
      obtain ⟨before', after', hsplit', -⟩ := hright before flow name after hsplit
      simp [hsplit']
    · rintro (⟨before, s, after, heq, -, hrefused⟩ | ⟨hfit, hdefined⟩)
      · exact absurd hrefused (hnone before s after heq)
      · exact jumpsRight_resolvedExpr hfit hdefined

/-- A jump forward and one back over a constant of two bytes. -/
example : expressionSection [.jump .bra "done", .label "loop", .op (.dwOp .const1u [⟨false, 7⟩]), .jump .skip "loop",
    .label "done"] = .ok [⟨.bra, 5, 0⟩, ⟨.const1u, 7, 0⟩, ⟨.skip, UInt64.ofInt (-5), 0⟩] := rfl

/-- One jump to a label that is nowhere. -/
theorem not_labelsResolved : ¬ ∀ stmts : List ExprStmt, LabelsResolved stmts := by
  intro h
  have hresolved : JumpsRight [.jump .skip "out"] [⟨.skip, 0, 0⟩] := h [.jump .skip "out"]
  obtain ⟨before, after, hsplit, -⟩ := hresolved [] .skip "out" [] rfl
  have hmem : ExprStmt.label "out" ∈ [ExprStmt.jump .skip "out"] := by
    rw [hsplit]
    simp
  simp at hmem

end Katana
