/-
  Katana.Script.Expressions — what is kept of the DWARF expressions of a dwarfscript.

  A number is kept if an int can be it, with its sign where the rule takes one. `DW_OP_plus_uconst` has no operand in
  the grammar, `DW_OP_fbreg` no rule, and the second operand of `DW_OP_bregx` is printed in decimal behind a `0x`.

  Proved:
  - `readsItems_operation`: the line of an operation is read if the operation is kept, and where it is read as the same.
  - `reads_expression`: so is an expression, operation by operation.
-/
import Katana.Script.Reads
import Katana.Dwarf.Codec

namespace Katana.Script

open Lib

/-! ## Names of operations -/

def opToken (type : DwOp) : Token :=
  match type with
  | .lit n => .litn (Int32.ofNat n)
  | .reg n => .regn (Int32.ofNat n)
  | .breg n => .bregn (Int32.ofNat n)
  | type => .dwOp type

/-- A text is the name of one token: of the rules that take all of it the first makes the token of it. -/
def Names (name : Text) (t : Token) : Prop :=
  (lexRules.find? fun r => matchesWhole r.pattern name).map (fun r => r.action name) = some t ∧ name ≠ [] ∧
    Plain name ∧ name.all (fun b => !(isBlank b || b == newline)) = true

instance (name : Text) (t : Token) : Decidable (Names name t) := inferInstanceAs (Decidable (_ ∧ _))

theorem Names.pieces {name : Text} {t : Token} (h : Names name t) : pieces name.length name = [t] := by
  obtain ⟨hfind, hne, -, hblank⟩ := h
  obtain ⟨r, hr, haction⟩ := Option.map_eq_some_iff.mp hfind
  have hpick := pick_whole hne hr
  cases name with
  | nil => exact absurd rfl hne
  | cons b name =>
    have hb : ¬ (isBlank b = true ∨ b = newline) := by simpa using List.all_eq_true.mp hblank b List.mem_cons_self
    rw [List.length_cons, Script.pieces, if_neg hb, hpick]
    dsimp only
    rw [List.drop_length, haction]
    cases name <;> rfl

theorem Names.plain {name : Text} {t : Token} (h : Names name t) : Plain name := h.2.2.1

theorem names_numbered : ∀ n : Fin 32,
    Names (text "DW_OP_lit" ++ digits 10 n) (.litn (Int32.ofNat n)) ∧
    Names (text "DW_OP_reg" ++ digits 10 n) (.regn (Int32.ofNat n)) ∧
    Names (text "DW_OP_breg" ++ digits 10 n) (.bregn (Int32.ofNat n)) := by
  decide +kernel

/-- The operations without a number in their names. -/
def unnumbered : List DwOp :=
  [.dup, .drop, .opOver, .swap, .rot, .deref, .xderef, .pushObjectAddress, .formTlsAddress, .callFrameCfa, .abs, .and,
    .div, .minus, .mod, .mul, .neg, .not, .or, .plus, .shl, .shr, .shra, .xor, .le, .ge, .eq, .lt, .gt, .ne, .nop, .const1u,
    .const1s, .pick, .derefSize, .xderefSize, .const2u, .const2s, .skip, .bra, .const4u, .const4s, .const8u, .const8s,
    .addr, .constu, .plusUconst, .consts, .fbreg, .bregx, .other 0x90, .other 0x93, .other 0x98, .other 0x99, .other 0x9a,
    .other 0x9d, .other 0x9e, .other 0x9f]

theorem names_unnumbered : ∀ type ∈ unnumbered, (dwarfExpressionName type).any fun name => Names name (opToken type) := by
  decide +kernel

theorem names_operation {type : DwOp} {name : Text} (h : dwarfExpressionName type = some name) :
    Names name (opToken type) := by
  have hlist (hmem : type ∈ unnumbered) : Names name (opToken type) := by
    have hany := names_unnumbered type hmem
    rw [h] at hany
    simpa using hany
  cases type with
  | lit n =>
    cases h
    exact (names_numbered n).1
  | reg n =>
    cases h
    exact (names_numbered n).2.1
  | breg n =>
    cases h
    exact (names_numbered n).2.2
  | other code =>
    have hcode : code ∈ [0x90, 0x93, 0x98, 0x99, 0x9a, 0x9d, 0x9e, 0x9f] := by
      unfold dwarfExpressionName at h
      split at h <;> simp_all
    exact hlist (by simpa [unnumbered] using hcode)
  | _ => exact hlist (by simp [unnumbered])

theorem lexes_tab : Lexes [tab] [] := by
  intro fuel st rest hst hfuel
  cases fuel with
  | zero => simp at hfuel
  | succ fuel =>
    refine ⟨fuel, st, hst, by simp at hfuel; omega, ?_⟩
    rw [map_nil_append]
    rfl

theorem Names.lexes {name : Text} {t : Token} (h : Names name t) {d : UInt8} (hd : d = space ∨ d = newline) :
    Lexes (name ++ [d]) [t] := by
  rw [← h.pieces]
  exact lexes_word hd h.plain

/-! ## Operations -/

/-- The word's decimal digits are the word in hexadecimal too, as far as an int tells: those of a digit are. -/
def DecimalKept (w : UInt64) : Prop :=
  w.toNat < 2 ^ 63 ∧ addrOfInt (Int32.ofInt (strtol 16 (digits 10 w.toNat))) = w

instance (w : UInt64) : Decidable (DecimalKept w) := inferInstanceAs (Decidable (_ ∧ _))

def OpKept (instr : DwarfExprInstr) : Prop :=
  match instr.type with
  | .plusUconst | .fbreg | .other _ => False
  | .addr | .const1u | .const2u | .const4u | .const8u | .constu | .pick | .xderefSize | .skip | .bra => Short instr.arg1
  | .derefSize => instr.arg1 ≤ 255
  | .const1s | .const2s | .const4s | .const8s | .consts | .breg _ => SignedShort instr.arg1
  | .bregx => Short instr.arg1 ∧ DecimalKept instr.arg2
  | _ => True

instance (instr : DwarfExprInstr) : Decidable (OpKept instr) := by
  obtain ⟨type, arg1, arg2⟩ := instr
  cases type <;> dsimp only [OpKept] <;> infer_instance

/-- The operation its line is read as. -/
def readOp (instr : DwarfExprInstr) : DwarfExprInstr :=
  match instr.type with
  | .addr | .const1u | .const2u | .const4u | .const8u | .constu | .pick | .derefSize | .xderefSize | .skip | .bra =>
    ⟨instr.type, readWord instr.arg1, 0⟩
  | .const1s | .const2s | .const4s | .const8s | .consts | .breg _ => ⟨instr.type, readSigned instr.arg1, 0⟩
  | .bregx => ⟨.bregx, readWord instr.arg1, addrOfInt (Int32.ofInt (strtol 16 (digits 10 instr.arg2.toNat)))⟩
  | type => ⟨type, 0, 0⟩

section Operation
variable {instr : DwarfExprInstr}

theorem type_readOp (instr : DwarfExprInstr) : (readOp instr).type = instr.type := by
  unfold readOp
  split <;> simp_all

theorem bytes_of_same {a b : DwarfExprInstr} (h : a.Same b) : a.bytes = b.bytes := by
  obtain ⟨type, arg1, arg2⟩ := a
  obtain ⟨type', arg1', arg2'⟩ := b
  obtain ⟨rfl, hoperands⟩ : type = type' ∧ _ := h
  unfold DwarfExprInstr.operands at hoperands
  unfold DwarfExprInstr.bytes DwarfExprInstr.operandBytes DwarfExprInstr.signedArg
  cases hshape : type.encodeShape with
  | none => simp
  | some shape => cases shape <;> simp_all

theorem litOf_nat (n : Nat) : litOf n = ⟨false, intOf n⟩ := by
  have hminus : ¬ (n : Int) < 0 := by omega
  simp [litOf, hminus]

theorem nonneg_litOf (w : UInt64) : (litOf w.toNat).nonneg = .ok (readWord w) := by
  rw [litOf_nat]
  rfl

theorem opInstr_numbered : ∀ n : Fin 32,
    (OpStmt.litn (Int32.ofNat n)).opInstr = .ok ⟨.lit n, 0, 0⟩ ∧
    (OpStmt.regn (Int32.ofNat n)).opInstr = .ok ⟨.reg n, 0, 0⟩ ∧
    ∀ lit : IntLit, (OpStmt.bregn (Int32.ofNat n) lit).opInstr = .ok ⟨.breg n, lit.intval, 0⟩ := by
  intro n
  have hofInt : ∀ n : Fin 32, DwOp.ofInt (0x30 + (Int32.ofNat n).toInt) = .lit n ∧
      DwOp.ofInt (0x50 + (Int32.ofNat n).toInt) = .reg n ∧ DwOp.ofInt (0x70 + (Int32.ofNat n).toInt) = .breg n ∧
      ¬ 31 < Int32.ofNat n := by decide +kernel
  obtain ⟨hlit, hreg, hbreg, hrange⟩ := hofInt n
  refine ⟨?_, ?_, fun lit => ?_⟩
  · simp only [OpStmt.opInstr, if_neg hrange, hlit]
  · simp only [OpStmt.opInstr, hreg]
  · simp only [OpStmt.opInstr, hbreg]

/-- What may follow an operation or an instruction: not the beginning of a section. -/
abbrev NotBegin (t : Token) : Prop := t ≠ .keyword .begin_

/-- The operands of an operation, behind the blank or the newline that ends its name. -/
structure OperandsRead (instr : DwarfExprInstr) (d : UInt8) (u : Text) (parse : Parse ExprStmt) (stmt : OpStmt) (K : Prop) :
    Prop where
  printed : printOperands instr ++ [newline] = d :: u
  delimiter : d = space ∨ d = newline
  item : exprStmtItem (opToken instr.type) = some parse
  reads : Reads NotBegin parse u K K (.op stmt)
  kept : OpKept instr → K ∧ stmt.opInstr = .ok (readOp instr)
  only : K → ∀ i, stmt.opInstr = .ok i → i.type.encodeShape ≠ none →
    i = readOp instr ∧ ((readOp instr).Same instr → OpKept instr)

/-- No operand. -/
theorem operandsRead_bare {parse : Parse ExprStmt} {stmt : OpStmt} (hprinted : printOperands instr = [])
    (hitem : exprStmtItem (opToken instr.type) = some parse) (hparse : ∀ rest, parse rest = .ok (.op stmt) rest)
    (hop : stmt.opInstr = .ok (readOp instr)) (hkept : OpKept instr) :
    ∃ d u parse stmt K, OperandsRead instr d u parse stmt K := by
  refine ⟨newline, [], parse, stmt, True, by rw [hprinted]; rfl, .inr rfl, hitem,
    ⟨[], lexes_nil, yields_of fun _ _ => hparse _⟩, fun _ => ⟨trivial, hop⟩, fun _ i hi _ => ?_⟩
  rw [hop] at hi
  exact ⟨(Except.ok.inj hi).symm, fun _ => hkept⟩

/-- A number. -/
theorem operandsRead_number {parse : Parse ExprStmt} {stmt : OpStmt} {w : Text} {x : Int} (hw : Printed w x)
    (hprinted : printOperands instr = space :: w) (hitem : exprStmtItem (opToken instr.type) = some parse)
    (hparse : ∀ rest, parse (.intLit (litOf x) :: rest) = .ok (.op stmt) rest) (hop : stmt.opInstr = .ok (readOp instr))
    (hkept : (readOp instr).Same instr → OpKept instr) : ∃ d u parse stmt K, OperandsRead instr d u parse stmt K := by
  refine ⟨space, w ++ [newline], parse, stmt, True, by rw [hprinted]; rfl, .inl rfl, hitem,
    reads_word (.inr rfl) hw.plain hw.scanned (yields_of fun _ _ => hparse _), fun _ => ⟨trivial, hop⟩, fun _ i hi _ => ?_⟩
  rw [hop] at hi
  exact ⟨(Except.ok.inj hi).symm, hkept⟩

/-- A number behind a `0x` it was not printed for; with a sign it is none. -/
theorem reads_marked {P : Token → Prop} (w : UInt64) :
    Reads P intLit (text "0x" ++ signedDigits (signedWord w) ++ [newline]) (w.toNat < 2 ^ 63) (w.toNat < 2 ^ 63)
      ⟨false, Int32.ofInt (strtol 16 (digits 10 w.toNat))⟩ := by
  by_cases hw : w.toNat < 2 ^ 63
  · have hall : ∀ b ∈ digits 10 w.toNat, isHexDigit b = true := fun b hb => by
      simp [isHexDigit, isDigit_digits _ b hb]
    rw [signedWord_of_lt hw, signedDigits_nat]
    exact (reads_word (.inr rfl) (plain_marked hall) (pieces_marked hall (digits_ne_nil (by norm_num) _))
      (yields_of fun _ _ => rfl)).imp (fun _ => trivial) fun _ => hw
  · have hneg : signedWord w < 0 := by
      have hlt := w.toNat_lt
      rw [signedWord_eq, if_neg hw]
      omega
    have hsigned : signedDigits (signedWord w) = minusSign :: digits 10 (signedWord w).natAbs := if_pos hneg
    have hplain : Plain (text "0x" ++ signedDigits (signedWord w)) :=
      plain_append (by decide) (printed_signed _).plain
    rw [hsigned] at hplain ⊢
    obtain ⟨more, hmore⟩ := pieces_signedMark (digits 10 (signedWord w).natAbs)
    exact (reads_word (.inr rfl) hplain hmore (yields_never fun _ _ _ _ hok => by cases hok)).imp hw False.elim

/-- The operations that are refused when they are added to an expression. -/
def Unread (type : DwOp) : Prop := type = .fbreg ∨ ∃ code, type = .other code

/-- The operands of the others; behind `DW_OP_plus_uconst` they are printed and not read. -/
theorem operandsRead (hplus : instr.type ≠ .plusUconst) (hunread : ¬ Unread instr.type) :
    ∃ d u parse stmt K, OperandsRead instr d u parse stmt K := by
  obtain ⟨type, arg1, arg2⟩ := instr
  have hhex := printed_hex arg1.toNat
  have hsigned := printed_signed (signedWord arg1)
  cases type with
  | plusUconst => exact absurd rfl hplus
  | fbreg => exact absurd (.inl rfl) hunread
  | other code => exact absurd (.inr ⟨code, rfl⟩) hunread
  | lit n => exact operandsRead_bare rfl rfl (fun _ => rfl) (opInstr_numbered n).1 trivial
  | reg n => exact operandsRead_bare rfl rfl (fun _ => rfl) (opInstr_numbered n).2.1 trivial
  | breg n =>
    exact operandsRead_number hsigned rfl rfl (fun _ => rfl) ((opInstr_numbered n).2.2 _)
      fun hsame => readSigned_iff.mp (List.cons.inj hsame.2).1
  | derefSize =>
    have hop : (OpStmt.dwOp .derefSize [litOf arg1.toNat]).opInstr =
        if 255 < readWord arg1 then .error "DW_OP_deref_size operand out of range\n"
        else .ok (readOp ⟨.derefSize, arg1, arg2⟩) := by
      simp only [OpStmt.opInstr, dwOpInt, nonneg_litOf, bind_ok]
      rfl
    refine ⟨_, _, _, .dwOp .derefSize [litOf arg1.toNat], True, rfl, .inl rfl, rfl,
      reads_word (.inr rfl) hhex.plain hhex.scanned (yields_of fun _ _ => rfl), fun hle => ?_, fun _ i hi _ => ?_⟩
    · have hle : arg1 ≤ 255 := hle
      have hword : readWord arg1 = arg1 :=
        readWord_iff.mpr (.inl (lt_of_le_of_lt (UInt64.le_iff_toNat_le.mp hle) (by decide)))
      rw [hop, hword, if_neg (UInt64.not_lt.mpr hle)]
      exact ⟨trivial, rfl⟩
    · rw [hop] at hi
      split at hi
      · cases hi
      · rename_i hle
        refine ⟨(Except.ok.inj hi).symm, fun hsame => ?_⟩
        have hword : readWord arg1 = arg1 := (List.cons.inj hsame.2).1
        rw [hword] at hle
        exact UInt64.not_lt.mp hle
  | bregx =>
    have hprinted : printOperands ⟨.bregx, arg1, arg2⟩ ++ [newline] =
        space :: ((hexDigits arg1.toNat ++ [space]) ++ (text "0x" ++ signedDigits (signedWord arg2) ++ [newline])) := by
      simp only [printOperands, List.append_assoc]
      rfl
    let operand : IntLit := ⟨false, Int32.ofInt (strtol 16 (digits 10 arg2.toNat))⟩
    have hop : (OpStmt.dwOp .bregx [litOf arg1.toNat, operand]).opInstr = .ok (readOp ⟨.bregx, arg1, arg2⟩) := by
      simp only [OpStmt.opInstr, nonneg_litOf, bind_ok]
      rfl
    have hreads : Reads NotBegin (operands .bregx >>= fun l => pure (ExprStmt.op (.dwOp .bregx l))) _ _ _
        (ExprStmt.op (.dwOp .bregx [litOf arg1.toNat, operand])) :=
      ((hhex.intLit (.inl rfl)).bind ((reads_marked arg2).then_ (yields_pure [litOf arg1.toNat, operand]))).then_
        (yields_pure _)
    refine ⟨_, _, _, _, arg2.toNat < 2 ^ 63, hprinted, .inl rfl, rfl,
      hreads.imp (fun hk => ⟨⟨trivial, hk, trivial⟩, trivial⟩) fun hc => hc.1.2.1, fun hkept => ⟨hkept.2.1, hop⟩,
      fun hk i hi _ => ?_⟩
    rw [hop] at hi
    refine ⟨(Except.ok.inj hi).symm, fun hsame => ?_⟩
    obtain ⟨hword, hrest⟩ := List.cons.inj hsame.2
    exact ⟨readWord_iff.mp hword, hk, (List.cons.inj hrest).1⟩
  | constu =>
    exact operandsRead_number hhex rfl rfl (fun rest => by rw [litOf_nat]; rfl) rfl
      fun hsame => readWord_iff.mp (List.cons.inj hsame.2).1
  | addr | const1u | const2u | const4u | const8u | pick | xderefSize =>
    exact operandsRead_number hhex rfl rfl (fun _ => rfl)
      (by simp only [OpStmt.opInstr, dwOpInt, nonneg_litOf, bind_ok]; rfl)
      fun hsame => readWord_iff.mp (List.cons.inj hsame.2).1
  | skip | bra =>
    exact operandsRead_number hhex rfl rfl (fun _ => rfl) rfl fun hsame => readWord_iff.mp (List.cons.inj hsame.2).1
  | const1s | const2s | const4s | const8s | consts =>
    exact operandsRead_number hsigned rfl rfl (fun _ => rfl) rfl fun hsame => readSigned_iff.mp (List.cons.inj hsame.2).1
  | _ => exact operandsRead_bare rfl rfl (fun _ => rfl) rfl trivial

/-- The state with one operation more. -/
def withOp (expr : ExprParse) (instr : DwarfExprInstr) : ExprParse :=
  ⟨expr.instructions ++ [instr], expr.byteLength + instr.bytes.length, expr.labels⟩

/-- What comes of adding an operation. -/
theorem exprStmt_ok {expr expr' : ExprParse} {stmt : OpStmt} :
    exprStmt expr (.op stmt) = .ok expr' ↔ ∃ i, stmt.opInstr = .ok i ∧ i.type.encodeShape ≠ none ∧
      expr.byteLength + i.bytes.length < 2 ^ 31 ∧ expr' = withOp expr i := by
  cases hop : stmt.opInstr with
  | error msg =>
    have hrun : exprStmt expr (.op stmt) = .error (.yyerror msg) := by
      simp only [exprStmt, hop, mapError_error, bind_error]
    simp [hrun]
  | ok i =>
    obtain ⟨hnone, hsome⟩ := addToDwarfExpression_cases expr i
    have hrun : exprStmt expr (.op stmt) = (addToDwarfExpression expr i).mapError .fault := by
      simp only [exprStmt, hop, mapError_ok, bind_ok]
    have hadd : exprStmt expr (.op stmt) = .ok expr' ↔
        i.type.encodeShape ≠ none ∧ expr.byteLength + i.bytes.length < 2 ^ 31 ∧ expr' = withOp expr i := by
      rw [hrun]
      by_cases hshape : i.type.encodeShape = none
      · obtain ⟨msg, hdeath⟩ := hnone hshape
        simp [hdeath, hshape]
      · rw [hsome hshape]
        by_cases hfit : expr.byteLength + i.bytes.length < 2 ^ 31
        · rw [if_pos hfit, mapError_ok, Except.ok.injEq]
          exact ⟨fun h => ⟨hshape, hfit, h.symm⟩, fun h => h.2.2.symm⟩
        · rw [if_neg hfit, mapError_error]
          exact ⟨fun h => (by cases h), fun h => absurd h.2.1 hfit⟩
    rw [hadd]
    exact ⟨fun h => ⟨i, rfl, h⟩, fun h => by
      obtain ⟨j, hj, hrest⟩ := h
      cases hj
      exact hrest⟩

theorem type_opInstr {code : Nat} {l : List IntLit} {i : DwarfExprInstr}
    (h : (OpStmt.dwOp (.other code) l).opInstr = .ok i) : i.type = .other code := by
  match l with
  | [] =>
    simp only [OpStmt.opInstr, dwOpAlone] at h
    split at h <;> cases h <;> rfl
  | [operand] =>
    have h : dwOpInt (.other code) operand = .ok i := h
    by_cases hcode : code = 0x90
    · subst hcode
      obtain ⟨w, -, h⟩ := bind_eq_ok.mp h
      cases h
      rfl
    · unfold dwOpInt at h
      split at h <;> simp_all
  | [_, _] => cases h
  | _ :: _ :: _ :: _ => cases h

/-- An operation that is refused is not read. -/
theorem dwOpStmt_unread {type : DwOp} (h : Unread type) {expr expr' : ExprParse} {toks rest : List Token} :
    (dwOpStmt type >>= fun stmt => Run.fromExcept (exprStmt expr stmt)) toks ≠ .ok expr' rest := by
  intro hok
  obtain ⟨stmt, mid, hstmt, hrun⟩ := Run.run_bind_ok.mp hok
  obtain ⟨hexpr, -⟩ := Run.fromExcept_ok.mp hrun
  rcases h with rfl | ⟨code, rfl⟩
  · have hbare : dwOpStmt .fbreg toks = .ok (.op (.dwOp .fbreg [])) toks := rfl
    rw [hbare] at hstmt
    cases hstmt
    obtain ⟨i, hop, -⟩ := exprStmt_ok.mp hexpr
    cases hop
  · have hstmt : (operands (.other code) >>= fun l => pure (ExprStmt.op (.dwOp (.other code) l))) toks = .ok stmt mid :=
      hstmt
    obtain ⟨l, mid', -, hpure⟩ := Run.run_bind_ok.mp hstmt
    obtain ⟨rfl, -⟩ := Run.pure_ok.mp hpure
    obtain ⟨i, hop, hshape, -⟩ := exprStmt_ok.mp hexpr
    rw [type_opInstr hop] at hshape
    exact hshape rfl

theorem yields_exprStmt {P : Token → Prop} {stmt : OpStmt} {i : DwarfExprInstr} (expr : ExprParse)
    (h : ∀ j, stmt.opInstr = .ok j → j.type.encodeShape ≠ none → j = i) :
    Yields P (Run.fromExcept (exprStmt expr (.op stmt))) []
      (stmt.opInstr = .ok i ∧ i.type.encodeShape ≠ none ∧ expr.byteLength + i.bytes.length < 2 ^ 31)
      (stmt.opInstr = .ok i ∧ i.type.encodeShape ≠ none ∧ expr.byteLength + i.bytes.length < 2 ^ 31) (withOp expr i) := by
  refine yields_fromExcept (fun hk => exprStmt_ok.mpr ⟨i, hk.1, hk.2.1, hk.2.2, rfl⟩) fun b hb => ?_
  obtain ⟨j, hop, hshape, hfit, rfl⟩ := exprStmt_ok.mp hb
  obtain rfl := h j hop hshape
  exact ⟨⟨hop, hshape, hfit⟩, rfl⟩

/-- The name of an operation, what is between it and its operands, and these. -/
theorem readsItems_line {name u : Text} {d : UInt8} {parse : Parse ExprParse} {K C : Prop} {expr expr' : ExprParse}
    (hname : dwarfExpressionName instr.type = some name) (hprinted : printOperands instr ++ [newline] = d :: u)
    (hd : d = space ∨ d = newline) (hitem : exprItem expr (opToken instr.type) = some parse)
    (hp : Reads NotBegin parse u K C expr') :
    ReadsItems NotBegin (· = .keyword .end_) exprItem (text "\t\t" ++ name ++ printOperands instr ++ text "\n") K C
      expr expr' := by
  have hfirst : NotBegin (opToken instr.type) := by
    unfold opToken
    split <;> simp
  have htext : text "\t\t" ++ name ++ printOperands instr ++ text "\n" = [tab] ++ ([tab] ++ ((name ++ [d]) ++ u)) := by
    have hprinted : printOperands instr ++ text "\n" = d :: u := hprinted
    rw [List.append_assoc, hprinted]
    simp only [List.append_assoc]
    rfl
  have hread : ReadsItems NotBegin (· = .keyword .end_) exprItem _ _ _ expr _ :=
    readsItems_of ((names_operation hname).lexes hd) hfirst hitem (fun _ => rfl) hp
  exact ((hread.after lexes_tab).after lexes_tab).of_text htext

theorem unread_of_shape {type : DwOp} (h : type.encodeShape = none) : Unread type := by
  cases type <;> simp_all [DwOp.encodeShape, Unread]

/-- The operand of `DW_OP_plus_uconst` is left over. -/
theorem readsItems_plusUconst {K : Prop} (arg1 arg2 : UInt64) (expr : ExprParse) :
    ReadsItems NotBegin (· = .keyword .end_) exprItem
      (text "\t\t" ++ text "DW_OP_plus_uconst" ++ printOperands ⟨.plusUconst, arg1, arg2⟩ ++ text "\n") False K
      expr (withOp expr ⟨.plusUconst, 0, 0⟩) := by
  have hstmt : Reads NotBegin (dwOpStmt .plusUconst) [] True True (.op (.dwOp .plusUconst [])) :=
    ⟨[], lexes_nil, yields_of fun _ _ => rfl⟩
  have hbare : Yields NotBegin (Run.fromExcept (exprStmt expr (.op (.dwOp .plusUconst [])))) [] _ _
      (withOp expr ⟨.plusUconst, 0, 0⟩) := yields_exprStmt expr fun j hop _ => (Except.ok.inj hop).symm
  have hadd := Reads.then_ (f := fun stmt => Run.fromExcept (exprStmt expr stmt)) hstmt hbare
  have hnames : Names (text "DW_OP_plus_uconst") (opToken .plusUconst) := names_operation rfl
  have hitem : ReadsItems NotBegin (· = .keyword .end_) exprItem _ _ _ expr _ :=
    readsItems_of (hnames.lexes (.inl rfl)) (by simp [opToken]) rfl (fun _ => rfl) hadd
  have hhex := printed_hex arg1.toNat
  have hoperand := lexes_word (.inr rfl : newline = space ∨ newline = newline) hhex.plain
  rw [hhex.scanned] at hoperand
  have hstuck : ReadsItems NotBegin (· = .keyword .end_) exprItem _ False False (withOp expr ⟨.plusUconst, 0, 0⟩)
      (withOp expr ⟨.plusUconst, 0, 0⟩) := readsItems_stuck hoperand (by simp) rfl (by simp)
  refine (((hitem.append hstuck).after lexes_tab).after lexes_tab).of_text ?_ |>.imp False.elim fun hc => hc.2.elim
  simp only [printOperands, List.append_assoc]
  rfl

/-- **A line of an expression** is read as its operation, which is added at the end. -/
theorem readsItems_operation {line : Text} (hline : printExprInstruction instr = .ok line) (expr : ExprParse) :
    ReadsItems NotBegin (· = .keyword .end_) exprItem line
      (expr.byteLength + (readOp instr).bytes.length < 2 ^ 31 ∧ OpKept instr)
      (expr.byteLength + (readOp instr).bytes.length < 2 ^ 31 ∧ ((readOp instr).Same instr → OpKept instr))
      expr (withOp expr (readOp instr)) := by
  obtain ⟨name, hname, rfl⟩ : ∃ name, dwarfExpressionName instr.type = some name ∧
      line = text "\t\t" ++ name ++ printOperands instr ++ text "\n" := by
    unfold printExprInstruction at hline
    split at hline
    · cases hline
    · exact ⟨_, ‹_›, (Except.ok.inj hline).symm⟩
  by_cases hunread : Unread instr.type
  · obtain ⟨d, u, tokens, hprinted, hd, hlex⟩ : ∃ d u tokens, printOperands instr ++ [newline] = d :: u ∧
        (d = space ∨ d = newline) ∧ Lexes u tokens := by
      obtain ⟨type, arg1, arg2⟩ := instr
      rcases hunread with rfl | ⟨code, rfl⟩
      · exact ⟨_, _, _, rfl, .inl rfl, lexes_word (.inr rfl) (printed_signed _).plain⟩
      · exact ⟨_, _, _, rfl, .inr rfl, lexes_nil⟩
    have hitem : exprItem expr (opToken instr.type) =
        some (dwOpStmt instr.type >>= fun stmt => Run.fromExcept (exprStmt expr stmt)) := by
      rcases hunread with htype | ⟨code, htype⟩ <;> rw [htype] <;> rfl
    have hnot : ¬ OpKept instr := by
      unfold OpKept
      rcases hunread with htype | ⟨code, htype⟩ <;> rw [htype] <;> exact id
    exact (readsItems_line hname hprinted hd hitem ⟨tokens, hlex, yields_never fun _ _ _ _ => dwOpStmt_unread hunread⟩).imp
      (fun hk => hnot hk.2) False.elim
  by_cases hplus : instr.type = .plusUconst
  · obtain ⟨type, arg1, arg2⟩ := instr
    obtain rfl : type = .plusUconst := hplus
    cases hname
    exact (readsItems_plusUconst arg1 arg2 expr).imp (fun hk => hk.2) id
  obtain ⟨d, u, parse, stmt, K, hread⟩ := operandsRead hplus hunread
  have hitem : exprItem expr (opToken instr.type) =
      some (parse >>= fun stmt => Run.fromExcept (exprStmt expr stmt)) := by
    unfold exprItem
    rw [hread.item]
  have hshape : OpKept instr → (readOp instr).type.encodeShape ≠ none := by
    rw [type_readOp]
    intro _ hnone
    exact hunread (unread_of_shape hnone)
  refine readsItems_line hname hread.printed hread.delimiter hitem ?_
  by_cases hK : K
  · refine (hread.reads.then_ (yields_exprStmt expr fun j hop hshape => (hread.only hK j hop hshape).1)).imp
      (fun hk => ⟨hK, (hread.kept hk.2).2, hshape hk.2, hk.1⟩) fun hc => ⟨hc.2.2.2, ?_⟩
    exact (hread.only hK _ hc.2.1 hc.2.2.1).2
  · exact hread.reads.refused hK |>.imp (fun hk => hK (hread.kept hk.2).1) False.elim

/-- The operations of an expression are kept, and it is short enough to be parsed. -/
structure ExprKept (expr : DwarfExpr) : Prop where
  operations : ∀ instr ∈ expr, OpKept instr
  length : (exprBytes expr).length < 2 ^ 31

instance (expr : DwarfExpr) : Decidable (ExprKept expr) :=
  decidable_of_iff ((∀ instr ∈ expr, OpKept instr) ∧ (exprBytes expr).length < 2 ^ 31)
    ⟨fun h => ⟨h.1, h.2⟩, fun h => ⟨h.operations, h.length⟩⟩

/-- What is kept is read as the same. -/
theorem same_readOp (h : OpKept instr) : (readOp instr).Same instr := by
  obtain ⟨type, arg1, arg2⟩ := instr
  have hone {w v : UInt64} (hw : w = v) : [w] = [v] := by rw [hw]
  cases type with
  | plusUconst => exact h.elim
  | derefSize =>
    have hle : arg1 ≤ 255 := h
    exact ⟨rfl, hone (readWord_iff.mpr (.inl (lt_of_le_of_lt (UInt64.le_iff_toNat_le.mp hle) (by decide))))⟩
  | addr | const1u | const2u | const4u | const8u | constu | pick | xderefSize | skip | bra =>
    exact ⟨rfl, hone (readWord_iff.mpr h)⟩
  | const1s | const2s | const4s | const8s | consts | breg n => exact ⟨rfl, hone (readSigned_iff.mpr h)⟩
  | bregx =>
    obtain ⟨hshort, -, hdecimal⟩ : Short arg1 ∧ DecimalKept arg2 := h
    exact ⟨rfl, congrArg₂ (fun w v => [w, v]) (readWord_iff.mpr hshort) hdecimal⟩
  | fbreg | other code => exact h.elim
  | _ => exact ⟨rfl, rfl⟩

theorem exprBytes_of_same {a b : DwarfExpr} (h : List.Forall₂ DwarfExprInstr.Same a b) : exprBytes a = exprBytes b := by
  induction h with
  | nil => rfl
  | cons hab _ ih =>
    unfold exprBytes at ih ⊢
    rw [List.flatMap_cons, List.flatMap_cons, bytes_of_same hab, ih]

theorem same_readOps {expr : DwarfExpr} (h : ∀ instr ∈ expr, OpKept instr) :
    List.Forall₂ DwarfExprInstr.Same (expr.map readOp) expr :=
  List.forall₂_map_left_iff.mpr (List.forall₂_same.mpr fun instr hinstr => same_readOp (h instr hinstr))

/-- The state behind the first operations. -/
def opsRead (done : DwarfExpr) : ExprParse := ⟨done.map readOp, (exprBytes (done.map readOp)).length, dictCreate 100⟩

theorem opsRead_snoc (done : DwarfExpr) (instr : DwarfExprInstr) :
    opsRead (done ++ [instr]) = withOp (opsRead done) (readOp instr) := by
  simp [opsRead, withOp, exprBytes]

/-- Each operation is added below the greatest int exactly if all are. -/
theorem fits_iff {expr : DwarfExpr} :
    Each expr (fun done instr => (opsRead done).byteLength + (readOp instr).bytes.length < 2 ^ 31) ↔
      (exprBytes (expr.map readOp)).length < 2 ^ 31 := by
  have hlength (done : DwarfExpr) (instr : DwarfExprInstr) :
      (opsRead done).byteLength + (readOp instr).bytes.length = (exprBytes ((done ++ [instr]).map readOp)).length := by
    simp [opsRead, exprBytes]
  constructor
  · intro h
    rcases List.eq_nil_or_concat expr with rfl | ⟨done, instr, rfl⟩
    · decide
    · rw [List.concat_eq_append, ← hlength]
      exact h done instr [] (by simp)
  · intro h done instr rest hexpr
    have hmono : (exprBytes ((done ++ [instr]).map readOp)).length ≤ (exprBytes (expr.map readOp)).length := by
      simp [hexpr, exprBytes]
    rw [hlength]
    omega

/-- **An expression** is read as its operations. -/
theorem reads_expression {P : Token → Prop} {expr : DwarfExpr} {t : Text} (h : printExpr true expr = .ok t) :
    Reads P expressionBlock t (ExprKept expr)
      (List.Forall₂ DwarfExprInstr.Same (expr.map readOp) expr → ExprKept expr) (expr.map readOp) := by
  unfold printExpr at h
  obtain ⟨lines, hlines, h⟩ := bind_eq_ok.mp h
  cases h
  have hitems := readsItems_mapM printExprInstruction expr opsRead
    (fun done instr => (opsRead done).byteLength + (readOp instr).bytes.length < 2 ^ 31 ∧ OpKept instr)
    (fun done instr => (opsRead done).byteLength + (readOp instr).bytes.length < 2 ^ 31 ∧
      ((readOp instr).Same instr → OpKept instr)) (fun done instr rest _ line hline => by
      rw [opsRead_snoc]
      exact readsItems_operation hline _) hlines
  have hblock : Reads P expressionBlock _ _ _ _ :=
    (readsFrom_expectBegin "EXPRESSION\n" (by simp [sectionNames])).reads.bind
      (hitems.closed (f := fun expr => pure expr.instructions) "EXPRESSION\n" (by simp [sectionNames]) (yields_pure _)
        (by simp) rfl fun _ => rfl)
  refine (hblock.of_text (List.append_assoc _ _ _)).imp
    (fun hk => ⟨trivial, fun done instr rest hexpr => ?_, trivial⟩) fun hc hsame => ?_
  · have hbytes : (exprBytes (expr.map readOp)).length < 2 ^ 31 := by
      rw [exprBytes_of_same (same_readOps hk.operations)]
      exact hk.length
    exact ⟨fits_iff.mpr hbytes done instr rest hexpr, hk.operations instr (by simp [hexpr])⟩
  · obtain ⟨-, hall, -⟩ := hc
    refine ⟨?_, ?_⟩
    · have hkept := each_iff.mp fun done instr rest hexpr => (hall done instr rest hexpr).2
      exact fun instr hmem => hkept instr hmem (List.forall₂_same.mp (List.forall₂_map_left_iff.mp hsame) instr hmem)
    · rw [← exprBytes_of_same hsame]
      exact fits_iff.mp fun done instr rest hexpr => (hall done instr rest hexpr).1

theorem printExprInstruction_ok (h : OpKept instr) : ∃ line, printExprInstruction instr = .ok line := by
  obtain ⟨type, arg1, arg2⟩ := instr
  cases type with
  | other code => exact h.elim
  | _ => exact ⟨_, rfl⟩

theorem printExpr_ok {expr : DwarfExpr} (h : ExprKept expr) : ∃ t, printExpr true expr = .ok t := by
  obtain ⟨lines, hlines⟩ := mapM_exists fun instr hinstr => printExprInstruction_ok (h.operations instr hinstr)
  exact ⟨_, by simp only [printExpr, hlines, bind_ok]; rfl⟩

end Operation

end Katana.Script
