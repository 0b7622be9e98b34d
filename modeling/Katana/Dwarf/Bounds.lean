/-
  Katana.Dwarf.Bounds — what the parsers of call-frame instructions and expressions access (fderead.c).

  The values read are those of Katana.Dwarf.FdeRead; here are the accesses alone: reads of the bytes,
  which end with the string, and writes to the array of results, whose slots are counted from the length
  given. An access outside is undefined, and nothing else is.

  Proved, for every string of bytes:
  - `stays_iff`: the parsers stay inside exactly if walking from operation to operation, all of them
    complete in the string, leads to its end or to one that is refused.
  - `stays_of_parse`: where the values are read, they stay inside.
-/
import Katana.Lib.Format
import Katana.Dwarf.Framing

namespace Katana

open Lib

/-! ## The accesses -/

section Accesses
variable (p : List UInt8)

/-- A LEB number that may decode to so many bytes, and the bytes it took. -/
def lebBytes (limit : Nat) (signed : Bool) : Except Fault Nat := do
  let d ← decodeLEB128 p signed
  assert (d.numBytes ≤ limit)
  .ok d.numSeptetsRead

/-- `readRegFromLEB128`. An index of five to seven bytes is copied over the end of its int; the parser goes on. -/
def regBytes : Except Fault Nat := do
  let d ← decodeLEB128 p false
  match readRegFromLEB128 p with
  | .ok _ | .error .undefined => .ok d.numSeptetsRead
  | .error e => .error e

/-- A register that must be of a patch type. -/
def poRegBytes : Except Fault Nat :=
  match p with
  | [] => .error .undefined
  | b :: _ => if isPoRegType b then regBytes p else .error (.death "register of unexpected format for po\n")

def operandBytes (type : DwOp) : Except Fault Nat := do
  let (_, k) ← parseDwarfOperand type p
  .ok k

end Accesses

/-- The loop of `parseDwarfExpression` with an array of `slots` results. -/
def accessDwarfLoop (slots : Nat) : Nat → List UInt8 → Nat → Nat → Except Fault Unit
  | _, _, 0, _ => .ok ()
  | 0, _, _ + 1, _ => .error .undefined
  | _ + 1, [], _ + 1, _ => .error .undefined
  | fuel + 1, b :: data, len + 1, numInstructions => do
    defined (numInstructions < slots)
    let k ← operandBytes data (DwOp.ofByte b)
    accessDwarfLoop slots fuel (data.drop k) (uintSub len k) (numInstructions + 1)

def accessDwarfExpression (data : List UInt8) (len : Nat) : Except Fault Unit :=
  accessDwarfLoop len (data.length + 1) data len 0

/-- One reader, and the other where it has moved the pointer. -/
def followedBy (x y : List UInt8 → Except Fault Nat) (p : List UInt8) : Except Fault Nat := do
  let k ← x p
  let k' ← y (p.drop k)
  .ok (k + k')

/-- A reader that leaves the pointer where it is. -/
def leaving (x : List UInt8 → Except Fault Nat) (p : List UInt8) : Except Fault Nat := do
  let _ ← x p
  .ok 0

def copyBytes (reads takes : Nat) (p : List UInt8) : Except Fault Nat := do
  let _ ← readLE reads p
  .ok takes

def blockBytes (p : List UInt8) : Except Fault Nat := do
  let (exprBytesLen, uleblen) ← leb128ToUInt p
  accessDwarfExpression (p.drop uleblen) exprBytesLen
  .ok (uleblen + exprBytesLen)

/-- One turn of the loop of `parseFDEInstructions`: the bytes behind the opcode that it moves over. -/
def accessInstruction (byte : UInt8) (p : List UInt8) : Except Fault Nat :=
  match CfaOp.ofByte byte with
  | .advanceLoc | .restore | .rememberState | .restoreState | .nop => .ok 0
  | .offset => lebBytes p 8 false
  | .setLoc | .advanceLoc4 => copyBytes 4 4 p
  | .advanceLoc1 => copyBytes 1 1 p
  | .advanceLoc2 => copyBytes 1 2 p
  | .offsetExtended => followedBy regBytes (leaving fun p => lebBytes p 8 false) p
  | .offsetExtendedSf => followedBy regBytes (leaving fun p => lebBytes p 8 true) p
  | .undefined | .sameValue | .defCfaRegister => regBytes p
  | .register => followedBy regBytes regBytes p
  | .katanaFixups | .katanaFixupsPointer =>
    followedBy poRegBytes (followedBy poRegBytes fun p => lebBytes p 4 false) p
  | .defCfa => followedBy regBytes (fun p => lebBytes p 4 false) p
  | .defCfaOffset | .gnuArgsSize => lebBytes p 4 false
  | .defCfaOffsetSf => lebBytes p 4 true
  | .expression | .valExpression => followedBy regBytes blockBytes p
  | .defCfaExpression => blockBytes p
  | .restoreExtended | .defCfaSf | .valOffset | .valOffsetSf | .other _ =>
    .error (.death ("dwarf cfa instruction 0x" ++ hex (byte.toNat &&& 0x3f) ++ " not yet handled in parseFDEInstructions\n"))

/-- The loop of `parseFDEInstructions` with an array of `slots` results; a `nop` gives its slot back. -/
def accessFDELoop (slots : Nat) : Nat → List UInt8 → Int → Nat → Except Fault Unit
  | fuel, bytes, len, numInstrs =>
    if len ≤ 0 then .ok ()
    else
      match fuel, bytes with
      | 0, _ => .error .undefined
      | _ + 1, [] => .error .undefined
      | fuel + 1, byte :: bytes => do
        defined (numInstrs < slots)
        let k ← accessInstruction byte bytes
        -- an expression's length is unsigned, and so is the difference
        accessFDELoop slots fuel (bytes.drop k) (Int.bmod (len - k) (2 ^ 32) - 1)
          (if CfaOp.ofByte byte = .nop then numInstrs else numInstrs + 1)

def accessFDEInstructions (bytes : List UInt8) (len : Int) : Except Fault Unit :=
  accessFDELoop len.toNat (bytes.length + 1) bytes len 0

/-- No access is outside the bytes or the results. -/
def StaysInside (run : Except Fault Unit) : Prop := run ≠ .error .undefined

/-! ## The format -/

def decodedBytes (signed : Bool) (n : Numeral) : Nat :=
  usint (if signed then (n.length * 7 + 7) / 8 else unsignedBytes n.value n.length)

def numeral {α : Type} (accepted : Numeral → Prop) (value : Numeral → α) (p : List UInt8) : Reading α where
  gives a := ∃ n rest, p = Numeral.bytes n ++ rest ∧ accepted n ∧ a = value n
  refuses := ∃ n rest, p = Numeral.bytes n ++ rest ∧ ¬ accepted n

/-- The length of a numeral is counted in a `usint` too. -/
def numeralSize (n : Numeral) : Nat := usint n.length

def lebNumber (limit : Nat) (signed : Bool) : Format UInt8 := numeral (fun n => decodedBytes signed n ≤ limit) numeralSize

def registerNumber : Format UInt8 :=
  numeral (fun n => ∀ e, readRegFromLEB128 n.bytes = .error e → e = .undefined) numeralSize

def poRegisterNumber : Format UInt8
  | [] => .nothing
  | b :: p => if isPoRegType b then registerNumber (b :: p) else .refuse

def fixedBytes (reads takes : Nat) : Format UInt8 := fun p => ⟨fun k => reads ≤ p.length ∧ k = takes, False⟩

def DecodeShape.format : DecodeShape → Format UInt8
  | .none => fixedBytes 0 0
  | .unsigned k | .signed k => fixedBytes k k
  | .uleb => lebNumber 8 false
  | .sleb => lebNumber 8 true

def operation : Format UInt8
  | [] => .nothing
  | b :: p =>
    match (DwOp.ofByte b).decodeShape with
    | some shape => (shape.format p).bind fun k => .pure (k + 1)
    | none => .refuse

/-- Complete operations of `len` bytes together. -/
def WholeExpr (p : List UInt8) (len : Nat) : Prop := ∃ ks, operation.Laid p ks ∧ ks.sum = len

/-- Complete operations, fewer than `len`, before one that is refused. -/
def RefusedExpr (p : List UInt8) (len : Nat) : Prop :=
  ∃ ks, operation.Laid p ks ∧ ks.length < len ∧ (operation (p.drop ks.sum)).refuses

def expression (len : Nat) : Format UInt8 := fun p =>
  ⟨fun k => WholeExpr p len ∧ k = len, ¬ WholeExpr p len ∧ RefusedExpr p len⟩

/-- The length of a block, and the bytes of the length. -/
def blockLength : List UInt8 → Reading (Nat × Nat) :=
  numeral (fun n => decodedBytes false n ≤ 4) fun n => (n.value % 256 ^ decodedBytes false n, numeralSize n)

def block : Format UInt8 := fun p =>
  (blockLength p).bind fun r => (expression r.1 (p.drop r.2)).bind fun k => .pure (r.2 + k)

def layout : CfaOp → Option (List (Format UInt8))
  | .advanceLoc | .restore | .rememberState | .restoreState | .nop => some []
  | .offset => some [lebNumber 8 false]
  | .setLoc | .advanceLoc4 => some [fixedBytes 4 4]
  | .advanceLoc1 => some [fixedBytes 1 1]
  -- one byte is read and two are moved over
  | .advanceLoc2 => some [fixedBytes 1 2]
  | .offsetExtended => some [registerNumber, (lebNumber 8 false).ahead]
  | .offsetExtendedSf => some [registerNumber, (lebNumber 8 true).ahead]
  | .undefined | .sameValue | .defCfaRegister => some [registerNumber]
  | .register => some [registerNumber, registerNumber]
  | .katanaFixups | .katanaFixupsPointer => some [poRegisterNumber, poRegisterNumber, lebNumber 4 false]
  | .defCfa => some [registerNumber, lebNumber 4 false]
  | .defCfaOffset | .gnuArgsSize => some [lebNumber 4 false]
  | .defCfaOffsetSf => some [lebNumber 4 true]
  | .expression | .valExpression => some [registerNumber, block]
  | .defCfaExpression => some [block]
  | .restoreExtended | .defCfaSf | .valOffset | .valOffsetSf | .other _ => none

def instruction : Format UInt8
  | [] => .nothing
  | b :: p =>
    match layout (CfaOp.ofByte b) with
    | some operands => (Format.row operands p).bind fun k => .pure (k + 1)
    | none => .refuse

/-! ## Operands conform to their formats -/

/-- Every string begins with a numeral or is all of it one that does not end. -/
theorem numeral_or_open (p : List UInt8) :
    (∃ n rest, p = Numeral.bytes n ++ rest) ∨ countSeptets p = .error .undefined := by
  induction p with
  | nil => exact .inr rfl
  | cons x p ih =>
    have hx := UInt8.toNat_lt x
    have htop : x.toNat &&& 1 <<< 7 = 0 ↔ x.toNat < 128 := and_top_bit hx
    by_cases hlast : x.toNat < 128
    · refine .inl ⟨⟨[x.toNat], by simp, by simpa using hlast⟩, p, ?_⟩
      simp [Numeral.bytes, mark]
    · rcases ih with ⟨n, rest, rfl⟩ | hopen
      · have hdigits : ∀ d ∈ (x.toNat - 128) :: n.digits, d < 128 := by
          intro d hd
          rcases List.mem_cons.mp hd with hd | hd
          · rw [hd]
            omega
          · exact n.digits_lt d hd
        refine .inl ⟨⟨(x.toNat - 128) :: n.digits, List.cons_ne_nil _ _, hdigits⟩, rest, ?_⟩
        show _ = mark ((x.toNat - 128) :: n.digits) ++ rest
        rw [mark_cons n.digits_ne, Nat.sub_add_cancel (by omega)]
        simp [Numeral.bytes]
      · right
        rw [countSeptets, if_pos (by rw [ne_eq, htop]; exact hlast), hopen]
        rfl

theorem decodeLEB128_open {p : List UInt8} (signed : Bool) (h : countSeptets p = .error .undefined) :
    decodeLEB128 p signed = .error .undefined := by
  rw [decodeLEB128, h]
  rfl

theorem conforms_numeral {α : Type} {x : List UInt8 → Except Fault α} {accepted : Numeral → Prop} {value : Numeral → α}
    {p : List UInt8} (hopen : countSeptets p = .error .undefined → x p = .error .undefined)
    (hok : ∀ n rest, accepted n → x (Numeral.bytes n ++ rest) = .ok (value n))
    (herror : ∀ n rest, ¬ accepted n → ∃ e, e ≠ .undefined ∧ x (Numeral.bytes n ++ rest) = .error e) :
    Conforms .undefined (x p) (numeral accepted value p) := by
  constructor
  · intro a
    constructor
    · intro ha
      rcases numeral_or_open p with ⟨n, rest, rfl⟩ | hcount
      · by_cases hn : accepted n
        · rw [hok n rest hn] at ha
          cases ha
          exact ⟨n, rest, rfl, hn, rfl⟩
        · obtain ⟨e, -, he⟩ := herror n rest hn
          rw [he] at ha
          cases ha
      · rw [hopen hcount] at ha
        cases ha
    · rintro ⟨n, rest, rfl, hn, rfl⟩
      exact hok n rest hn
  · constructor
    · rintro ⟨e, hne, he⟩
      rcases numeral_or_open p with ⟨n, rest, rfl⟩ | hcount
      · refine ⟨n, rest, rfl, fun hn => ?_⟩
        rw [hok n rest hn] at he
        cases he
      · rw [hopen hcount] at he
        cases he
        exact absurd rfl hne
    · rintro ⟨n, rest, rfl, hn⟩
      exact herror n rest hn

theorem decode_any (signed : Bool) (n : Numeral) (rest : List UInt8) :
    ∃ result, decodeLEB128 (n.bytes ++ rest) signed = .ok ⟨result, decodedBytes signed n, usint n.length⟩ := by
  cases signed with
  | false => exact ⟨_, decode_numeral n rest⟩
  | true => exact ⟨_, decode_numeral_signed n rest⟩

theorem lebBytes_conforms (limit : Nat) (signed : Bool) (p : List UInt8) :
    Conforms .undefined (lebBytes p limit signed) (lebNumber limit signed p) := by
  refine conforms_numeral (x := fun p => lebBytes p limit signed) (fun hopen => ?_) (fun n rest hn => ?_)
    fun n rest hn => ?_
  · simp [lebBytes, decodeLEB128_open signed hopen]
  · obtain ⟨result, hresult⟩ := decode_any signed n rest
    simp [lebBytes, hresult, assert_of hn, numeralSize]
  · obtain ⟨result, hresult⟩ := decode_any signed n rest
    exact ⟨.assertion, by simp, by simp [lebBytes, hresult, assert_not hn]⟩

theorem readReg_append (n : Numeral) (rest : List UInt8) :
    readRegFromLEB128 (n.bytes ++ rest) = readRegFromLEB128 n.bytes := by
  have halone := decode_numeral n []
  rw [List.append_nil] at halone
  unfold readRegFromLEB128
  rw [decode_numeral n rest, halone]

theorem regBytes_conforms (p : List UInt8) : Conforms .undefined (regBytes p) (registerNumber p) := by
  refine conforms_numeral (fun hopen => ?_) (fun n rest hn => ?_) fun n rest hn => ?_
  · simp [regBytes, decodeLEB128_open false hopen]
  · unfold regBytes
    rw [decode_numeral, bind_ok, readReg_append]
    cases hread : readRegFromLEB128 n.bytes with
    | ok r => rfl
    | error e =>
      rw [hn e hread]
      rfl
  · push Not at hn
    obtain ⟨e, hread, hne⟩ := hn
    refine ⟨e, hne, ?_⟩
    unfold regBytes
    rw [decode_numeral, bind_ok, readReg_append, hread]
    cases e <;> first | rfl | exact absurd rfl hne

theorem poRegBytes_conforms (p : List UInt8) : Conforms .undefined (poRegBytes p) (poRegisterNumber p) := by
  cases p with
  | nil => exact conforms_stray
  | cons b p =>
    by_cases hb : isPoRegType b = true
    · simpa [poRegBytes, poRegisterNumber, hb] using regBytes_conforms (b :: p)
    · simpa [poRegBytes, poRegisterNumber, hb] using conforms_refuse (by simp)

theorem copyBytes_conforms (reads takes : Nat) (p : List UInt8) :
    Conforms .undefined (copyBytes reads takes p) (fixedBytes reads takes p) := by
  by_cases hreads : reads ≤ p.length
  · constructor
    · simp [copyBytes, fixedBytes, readLE, hreads, eq_comm]
    · simp [copyBytes, fixedBytes, readLE, hreads]
  · constructor
    · simp [copyBytes, fixedBytes, readLE, hreads]
    · simp [copyBytes, fixedBytes, readLE, hreads]

/-- A copy that is moved over and cannot fail otherwise. -/
theorem conforms_copy {x : Except Fault Nat} {k : Nat} {p : List UInt8} (hin : k ≤ p.length → x = .ok k)
    (hout : ¬ k ≤ p.length → x = .error .undefined) : Conforms .undefined x (fixedBytes k k p) := by
  by_cases hk : k ≤ p.length
  · rw [hin hk]
    constructor
    · simp [fixedBytes, hk, eq_comm]
    · simp [fixedBytes]
  · rw [hout hk]
    constructor
    · simp [fixedBytes, hk]
    · simp [fixedBytes]

/-- The sign extension of one to four bytes. -/
theorem sextend_ok {v n : Nat} (hn : 1 ≤ n ∧ n ≤ 4) : ∃ w, sextend v n = .ok w := by
  unfold sextend
  rw [if_neg (by omega), assert_of (by omega), bind_ok, defined_of hn, bind_ok]
  dsimp only
  split_ifs <;> exact ⟨_, rfl⟩

theorem readSigned_ok {k : Nat} {p : List UInt8} (hk : k = 1 ∨ k = 2 ∨ k = 4 ∨ k = 8) (hp : k ≤ p.length) :
    ∃ v, readSigned k p = .ok v := by
  unfold readSigned readLE
  rw [defined_of hp]
  simp only [bind_ok]
  by_cases h8 : k = 8
  · exact ⟨_, if_pos h8⟩
  · exact sextend_ok (by omega)

theorem readLebWord_bytes (signed : Bool) (p : List UInt8) :
    (readLebWord signed p >>= fun r => .ok r.2) = lebBytes p 8 signed := by
  unfold readLebWord lebBytes
  cases decodeLEB128 p signed with
  | error e => rfl
  | ok d =>
    by_cases hd : d.numBytes ≤ 8
    · simp [assert_of hd]
    · simp [assert_not hd]

/-- The widths that are sign-extended. -/
theorem signed_width {type : DwOp} {k : Nat} (h : type.decodeShape = some (.signed k)) : k = 1 ∨ k = 2 ∨ k = 4 ∨ k = 8 := by
  cases type <;> simp [DwOp.decodeShape] at h <;> omega

theorem operandBytes_conforms {type : DwOp} {shape : DecodeShape} (h : type.decodeShape = some shape) (p : List UInt8) :
    Conforms .undefined (operandBytes p type) (shape.format p) := by
  unfold operandBytes parseDwarfOperand
  rw [h]
  cases shape with
  | none => exact conforms_copy (fun _ => rfl) fun hk => absurd (Nat.zero_le _) hk
  | unsigned k => exact conforms_copy (fun hk => by simp [readLE, hk]) fun hk => by simp [readLE, hk]
  | signed k =>
    refine conforms_copy (fun hk => ?_) fun hk => ?_
    · obtain ⟨v, hv⟩ := readSigned_ok (signed_width h) hk
      simp [hv]
    · simp [readSigned, readLE, hk]
  | uleb =>
    have hbytes := readLebWord_bytes false p
    exact hbytes ▸ lebBytes_conforms 8 false p
  | sleb =>
    have hbytes := readLebWord_bytes true p
    exact hbytes ▸ lebBytes_conforms 8 true p

/-- One turn of the loop of `parseDwarfExpression`: the bytes it moves over, the opcode included. -/
def accessOperation : List UInt8 → Except Fault Nat
  | [] => .error .undefined
  | b :: data => do
    let k ← operandBytes data (DwOp.ofByte b)
    .ok (k + 1)

theorem accessOperation_conforms (p : List UInt8) : Conforms .undefined (accessOperation p) (operation p) := by
  cases p with
  | nil => exact conforms_stray
  | cons b p =>
    cases hshape : (DwOp.ofByte b).decodeShape with
    | some shape =>
      simp only [accessOperation, operation, hshape]
      exact (operandBytes_conforms hshape p).bind fun k _ => conforms_pure (k + 1)
    | none =>
      have hrefused : operandBytes p (DwOp.ofByte b) =
          .error (.death ("Unsupported DW_OP with code 0x" ++ hex (DwOp.ofByte b).code ++ "\n")) := by
        unfold operandBytes parseDwarfOperand
        rw [hshape]
        rfl
      simp only [accessOperation, operation, hshape, hrefused]
      exact conforms_refuse (by simp)

/-! ## The loop of an expression -/

theorem within_numeral (accepted : Numeral → Prop) : Format.Within (numeral accepted numeralSize) := by
  rintro _ k ⟨n, rest, rfl, -, rfl⟩
  unfold numeralSize
  have hle : usint n.length ≤ n.length := Nat.mod_le _ _
  simp only [List.length_append, Numeral.length_bytes]
  omega

theorem within_fixed {reads takes : Nat} (h : takes ≤ reads) : (fixedBytes reads takes).Within := by
  rintro p k ⟨hreads, rfl⟩
  omega

theorem within_shape (shape : DecodeShape) : shape.format.Within := by
  cases shape with
  | none => exact within_fixed le_rfl
  | unsigned k => exact within_fixed le_rfl
  | signed k => exact within_fixed le_rfl
  | uleb => exact within_numeral _
  | sleb => exact within_numeral _

theorem operation_pos {p : List UInt8} {k : Nat} (h : (operation p).gives k) : 0 < k ∧ k ≤ p.length := by
  cases p with
  | nil => exact h.elim
  | cons b p =>
    cases hshape : (DwOp.ofByte b).decodeShape with
    | none =>
      simp only [operation, hshape] at h
      exact h.elim
    | some shape =>
      simp only [operation, hshape] at h
      obtain ⟨k', hk', rfl⟩ := h
      have hle := within_shape shape p k' hk'
      rw [List.length_cons]
      omega

theorem laid_within {p : List UInt8} {ks : List Nat} (h : operation.Laid p ks) : ks.length ≤ ks.sum ∧ ks.sum ≤ p.length := by
  induction ks generalizing p with
  | nil => simp
  | cons k ks ih =>
    obtain ⟨hpos, hle⟩ := operation_pos h.1
    obtain ⟨hlen, hsum⟩ := ih h.2
    rw [List.length_drop] at hsum
    rw [List.length_cons, List.sum_cons]
    omega

section ExprLoop
variable {slots fuel len slot : Nat} {p : List UInt8} {ks : List Nat}

/-- One turn of the loop. -/
theorem accessDwarfLoop_turn (hslot : slot < slots) (hlen : 0 < len) :
    accessDwarfLoop slots (fuel + 1) p len slot =
      accessOperation p >>= fun k => accessDwarfLoop slots fuel (p.drop k) (uintSub (len - 1) (k - 1)) (slot + 1) := by
  obtain ⟨len, rfl⟩ := Nat.exists_eq_add_of_le' hlen
  cases p with
  | nil => simp [accessDwarfLoop, accessOperation]
  | cons b p =>
    rw [accessDwarfLoop, defined_of hslot, bind_ok, accessOperation]
    cases operandBytes p (DwOp.ofByte b) with
    | error e => simp only [bind_error]
    | ok k => simp only [bind_ok, Nat.add_sub_cancel, List.drop_succ_cons]

theorem accessDwarfLoop_full (hslot : ¬ slot < slots) (hlen : 0 < len) :
    accessDwarfLoop slots fuel p len slot = .error .undefined := by
  obtain ⟨len, rfl⟩ := Nat.exists_eq_add_of_le' hlen
  cases fuel with
  | zero => rfl
  | succ fuel =>
    cases p with
    | nil => rfl
    | cons b p => rw [accessDwarfLoop, defined_not hslot, bind_error]

@[simp] theorem accessDwarfLoop_done : accessDwarfLoop slots fuel p 0 slot = .ok () := by
  unfold accessDwarfLoop
  rfl

/-- A turn over a complete operation. -/
theorem accessDwarfLoop_gives {k : Nat} (hk : (operation p).gives k) (hslot : slot < slots) (hlen : 0 < len) :
    accessDwarfLoop slots (fuel + 1) p len slot =
      accessDwarfLoop slots fuel (p.drop k) (uintSub (len - 1) (k - 1)) (slot + 1) := by
  rw [accessDwarfLoop_turn hslot hlen, ((accessOperation_conforms p).ok k).mpr hk, bind_ok]

/-- Complete operations of the length are gone through. -/
theorem accessDwarfLoop_whole (hlaid : operation.Laid p ks) (hslots : slot + ks.length ≤ slots) (hlen : ks.sum < 2 ^ 32)
    (hfuel : p.length < fuel) : accessDwarfLoop slots fuel p ks.sum slot = .ok () := by
  induction ks generalizing p slot fuel with
  | nil => simp
  | cons k ks ih =>
    obtain ⟨hpos, hle⟩ := operation_pos hlaid.1
    obtain ⟨fuel, rfl⟩ := Nat.exists_eq_add_of_le' (show 1 ≤ fuel by omega)
    rw [List.sum_cons] at hlen ⊢
    rw [List.length_cons] at hslots
    rw [accessDwarfLoop_gives hlaid.1 (by omega) (by omega), uintSub_of_le (by omega) (by omega),
      show k + ks.sum - 1 - (k - 1) = ks.sum by omega]
    exact ih hlaid.2 (by omega) (by omega) (by rw [List.length_drop]; omega)

/-- A refused operation ends the loop, if the length does not before it. -/
theorem accessDwarfLoop_refused (hlaid : operation.Laid p ks) (hslots : slot + ks.length < slots)
    (hrefuses : (operation (p.drop ks.sum)).refuses) (hfuel : p.length < fuel) :
    StaysInside (accessDwarfLoop slots fuel p len slot) := by
  induction ks generalizing p slot fuel len with
  | nil =>
    by_cases hlen : len = 0
    · rw [hlen]
      simp [StaysInside]
    · obtain ⟨fuel, rfl⟩ := Nat.exists_eq_add_of_le' (show 1 ≤ fuel by omega)
      obtain ⟨e, hne, he⟩ := (accessOperation_conforms p).error.mpr hrefuses
      rw [accessDwarfLoop_turn (by simpa using hslots) (by omega), he, bind_error]
      simpa [StaysInside] using hne
  | cons k ks ih =>
    by_cases hlen : len = 0
    · rw [hlen]
      simp [StaysInside]
    · obtain ⟨hpos, hle⟩ := operation_pos hlaid.1
      obtain ⟨fuel, rfl⟩ := Nat.exists_eq_add_of_le' (show 1 ≤ fuel by omega)
      rw [List.length_cons] at hslots
      rw [List.sum_cons, ← List.drop_drop] at hrefuses
      rw [accessDwarfLoop_gives hlaid.1 (by omega) (by omega)]
      exact ih hlaid.2 (by omega) hrefuses (by rw [List.length_drop]; omega)

/-- The loop ends behind complete operations of the length only: past it the unsigned length is more than the string's. -/
theorem whole_of_ok (hlen : len < 2 ^ 32) (hp : p.length < 2 ^ 32)
    (h : accessDwarfLoop slots fuel p len slot = .ok ()) : WholeExpr p len := by
  induction fuel generalizing p len slot with
  | zero =>
    by_cases hzero : len = 0
    · exact ⟨[], trivial, hzero.symm⟩
    · obtain ⟨len, rfl⟩ := Nat.exists_eq_add_of_le' (show 1 ≤ len by omega)
      cases p <;> cases h
  | succ fuel ih =>
    by_cases hzero : len = 0
    · exact ⟨[], trivial, hzero.symm⟩
    · have hslot : slot < slots := by
        by_contra hslot
        rw [accessDwarfLoop_full hslot (by omega)] at h
        cases h
      rw [accessDwarfLoop_turn hslot (by omega)] at h
      obtain ⟨k, hk, h⟩ := bind_eq_ok.mp h
      have hgives := ((accessOperation_conforms p).ok k).mp hk
      obtain ⟨hpos, hle⟩ := operation_pos hgives
      obtain ⟨ks, hlaid, hsum⟩ := ih (uintSub_lt _ _) (by rw [List.length_drop]; omega) h
      have hin := (laid_within hlaid).2
      rw [List.length_drop, hsum] at hin
      have hkl : k ≤ len := by
        by_contra hkl
        unfold uintSub at hin
        rw [Nat.mod_eq_of_lt (by omega)] at hin
        omega
      rw [uintSub_of_le (by omega) (by omega)] at hsum
      exact ⟨k :: ks, ⟨hgives, hlaid⟩, by rw [List.sum_cons, hsum]; omega⟩

theorem refused_of_error {e : Fault} (hne : e ≠ .undefined) (h : accessDwarfLoop slots fuel p len slot = .error e) :
    ∃ ks, operation.Laid p ks ∧ slot + ks.length < slots ∧ (operation (p.drop ks.sum)).refuses := by
  induction fuel generalizing p len slot with
  | zero =>
    by_cases hzero : len = 0
    · rw [hzero, accessDwarfLoop_done] at h
      cases h
    · obtain ⟨len, rfl⟩ := Nat.exists_eq_add_of_le' (show 1 ≤ len by omega)
      cases p <;> cases h <;> exact absurd rfl hne
  | succ fuel ih =>
    by_cases hzero : len = 0
    · rw [hzero, accessDwarfLoop_done] at h
      cases h
    · have hslot : slot < slots := by
        by_contra hslot
        rw [accessDwarfLoop_full hslot (by omega)] at h
        cases h
        exact absurd rfl hne
      rw [accessDwarfLoop_turn hslot (by omega)] at h
      rcases bind_eq_error.mp h with h | ⟨k, hk, h⟩
      · exact ⟨[], trivial, by simpa using hslot, (accessOperation_conforms p).error.mp ⟨e, hne, h⟩⟩
      · obtain ⟨ks, hlaid, hslots, hrefuses⟩ := ih h
        refine ⟨k :: ks, ⟨((accessOperation_conforms p).ok k).mp hk, hlaid⟩, ?_, ?_⟩
        · rw [List.length_cons]
          omega
        · rw [List.sum_cons, ← List.drop_drop]
          exact hrefuses

end ExprLoop

/-- An expression of a length conforms to its format. -/
theorem accessDwarfExpression_conforms {p : List UInt8} {len : Nat} (hlen : len < 2 ^ 32) (hp : p.length < 2 ^ 32) :
    Conforms .undefined (accessDwarfExpression p len >>= fun _ => .ok len) (expression len p) := by
  have hwhole : accessDwarfExpression p len = .ok () ↔ WholeExpr p len := by
    refine ⟨whole_of_ok hlen hp, ?_⟩
    rintro ⟨ks, hlaid, rfl⟩
    have hks := (laid_within hlaid).1
    exact accessDwarfLoop_whole hlaid (by omega) hlen (Nat.lt_succ_self _)
  constructor
  · intro k
    unfold expression
    dsimp only
    rw [← hwhole]
    cases accessDwarfExpression p len with
    | ok u => simp [eq_comm]
    | error e => simp
  · unfold expression
    dsimp only
    rw [← hwhole]
    constructor
    · rintro ⟨e, hne, he⟩
      rcases bind_eq_error.mp he with h | ⟨_, _, h⟩
      · obtain ⟨ks, hlaid, hslots, hrefuses⟩ := refused_of_error hne h
        exact ⟨by rw [h]; simp, ks, hlaid, by omega, hrefuses⟩
      · cases h
    · rintro ⟨hnot, ks, hlaid, hslots, hrefuses⟩
      have hstays : StaysInside (accessDwarfExpression p len) :=
        accessDwarfLoop_refused hlaid (by omega) hrefuses (Nat.lt_succ_self _)
      cases hrun : accessDwarfExpression p len with
      | ok u => exact absurd hrun hnot
      | error e =>
        refine ⟨e, ?_, rfl⟩
        rintro rfl
        exact hstays hrun

/-! ## The instructions -/

theorem leb128ToUInt_conforms (p : List UInt8) : Conforms .undefined (leb128ToUInt p) (blockLength p) := by
  have hdecode (n : Numeral) (rest : List UInt8) : decodeLEB128 (n.bytes ++ rest) false =
      .ok ⟨toLE (unsignedBytes n.value n.length) n.value, decodedBytes false n, numeralSize n⟩ := decode_numeral n rest
  refine conforms_numeral (fun hopen => ?_) (fun n rest hn => ?_) fun n rest hn => ?_
  · simp [leb128ToUInt, decodeLEB128_open false hopen]
  · have hvalue : leNat ((toLE (unsignedBytes n.value n.length) n.value).take (decodedBytes false n)) =
        n.value % 256 ^ decodedBytes false n := by
      rw [leNat_take, leNat_toLE, Nat.mod_eq_of_lt (lt_unsignedBytes n.value_lt)]
    simp [leb128ToUInt, hdecode, assert_of hn, hvalue]
  · exact ⟨.assertion, by simp, by simp [leb128ToUInt, hdecode, assert_not hn]⟩

theorem blockLength_lt {p : List UInt8} {r : Nat × Nat} (h : (blockLength p).gives r) : r.1 < 2 ^ 32 := by
  obtain ⟨n, rest, -, hn, rfl⟩ := h
  have hpow : 256 ^ decodedBytes false n ≤ 256 ^ 4 := Nat.pow_le_pow_right (by norm_num) hn
  have hmod := Nat.mod_lt n.value (show 0 < 256 ^ decodedBytes false n by positivity)
  dsimp only
  omega

theorem blockBytes_conforms {p : List UInt8} (hp : p.length < 2 ^ 32) : Conforms .undefined (blockBytes p) (block p) := by
  unfold blockBytes block
  refine (leb128ToUInt_conforms p).bind fun r hr => ?_
  have hlen := blockLength_lt (((leb128ToUInt_conforms p).ok r).mp hr)
  have hdrop : (p.drop r.2).length < 2 ^ 32 := by
    rw [List.length_drop]
    omega
  have hexpr := (accessDwarfExpression_conforms hlen hdrop).bind fun k _ => conforms_pure (r.2 + k)
  cases hrun : accessDwarfExpression (p.drop r.2) r.1 with
  | error e =>
    rw [hrun] at hexpr
    simpa [hrun] using hexpr
  | ok u =>
    rw [hrun] at hexpr
    simpa [hrun] using hexpr

theorem within_block : block.Within := by
  rintro p k ⟨⟨len, u⟩, ⟨n, rest, rfl, -, hr⟩, k', ⟨⟨ks, hlaid, hsum⟩, rfl⟩, rfl⟩
  have hin := (laid_within hlaid).2
  have hle : numeralSize n ≤ n.length := Nat.mod_le _ _
  cases hr
  rw [hsum, List.length_drop, List.length_append, Numeral.length_bytes] at hin
  rw [List.length_append, Numeral.length_bytes]
  dsimp only at *
  omega

theorem within_poRegister : poRegisterNumber.Within := by
  intro p k h
  cases p with
  | nil => exact h.elim
  | cons b p =>
    by_cases hb : isPoRegType b = true
    · simp only [poRegisterNumber, hb, if_true] at h
      exact within_numeral _ _ _ h
    · simp only [poRegisterNumber, hb] at h
      exact h.elim

/-- Operands lie in the string, but for the second byte of an `advance_loc2`. -/
theorem layout_within {op : CfaOp} {operands : List (Format UInt8)} (h : layout op = some operands) :
    (∀ F ∈ operands, F.Within) ∨ operands = [fixedBytes 1 2] := by
  have hleb (limit : Nat) (signed : Bool) : (lebNumber limit signed).Within := within_numeral _
  have hreg : registerNumber.Within := within_numeral _
  cases op <;> simp only [layout, Option.some.injEq, reduceCtorEq] at h <;> subst h <;>
    first
      | exact .inr rfl
      | (left; simp [hleb, hreg, within_block, within_poRegister, within_fixed, Format.within_ahead])

theorem accessInstruction_conforms {byte : UInt8} {operands : List (Format UInt8)}
    (h : layout (CfaOp.ofByte byte) = some operands) {p : List UInt8} (hp : p.length < 2 ^ 32) :
    Conforms .undefined (accessInstruction byte p) (Format.row operands p) := by
  have hdrop (k : Nat) : (p.drop k).length < 2 ^ 32 := by
    rw [List.length_drop]
    omega
  have hahead (signed : Bool) (p : List UInt8) :
      Conforms .undefined (leaving (fun p => lebBytes p 8 signed) p) ((lebNumber 8 signed).ahead p) :=
    (lebBytes_conforms 8 signed p).bind fun _ _ => conforms_pure 0
  unfold accessInstruction
  cases hop : CfaOp.ofByte byte <;> rw [hop] at h <;> cases h
  case advanceLoc | restore | rememberState | restoreState | nop => exact conforms_pure 0
  case offset | defCfaOffset | gnuArgsSize | defCfaOffsetSf => exact lebBytes_conforms _ _ p
  case setLoc | advanceLoc4 | advanceLoc1 | advanceLoc2 => exact copyBytes_conforms _ _ p
  case offsetExtended | offsetExtendedSf =>
    exact Format.conforms_andThen (regBytes_conforms p) fun _ _ => hahead _ _
  case undefined | sameValue | defCfaRegister => exact regBytes_conforms p
  case register => exact Format.conforms_andThen (regBytes_conforms p) fun _ _ => regBytes_conforms _
  case katanaFixups | katanaFixupsPointer =>
    exact Format.conforms_andThen (poRegBytes_conforms p) fun _ _ =>
      Format.conforms_andThen (poRegBytes_conforms _) fun _ _ => lebBytes_conforms _ _ _
  case defCfa => exact Format.conforms_andThen (regBytes_conforms p) fun _ _ => lebBytes_conforms _ _ _
  case expression | valExpression =>
    exact Format.conforms_andThen (regBytes_conforms p) fun k _ => blockBytes_conforms (hdrop k)
  case defCfaExpression => exact blockBytes_conforms hp

theorem accessInstruction_refused {byte : UInt8} (h : layout (CfaOp.ofByte byte) = none) (p : List UInt8) :
    ∃ msg, accessInstruction byte p = .error (.death msg) := by
  unfold accessInstruction
  cases hop : CfaOp.ofByte byte <;> rw [hop] at h <;> cases h <;> exact ⟨_, rfl⟩

/-- One turn of the loop of `parseFDEInstructions`: the bytes it moves over, the opcode included. -/
def accessTurn : List UInt8 → Except Fault Nat
  | [] => .error .undefined
  | byte :: bytes => do
    let k ← accessInstruction byte bytes
    .ok (k + 1)

theorem accessTurn_conforms {p : List UInt8} (hp : p.length < 2 ^ 32) :
    Conforms .undefined (accessTurn p) (instruction p) := by
  cases p with
  | nil => exact conforms_stray
  | cons byte p =>
    rw [List.length_cons] at hp
    cases hlayout : layout (CfaOp.ofByte byte) with
    | some operands =>
      simp only [accessTurn, instruction, hlayout]
      exact (accessInstruction_conforms hlayout (by omega)).bind fun k _ => conforms_pure (k + 1)
    | none =>
      obtain ⟨msg, hmsg⟩ := accessInstruction_refused hlayout p
      simp only [accessTurn, instruction, hlayout, hmsg]
      exact conforms_refuse (by simp)

theorem instruction_within {p : List UInt8} {k : Nat} (h : (instruction p).gives k) : 0 < k ∧ k ≤ p.length + 1 := by
  cases p with
  | nil => exact h.elim
  | cons byte p =>
    cases hlayout : layout (CfaOp.ofByte byte) with
    | none =>
      simp only [instruction, hlayout] at h
      exact h.elim
    | some operands =>
      simp only [instruction, hlayout] at h
      obtain ⟨k', hk', rfl⟩ := h
      rw [List.length_cons]
      rcases layout_within hlayout with hwithin | rfl
      · have hle := Format.within_row hwithin p k' hk'
        omega
      · obtain ⟨hreads, rfl⟩ := hk'
        omega

/-! ## The loop over the instructions -/

section FDELoop
variable {slots fuel slot : Nat} {p : List UInt8}

theorem accessFDELoop_done {len : Int} (h : len ≤ 0) : accessFDELoop slots fuel p len slot = .ok () := by
  unfold accessFDELoop
  rw [if_pos h]

theorem accessFDELoop_turn (hp : p ≠ []) (hslot : slot < slots) : ∃ slot', slot' ≤ slot + 1 ∧
    accessFDELoop slots (fuel + 1) p p.length slot =
      accessTurn p >>= fun k =>
        accessFDELoop slots fuel (p.drop k) (Int.bmod (p.length - (k - 1 : Nat)) (2 ^ 32) - 1) slot' := by
  cases p with
  | nil => exact absurd rfl hp
  | cons byte p =>
    refine ⟨if CfaOp.ofByte byte = .nop then slot else slot + 1, by split <;> omega, ?_⟩
    rw [accessFDELoop, if_neg (by simp), accessTurn, defined_of hslot, bind_ok]
    cases accessInstruction byte p with
    | error e => simp only [bind_error]
    | ok k => simp only [bind_ok, Nat.add_sub_cancel, List.drop_succ_cons]

/-- The loop, whose slots are at least as many as the bytes left, stays inside the bytes that are left. -/
theorem accessFDELoop_stays (hfuel : p.length < fuel) (hslots : slot + p.length ≤ slots) (hp : p.length < 2 ^ 31) :
    StaysInside (accessFDELoop slots fuel p p.length slot) ↔ instruction.Runs p := by
  induction fuel generalizing p slot with
  | zero => omega
  | succ fuel ih =>
    by_cases hnil : p = []
    · subst hnil
      simp [accessFDELoop_done, StaysInside, Format.runs_nil]
    · have hpos : 0 < p.length := List.length_pos_iff.mpr hnil
      obtain ⟨slot', hslot', hturn⟩ := @accessFDELoop_turn slots fuel slot p hnil (by omega)
      have hconforms := accessTurn_conforms (show p.length < 2 ^ 32 by omega)
      rw [hturn, Format.runs_iff hnil]
      cases haccess : accessTurn p with
      | error e =>
        rw [haccess] at hconforms
        have hknown := hconforms.strays_iff
        have hnone : ¬ ∃ k, (instruction p).gives k := fun ⟨k, hk⟩ => by cases (hconforms.ok k).mpr hk
        have hrefuses : (instruction p).refuses ↔ e ≠ .undefined := by
          rw [← hconforms.error]
          simp
        rw [hrefuses, bind_error]
        simp only [StaysInside, ne_eq, Except.error.injEq]
        exact ⟨.inl, fun h => h.resolve_right fun ⟨k, hk, _⟩ => hnone ⟨k, hk⟩⟩
      | ok k =>
        obtain ⟨hk0, hk⟩ := instruction_within ((hconforms.ok k).mp haccess)
        have hbmod : Int.bmod (p.length - (k - 1 : Nat)) (2 ^ 32) = p.length - (k - 1 : Nat) :=
          Int.bmod_eq_of_le (by omega) (by omega)
        have hgives (k' : Nat) : (instruction p).gives k' ↔ k' = k := (hconforms.gives_iff haccess).1
        have hno : ¬ (instruction p).refuses := (@Conforms.gives_iff _ _ _ _ _ hconforms k 0 haccess).2
        simp only [hgives, hno, false_or, exists_eq_left, bind_ok]
        rw [hbmod]
        by_cases hin : k ≤ p.length
        · have hlen : (p.length : Int) - (k - 1 : Nat) - 1 = ((p.drop k).length : Nat) := by
            rw [List.length_drop]
            omega
          rw [hlen]
          exact ih (by rw [List.length_drop]; omega) (by rw [List.length_drop]; omega) (by rw [List.length_drop]; omega)
        · rw [accessFDELoop_done (by omega), List.drop_eq_nil_of_le (by omega)]
          simp [StaysInside, Format.runs_nil]

end FDELoop

theorem operation_runs_iff (p : List UInt8) : operation.Runs p ↔ WholeExpr p p.length ∨ RefusedExpr p p.length := by
  constructor
  · rintro ⟨ks, hlaid, hend⟩
    obtain ⟨hlen, hsum⟩ := laid_within hlaid
    by_cases hall : p.length ≤ ks.sum
    · exact .inl ⟨ks, hlaid, by omega⟩
    · refine .inr ⟨ks, hlaid, by omega, hend.resolve_left fun h => ?_⟩
      rw [List.drop_eq_nil_iff] at h
      exact hall h
  · rintro (⟨ks, hlaid, hsum⟩ | ⟨ks, hlaid, -, hrefuses⟩)
    · exact ⟨ks, hlaid, .inl (List.drop_eq_nil_of_le (by omega))⟩
    · exact ⟨ks, hlaid, .inr hrefuses⟩

theorem accessDwarfExpression_stays {p : List UInt8} (hp : p.length < 2 ^ 32) :
    StaysInside (accessDwarfExpression p p.length) ↔ operation.Runs p := by
  have hknown := (accessDwarfExpression_conforms hp hp).strays_iff
  rw [operation_runs_iff]
  calc StaysInside (accessDwarfExpression p p.length)
      ↔ (accessDwarfExpression p p.length >>= fun _ => .ok p.length) ≠ .error .undefined := by
        unfold StaysInside
        cases accessDwarfExpression p p.length <;> simp
    _ ↔ (expression p.length p).Known := hknown
    _ ↔ WholeExpr p p.length ∨ RefusedExpr p p.length := by
        unfold Reading.Known expression
        by_cases hwhole : WholeExpr p p.length
        · simp [hwhole]
        · simp [hwhole]

/-! ## What is read stays inside -/

section Values
variable {p : List UInt8}

theorem lebBytes_of_decode {limit k : Nat} {signed : Bool} {d : Decoded} (hd : decodeLEB128 p signed = .ok d)
    (hlimit : d.numBytes ≤ limit) (hk : k = d.numSeptetsRead) : lebBytes p limit signed = .ok k := by
  unfold lebBytes
  rw [hd, bind_ok, assert_of hlimit, bind_ok, hk]

theorem lebBytes_of_uint {v k : Nat} (h : leb128ToUInt p = .ok (v, k)) : lebBytes p 4 false = .ok k := by
  obtain ⟨d, hd, h⟩ := bind_eq_ok.mp h
  obtain ⟨⟨⟩, hlimit, h⟩ := bind_eq_ok.mp h
  cases h
  exact lebBytes_of_decode hd (assert_ok hlimit) rfl

theorem lebBytes_of_uword {v k : Nat} (h : leb128ToUWord p = .ok (v, k)) : lebBytes p 8 false = .ok k := by
  obtain ⟨d, hd, h⟩ := bind_eq_ok.mp h
  obtain ⟨⟨⟩, hlimit, h⟩ := bind_eq_ok.mp h
  cases h
  exact lebBytes_of_decode hd (assert_ok hlimit) rfl

theorem lebBytes_of_int {v : Int} {k : Nat} (h : leb128ToInt p = .ok (v, k)) : lebBytes p 4 true = .ok k := by
  obtain ⟨d, hd, h⟩ := bind_eq_ok.mp h
  obtain ⟨⟨⟩, hlimit, h⟩ := bind_eq_ok.mp h
  dsimp only at h
  split at h
  · obtain ⟨x, -, h⟩ := bind_eq_ok.mp h
    exact lebBytes_of_decode hd (assert_ok hlimit) (Prod.mk.inj (Except.ok.inj h)).2.symm
  · exact lebBytes_of_decode hd (assert_ok hlimit) (Prod.mk.inj (Except.ok.inj h)).2.symm

theorem lebBytes_of_sword {v : Int} {k : Nat} (h : leb128ToSWord p = .ok (v, k)) : lebBytes p 8 true = .ok k := by
  obtain ⟨d, hd, h⟩ := bind_eq_ok.mp h
  obtain ⟨⟨⟩, hlimit, h⟩ := bind_eq_ok.mp h
  dsimp only at h
  split at h
  · obtain ⟨x, -, h⟩ := bind_eq_ok.mp h
    exact lebBytes_of_decode hd (assert_ok hlimit) (Prod.mk.inj (Except.ok.inj h)).2.symm
  · exact lebBytes_of_decode hd (assert_ok hlimit) (Prod.mk.inj (Except.ok.inj h)).2.symm

theorem regBytes_of_read {r : PoReg} {k : Nat} (h : readRegFromLEB128 p = .ok (r, k)) : regBytes p = .ok k := by
  have hread := h
  rcases numeral_or_open p with ⟨n, rest, rfl⟩ | hopen
  · rw [readReg_length h]
    unfold regBytes
    rw [decode_numeral, bind_ok, hread]
  · unfold readRegFromLEB128 at h
    rw [decodeLEB128_open false hopen] at h
    cases h

theorem poRegBytes_of_read {r : PoReg} {k : Nat} (h : readPoReg p = .ok (r, k)) : poRegBytes p = .ok k := by
  cases p with
  | nil => cases h
  | cons b p =>
    unfold readPoReg at h
    unfold poRegBytes
    by_cases hb : isPoRegType b = true
    · simp only [hb, if_true] at h ⊢
      exact regBytes_of_read h
    · simp [hb] at h

theorem whole_of_parse {fuel len : Nat} {expr : DwarfExpr} (hlen : len < 2 ^ 32) (hp : p.length < 2 ^ 32)
    (h : parseDwarfLoop fuel p len = .ok expr) : WholeExpr p len := by
  induction fuel generalizing p len expr with
  | zero =>
    cases len with
    | zero => exact ⟨[], trivial, rfl⟩
    | succ len => cases p <;> cases h
  | succ fuel ih =>
    have hle := parseDwarfLoop_le hlen h
    cases len with
    | zero => exact ⟨[], trivial, rfl⟩
    | succ len =>
      cases p with
      | nil => cases h
      | cons b p =>
        unfold parseDwarfLoop at h
        obtain ⟨⟨arg, k⟩, harg, h⟩ := bind_eq_ok.mp h
        obtain ⟨rest, hrest, -⟩ := bind_eq_ok.mp h
        have hturn : accessOperation (b :: p) = .ok (k + 1) := by
          simp [accessOperation, operandBytes, harg]
        have hk := parseDwarfOperand_le harg
        have hin := parseDwarfLoop_le (uintSub_lt _ _) hrest
        rw [List.length_drop] at hin
        rw [List.length_cons] at hle hp
        have hkl : k ≤ len := by
          by_contra hkl
          unfold uintSub at hin
          rw [Nat.mod_eq_of_lt (by omega)] at hin
          omega
        obtain ⟨ks, hlaid, hsum⟩ := ih (uintSub_lt _ _) (by rw [List.length_drop]; omega) hrest
        rw [uintSub_of_le hkl (by omega)] at hsum
        refine ⟨(k + 1) :: ks, ⟨((accessOperation_conforms _).ok _).mp hturn, ?_⟩, ?_⟩
        · simpa using hlaid
        · rw [List.sum_cons]
          omega

theorem blockBytes_of_read {expr : DwarfExpr} {k : Nat} (hp : p.length < 2 ^ 32) (h : readExprBlock p = .ok (expr, k)) :
    blockBytes p = .ok k := by
  obtain ⟨⟨len, u⟩, hlen, h⟩ := bind_eq_ok.mp h
  obtain ⟨e, hexpr, h⟩ := bind_eq_ok.mp h
  have hlt := blockLength_lt (((leb128ToUInt_conforms p).ok _).mp hlen)
  cases h
  refine ((blockBytes_conforms hp).ok _).mpr ⟨(len, u), ((leb128ToUInt_conforms p).ok _).mp hlen, len, ?_, rfl⟩
  exact ⟨whole_of_parse hlt (by rw [List.length_drop]; omega) hexpr, rfl⟩

/-- An instruction that is read is gone through. -/
theorem accessInstruction_of_parse {byte : UInt8} {o : Option RegInstruction} {k : Nat} (hp : p.length < 2 ^ 32)
    (h : parseInstruction byte p = .ok (o, k)) : accessInstruction byte p = .ok k := by
  have hdrop (k : Nat) : (p.drop k).length < 2 ^ 32 := by
    rw [List.length_drop]
    omega
  unfold parseInstruction at h
  unfold accessInstruction
  cases hop : CfaOp.ofByte byte <;> simp only [hop] at h ⊢
  case advanceLoc | restore | rememberState | restoreState | nop => cases h; rfl
  case offset =>
    obtain ⟨⟨arg2, k1⟩, h1, h⟩ := bind_eq_ok.mp h
    cases h
    exact lebBytes_of_uword h1
  case setLoc | advanceLoc1 | advanceLoc2 | advanceLoc4 =>
    obtain ⟨v, h1, h⟩ := bind_eq_ok.mp h
    cases h
    simp [copyBytes, h1]
  case offsetExtended =>
    obtain ⟨⟨reg, k1⟩, h1, h⟩ := bind_eq_ok.mp h
    obtain ⟨⟨arg2, k2⟩, h2, h⟩ := bind_eq_ok.mp h
    cases h
    simp [followedBy, leaving, regBytes_of_read h1, lebBytes_of_uword h2]
  case offsetExtendedSf =>
    obtain ⟨⟨reg, k1⟩, h1, h⟩ := bind_eq_ok.mp h
    obtain ⟨⟨arg2, k2⟩, h2, h⟩ := bind_eq_ok.mp h
    cases h
    simp [followedBy, leaving, regBytes_of_read h1, lebBytes_of_sword h2]
  case undefined | sameValue | defCfaRegister =>
    obtain ⟨⟨reg, k1⟩, h1, h⟩ := bind_eq_ok.mp h
    cases h
    exact regBytes_of_read h1
  case register =>
    obtain ⟨⟨reg, k1⟩, h1, h⟩ := bind_eq_ok.mp h
    obtain ⟨⟨reg2, k2⟩, h2, h⟩ := bind_eq_ok.mp h
    cases h
    simp [followedBy, regBytes_of_read h1, regBytes_of_read h2]
  case katanaFixups | katanaFixupsPointer =>
    obtain ⟨⟨reg, k1⟩, h1, h⟩ := bind_eq_ok.mp h
    obtain ⟨⟨reg2, k2⟩, h2, h⟩ := bind_eq_ok.mp h
    obtain ⟨⟨arg3, k3⟩, h3, h⟩ := bind_eq_ok.mp h
    cases h
    have h3' : lebBytes (p.drop (k1 + k2)) 4 false = .ok k3 := lebBytes_of_uint h3
    simp [followedBy, poRegBytes_of_read h1, poRegBytes_of_read h2, h3', Nat.add_assoc]
  case defCfa =>
    obtain ⟨⟨reg, k1⟩, h1, h⟩ := bind_eq_ok.mp h
    obtain ⟨⟨arg2, k2⟩, h2, h⟩ := bind_eq_ok.mp h
    cases h
    simp [followedBy, regBytes_of_read h1, lebBytes_of_uint h2]
  case defCfaOffset | gnuArgsSize =>
    obtain ⟨⟨arg1, k1⟩, h1, h⟩ := bind_eq_ok.mp h
    cases h
    exact lebBytes_of_uint h1
  case defCfaOffsetSf =>
    obtain ⟨⟨arg1, k1⟩, h1, h⟩ := bind_eq_ok.mp h
    cases h
    exact lebBytes_of_int h1
  case expression | valExpression =>
    obtain ⟨⟨reg, k1⟩, h1, h⟩ := bind_eq_ok.mp h
    obtain ⟨⟨expr, k2⟩, h2, h⟩ := bind_eq_ok.mp h
    cases h
    simp [followedBy, regBytes_of_read h1, blockBytes_of_read (hdrop k1) h2]
  case defCfaExpression =>
    obtain ⟨⟨expr, k1⟩, h1, h⟩ := bind_eq_ok.mp h
    cases h
    exact blockBytes_of_read hp h1
  all_goals cases h

theorem runs_of_parse {fuel : Nat} {len : Int} {r : List RegInstruction × List UInt8} (hlen : len = p.length)
    (hp : p.length < 2 ^ 31) (h : parseFDELoop fuel p len = .ok r) : instruction.Runs p := by
  induction fuel generalizing p len r with
  | zero =>
    cases p with
    | nil => exact Format.runs_nil
    | cons byte p =>
      unfold parseFDELoop at h
      rw [if_neg (by simp [hlen])] at h
      cases h
  | succ fuel ih =>
    cases p with
    | nil => exact Format.runs_nil
    | cons byte p =>
      unfold parseFDELoop at h
      rw [if_neg (by simp [hlen])] at h
      obtain ⟨⟨o, k⟩, hk, h⟩ := bind_eq_ok.mp h
      obtain ⟨⟨rest, left⟩, hrest, -⟩ := bind_eq_ok.mp h
      rw [List.length_cons] at hp hlen
      have hturn : accessTurn (byte :: p) = .ok (k + 1) := by
        simp [accessTurn, accessInstruction_of_parse (show p.length < 2 ^ 32 by omega) hk]
      have hgives := ((accessTurn_conforms (p := byte :: p) (by rw [List.length_cons]; omega)).ok _).mp hturn
      rw [Format.runs_iff (List.cons_ne_nil _ _)]
      refine .inr ⟨k + 1, hgives, ?_⟩
      rw [List.drop_succ_cons]
      by_cases hin : k ≤ p.length
      · refine ih ?_ (by rw [List.length_drop]; omega) hrest
        rw [hlen, List.length_drop]
        omega
      · rw [List.drop_eq_nil_of_le (by omega)]
        exact Format.runs_nil

end Values

/-- **The parsers stay inside** the bytes and their results exactly if the string is, up to its end or to the first
that is refused, complete instructions (complete operations for an expression). -/
theorem stays_iff (bytes : List UInt8) :
    (bytes.length < 2 ^ 31 → (StaysInside (accessFDEInstructions bytes bytes.length) ↔ instruction.Runs bytes)) ∧
    (bytes.length < 2 ^ 32 → (StaysInside (accessDwarfExpression bytes bytes.length) ↔ operation.Runs bytes)) := by
  refine ⟨fun hlen => ?_, accessDwarfExpression_stays⟩
  unfold accessFDEInstructions
  rw [Int.toNat_natCast]
  exact accessFDELoop_stays (Nat.lt_succ_self _) (by omega) hlen

/-- Where the values are read, nothing outside was. -/
theorem stays_of_parse {bytes : List UInt8} {r : List RegInstruction × List UInt8} (hlen : bytes.length < 2 ^ 31)
    (h : parseFDEInstructions bytes bytes.length = .ok r) : StaysInside (accessFDEInstructions bytes bytes.length) := by
  unfold accessFDEInstructions
  rw [Int.toNat_natCast, accessFDELoop_stays (Nat.lt_succ_self _) (by omega) hlen]
  exact runs_of_parse rfl hlen h

/-- An `advance_loc1` and its byte; and a `const1u` with the same. -/
theorem advance_stays : StaysInside (accessFDEInstructions [0x02, 0x05] (2 : Nat)) ∧
    StaysInside (accessDwarfExpression [0x08, 0x05] 2) := by
  refine ⟨((stays_iff [0x02, 0x05]).1 (by decide)).mpr ⟨[2], ⟨⟨1, ⟨by decide, rfl⟩, rfl⟩, trivial⟩, .inl rfl⟩, ?_⟩
  exact ((stays_iff [0x08, 0x05]).2 (by decide)).mpr ⟨[2], ⟨⟨1, ⟨by decide, rfl⟩, rfl⟩, trivial⟩, .inl rfl⟩

/-- Without the byte. -/
theorem not_stays : ¬ ∀ bytes : List UInt8,
    (bytes.length < 2 ^ 31 → StaysInside (accessFDEInstructions bytes bytes.length)) ∧
    (bytes.length < 2 ^ 32 → StaysInside (accessDwarfExpression bytes bytes.length)) := by
  intro h
  exact (h [0x02]).1 (by decide) rfl

end Katana
