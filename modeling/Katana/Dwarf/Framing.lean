/-
  Katana.Dwarf.Framing — which encoded call-frame instructions `parseFDEInstructions` reads in frame.

  `Readable` says for one instruction, whatever its numerals' padding, that a step of the reader gives
  back its operands and moves over its bytes. The readers count a numeral's length in a `usint`; a longer
  one leaves the reader inside it, where the next operand is read as empty (`after_numeral`).

  Proved:
  - `exprStep_iff` / `fdeStep_means_iff`: one operation, one instruction, whatever is behind it.
  - `exprInFrame_iff` / `decodedInFrame_iff`: a whole expression and a whole code are read in frame
    exactly when each of their parts is readable.
-/
import Katana.Dwarf.Encoding

namespace Katana

open Lib Encoding

namespace Encoding

/-! ## Operations -/

namespace Operation

/-- The reader gives the operation back and moves over its bytes. -/
def Readable : Operation → Prop
  | plain _ _ | unsigned _ _ _ _ _ | signed _ _ _ _ _ => True
  | uleb _ _ n => unsignedBytes n.value n.length ≤ 8
  | sleb _ _ n => n.length ≤ 9 ∧ (0 ≤ n.signedValue ∨ n.length = 9)
  | bregx _ _ | other _ _ _ => False

instance (o : Operation) : Decidable o.Readable := by
  unfold Readable; split <;> infer_instance

end Operation

end Encoding

/-- What `parseDwarfExpression` reads behind an opcode that has a format. -/
theorem decodeShape_format (op : DwOp) : op.decodeShape =
    match op.format with
    | some .none => some .none
    | some (.unsigned k) => some (.unsigned k)
    | some (.signed k) => some (.signed k)
    | some .uleb => some .uleb
    | some .sleb => some .sleb
    | some .ulebSleb | none => none := by
  cases op <;> rfl

theorem ofByte_format {op : DwOp} (h : op.format ≠ none) : DwOp.ofByte (UInt8.ofNat op.code) = op := by
  apply ofByte_code
  intro hshape
  apply h
  cases op <;> simp_all [DwOp.encodeShape, DwOp.format]

theorem exprStep_code {op : DwOp} (h : op.format ≠ none) (data : List UInt8) :
    exprStep (UInt8.ofNat op.code :: data) = (do
      let (arg1, k) ← parseDwarfOperand op data
      .ok (⟨op, UInt64.ofNat arg1, 0⟩, k + 1)) := by
  unfold exprStep
  dsimp only
  rw [ofByte_format h]

/-- The sizes of the fixed formats. -/
theorem signed_size {op : DwOp} {k : Nat} (h : op.format = some (.signed k)) : k = 1 ∨ k = 2 ∨ k = 4 ∨ k = 8 := by
  cases op <;> simp_all [DwOp.format]

theorem unsigned_size {op : DwOp} {k : Nat} (h : op.format = some (.unsigned k)) : k ≤ 8 := by
  cases op <;> simp_all [DwOp.format] <;> omega

theorem signedWord_ofNat_residueBytes {z : Int} (hlo : -2 ^ 63 ≤ z) (hhi : z < 2 ^ 63) :
    signedWord (UInt64.ofNat (residueBytes z 8)) = z := by
  have hlt : residueBytes z 8 < 2 ^ 64 := residueBytes_lt z 8
  unfold signedWord
  rw [UInt64.toNat_ofNat', Nat.mod_eq_of_lt hlt, show (2 : Nat) ^ 64 = 256 ^ 8 by norm_num, bmod_residueBytes]
  exact Int.bmod_eq_of_le (by norm_num at *; omega) (by norm_num at *; omega)

theorem readSigned_size {k : Nat} (hk : k = 1 ∨ k = 2 ∨ k = 4 ∨ k = 8) {x : Nat} (hx : x < 256 ^ k) (rest : List UInt8) :
    readSigned k (toLE k x ++ rest) = .ok (residueBytes (Int.bmod x (256 ^ k : Nat)) 8) := by
  by_cases h8 : k = 8
  · subst h8
    unfold readSigned
    rw [readLE_toLE, bind_ok, Nat.mod_eq_of_lt hx, residueBytes_bmod, Nat.mod_eq_of_lt hx]
    rfl
  · exact readSigned_toLE (by omega) x rest

theorem readLebWord_length {n : Numeral} {rest : List UInt8} {signed : Bool} {v k : Nat}
    (h : readLebWord signed (n.bytes ++ rest) = .ok (v, k)) : k = usint n.length := by
  unfold readLebWord at h
  cases signed with
  | false =>
    rw [decode_numeral, bind_ok] at h
    obtain ⟨-, -, h⟩ := bind_eq_ok.mp h
    cases h
    rfl
  | true =>
    rw [decode_numeral_signed, bind_ok] at h
    obtain ⟨-, -, h⟩ := bind_eq_ok.mp h
    cases h
    rfl

theorem readLebWord_unsigned {n : Numeral} (hn : n.length < 65536) (rest : List UInt8) :
    readLebWord false (n.bytes ++ rest) =
      if unsignedBytes n.value n.length ≤ 8 then .ok (n.value, n.length) else .error .assertion :=
  leb128ToUWord_numeral hn rest

theorem readLebWord_signed {n : Numeral} (hn : n.length < 65536) (rest : List UInt8) :
    readLebWord true (n.bytes ++ rest) =
      if n.length ≤ 9 then .ok (residueBytes n.signedValue ((n.length * 7 + 7) / 8), n.length) else .error .assertion := by
  have hb : usint ((n.length * 7 + 7) / 8) = (n.length * 7 + 7) / 8 := Nat.mod_eq_of_lt (by omega)
  unfold readLebWord
  rw [decode_numeral_signed, bind_ok]
  simp only [hb, usint_length hn, leNat_residueBytes]
  by_cases h9 : n.length ≤ 9
  · rw [assert_of (by omega), if_pos h9]; rfl
  · rw [assert_not (by omega), if_neg h9]; rfl

/-- A numeral whose `usint` length is its length is short. -/
theorem lt_of_usint_eq {n : Nat} (h : n = usint n) : n < 65536 := by
  unfold usint at h
  omega

theorem lt_of_unsignedBytes {v n m : Nat} (h : unsignedBytes v n ≤ m) (hm : m ≤ 9) : n < 65536 := by
  unfold unsignedBytes at h
  split at h <;> omega

/-- The word of the bytes a signed numeral decodes to. -/
theorem signedWord_septets {n : Numeral} (h9 : n.length ≤ 9) :
    signedWord (UInt64.ofNat (residueBytes n.signedValue ((n.length * 7 + 7) / 8))) = n.signedValue ↔
      0 ≤ n.signedValue ∨ n.length = 9 := by
  obtain ⟨hlo, hhi⟩ := signedValue_range h9
  obtain ⟨-, hfit⟩ := n.fits_signedValue
  by_cases hlen : n.length = 9
  · rw [hlen, show (9 * 7 + 7) / 8 = 8 by norm_num,
      signedWord_ofNat_residueBytes (by norm_num at *; omega) (by norm_num at *; omega)]
    simp
  · have h8 : n.length ≤ 8 := by omega
    have hb : (n.length * 7 + 7) / 8 ≤ 7 := by omega
    have hlt := lt_of_lt_of_le (residueBytes_lt n.signedValue ((n.length * 7 + 7) / 8))
      (Nat.pow_le_pow_right (by norm_num : 0 < 256) hb)
    norm_num at hlt
    have hword : signedWord (UInt64.ofNat (residueBytes n.signedValue ((n.length * 7 + 7) / 8))) =
        residueBytes n.signedValue ((n.length * 7 + 7) / 8) := by
      have h64 : residueBytes n.signedValue ((n.length * 7 + 7) / 8) < 2 ^ 64 := by omega
      unfold signedWord
      rw [UInt64.toNat_ofNat', Nat.mod_eq_of_lt h64]
      exact Int.bmod_eq_of_le (by omega) (by omega)
    rw [hword]
    constructor
    · intro h
      left
      rw [← h]
      exact Int.natCast_nonneg _
    · intro h
      rcases h with h | h
      · obtain ⟨m, hm⟩ : ∃ m : Nat, n.signedValue = m := ⟨n.signedValue.toNat, by omega⟩
        rw [hm] at hfit ⊢
        have hm' : m < 128 ^ n.length := by
          have hfit' : ((2 * m : Nat) : Int) < ((128 ^ n.length : Nat) : Int) := by
            rw [Nat.cast_mul, Nat.cast_pow]
            exact hfit
          omega
        rw [residueBytes_of_nonneg (lt_of_lt_of_le hm' (pow128_le_pow256 (by omega)))]
      · omega

/-- **An operation is read as itself and with its own bytes exactly when it is readable.** -/
theorem exprStep_iff (o : Operation) (rest : List UInt8) :
    (∃ instr, exprStep (o.bytes ++ rest) = .ok (instr, o.bytes.length) ∧ o.Means instr) ↔ o.Readable := by
  rw [Operation.bytes, List.cons_append, List.length_cons]
  cases o with
  | plain op h =>
    refine ⟨fun _ => trivial, fun _ => ⟨⟨op, UInt64.ofNat 0, 0⟩, ?_, rfl⟩⟩
    show exprStep (UInt8.ofNat op.code :: _) = _
    rw [exprStep_code (by rw [h]; simp)]
    unfold parseDwarfOperand
    rw [decodeShape_format, h]
    rfl
  | unsigned op k h x hx =>
    have hx64 : x < 2 ^ 64 := lt_of_lt_of_le hx (Nat.pow_le_pow_right (by norm_num) (unsigned_size h))
    refine ⟨fun _ => trivial, fun _ => ⟨⟨op, UInt64.ofNat x, 0⟩, ?_, rfl, ?_⟩⟩
    · show exprStep (UInt8.ofNat op.code :: (toLE k x ++ rest)) = .ok (_, (toLE k x).length + 1)
      rw [exprStep_code (by rw [h]; simp), length_toLE]
      unfold parseDwarfOperand
      rw [decodeShape_format, h]
      dsimp only
      rw [readLE_toLE, Nat.mod_eq_of_lt hx]
      rfl
    · show (UInt64.ofNat x).toNat = x
      rw [UInt64.toNat_ofNat', Nat.mod_eq_of_lt hx64]
  | signed op k h x hx =>
    have hk := signed_size h
    obtain ⟨hlo, hhi⟩ := bmod_range x (k := k) (by omega)
    have h8 : (256 : Int) ^ k ≤ 256 ^ 8 := pow_le_pow_right₀ (by norm_num) (by omega)
    refine ⟨fun _ => trivial, fun _ => ⟨⟨op, UInt64.ofNat (residueBytes (Int.bmod x (256 ^ k : Nat)) 8), 0⟩, ?_, rfl, ?_⟩⟩
    · show exprStep (UInt8.ofNat op.code :: (toLE k x ++ rest)) = .ok (_, (toLE k x).length + 1)
      rw [exprStep_code (by rw [h]; simp), length_toLE]
      unfold parseDwarfOperand
      rw [decodeShape_format, h]
      dsimp only
      rw [readSigned_size hk hx]
      rfl
    · exact signedWord_ofNat_residueBytes (by norm_num at *; omega) (by norm_num at *; omega)
  | uleb op h n =>
    show (∃ instr, exprStep (UInt8.ofNat op.code :: (n.bytes ++ rest)) = .ok (instr, n.bytes.length + 1) ∧ _) ↔ _
    rw [exprStep_code (by rw [h]; simp), n.length_bytes]
    unfold parseDwarfOperand
    rw [decodeShape_format, h]
    dsimp only
    constructor
    · intro hread
      rcases hread with ⟨instr, hread, -⟩
      obtain ⟨⟨v, k⟩, hv, hread⟩ := bind_eq_ok.mp hread
      simp only [Except.ok.injEq, Prod.mk.injEq, Nat.add_right_cancel_iff] at hread
      have hn := lt_of_usint_eq (hread.2 ▸ readLebWord_length hv)
      rw [readLebWord_unsigned hn] at hv
      split at hv
      · assumption
      · cases hv
    · intro hbytes
      have hb : unsignedBytes n.value n.length ≤ 8 := hbytes
      have hlt : n.value < 2 ^ 64 := lt_of_lt_of_le (lt_unsignedBytes n.value_lt) (Nat.pow_le_pow_right (by norm_num) hb)
      refine ⟨⟨op, UInt64.ofNat n.value, 0⟩, ?_, rfl, ?_⟩
      · rw [readLebWord_unsigned (lt_of_unsignedBytes hb (by norm_num)), if_pos hb, bind_ok]
      · show (UInt64.ofNat n.value).toNat = n.value
        rw [UInt64.toNat_ofNat', Nat.mod_eq_of_lt hlt]
  | sleb op h n =>
    show (∃ instr, exprStep (UInt8.ofNat op.code :: (n.bytes ++ rest)) = .ok (instr, n.bytes.length + 1) ∧ _) ↔ _
    rw [exprStep_code (by rw [h]; simp), n.length_bytes]
    unfold parseDwarfOperand
    rw [decodeShape_format, h]
    dsimp only
    constructor
    · intro hread
      rcases hread with ⟨instr, hread, hmeans⟩
      obtain ⟨⟨v, k⟩, hv, hread⟩ := bind_eq_ok.mp hread
      simp only [Except.ok.injEq, Prod.mk.injEq, Nat.add_right_cancel_iff] at hread
      obtain ⟨rfl, rfl⟩ := hread
      rw [readLebWord_signed (lt_of_usint_eq (readLebWord_length hv))] at hv
      split at hv
      · rename_i h9
        cases hv
        exact ⟨h9, (signedWord_septets h9).mp hmeans.2⟩
      · cases hv
    · intro hread
      rcases hread with ⟨h9, hsign⟩
      refine ⟨⟨op, UInt64.ofNat (residueBytes n.signedValue ((n.length * 7 + 7) / 8)), 0⟩, ?_, rfl, ?_⟩
      · rw [readLebWord_signed (by omega), if_pos h9, bind_ok]
      · exact (signedWord_septets h9).mpr hsign
  | bregx reg offset =>
    refine ⟨fun hread => ?_, fun hread => hread.elim⟩
    rcases hread with ⟨instr, hread, -⟩
    rw [show Operation.opcode (.bregx reg offset) = UInt8.ofNat DwOp.bregx.code from rfl, exprStep_code (by decide)] at hread
    cases hread
  | other byte h operand =>
    refine ⟨fun hread => ?_, fun hread => hread.elim⟩
    rcases hread with ⟨instr, hread, -⟩
    rw [show Operation.opcode (.other byte h operand) = byte from rfl] at hread
    unfold exprStep at hread
    dsimp only at hread
    rw [h] at hread
    cases hread

/-- An expression is read in frame exactly when its operations are readable. -/
theorem exprInFrame_iff (ops : List Operation) (rest : List UInt8) :
    (∃ expr, ExprInFrame ops rest expr) ↔ ∀ o ∈ ops, o.Readable :=
  inFrame_iff exprStep_iff ops rest

namespace Encoding

/-! ## Registers -/

/-- A register of a patch type that the reader takes the numeral's length for. -/
def PatchRegister.Readable (p : PatchRegister) : Prop :=
  match p.reg.type with
  | .currTargNew | .currTargOld =>
    5 ≤ unsignedBytes p.numeral.value p.numeral.length ∧ unsignedBytes p.numeral.value p.numeral.length ≤ 9
  | .expr | .oldSymVal | .newSymVal => unsignedBytes p.numeral.value p.numeral.length = 5
  | _ => False

instance (p : PatchRegister) : Decidable p.Readable := by
  unfold PatchRegister.Readable; split <;> infer_instance

/-- A register the reader gives back: a number whose low byte is no patch type and that fits an int. -/
def Register.Readable : Register → Prop
  | number n => n.value % 256 < 0xF0 ∧ unsignedBytes n.value n.length ≤ 4 ∧ n.value < 2 ^ 31
  | patch p => p.Readable

instance (reg : Register) : Decidable reg.Readable := by
  unfold Register.Readable; split <;> infer_instance

end Encoding

theorem readReg_length {n : Numeral} {rest : List UInt8} {r : PoReg} {k : Nat}
    (h : readRegFromLEB128 (n.bytes ++ rest) = .ok (r, k)) : k = usint n.length := by
  unfold readRegFromLEB128 at h
  rw [decode_numeral, bind_ok] at h
  obtain ⟨-, -, h⟩ := bind_eq_ok.mp h
  dsimp only at h
  split at h
  · obtain ⟨-, -, h⟩ := bind_eq_ok.mp h
    obtain ⟨-, -, h⟩ := bind_eq_ok.mp h
    exact (Prod.mk.inj (Except.ok.inj h)).2.symm
  · split at h
    · cases h
    · obtain ⟨-, -, h⟩ := bind_eq_ok.mp h
      exact (Prod.mk.inj (Except.ok.inj h)).2.symm
    · obtain ⟨-, -, h⟩ := bind_eq_ok.mp h
      exact (Prod.mk.inj (Except.ok.inj h)).2.symm
    · cases h
    · obtain ⟨-, -, h⟩ := bind_eq_ok.mp h
      exact (Prod.mk.inj (Except.ok.inj h)).2.symm

/-- The bytes a numeral decodes to, from one of them on. -/
theorem leNat_decoded (n : Numeral) (j : Nat) :
    leNat (((toLE (unsignedBytes n.value n.length) n.value).drop j).take 4) = n.value / 256 ^ j % 2 ^ 32 := by
  rw [leNat_take, leNat_drop, leNat_toLE, Nat.mod_eq_of_lt (lt_unsignedBytes n.value_lt)]
  rfl

theorem firstByte_decoded (n : Numeral) :
    ((toLE (unsignedBytes n.value n.length) n.value).getD 0 0).toNat = n.value % 256 := by
  rw [getD_toLE (numeralBytes_pos n), pow_zero, Nat.div_one]

theorem toInt_ofNat_int32 {v : Nat} (hv : v < 2 ^ 32) : (Int32.ofNat v).toInt = v ↔ v < 2 ^ 31 := by
  rw [Int32.toInt_ofNat', Int32.size, Int.bmod_def]
  omega

theorem readReg_number {n : Numeral} (hn : n.length < 65536) (rest : List UInt8) :
    (∃ r, readRegFromLEB128 (n.bytes ++ rest) = .ok (r, n.length) ∧ r.type = .basic ∧ r.u.toInt = n.value) ↔
      (Register.number n).Readable := by
  have hpos := numeralBytes_pos n
  have hfirst := firstByte_decoded n
  have hindex := leNat_decoded n 0
  rw [List.drop_zero, pow_zero, Nat.div_one] at hindex
  unfold readRegFromLEB128
  rw [decode_numeral, bind_ok]
  simp only [usint_unsignedBytes hn, usint_length hn, assert_of hpos, bind_ok, hfirst, take_toLE le_rfl]
  show _ ↔ n.value % 256 < 0xF0 ∧ unsignedBytes n.value n.length ≤ 4 ∧ n.value < 2 ^ 31
  by_cases hbasic : n.value % 256 < 0xF0
  · rw [if_pos hbasic]
    by_cases h4 : unsignedBytes n.value n.length ≤ 4
    · have hv : n.value < 2 ^ 32 := lt_of_lt_of_le (lt_unsignedBytes n.value_lt) (Nat.pow_le_pow_right (by norm_num) h4)
      rw [assert_of (by omega), bind_ok, defined_of h4, bind_ok]
      unfold intOfBytes
      rw [hindex, Nat.mod_eq_of_lt hv]
      constructor
      · intro h
        rcases h with ⟨r, hr, -, hu⟩
        obtain ⟨rfl, -⟩ := Prod.mk.inj (Except.ok.inj hr)
        exact ⟨hbasic, h4, (toInt_ofNat_int32 hv).mp hu⟩
      · intro h
        exact ⟨_, rfl, rfl, (toInt_ofNat_int32 hv).mpr h.2.2⟩
    · constructor
      · intro h
        rcases h with ⟨r, hr, -⟩
        obtain ⟨-, -, hr⟩ := bind_eq_ok.mp hr
        rw [defined_not h4] at hr
        cases hr
      · intro h
        exact absurd h.2.1 h4
  · rw [if_neg hbasic]
    constructor
    · intro h
      rcases h with ⟨r, hr, htype, -⟩
      split at hr
      · cases hr
      · obtain ⟨-, -, hr⟩ := bind_eq_ok.mp hr
        obtain ⟨rfl, -⟩ := Prod.mk.inj (Except.ok.inj hr)
        simp at htype
        split at htype <;> cases htype
      · obtain ⟨-, -, hr⟩ := bind_eq_ok.mp hr
        obtain ⟨rfl, -⟩ := Prod.mk.inj (Except.ok.inj hr)
        simp at htype
        split at htype <;> cases htype
      · cases hr
      · rename_i type hne1 hne2 hne3 hof
        obtain ⟨-, -, hr⟩ := bind_eq_ok.mp hr
        obtain ⟨rfl, -⟩ := Prod.mk.inj (Except.ok.inj hr)
        dsimp only at htype
        subst htype
        unfold RegType.ofByte at hof
        repeat (split at hof; cases hof)
        cases hof
    · intro h
      exact absurd h.1 hbasic

/-- The low byte of a patch register's number is its type, and above it lie its size and its index. -/
theorem word_low {r : PoReg} {v : Nat} (h : r.word = some v) :
    ∃ code x, v = code + 256 * x ∧ 0xF1 ≤ code ∧ code ≤ 0xF6 := by
  unfold PoReg.word at h
  split at h <;> simp only [Option.some.injEq, reduceCtorEq, Option.ite_none_right_eq_some] at h
  · exact ⟨0xF1, _, h.symm, by norm_num, by norm_num⟩
  · exact ⟨0xF2, _, h.symm, by norm_num, by norm_num⟩
  · exact ⟨0xF3, _, h.2.symm, by norm_num, by norm_num⟩
  · exact ⟨0xF4, _, h.2.symm, by norm_num, by norm_num⟩
  · exact ⟨0xF5, _, h.2.symm, by norm_num, by norm_num⟩
  · exact ⟨0xF6, _, h.2.symm, by norm_num, by norm_num⟩

theorem guarded_iff {p : Prop} [Decidable p] {r0 reg : PoReg} (h : r0 = reg) (k : Nat) :
    (∃ r, (assert p >>= fun _ => .ok (r0, k)) = Except.ok (r, k) ∧ r = reg) ↔ p := by
  subst h
  by_cases hp : p
  · simp [hp]
  · simp [hp]

theorem readReg_patch {p : PatchRegister} (hn : p.numeral.length < 65536) (rest : List UInt8) :
    (∃ r, readRegFromLEB128 (p.numeral.bytes ++ rest) = .ok (r, p.numeral.length) ∧ r = p.reg) ↔ p.Readable := by
  obtain ⟨⟨type, size, u⟩, n, hword⟩ := p
  have hpos := numeralBytes_pos n
  have hfirst := firstByte_decoded n
  have hdrop1 := leNat_decoded n 1
  have hdrop5 := leNat_decoded n 5
  obtain ⟨code, x, hcode, hlo, hhi⟩ := word_low hword
  have hsize := size.toUInt32.toNat_lt
  have hindex := u.toUInt32.toNat_lt
  unfold readRegFromLEB128 PatchRegister.Readable
  dsimp only
  rw [decode_numeral, bind_ok]
  simp only [usint_unsignedBytes hn, usint_length hn, assert_of hpos, bind_ok, hfirst, take_toLE le_rfl]
  rw [if_neg (by omega)]
  generalize (toLE (unsignedBytes n.value n.length) n.value).getD 0 0 = b at *
  have hbyte : b = UInt8.ofNat (n.value % 256) := by rw [← hfirst, UInt8.ofNat_toNat]
  unfold PoReg.word at hword
  unfold intOfBytes
  rw [hdrop1, hdrop5]
  cases type <;> simp only [Option.some.injEq, reduceCtorEq, Option.ite_none_right_eq_some] at hword ⊢
  case currTargNew | currTargOld =>
    have hlow : n.value / 256 ^ 1 % 2 ^ 32 = size.toUInt32.toNat := by omega
    have hhigh : n.value / 256 ^ 5 % 2 ^ 32 = u.toUInt32.toNat := by omega
    rw [hlow, hhigh, ofNat_toNat_int32, ofNat_toNat_int32, hbyte, ← hword, Nat.add_mul_mod_self_left]
    exact guarded_iff rfl _
  case expr | oldSymVal | newSymVal =>
    have hlow : n.value / 256 ^ 1 % 2 ^ 32 = u.toUInt32.toNat := by omega
    obtain ⟨hzero, hword⟩ := hword
    rw [hlow, ofNat_toNat_int32, hbyte, ← hword, Nat.add_mul_mod_self_left, hzero]
    exact guarded_iff rfl _
  case cfa =>
    rw [hbyte, ← hword.2, Nat.add_mul_mod_self_left]
    constructor
    · intro h
      rcases h with ⟨r, hr, -⟩
      cases hr
    · intro h
      exact h.elim

/-- The first byte of a patch register's numeral shows its type. -/
theorem patch_head (p : PatchRegister) : ∃ b tail, p.numeral.bytes = b :: tail ∧ isPoRegType b = true := by
  obtain ⟨reg, ⟨digits, hne, hlt⟩, hword⟩ := p
  obtain ⟨code, x, hcode, hlo, hhi⟩ := word_low hword
  unfold Numeral.value at hcode
  cases digits with
  | nil => exact absurd rfl hne
  | cons d l =>
    have hd : d < 128 := hlt d (by simp)
    rw [Nat.ofDigits_cons] at hcode
    cases l with
    | nil =>
      rw [Nat.ofDigits_nil] at hcode
      omega
    | cons e l =>
      refine ⟨UInt8.ofNat (d + 128), mark (e :: l), mark_cons (by simp), ?_⟩
      have hbyte : (UInt8.ofNat (d + 128)).toNat = d + 128 := by
        rw [UInt8.toNat_ofNat']
        omega
      unfold isPoRegType
      rw [hbyte]
      simp only [Bool.and_eq_true, decide_eq_true_eq]
      omega

theorem readPoReg_ok {p : List UInt8} {r : PoReg} {k : Nat} (h : readPoReg p = .ok (r, k)) :
    readRegFromLEB128 p = .ok (r, k) := by
  unfold readPoReg at h
  split at h
  · cases h
  · split at h
    · exact h
    · cases h

theorem readPoReg_patch (p : PatchRegister) (rest : List UInt8) :
    readPoReg (p.numeral.bytes ++ rest) = readRegFromLEB128 (p.numeral.bytes ++ rest) := by
  obtain ⟨b, tail, hb, htype⟩ := patch_head p
  unfold readPoReg
  rw [hb, List.cons_append]
  dsimp only
  rw [if_pos htype]

theorem Encoding.Register.read_iff {reg : Register} (hn : reg.numeral.length < 65536) (rest : List UInt8) :
    (∃ r, readRegFromLEB128 (reg.bytes ++ rest) = .ok (r, reg.numeral.length) ∧ reg.Means r) ↔ reg.Readable := by
  cases reg with
  | number n => exact readReg_number hn rest
  | patch p => exact readReg_patch hn rest

theorem Encoding.PatchRegister.short {p : PatchRegister} (h : p.Readable) : p.numeral.length < 65536 := by
  unfold PatchRegister.Readable at h
  split at h
  · exact lt_of_unsignedBytes h.2 le_rfl
  · exact lt_of_unsignedBytes h.2 le_rfl
  · exact lt_of_unsignedBytes h.le (by norm_num)
  · exact lt_of_unsignedBytes h.le (by norm_num)
  · exact lt_of_unsignedBytes h.le (by norm_num)
  · exact h.elim

theorem Encoding.Register.short {reg : Register} (h : reg.Readable) : reg.numeral.length < 65536 := by
  cases reg with
  | number n => exact lt_of_unsignedBytes h.2.1 (by norm_num)
  | patch p => exact PatchRegister.short h

namespace Encoding

/-! ## Blocks and instructions -/

def Block.Readable (b : Block) : Prop :=
  unsignedBytes b.size.value b.size.length ≤ 4 ∧ ∀ o ∈ b.ops, o.Readable

instance (b : Block) : Decidable b.Readable := inferInstanceAs (Decidable (_ ∧ _))

def Instruction.Readable : Instruction → Prop
  | plain _ _ | advanceLoc _ | restore _ | advanceLoc1 _ | advanceLoc4 _ => True
  | offset _ n => unsignedBytes n.value n.length ≤ 8
  | setLoc _ => False
  | advanceLoc2 delta => delta.toNat < 256
  | register1 _ _ reg => reg.Readable
  | register reg reg2 => reg.Readable ∧ reg2.Readable
  | offsetExtended _ _ | offsetExtendedSf _ _ => False
  | defCfa reg n => reg.Readable ∧ unsignedBytes n.value n.length ≤ 4
  | uleb _ _ n => unsignedBytes n.value n.length ≤ 4
  | defCfaOffsetSf n => n.length ≤ 4
  | defCfaExpression block => block.Readable
  | regBlock _ _ reg block => reg.Readable ∧ block.Readable
  | fixups _ _ reg reg2 index =>
    reg.Readable ∧ reg2.Readable ∧ unsignedBytes index.value index.length ≤ 4

instance (i : Instruction) : Decidable i.Readable := by
  unfold Instruction.Readable; split <;> infer_instance

end Encoding

/-- The bytes a numeral was not moved over, when its length is more than a `usint`: a numeral whose own length
counts as zero. -/
theorem wrapped {n : Numeral} (h : 65536 ≤ n.length) (more : List UInt8) :
    ∃ m : Numeral, (n.bytes ++ more).drop (usint n.length) = m.bytes ++ more ∧ usint m.length = 0 := by
  have hlt : usint n.length < n.length := by
    unfold usint
    omega
  refine ⟨n.dropTo (usint n.length) hlt, ?_, ?_⟩
  · rw [n.bytes_dropTo, List.drop_append_of_le_length (by rw [n.length_bytes]; omega)]
  · rw [n.length_dropTo]
    unfold usint
    omega

/-- Where the reader is after a numeral: behind it, or inside it before a numeral that counts as empty. -/
theorem after_numeral (n : Numeral) (more : List UInt8) :
    n.length < 65536 ∧ (n.bytes ++ more).drop (usint n.length) = more ∧ usint n.length = n.length ∨
      usint n.length < n.length ∧ ∃ m : Numeral, (n.bytes ++ more).drop (usint n.length) = m.bytes ++ more ∧
        usint m.length = 0 := by
  by_cases h : n.length < 65536
  · left
    rw [usint_length h]
    exact ⟨h, List.drop_left' n.length_bytes, rfl⟩
  · right
    refine ⟨?_, wrapped (by omega) more⟩
    unfold usint
    omega

theorem leb128ToUInt_le {n : Numeral} {rest : List UInt8} {v k : Nat} (h : leb128ToUInt (n.bytes ++ rest) = .ok (v, k)) :
    v ≤ n.value := by
  unfold leb128ToUInt at h
  rw [decode_numeral, bind_ok] at h
  obtain ⟨-, -, h⟩ := bind_eq_ok.mp h
  cases h
  rw [leNat_take, leNat_toLE]
  exact (Nat.mod_le _ _).trans (Nat.mod_le _ _)

/-- A numeral that counts as empty is read as zero, if at all. -/
theorem leb128ToUInt_empty {n : Numeral} (hn : usint n.length = 0) {rest : List UInt8} {v k : Nat}
    (h : leb128ToUInt (n.bytes ++ rest) = .ok (v, k)) : v = 0 := by
  have hbytes : usint (unsignedBytes n.value n.length) % 8192 = 0 := by
    unfold usint at *
    unfold unsignedBytes
    rw [if_pos (by omega)]
    omega
  unfold leb128ToUInt at h
  rw [decode_numeral, bind_ok] at h
  obtain ⟨⟨⟩, h4, h⟩ := bind_eq_ok.mp h
  have hzero : usint (unsignedBytes n.value n.length) = 0 := by
    have hsize := assert_ok h4
    dsimp only at hsize
    omega
  cases h
  rw [hzero]
  rfl

/-! ## Reading a block -/

theorem readExprBlock_length {b : Block} {rest : List UInt8} {expr : DwarfExpr}
    (h : readExprBlock (b.bytes ++ rest) = .ok (expr, b.bytes.length)) : b.size.length < 65536 := by
  unfold readExprBlock Block.bytes at h
  rw [List.append_assoc] at h
  obtain ⟨⟨len, k⟩, hlen, h⟩ := bind_eq_ok.mp h
  obtain ⟨e, -, h⟩ := bind_eq_ok.mp h
  have htotal := (Prod.mk.inj (Except.ok.inj h)).2
  have hk := leb128ToUInt_length hlen
  have hle := leb128ToUInt_le hlen
  rw [List.length_append, b.size.length_bytes, ← b.size_eq] at htotal
  apply lt_of_usint_eq
  have hus : usint b.size.length ≤ b.size.length := Nat.mod_le _ _
  omega

/-- A block behind a numeral that is not moved over counts as empty. -/
theorem readExprBlock_empty {n : Numeral} (hn : usint n.length = 0) {more : List UInt8} {expr : DwarfExpr} {k : Nat}
    (h : readExprBlock (n.bytes ++ more) = .ok (expr, k)) : k = 0 := by
  unfold readExprBlock at h
  obtain ⟨⟨len, k'⟩, hlen, h⟩ := bind_eq_ok.mp h
  obtain ⟨e, -, h⟩ := bind_eq_ok.mp h
  have hk := leb128ToUInt_length hlen
  have hv := leb128ToUInt_empty hn hlen
  have htotal := (Prod.mk.inj (Except.ok.inj h)).2
  omega

theorem readExprBlock_iff (b : Block) (rest : List UInt8) :
    (∃ expr, readExprBlock (b.bytes ++ rest) = .ok (expr, b.bytes.length) ∧ ExprInFrame b.ops rest expr) ↔ b.Readable := by
  constructor
  · intro h
    rcases h with ⟨expr, hread, hframe⟩
    have hn := readExprBlock_length hread
    refine ⟨?_, (exprInFrame_iff b.ops rest).mp ⟨expr, hframe⟩⟩
    unfold readExprBlock Block.bytes at hread
    rw [List.append_assoc, leb128ToUInt_numeral hn] at hread
    split at hread
    · assumption
    · cases hread
  · intro h
    obtain ⟨h4, hops⟩ := h
    obtain ⟨expr, hframe⟩ := (exprInFrame_iff b.ops rest).mpr hops
    have hv : b.size.value < 2 ^ 32 := lt_of_lt_of_le (lt_unsignedBytes b.size.value_lt)
      (Nat.pow_le_pow_right (by norm_num) h4)
    have hsize := b.size_eq
    refine ⟨expr, ?_, hframe⟩
    unfold readExprBlock Block.bytes
    rw [List.append_assoc, leb128ToUInt_numeral (lt_of_unsignedBytes h4 (by norm_num)), if_pos h4, bind_ok]
    dsimp only
    rw [List.drop_left' b.size.length_bytes, hsize, parseDwarfExpression_inFrame hframe (by omega), bind_ok,
      List.length_append, b.size.length_bytes]

/-! ## Reading an instruction -/

theorem fdeStep_iff {b : UInt8} {ops rest : List UInt8} {P : Option RegInstruction → Prop} :
    (∃ a, fdeStep (b :: ops ++ rest) = .ok (a, ops.length + 1) ∧ P a) ↔
      ∃ a, parseInstruction b (ops ++ rest) = .ok (a, ops.length) ∧ P a := by
  rw [List.cons_append]
  constructor
  · intro h
    rcases h with ⟨a, hstep, hp⟩
    obtain ⟨⟨instr, k⟩, hinstr, hstep⟩ := bind_eq_ok.mp hstep
    obtain ⟨rfl, hk⟩ := Prod.mk.inj (Except.ok.inj hstep)
    exact ⟨instr, by rw [hinstr, Nat.add_right_cancel hk], hp⟩
  · intro h
    rcases h with ⟨a, hinstr, hp⟩
    refine ⟨a, ?_, hp⟩
    show (parseInstruction b (ops ++ rest) >>= _) = _
    rw [hinstr, bind_ok]

/-- The opcodes with an operand in their low six bits. -/
theorem packed_ofByte (x : Fin 64) :
    CfaOp.ofByte (UInt8.ofNat (0x40 + x)) = .advanceLoc ∧ CfaOp.ofByte (UInt8.ofNat (0x80 + x)) = .offset ∧
      CfaOp.ofByte (UInt8.ofNat (0xc0 + x)) = .restore := by
  revert x
  decide

theorem packed_low (x : Fin 64) :
    (UInt8.ofNat (0x40 + x)).toNat &&& 0x3f = x ∧ (UInt8.ofNat (0x80 + x)).toNat &&& 0x3f = x ∧
      (UInt8.ofNat (0xc0 + x)).toNat &&& 0x3f = x := by
  revert x
  decide

theorem toNat_ofNat_of_lt {v : Nat} (h : v < 2 ^ 64) : (UInt64.ofNat v).toNat = v := by
  rw [UInt64.toNat_ofNat', Nat.mod_eq_of_lt h]

/-- A numeral that decodes to `m` bytes is in their range. -/
theorem value_lt_word {n : Numeral} {m : Nat} (h : unsignedBytes n.value n.length ≤ m) (hm : m ≤ 8) : n.value < 2 ^ 64 :=
  lt_of_lt_of_le (lt_unsignedBytes n.value_lt) (Nat.pow_le_pow_right (by norm_num) (h.trans hm))

/-- An instruction with one numeral that is read into 32 bits. -/
theorem uint_iff (n : Numeral) (rest : List UInt8) :
    (∃ v k, leb128ToUInt (n.bytes ++ rest) = .ok (v, k) ∧ k = n.length ∧ (UInt64.ofNat v).toNat = n.value) ↔
      unsignedBytes n.value n.length ≤ 4 := by
  constructor
  · intro h
    rcases h with ⟨v, k, hread, rfl, -⟩
    rw [leb128ToUInt_numeral (lt_of_usint_eq (leb128ToUInt_length hread))] at hread
    split at hread
    · assumption
    · cases hread
  · intro h
    refine ⟨n.value, n.length, ?_, rfl, toNat_ofNat_of_lt (value_lt_word h (by norm_num))⟩
    rw [leb128ToUInt_numeral (lt_of_unsignedBytes h (by norm_num)), if_pos h]

theorem register1_iff {op : CfaOp} (hop : op = .undefined ∨ op = .sameValue ∨ op = .defCfaRegister) (reg : Register)
    (rest : List UInt8) :
    (∃ a, parseInstruction (UInt8.ofNat op.code) (reg.bytes ++ rest) = .ok (a, reg.bytes.length) ∧
      (Instruction.register1 op hop reg).Means rest a) ↔ reg.Readable := by
  have hlen : reg.bytes.length = reg.numeral.length := reg.numeral.length_bytes
  rw [parse_register1 _ hop, hlen]
  constructor
  · intro h
    rcases h with ⟨a, hread, hmeans⟩
    obtain ⟨⟨r, k⟩, hr, hread⟩ := bind_eq_ok.mp hread
    obtain ⟨rfl, rfl⟩ := Prod.mk.inj (Except.ok.inj hread)
    exact (Register.read_iff (lt_of_usint_eq (readReg_length hr)) rest).mp ⟨r, hr, hmeans.2⟩
  · intro h
    obtain ⟨r, hr, hmeans⟩ := (Register.read_iff (Register.short h) rest).mpr h
    refine ⟨some { RegInstruction.blank op with arg1Reg := r }, ?_, rfl, hmeans⟩
    rw [hr, bind_ok]

/-- A register's numeral is read in full, or the operand behind it counts as empty. -/
theorem after_readReg {n : Numeral} {more : List UInt8} {r : PoReg} {k : Nat}
    (h : readRegFromLEB128 (n.bytes ++ more) = .ok (r, k)) :
    n.length < 65536 ∧ (n.bytes ++ more).drop k = more ∧ k = n.length ∨
      k < n.length ∧ ∃ m : Numeral, (n.bytes ++ more).drop k = m.bytes ++ more ∧ usint m.length = 0 := by
  rw [readReg_length h]
  exact after_numeral n more

theorem Encoding.Register.after_read {reg : Register} {more : List UInt8} {r : PoReg} {k : Nat}
    (h : readRegFromLEB128 (reg.bytes ++ more) = .ok (r, k)) :
    reg.numeral.length < 65536 ∧ (reg.bytes ++ more).drop k = more ∧ k = reg.numeral.length ∨
      k < reg.numeral.length ∧ ∃ m : Numeral, (reg.bytes ++ more).drop k = m.bytes ++ more ∧ usint m.length = 0 :=
  after_readReg h

theorem register_iff (reg reg2 : Register) (rest : List UInt8) :
    (∃ a, parseInstruction (UInt8.ofNat CfaOp.register.code) ((reg.bytes ++ reg2.bytes) ++ rest) =
        .ok (a, (reg.bytes ++ reg2.bytes).length) ∧ (Instruction.register reg reg2).Means rest a) ↔
      reg.Readable ∧ reg2.Readable := by
  have hlen : reg.bytes.length = reg.numeral.length := reg.numeral.length_bytes
  have hlen2 : reg2.bytes.length = reg2.numeral.length := reg2.numeral.length_bytes
  rw [parse_register2 _ rfl, List.append_assoc, List.length_append, hlen, hlen2]
  constructor
  · intro h
    rcases h with ⟨a, hread, hmeans⟩
    obtain ⟨⟨r, k⟩, hr, hread⟩ := bind_eq_ok.mp hread
    obtain ⟨⟨r2, k2⟩, hr2, hread⟩ := bind_eq_ok.mp hread
    obtain ⟨rfl, hk⟩ := Prod.mk.inj (Except.ok.inj hread)
    rcases Register.after_read hr with ⟨hn, hdrop, rfl⟩ | ⟨hlt, m, hdrop, hm⟩
    · rw [hdrop] at hr2
      obtain rfl : k2 = reg2.numeral.length := by omega
      exact ⟨(Register.read_iff hn _).mp ⟨r, hr, hmeans.2.1⟩,
        (Register.read_iff (lt_of_usint_eq (readReg_length hr2)) rest).mp ⟨r2, hr2, hmeans.2.2⟩⟩
    · rw [hdrop] at hr2
      have hk2 := readReg_length hr2
      omega
  · intro h
    obtain ⟨r, hr, hmeans⟩ := (Register.read_iff (Register.short h.1) (reg2.bytes ++ rest)).mpr h.1
    obtain ⟨r2, hr2, hmeans2⟩ := (Register.read_iff (Register.short h.2) rest).mpr h.2
    refine ⟨some { RegInstruction.blank .register with arg1Reg := r, arg2Reg := r2 }, ?_, rfl, hmeans, hmeans2⟩
    rw [hr, bind_ok]
    dsimp only
    rw [List.drop_left' hlen, hr2, bind_ok]

theorem defCfa_iff (reg : Register) (n : Numeral) (rest : List UInt8) :
    (∃ a, parseInstruction (UInt8.ofNat CfaOp.defCfa.code) ((reg.bytes ++ n.bytes) ++ rest) =
        .ok (a, (reg.bytes ++ n.bytes).length) ∧ (Instruction.defCfa reg n).Means rest a) ↔
      reg.Readable ∧ unsignedBytes n.value n.length ≤ 4 := by
  have hlen : reg.bytes.length = reg.numeral.length := reg.numeral.length_bytes
  rw [parse_defCfa _ rfl, List.append_assoc, List.length_append, hlen, n.length_bytes]
  constructor
  · intro h
    rcases h with ⟨a, hread, hmeans⟩
    obtain ⟨⟨r, k⟩, hr, hread⟩ := bind_eq_ok.mp hread
    obtain ⟨⟨v, k2⟩, hv, hread⟩ := bind_eq_ok.mp hread
    obtain ⟨rfl, hk⟩ := Prod.mk.inj (Except.ok.inj hread)
    rcases Register.after_read hr with ⟨hn, hdrop, rfl⟩ | ⟨hlt, m, hdrop, hm⟩
    · rw [hdrop] at hv
      obtain rfl : k2 = n.length := by omega
      exact ⟨(Register.read_iff hn _).mp ⟨r, hr, hmeans.2.1⟩, (uint_iff n rest).mp ⟨v, _, hv, rfl, hmeans.2.2⟩⟩
    · rw [hdrop] at hv
      have hk2 := leb128ToUInt_length hv
      omega
  · intro h
    obtain ⟨r, hr, hmeans⟩ := (Register.read_iff (Register.short h.1) (n.bytes ++ rest)).mpr h.1
    obtain ⟨v, k, hv, rfl, hvalue⟩ := (uint_iff n rest).mpr h.2
    refine ⟨some { RegInstruction.blank .defCfa with arg1Reg := r, arg2 := UInt64.ofNat v }, ?_, rfl, hmeans, hvalue⟩
    rw [hr, bind_ok]
    dsimp only
    rw [List.drop_left' hlen, hv, bind_ok]

theorem regBlock_iff {op : CfaOp} (hop : op = .expression ∨ op = .valExpression) (reg : Register) (block : Block)
    (rest : List UInt8) :
    (∃ a, parseInstruction (UInt8.ofNat op.code) ((reg.bytes ++ block.bytes) ++ rest) =
        .ok (a, (reg.bytes ++ block.bytes).length) ∧ (Instruction.regBlock op hop reg block).Means rest a) ↔
      reg.Readable ∧ block.Readable := by
  have hlen : reg.bytes.length = reg.numeral.length := reg.numeral.length_bytes
  rw [parse_regBlock _ hop, List.append_assoc, List.length_append, hlen]
  constructor
  · intro h
    rcases h with ⟨a, hread, hmeans⟩
    obtain ⟨⟨r, k⟩, hr, hread⟩ := bind_eq_ok.mp hread
    obtain ⟨⟨expr, k2⟩, hblock, hread⟩ := bind_eq_ok.mp hread
    obtain ⟨rfl, hk⟩ := Prod.mk.inj (Except.ok.inj hread)
    rcases Register.after_read hr with ⟨hn, hdrop, rfl⟩ | ⟨hlt, m, hdrop, hm⟩
    · rw [hdrop] at hblock
      obtain rfl : k2 = block.bytes.length := by omega
      exact ⟨(Register.read_iff hn _).mp ⟨r, hr, hmeans.2.1⟩, (readExprBlock_iff block rest).mp ⟨expr, hblock, hmeans.2.2⟩⟩
    · rw [hdrop] at hblock
      have hk2 := readExprBlock_empty hm hblock
      omega
  · intro h
    obtain ⟨r, hr, hmeans⟩ := (Register.read_iff (Register.short h.1) (block.bytes ++ rest)).mpr h.1
    obtain ⟨expr, hblock, hframe⟩ := (readExprBlock_iff block rest).mpr h.2
    refine ⟨some { RegInstruction.blank op with arg1Reg := r, expr }, ?_, rfl, hmeans, hframe⟩
    rw [hr, bind_ok]
    dsimp only
    rw [List.drop_left' hlen, hblock, bind_ok]

theorem parse_fixups {op : CfaOp} (h : op = .katanaFixups ∨ op = .katanaFixupsPointer) (p : List UInt8) :
    parseInstruction (UInt8.ofNat op.code) p = (do
      let (arg1Reg, uleblen) ← readPoReg p
      let (arg2Reg, uleblen2) ← readPoReg (p.drop uleblen)
      let (arg3, uleblen3) ← leb128ToUInt (p.drop (uleblen + uleblen2))
      .ok (some { RegInstruction.blank op with arg1Reg, arg2Reg, arg3 := UInt64.ofNat arg3 },
        uleblen + uleblen2 + uleblen3)) := by
  rcases h with rfl | rfl
  · rfl
  · rfl

theorem fixups_iff {op : CfaOp} (hop : op = .katanaFixups ∨ op = .katanaFixupsPointer) (reg reg2 : PatchRegister)
    (index : Numeral) (rest : List UInt8) :
    (∃ a, parseInstruction (UInt8.ofNat op.code) ((reg.numeral.bytes ++ reg2.numeral.bytes ++ index.bytes) ++ rest) =
        .ok (a, (reg.numeral.bytes ++ reg2.numeral.bytes ++ index.bytes).length) ∧
        (Instruction.fixups op hop reg reg2 index).Means rest a) ↔
      reg.Readable ∧ reg2.Readable ∧ unsignedBytes index.value index.length ≤ 4 := by
  rw [parse_fixups hop, List.append_assoc, List.append_assoc, List.length_append, List.length_append, Numeral.length_bytes,
    Numeral.length_bytes, Numeral.length_bytes]
  constructor
  · intro h
    rcases h with ⟨a, hread, hmeans⟩
    obtain ⟨⟨r, k⟩, hr, hread⟩ := bind_eq_ok.mp hread
    obtain ⟨⟨r2, k2⟩, hr2, hread⟩ := bind_eq_ok.mp hread
    obtain ⟨⟨v, k3⟩, hv, hread⟩ := bind_eq_ok.mp hread
    obtain ⟨rfl, hk⟩ := Prod.mk.inj (Except.ok.inj hread)
    rw [← List.drop_drop] at hv
    have hr := readPoReg_ok hr
    have hr2 := readPoReg_ok hr2
    rcases after_readReg hr with ⟨hn, hdrop, rfl⟩ | ⟨hlt, m, hdrop, hm⟩
    · rw [hdrop] at hr2 hv
      rcases after_readReg hr2 with ⟨hn2, hdrop2, rfl⟩ | ⟨hlt2, m, hdrop2, hm⟩
      · rw [hdrop2] at hv
        obtain rfl : k3 = index.length := by omega
        exact ⟨(readReg_patch hn _).mp ⟨r, hr, hmeans.2.1⟩, (readReg_patch hn2 _).mp ⟨r2, hr2, hmeans.2.2.1⟩,
          (uint_iff index rest).mp ⟨v, _, hv, rfl, hmeans.2.2.2⟩⟩
      · rw [hdrop2] at hv
        have hk3 := leb128ToUInt_length hv
        omega
    · -- the second register is read inside the first, without moving on
      rw [hdrop] at hr2 hv
      have hk2 := readReg_length hr2
      rw [hm] at hk2
      subst hk2
      rw [List.drop_zero] at hv
      have hk3 := leb128ToUInt_length hv
      omega
  · intro h
    rcases h with ⟨h1, h2, h3⟩
    obtain ⟨r, hr, hmeans⟩ := (readReg_patch (PatchRegister.short h1) (reg2.numeral.bytes ++ (index.bytes ++ rest))).mpr h1
    obtain ⟨r2, hr2, hmeans2⟩ := (readReg_patch (PatchRegister.short h2) (index.bytes ++ rest)).mpr h2
    obtain ⟨v, k, hv, rfl, hvalue⟩ := (uint_iff index rest).mpr h3
    refine ⟨some { RegInstruction.blank op with arg1Reg := r, arg2Reg := r2, arg3 := UInt64.ofNat v }, ?_, rfl, hmeans,
      hmeans2, hvalue⟩
    rw [readPoReg_patch, hr, bind_ok]
    dsimp only
    rw [List.drop_left' reg.numeral.length_bytes, readPoReg_patch, hr2, bind_ok]
    dsimp only
    rw [← List.drop_drop, List.drop_left' reg.numeral.length_bytes, List.drop_left' reg2.numeral.length_bytes, hv, bind_ok,
      Nat.add_assoc]

theorem readLE_wider {k w : Nat} (h : k ≤ w) (x : Nat) (rest : List UInt8) :
    readLE k (toLE w x ++ rest) = .ok (x % 256 ^ k) := by
  obtain ⟨j, rfl⟩ := Nat.exists_eq_add_of_le h
  rw [toLE_append, List.append_assoc]
  exact readLE_toLE k x _

/-- The opcodes whose operand is copied: how many of its bytes are read, and how many are taken. -/
theorem parse_fixed {op : CfaOp} {k j : Nat}
    (h : op = .setLoc ∧ k = 4 ∧ j = 4 ∨ op = .advanceLoc1 ∧ k = 1 ∧ j = 1 ∨ op = .advanceLoc2 ∧ k = 1 ∧ j = 2 ∨
      op = .advanceLoc4 ∧ k = 4 ∧ j = 4) {w : Nat} (hk : k ≤ w) (x : Nat) (rest : List UInt8) :
    parseInstruction (UInt8.ofNat op.code) (toLE w x ++ rest) =
      .ok (some { RegInstruction.blank op with arg1 := UInt64.ofNat (x % 256 ^ k) }, j) := by
  have hread := readLE_wider hk x rest
  rcases h with ⟨rfl, rfl, rfl⟩ | ⟨rfl, rfl, rfl⟩ | ⟨rfl, rfl, rfl⟩ | ⟨rfl, rfl, rfl⟩
  · show (readLE 4 _ >>= _) = _
    rw [hread, bind_ok]
    rfl
  · show (readLE 1 _ >>= _) = _
    rw [hread, bind_ok]
    rfl
  · show (readLE 1 _ >>= _) = _
    rw [hread, bind_ok]
    rfl
  · show (readLE 4 _ >>= _) = _
    rw [hread, bind_ok]
    rfl

theorem advanceLoc2_iff (delta : UInt16) (rest : List UInt8) :
    (∃ a, parseInstruction (UInt8.ofNat CfaOp.advanceLoc2.code) (toLE 2 delta.toNat ++ rest) =
      .ok (a, (toLE 2 delta.toNat).length) ∧ (Instruction.advanceLoc2 delta).Means rest a) ↔ delta.toNat < 256 := by
  have hlt := delta.toNat_lt
  rw [parse_fixed (.inr (.inr (.inl ⟨rfl, rfl, rfl⟩))) (by norm_num), length_toLE]
  constructor
  · intro h
    rcases h with ⟨a, hread, hmeans⟩
    obtain ⟨rfl, -⟩ := Prod.mk.inj (Except.ok.inj hread)
    have hvalue : (UInt64.ofNat (delta.toNat % 256 ^ 1)).toNat = delta.toNat := hmeans.2
    rw [toNat_ofNat_of_lt (by omega)] at hvalue
    omega
  · intro h
    refine ⟨_, rfl, rfl, ?_⟩
    show (UInt64.ofNat (delta.toNat % 256 ^ 1)).toNat = delta.toNat
    rw [Nat.mod_eq_of_lt (by omega)]
    exact toNat_ofNat_of_lt (by omega)

theorem offset_iff (reg : Fin 64) (n : Numeral) (rest : List UInt8) :
    (∃ a, parseInstruction (UInt8.ofNat (0x80 + reg)) (n.bytes ++ rest) = .ok (a, n.bytes.length) ∧
      (Instruction.offset reg n).Means rest a) ↔ unsignedBytes n.value n.length ≤ 8 := by
  obtain ⟨-, hop, -⟩ := packed_ofByte reg
  obtain ⟨-, hlow, -⟩ := packed_low reg
  rw [parse_offset _ hop, hlow, n.length_bytes]
  constructor
  · intro h
    rcases h with ⟨a, hread, -⟩
    obtain ⟨⟨v, k⟩, hv, hread⟩ := bind_eq_ok.mp hread
    obtain ⟨-, rfl⟩ := Prod.mk.inj (Except.ok.inj hread)
    rw [leb128ToUWord_numeral (lt_of_usint_eq (leb128ToUWord_length hv))] at hv
    split at hv
    · assumption
    · cases hv
  · intro h
    refine ⟨some { RegInstruction.blank .offset with
      arg1 := UInt64.ofNat reg, arg1Reg := .basic (Int32.ofNat reg), arg2 := UInt64.ofNat n.value }, ?_, rfl, rfl,
      toNat_ofNat_of_lt (value_lt_word h le_rfl)⟩
    rw [leb128ToUWord_numeral (lt_of_unsignedBytes h (by norm_num)), if_pos h, bind_ok]

theorem uleb_iff {op : CfaOp} (hop : op = .defCfaOffset ∨ op = .gnuArgsSize) (n : Numeral) (rest : List UInt8) :
    (∃ a, parseInstruction (UInt8.ofNat op.code) (n.bytes ++ rest) = .ok (a, n.bytes.length) ∧
      (Instruction.uleb op hop n).Means rest a) ↔ unsignedBytes n.value n.length ≤ 4 := by
  rw [parse_uleb _ hop, n.length_bytes]
  constructor
  · intro h
    rcases h with ⟨a, hread, hmeans⟩
    obtain ⟨⟨v, k⟩, hv, hread⟩ := bind_eq_ok.mp hread
    obtain ⟨rfl, rfl⟩ := Prod.mk.inj (Except.ok.inj hread)
    exact (uint_iff n rest).mp ⟨v, _, hv, rfl, hmeans.2⟩
  · intro h
    obtain ⟨v, k, hv, rfl, hvalue⟩ := (uint_iff n rest).mpr h
    refine ⟨some { RegInstruction.blank op with arg1 := UInt64.ofNat v }, ?_, rfl, hvalue⟩
    rw [hv, bind_ok]

theorem signedWord_ofInt {z : Int} (hlo : -2 ^ 63 ≤ z) (hhi : z < 2 ^ 63) : signedWord (UInt64.ofInt z) = z := by
  have hword : ((UInt64.ofInt z).toNat : Int) = z % 2 ^ 64 := by
    have h0 := Int.emod_nonneg z (show (2 : Int) ^ 64 ≠ 0 by norm_num)
    have h1 := Int.emod_lt_of_pos z (show (0 : Int) < 2 ^ 64 by norm_num)
    show (((UInt64.ofNat (z % 2 ^ 64).toNat)).toNat : Int) = _
    rw [toNat_ofNat_of_lt (by omega)]
    exact Int.toNat_of_nonneg h0
  unfold signedWord
  rw [hword, show ((2 : Int) ^ 64) = ((2 ^ 64 : Nat) : Int) by norm_num, Int.emod_bmod]
  exact Int.bmod_eq_of_le (by norm_num; omega) (by norm_num; omega)

theorem defCfaOffsetSf_iff (n : Numeral) (rest : List UInt8) :
    (∃ a, parseInstruction (UInt8.ofNat CfaOp.defCfaOffsetSf.code) (n.bytes ++ rest) = .ok (a, n.bytes.length) ∧
      (Instruction.defCfaOffsetSf n).Means rest a) ↔ n.length ≤ 4 := by
  rw [parse_sleb _ rfl, n.length_bytes]
  constructor
  · intro h
    rcases h with ⟨a, hread, -⟩
    obtain ⟨⟨v, k⟩, hv, hread⟩ := bind_eq_ok.mp hread
    obtain ⟨-, rfl⟩ := Prod.mk.inj (Except.ok.inj hread)
    rw [leb128ToInt_numeral (lt_of_usint_eq (leb128ToInt_length hv))] at hv
    split at hv
    · assumption
    · cases hv
  · intro h
    obtain ⟨hlo, hhi⟩ := signedValue_range h
    refine ⟨some { RegInstruction.blank .defCfaOffsetSf with arg1 := UInt64.ofInt n.signedValue }, ?_, rfl,
      signedWord_ofInt (by norm_num at *; omega) (by norm_num at *; omega)⟩
    rw [leb128ToInt_numeral (by omega), if_pos h, bind_ok]

theorem block_iff (block : Block) (rest : List UInt8) :
    (∃ a, parseInstruction (UInt8.ofNat CfaOp.defCfaExpression.code) (block.bytes ++ rest) = .ok (a, block.bytes.length) ∧
      (Instruction.defCfaExpression block).Means rest a) ↔ block.Readable := by
  rw [parse_block _ rfl, ← readExprBlock_iff block rest]
  constructor
  · intro h
    rcases h with ⟨a, hread, hmeans⟩
    obtain ⟨⟨expr, k⟩, hblock, hread⟩ := bind_eq_ok.mp hread
    obtain ⟨rfl, rfl⟩ := Prod.mk.inj (Except.ok.inj hread)
    exact ⟨expr, hblock, hmeans.2⟩
  · intro h
    rcases h with ⟨expr, hblock, hframe⟩
    refine ⟨some { RegInstruction.blank .defCfaExpression with expr }, ?_, rfl, hframe⟩
    rw [hblock, bind_ok]

/-- The reader never moves over the second operand of an extended offset. -/
theorem extended_short {op : CfaOp} (hop : op = .offsetExtended ∨ op = .offsetExtendedSf) (reg : Register) (n : Numeral)
    (rest : List UInt8) (a : Option RegInstruction) :
    parseInstruction (UInt8.ofNat op.code) ((reg.bytes ++ n.bytes) ++ rest) ≠ .ok (a, (reg.bytes ++ n.bytes).length) := by
  have hlen : reg.bytes.length = reg.numeral.length := reg.numeral.length_bytes
  have hpos := n.length_pos
  have hle : usint reg.numeral.length ≤ reg.numeral.length := Nat.mod_le _ _
  intro hread
  rw [List.length_append, hlen, n.length_bytes, List.append_assoc] at hread
  rcases hop with rfl | rfl
  · rw [parse_offsetExtended _ rfl] at hread
    obtain ⟨⟨r, k⟩, hr, hread⟩ := bind_eq_ok.mp hread
    obtain ⟨⟨v, k2⟩, -, hread⟩ := bind_eq_ok.mp hread
    have hk := (Prod.mk.inj (Except.ok.inj hread)).2
    have hreg := readReg_length (n := reg.numeral) hr
    omega
  · rw [parse_offsetExtendedSf _ rfl] at hread
    obtain ⟨⟨r, k⟩, hr, hread⟩ := bind_eq_ok.mp hread
    obtain ⟨⟨v, k2⟩, -, hread⟩ := bind_eq_ok.mp hread
    have hk := (Prod.mk.inj (Except.ok.inj hread)).2
    have hreg := readReg_length (n := reg.numeral) hr
    omega

/-- **An instruction is read as itself and with its own bytes exactly when it is readable**, whatever is behind it. -/
theorem fdeStep_means_iff (i : Instruction) (rest : List UInt8) :
    (∃ a, fdeStep (i.bytes ++ rest) = .ok (a, i.bytes.length) ∧ i.Means rest a) ↔ i.Readable := by
  rw [Instruction.bytes, List.length_cons, fdeStep_iff]
  cases i with
  | plain op h =>
    refine ⟨fun _ => trivial, fun _ => ?_⟩
    rcases h with rfl | h
    · exact ⟨none, rfl, rfl⟩
    · refine ⟨some (.blank op), parse_plain _ h, rfl, ?_⟩
      show op ≠ .nop
      rcases h with rfl | rfl
      · decide
      · decide
  | advanceLoc delta =>
    obtain ⟨hop, -, -⟩ := packed_ofByte delta
    obtain ⟨hlow, -, -⟩ := packed_low delta
    refine ⟨fun _ => trivial, fun _ => ⟨_, @parse_packed (UInt8.ofNat (0x40 + delta)) (.inl hop) _, hop, ?_⟩⟩
    show (UInt64.ofNat (_ &&& 0x3f)).toNat = delta
    rw [hlow]
    exact toNat_ofNat_of_lt (by omega)
  | restore reg =>
    obtain ⟨-, -, hop⟩ := packed_ofByte reg
    obtain ⟨-, -, hlow⟩ := packed_low reg
    refine ⟨fun _ => trivial, fun _ => ⟨_, @parse_packed (UInt8.ofNat (0xc0 + reg)) (.inr hop) _, hop, ?_⟩⟩
    show PoReg.basic (Int32.ofNat (_ &&& 0x3f)) = _
    rw [hlow]
  | offset reg n => exact offset_iff reg n rest
  | setLoc address =>
    -- four of the eight bytes are taken
    refine ⟨fun h => ?_, fun h => h.elim⟩
    rcases h with ⟨a, hread, -⟩
    have hfixed := parse_fixed (.inl ⟨rfl, rfl, rfl⟩) (show 4 ≤ 8 by norm_num) address.toNat rest
    have hk := (Prod.mk.inj (Except.ok.inj (hfixed.symm.trans hread))).2
    rw [show (Instruction.setLoc address).operands = toLE 8 address.toNat from rfl, length_toLE] at hk
    omega
  | advanceLoc1 delta =>
    have hlt := delta.toNat_lt
    refine ⟨fun _ => trivial, fun _ => ⟨_, parse_fixed (.inr (.inl ⟨rfl, rfl, rfl⟩)) le_rfl delta.toNat rest, rfl, ?_⟩⟩
    show (UInt64.ofNat (delta.toNat % 256 ^ 1)).toNat = delta.toNat
    rw [Nat.mod_eq_of_lt (by omega)]
    exact toNat_ofNat_of_lt (by omega)
  | advanceLoc2 delta => exact advanceLoc2_iff delta rest
  | advanceLoc4 delta =>
    have hlt := delta.toNat_lt
    refine ⟨fun _ => trivial, fun _ =>
      ⟨_, parse_fixed (.inr (.inr (.inr ⟨rfl, rfl, rfl⟩))) le_rfl delta.toNat rest, rfl, ?_⟩⟩
    show (UInt64.ofNat (delta.toNat % 256 ^ 4)).toNat = delta.toNat
    rw [Nat.mod_eq_of_lt (by omega)]
    exact toNat_ofNat_of_lt (by omega)
  | register1 op h reg => exact register1_iff h reg rest
  | register reg reg2 => exact register_iff reg reg2 rest
  | offsetExtended reg n =>
    refine ⟨fun h => ?_, fun h => h.elim⟩
    rcases h with ⟨a, hread, -⟩
    exact extended_short (.inl rfl) reg n rest a hread
  | offsetExtendedSf reg n =>
    refine ⟨fun h => ?_, fun h => h.elim⟩
    rcases h with ⟨a, hread, -⟩
    exact extended_short (.inr rfl) reg n rest a hread
  | defCfa reg n => exact defCfa_iff reg n rest
  | uleb op h n => exact uleb_iff h n rest
  | defCfaOffsetSf n => exact defCfaOffsetSf_iff n rest
  | defCfaExpression block => exact block_iff block rest
  | regBlock op h reg block => exact regBlock_iff h reg block rest
  | fixups op h reg reg2 index => exact fixups_iff h reg reg2 index rest

/-! ## Whole codes -/

namespace Encoding

/-- The reader takes the code instruction by instruction, each step the bytes of its own instruction, and returns
exactly the instructions that are no `nop`s, with their operands. -/
def DecodedInFrame (code : List Instruction) (rest : List UInt8) : Prop :=
  ∃ read, FDEInFrame code rest read ∧
    parseFDEInstructions (code.flatMap Instruction.bytes ++ rest) (code.flatMap Instruction.bytes).length =
      .ok (read.reduceOption, rest)

end Encoding

/-- **A code is decoded in frame exactly when each of its instructions is readable.** -/
theorem decodedInFrame_iff (code : List Instruction) (rest : List UInt8) :
    DecodedInFrame code rest ↔ ∀ i ∈ code, i.Readable := by
  rw [← inFrame_iff fdeStep_means_iff code rest]
  constructor
  · intro h
    rcases h with ⟨read, hframe, -⟩
    exact ⟨read, hframe⟩
  · intro h
    rcases h with ⟨read, hframe⟩
    exact ⟨read, hframe, parseFDEInstructions_inFrame hframe⟩

/-- `DW_CFA_offset_extended r0, 10` is read as an extended offset and a `DW_CFA_remember_state`. -/
theorem not_decodedInFrame : ¬ ∀ code rest, DecodedInFrame code rest := by
  intro h
  obtain ⟨read, hframe, -⟩ := h [.offsetExtended (.number (.ofNat 0)) (.ofNat 10)] []
  have hstep : fdeStep [0x05, 0x00, 0x0a] =
      .ok (some { RegInstruction.blank .offsetExtended with arg1Reg := .basic 0, arg2 := 10 }, 2) := by decide +kernel
  cases hframe with
  | cons hread _ _ =>
    have hcode : Instruction.bytes (.offsetExtended (.number (.ofNat 0)) (.ofNat 10)) = [0x05, 0x00, 0x0a] := by
      decide +kernel
    rw [hcode] at hread
    have hk := (Prod.mk.inj (Except.ok.inj (hstep.symm.trans hread))).2
    cases hk

example : parseFDEInstructions [0x05, 0x00, 0x0a] 3 =
    .ok ([{ RegInstruction.blank .offsetExtended with arg1Reg := .basic 0, arg2 := 10 }, .blank .rememberState], []) := by
  decide +kernel

end Katana
