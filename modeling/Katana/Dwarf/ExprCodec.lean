/-
  Katana.Dwarf.ExprCodec — which DWARF expressions come back from their encoded block.

  The encoder writes, for each operation, its opcode and the low bytes of its operand; the decoder
  has its own list of operand shapes. They differ in three places: a signed LEB operand is decoded
  into a zeroed word without being extended, `DW_OP_bregx` has no decoder case, and the block's
  byte count is kept in a `usint`.

  Proved, for every expression:
  - `encodeFormBlock_ok`: the bytes of a block the encoder accepts.
  - `parseDwarfOperand_operandBytes`: an operand the decoder accepts is read in full, and it is the
    one written exactly when the operation is `Faithful`.
  - `readExprBlock_faithful` / `faithful_of_readExprBlock`: a block is read back exactly when every
    operation is faithful and the byte count fits.
-/
import Katana.Dwarf.FdeRead

namespace Katana

open Lib

/-! ## The operands of an operation -/

namespace DwarfExprInstr

def operands (instr : DwarfExprInstr) : List UInt64 :=
  match instr.type.encodeShape with
  | some .none | Option.none => []
  | some .ulebSleb => [instr.arg1, instr.arg2]
  | some _ => [instr.arg1]

def Same (a b : DwarfExprInstr) : Prop := a.type = b.type ∧ a.operands = b.operands

instance (a b : DwarfExprInstr) : Decidable (Same a b) := inferInstanceAs (Decidable (_ ∧ _))

/-- The operand as a signed word. -/
def signedArg (instr : DwarfExprInstr) : Int := Int.bmod instr.arg1.toNat (2 ^ 64)

/-- The operand is one the decoder gives back: in the range of its format, and for a signed LEB, whose
bytes are not extended, positive or filling the word. -/
def Faithful (instr : DwarfExprInstr) : Prop :=
  match instr.type.decodeShape with
  | some .none | some .uleb => True
  | some (.unsigned k) => instr.arg1.toNat < 256 ^ k
  | some (.signed k) => -(256 ^ k : Int) ≤ 2 * instr.signedArg ∧ 2 * instr.signedArg < 256 ^ k
  | some .sleb =>
    0 ≤ instr.signedArg ∧ instr.signedArg < 2 ^ 62 ∨ -2 ^ 62 ≤ instr.signedArg ∧ instr.signedArg < -2 ^ 55
  | Option.none => False

instance (instr : DwarfExprInstr) : Decidable instr.Faithful := by
  unfold Faithful; split <;> infer_instance

/-- The bytes written after the opcode. -/
def operandBytes (instr : DwarfExprInstr) : List UInt8 :=
  match instr.type.encodeShape with
  | some .none | Option.none => []
  | some (.bytes k) => toLE k instr.arg1.toNat
  | some .uleb => uleb instr.arg1.toNat
  | some .sleb => sleb instr.signedArg
  | some .ulebSleb => uleb instr.arg1.toNat ++ sleb (Int.bmod instr.arg2.toNat (2 ^ 64))

def bytes (instr : DwarfExprInstr) : List UInt8 := UInt8.ofNat instr.type.code :: instr.operandBytes

end DwarfExprInstr

open DwarfExprInstr

def exprBytes (expr : DwarfExpr) : List UInt8 := expr.flatMap DwarfExprInstr.bytes

/-! ## Encoding -/

theorem encodeWord_unsigned (x : UInt64) : encodeAsLEB128 (toLE 8 x.toNat) false = uleb x.toNat :=
  encodeAsLEB128_toLE (by norm_num) (by norm_num) x.toNat_lt

theorem encodeWord_signed (x : UInt64) : encodeAsLEB128 (toLE 8 x.toNat) true = sleb (Int.bmod x.toNat (2 ^ 64)) :=
  encodeAsLEB128_toLE_signed (by norm_num) (by norm_num)

theorem encodeDwarfExprInstr_ok {instr : DwarfExprInstr} {buf buf' : GrowingBuffer}
    (h : encodeDwarfExprInstr instr buf = .ok buf') :
    instr.type.encodeShape ≠ Option.none ∧ buf'.data = buf.data ++ instr.bytes := by
  unfold encodeDwarfExprInstr at h
  obtain ⟨b1, h1, h⟩ := bind_eq_ok.mp h
  have hd := addToGrowingBuffer_ok h1
  unfold bytes operandBytes
  cases hs : instr.type.encodeShape with
  | none =>
    rw [hs] at h
    cases h
  | some shape =>
    rw [hs] at h
    refine ⟨by simp, ?_⟩
    cases shape with
    | none =>
      cases h
      exact hd
    | bytes k => rw [addToGrowingBuffer_ok h, hd]; exact List.append_assoc _ _ _
    | uleb => rw [addToGrowingBuffer_ok h, hd, encodeWord_unsigned]; exact List.append_assoc _ _ _
    | sleb =>
      have hz : encodeAsLEB128 (toLE 8 instr.arg1.toNat) true = sleb instr.signedArg := encodeWord_signed _
      rw [addToGrowingBuffer_ok h, hd, hz, List.append_assoc, List.singleton_append]
    | ulebSleb =>
      obtain ⟨b2, h2, h⟩ := bind_eq_ok.mp h
      rw [addToGrowingBuffer_ok h, addToGrowingBuffer_ok h2, hd, encodeWord_unsigned, encodeWord_signed,
        List.append_assoc, List.append_assoc, List.singleton_append]

/-- An operand that is encoded takes at most ten bytes. -/
theorem encodeWord_length (x : UInt64) (signed : Bool) : (encodeAsLEB128 (toLE 8 x.toNat) signed).length ≤ 10 := by
  cases signed with
  | false =>
    rw [encodeWord_unsigned, length_uleb, ulebLen_le_iff (by norm_num)]
    exact lt_of_lt_of_le x.toNat_lt (by norm_num)
  | true =>
    rw [encodeWord_signed, length_sleb, slebLen_le_iff (by norm_num)]
    unfold FitsSeptets
    have hlo := Int.le_bmod (x := x.toNat) (m := 2 ^ 64) (by norm_num)
    have hhi := Int.bmod_lt (x := x.toNat) (m := 2 ^ 64) (by norm_num)
    norm_num at hlo hhi ⊢
    omega

theorem encodeShape_bytes_le {op : DwOp} {k : Nat} (h : op.encodeShape = some (.bytes k)) : k ≤ 8 := by
  cases op <;> simp [DwOp.encodeShape] at h <;> omega

theorem encodeDwarfExprInstr_total {instr : DwarfExprInstr} {buf : GrowingBuffer}
    (hs : instr.type.encodeShape ≠ Option.none) (hbuf : buf.len < 2 ^ 29) :
    ∃ buf', encodeDwarfExprInstr instr buf = .ok buf' := by
  have hadd (data : List UInt8) (b : GrowingBuffer) (hdata : data.length ≤ 10) (hb : b.len < 2 ^ 29 + 11) :
      ∃ b', addToGrowingBuffer b data = .ok b' := addToGrowingBuffer_total (by omega)
  obtain ⟨b1, h1⟩ := hadd [UInt8.ofNat instr.type.code] buf (by simp) (by omega)
  have hlen : b1.len = buf.len + 1 := by simp [GrowingBuffer.len, addToGrowingBuffer_ok h1]
  unfold encodeDwarfExprInstr
  rw [h1, bind_ok]
  cases hshape : instr.type.encodeShape with
  | none => exact absurd hshape hs
  | some shape =>
    cases shape with
    | none => exact ⟨b1, rfl⟩
    | bytes k =>
      have hk := encodeShape_bytes_le hshape
      exact hadd _ _ (by rw [length_toLE]; omega) (by omega)
    | uleb => exact hadd _ _ (encodeWord_length _ _) (by omega)
    | sleb => exact hadd _ _ (encodeWord_length _ _) (by omega)
    | ulebSleb =>
      have hword := encodeWord_length instr.arg1 false
      obtain ⟨b2, h2⟩ := hadd _ b1 hword (by omega)
      have hlen2 : b2.len = b1.len + (encodeAsLEB128 (toLE 8 instr.arg1.toNat) false).length := by
        simp [GrowingBuffer.len, addToGrowingBuffer_ok h2]
      dsimp only
      rw [h2, bind_ok]
      exact hadd _ _ (encodeWord_length _ _) (by omega)

theorem encodeExpr_ok {expr : DwarfExpr} {buf buf' : GrowingBuffer}
    (h : expr.foldlM (fun buf instr => encodeDwarfExprInstr instr buf) buf = .ok buf') :
    (∀ instr ∈ expr, instr.type.encodeShape ≠ Option.none) ∧ buf'.data = buf.data ++ exprBytes expr := by
  induction expr generalizing buf with
  | nil => cases h; simp [exprBytes]
  | cons instr expr ih =>
    rw [List.foldlM_cons] at h
    obtain ⟨b1, h1, h⟩ := bind_eq_ok.mp h
    obtain ⟨hs, hd⟩ := encodeDwarfExprInstr_ok h1
    obtain ⟨hs', hd'⟩ := ih h
    refine ⟨?_, ?_⟩
    · intro x hx
      rcases List.mem_cons.mp hx with rfl | hx
      · exact hs
      · exact hs' x hx
    · rw [hd', hd]; simp [exprBytes]

/-- The bytes of a block the encoder accepts. -/
theorem encodeFormBlock_ok {expr : DwarfExpr} {bytes : List UInt8} (h : encodeDwarfExprAsFormBlock expr = .ok bytes) :
    (∀ instr ∈ expr, instr.type.encodeShape ≠ Option.none) ∧ (exprBytes expr).length < 2 ^ 31 ∧
    bytes = (uleb (exprBytes expr).length ++ exprBytes expr).take
      (usint (ulebLen (exprBytes expr).length + (exprBytes expr).length)) := by
  unfold encodeDwarfExprAsFormBlock at h
  obtain ⟨buf, hbuf, h⟩ := bind_eq_ok.mp h
  obtain ⟨hs, hd⟩ := encodeExpr_ok hbuf
  have hdata : buf.data = exprBytes expr := hd
  have hlen : buf.len = (exprBytes expr).length := congrArg List.length hdata
  have hlt := buf.len_lt
  rw [hlen] at hlt
  refine ⟨hs, hlt, ?_⟩
  simp only [hdata, hlen, uintToLEB128_eq (show (exprBytes expr).length < 2 ^ 32 by omega), length_uleb] at h
  cases h
  rfl

/-! ## Decoding one operand -/

/-- The encoder and the decoder agree on the format of every operand they share. -/
theorem shapes_agree (op : DwOp) :
    match op.decodeShape with
    | some .none => op.encodeShape = some .none
    | some (.unsigned k) => op.encodeShape = some (.bytes k) ∧ 1 ≤ k ∧ k ≤ 8
    | some (.signed k) => op.encodeShape = some (.bytes k) ∧ (1 ≤ k ∧ k ≤ 4 ∨ k = 8)
    | some .uleb => op.encodeShape = some .uleb
    | some .sleb => op.encodeShape = some .sleb
    | Option.none => op.encodeShape = some .ulebSleb ∨ op.encodeShape = Option.none := by
  cases op <;> simp [DwOp.encodeShape, DwOp.decodeShape]

theorem ofNat_eq_iff {v : Nat} {x : UInt64} (hv : v < 2 ^ 64) : UInt64.ofNat v = x ↔ v = x.toNat := by
  rw [← UInt64.toNat_inj, UInt64.toNat_ofNat', Nat.mod_eq_of_lt hv]

theorem residueBytes_lt (z : Int) (k : Nat) : residueBytes z k < 256 ^ k := by
  have h := Int.emod_lt_of_pos z (show (0 : Int) < 256 ^ k by positivity)
  have hc : ((256 ^ k : Nat) : Int) = 256 ^ k := by norm_cast
  unfold residueBytes
  omega

theorem residueBytes_bmod (x k : Nat) : residueBytes (Int.bmod x (256 ^ k : Nat)) k = x % 256 ^ k := by
  have hc : ((256 ^ k : Nat) : Int) = 256 ^ k := by norm_cast
  unfold residueBytes
  rw [← hc, Int.bmod_emod]
  norm_cast

/-- The word that holds a signed number. -/
theorem residueBytes_signed (x : UInt64) : residueBytes (Int.bmod x.toNat (2 ^ 64)) 8 = x.toNat :=
  (residueBytes_bmod x.toNat 8).trans (Nat.mod_eq_of_lt x.toNat_lt)

theorem bmod_range (x : Nat) {k : Nat} (hk : 1 ≤ k) :
    -(256 ^ k : Int) ≤ 2 * Int.bmod x (256 ^ k : Nat) ∧ 2 * Int.bmod x (256 ^ k : Nat) < 256 ^ k := by
  have hpos : 0 < 256 ^ k := by positivity
  have hlo := Int.le_bmod (x := x) hpos
  have hhi := Int.bmod_lt (x := x) hpos
  have heven : 256 ^ k % 2 = 0 := by rw [← Nat.sub_add_cancel hk, pow_succ]; omega
  have hc : ((256 ^ k : Nat) : Int) = 256 ^ k := by norm_cast
  rw [← hc]
  omega

theorem signedWord_range (x : UInt64) : -2 ^ 63 ≤ Int.bmod x.toNat (2 ^ 64) ∧ Int.bmod x.toNat (2 ^ 64) < 2 ^ 63 := by
  have hlo := Int.le_bmod (x := x.toNat) (show 0 < 2 ^ 64 by norm_num)
  have hhi := Int.bmod_lt (x := x.toNat) (show 0 < 2 ^ 64 by norm_num)
  exact ⟨by omega, by omega⟩

theorem readSigned_toLE {k : Nat} (hk : 1 ≤ k ∧ k ≤ 4) (x : Nat) (rest : List UInt8) :
    readSigned k (toLE k x ++ rest) = .ok (residueBytes (Int.bmod x (256 ^ k : Nat)) 8) := by
  obtain ⟨hlo, hhi⟩ := bmod_range x hk.1
  unfold readSigned
  rw [readLE_toLE, bind_ok, ← residueBytes_bmod]
  exact sextend_eq hk.1 hk.2 hlo hhi

/-- A signed word is the one its low bytes extend to exactly when it is in their range. -/
theorem extended_iff {k : Nat} (hk : 1 ≤ k) (hk8 : k ≤ 8) (x : UInt64) :
    residueBytes (Int.bmod x.toNat (256 ^ k : Nat)) 8 = x.toNat ↔
      -(256 ^ k : Int) ≤ 2 * Int.bmod x.toNat (2 ^ 64) ∧ 2 * Int.bmod x.toNat (2 ^ 64) < 256 ^ k := by
  have hrange := bmod_range x.toNat hk
  have hc : ((256 ^ k : Nat) : Int) = 256 ^ k := by norm_cast
  have h8 : (256 : Nat) ^ k ≤ 256 ^ 8 := Nat.pow_le_pow_right (by norm_num) hk8
  have hdvd : (256 : Nat) ^ k ∣ 256 ^ 8 := pow_dvd_pow _ hk8
  constructor
  · intro h
    have hz : Int.bmod x.toNat (2 ^ 64) = Int.bmod x.toNat (256 ^ k : Nat) := by
      conv_lhs => rw [← h]
      rw [show (2 : Nat) ^ 64 = 256 ^ 8 by norm_num, bmod_residueBytes]
      exact Int.bmod_eq_of_le (by omega) (by omega)
    rw [hz]
    exact hrange
  · rintro ⟨hlo, hhi⟩
    have hz : Int.bmod x.toNat (256 ^ k : Nat) = Int.bmod x.toNat (2 ^ 64) := by
      rw [← Int.bmod_bmod_of_dvd (show 256 ^ k ∣ 2 ^ 64 from hdvd)]
      exact Int.bmod_eq_of_le (by omega) (by omega)
    rw [hz]
    exact residueBytes_signed x

theorem readLebWord_sleb {z : Int} (hlo : -2 ^ 63 ≤ z) (hhi : z < 2 ^ 63) (rest : List UInt8) :
    readLebWord true (sleb z ++ rest) =
      if slebLen z ≤ 9 then .ok (residueBytes z ((slebLen z * 7 + 7) / 8), slebLen z) else .error .assertion := by
  unfold readLebWord
  rw [decode_sleb hlo hhi, bind_ok]
  simp only [leNat_residueBytes]
  by_cases h9 : slebLen z ≤ 9
  · rw [assert_of (by omega), if_pos h9]; rfl
  · rw [assert_not (by omega), if_neg h9]; rfl

/-- The decoded bytes of a signed LEB are the word itself only when nothing had to be extended. -/
theorem unextended_iff (x : UInt64) :
    slebLen (Int.bmod x.toNat (2 ^ 64)) ≤ 9 ∧
      residueBytes (Int.bmod x.toNat (2 ^ 64)) ((slebLen (Int.bmod x.toNat (2 ^ 64)) * 7 + 7) / 8) = x.toNat ↔
    0 ≤ Int.bmod x.toNat (2 ^ 64) ∧ Int.bmod x.toNat (2 ^ 64) < 2 ^ 62 ∨
      -2 ^ 62 ≤ Int.bmod x.toNat (2 ^ 64) ∧ Int.bmod x.toNat (2 ^ 64) < -2 ^ 55 := by
  have hx := residueBytes_signed x
  have hrange := x.toNat_lt
  generalize Int.bmod x.toNat (2 ^ 64) = z at *
  have h9 : slebLen z ≤ 9 ↔ -2 ^ 62 ≤ z ∧ z < 2 ^ 62 := by
    rw [slebLen_le_iff (by norm_num)]; unfold FitsSeptets; norm_num; omega
  have h8 : slebLen z ≤ 8 ↔ -2 ^ 55 ≤ z ∧ z < 2 ^ 55 := by
    rw [slebLen_le_iff (by norm_num)]; unfold FitsSeptets; norm_num; omega
  have hpos := slebLen_pos z
  by_cases hneg : z < 0
  · have hword : (x.toNat : Int) = 2 ^ 64 + z ∨ z < -2 ^ 64 := by
      rw [← hx]; unfold residueBytes; norm_num; omega
    by_cases hlen : slebLen z = 9
    · rw [hlen, show (9 * 7 + 7) / 8 = 8 by norm_num]
      omega
    · constructor
      · rintro ⟨hle, heq⟩
        have hlt : residueBytes z ((slebLen z * 7 + 7) / 8) < 256 ^ 7 :=
          lt_of_lt_of_le (residueBytes_lt _ _) (Nat.pow_le_pow_right (by norm_num) (by omega))
        norm_num at hlt
        omega
      · intro h; omega
  · obtain ⟨m, rfl⟩ : ∃ m : Nat, z = m := ⟨z.toNat, by omega⟩
    obtain ⟨-, hhi⟩ := fits_slebLen (m : Int)
    have hm : m < 128 ^ slebLen m := by
      have hc : ((128 ^ slebLen (m : Int) : Nat) : Int) = 128 ^ slebLen (m : Int) := by norm_cast
      rw [← hc] at hhi
      omega
    have hmx : residueBytes m 8 = m ∨ 256 ^ 8 ≤ m := by
      by_cases h : m < 256 ^ 8
      · exact .inl (residueBytes_of_nonneg h)
      · exact .inr (by omega)
    rw [residueBytes_of_nonneg (lt_of_lt_of_le hm (pow128_le_pow256 (by omega)))]
    norm_num at hmx
    omega

/-- An operation of one operand is the same when the word read is. -/
theorem same_iff {instr : DwarfExprInstr} {shape : EncodeShape} (hs : instr.type.encodeShape = some shape)
    (h1 : shape ≠ .none) (h2 : shape ≠ .ulebSleb) {v : Nat} (hv : v < 2 ^ 64) :
    Same ⟨instr.type, UInt64.ofNat v, 0⟩ instr ↔ v = instr.arg1.toNat := by
  unfold Same operands
  rw [hs]
  cases shape with
  | none => exact absurd rfl h1
  | ulebSleb => exact absurd rfl h2
  | bytes k => simp [ofNat_eq_iff hv]
  | uleb => simp [ofNat_eq_iff hv]
  | sleb => simp [ofNat_eq_iff hv]

/-- The operand read after an encoded opcode: all of it, and the one written exactly when the operation
is faithful; or nothing, when the operation is not. -/
theorem parseDwarfOperand_operandBytes (instr : DwarfExprInstr) (rest : List UInt8) :
    (∃ v, parseDwarfOperand instr.type (instr.operandBytes ++ rest) = .ok (v, instr.operandBytes.length) ∧
      (Same ⟨instr.type, UInt64.ofNat v, 0⟩ instr ↔ instr.Faithful)) ∨
    (∃ e, parseDwarfOperand instr.type (instr.operandBytes ++ rest) = .error e) ∧ ¬ instr.Faithful := by
  have hagree := shapes_agree instr.type
  unfold parseDwarfOperand operandBytes Faithful
  cases hd : instr.type.decodeShape with
  | none => exact .inr ⟨⟨_, rfl⟩, not_false⟩
  | some shape =>
    rw [hd] at hagree
    cases shape with
    | none =>
      rw [hagree]
      refine .inl ⟨0, rfl, ?_⟩
      unfold Same operands
      simp [hagree]
    | unsigned k =>
      obtain ⟨he, hk, hk8⟩ := hagree
      have hlt : instr.arg1.toNat % 256 ^ k < 2 ^ 64 := lt_of_le_of_lt (Nat.mod_le _ _) instr.arg1.toNat_lt
      rw [he]
      refine .inl ⟨instr.arg1.toNat % 256 ^ k, by simp [readLE_toLE], ?_⟩
      rw [same_iff he (by simp) (by simp) hlt]
      exact Nat.mod_eq_iff_lt (by positivity)
    | signed k =>
      obtain ⟨he, hk⟩ := hagree
      rw [he]
      refine .inl ⟨residueBytes (Int.bmod instr.arg1.toNat (256 ^ k : Nat)) 8, ?_, ?_⟩
      · rcases hk with hk | rfl
        · simp [readSigned_toLE hk]
        · simp only [readSigned, readLE_toLE, bind_ok, sextend, if_true, length_toLE, residueBytes_bmod]
      · rw [same_iff he (by simp) (by simp) (residueBytes_lt _ 8)]
        exact extended_iff (by omega) (by omega) _
    | uleb =>
      rw [hagree]
      refine .inl ⟨instr.arg1.toNat, ?_, ?_⟩
      · simp only [length_uleb]
        exact leb128ToUWord_uleb instr.arg1.toNat_lt rest
      · rw [same_iff hagree (by simp) (by simp) instr.arg1.toNat_lt]
        simp
    | sleb =>
      have hiff := unextended_iff instr.arg1
      obtain ⟨hlo, hhi⟩ := signedWord_range instr.arg1
      rw [hagree]
      simp only [length_sleb]
      rw [readLebWord_sleb (z := instr.signedArg) hlo hhi]
      by_cases h9 : slebLen instr.signedArg ≤ 9
      · have hlt : residueBytes instr.signedArg ((slebLen instr.signedArg * 7 + 7) / 8) < 2 ^ 64 :=
          lt_of_lt_of_le (residueBytes_lt _ _) (Nat.pow_le_pow_right (show 0 < 256 by norm_num) (show _ ≤ 8 by omega))
        refine .inl ⟨_, if_pos h9, ?_⟩
        rw [same_iff hagree (by simp) (by simp) hlt]
        exact ⟨fun h => hiff.mp ⟨h9, h⟩, fun h => (hiff.mpr h).2⟩
      · exact .inr ⟨⟨_, if_neg h9⟩, fun h => h9 (hiff.mpr h).1⟩

/-! ## The expression loop -/

/-- Every opcode with a format is read back from its byte. -/
theorem ofByte_code {op : DwOp} (h : op.encodeShape ≠ Option.none) : DwOp.ofByte (UInt8.ofNat op.code) = op := by
  cases op with
  | lit n => revert n; decide
  | reg n => revert n; decide
  | breg n => revert n; decide
  | other code => exact absurd rfl h
  | _ => rfl

theorem readLE_le {k v : Nat} {p : List UInt8} (h : readLE k p = .ok v) : k ≤ p.length := by
  unfold readLE at h
  by_cases hk : k ≤ p.length
  · exact hk
  · rw [defined_not hk] at h; cases h

theorem countSeptets_le {p : List UInt8} {n : Nat} (h : countSeptets p = .ok n) : n ≤ p.length := by
  induction p generalizing n with
  | nil => cases h
  | cons x p ih =>
    unfold countSeptets at h
    split at h
    · obtain ⟨m, hm, h⟩ := bind_eq_ok.mp h
      cases h
      exact Nat.succ_le_succ (ih hm)
    · cases h
      exact Nat.succ_le_succ (Nat.zero_le _)

/-- A numeral without its last byte never ends. -/
theorem countSeptets_short {l : List Nat} (hl : ∀ d ∈ l, d < 128) {n : Nat} (hn : n < l.length) :
    countSeptets ((mark l).take n) = .error .undefined := by
  induction l generalizing n with
  | nil => simp at hn
  | cons d l ih =>
    cases n with
    | zero => rfl
    | succ n =>
      have hl' : l ≠ [] := by rintro rfl; simp at hn
      have hd : d < 128 := hl d (by simp)
      have htop : (UInt8.ofNat (d + 128)).toNat &&& 1 <<< 7 ≠ 0 := by
        rw [ne_eq, show 1 <<< 7 = 0x80 by rfl, and_top_bit (UInt8.toNat_lt _), UInt8.toNat_ofNat']; omega
      rw [mark_cons hl', List.take_succ_cons, countSeptets, if_pos htop,
        ih (fun x hx => hl x (by simp [hx])) (by simpa using hn)]
      rfl

theorem decodeLEB128_le {p : List UInt8} {signed : Bool} {d : Decoded} (h : decodeLEB128 p signed = .ok d) :
    d.numSeptetsRead ≤ p.length := by
  unfold decodeLEB128 at h
  obtain ⟨n, hn, h⟩ := bind_eq_ok.mp h
  cases h
  exact le_trans (Nat.mod_le _ _) (countSeptets_le hn)

theorem readLebWord_le {p : List UInt8} {signed : Bool} {v k : Nat} (h : readLebWord signed p = .ok (v, k)) :
    k ≤ p.length := by
  unfold readLebWord at h
  obtain ⟨d, hd, h⟩ := bind_eq_ok.mp h
  obtain ⟨-, -, h⟩ := bind_eq_ok.mp h
  cases h
  exact decodeLEB128_le hd

/-- An operand that is read lies inside the buffer. -/
theorem parseDwarfOperand_le {type : DwOp} {p : List UInt8} {v k : Nat} (h : parseDwarfOperand type p = .ok (v, k)) :
    k ≤ p.length := by
  unfold parseDwarfOperand at h
  split at h
  · cases h; exact Nat.zero_le _
  · obtain ⟨arg, harg, h⟩ := bind_eq_ok.mp h
    cases h
    exact readLE_le harg
  · obtain ⟨arg, harg, h⟩ := bind_eq_ok.mp h
    obtain ⟨raw, hraw, -⟩ := bind_eq_ok.mp harg
    cases h
    exact readLE_le hraw
  · exact readLebWord_le h
  · exact readLebWord_le h
  · cases h

theorem uintSub_of_le {len k : Nat} (hk : k ≤ len) (hlen : len < 2 ^ 32) : uintSub len k = len - k := by
  unfold uintSub
  rw [show len + 2 ^ 32 - k = len - k + 2 ^ 32 by omega, Nat.add_mod_right, Nat.mod_eq_of_lt (by omega)]

theorem uintSub_lt (len k : Nat) : uintSub len k < 2 ^ 32 := by
  unfold uintSub
  exact Nat.mod_lt _ (by norm_num)

/-- An expression that is read lies inside the buffer: running past it stops the loop. -/
theorem parseDwarfLoop_le {fuel len : Nat} {data : List UInt8} {expr : DwarfExpr} (hlen : len < 2 ^ 32)
    (h : parseDwarfLoop fuel data len = .ok expr) : len ≤ data.length := by
  induction fuel generalizing data len expr with
  | zero =>
    cases len with
    | zero => exact Nat.zero_le _
    | succ len => cases data <;> cases h
  | succ fuel ih =>
    cases len with
    | zero => exact Nat.zero_le _
    | succ len =>
      cases data with
      | nil => cases h
      | cons b data =>
        unfold parseDwarfLoop at h
        obtain ⟨⟨arg, k⟩, harg, h⟩ := bind_eq_ok.mp h
        obtain ⟨rest, hrest, -⟩ := bind_eq_ok.mp h
        have hk := parseDwarfOperand_le harg
        have hle := ih (uintSub_lt _ _) hrest
        rw [List.length_drop] at hle
        rw [List.length_cons]
        -- the unsigned length wraps only past an operand that is itself in the buffer
        by_cases hkl : k ≤ len
        · rw [uintSub_of_le hkl (by omega)] at hle
          omega
        · omega

/-- The loop does not depend on its fuel once it has more than the buffer's length. -/
theorem parseDwarfLoop_fuel {fuel fuel' : Nat} {data : List UInt8} (h : data.length < fuel) (h' : data.length < fuel')
    (len : Nat) :
    parseDwarfLoop fuel data len = parseDwarfLoop fuel' data len := by
  induction fuel generalizing fuel' data len with
  | zero => omega
  | succ fuel ih =>
    obtain ⟨fuel', rfl⟩ := Nat.exists_eq_add_of_le' (show 1 ≤ fuel' by omega)
    cases len with
    | zero => rfl
    | succ len =>
      cases data with
      | nil => rfl
      | cons b data =>
        simp only [List.length_cons] at h h'
        unfold parseDwarfLoop
        refine congrArg _ (funext fun ⟨arg1, k⟩ => ?_)
        have hd : (data.drop k).length ≤ data.length := by simp
        dsimp only
        rw [ih (show (data.drop k).length < fuel by omega) (show (data.drop k).length < fuel' by omega)]

/-- One turn of the loop over an encoded operation. -/
theorem parseDwarfExpression_cons (b : UInt8) (data : List UInt8) (len : Nat) :
    parseDwarfExpression (b :: data) (len + 1) = (do
      let (arg1, k) ← parseDwarfOperand (DwOp.ofByte b) data
      let rest ← parseDwarfExpression (data.drop k) (uintSub len k)
      .ok (⟨DwOp.ofByte b, UInt64.ofNat arg1, 0⟩ :: rest)) := by
  unfold parseDwarfExpression
  rw [List.length_cons, parseDwarfLoop]
  refine congrArg _ (funext fun ⟨arg1, k⟩ => ?_)
  have hd : (data.drop k).length ≤ data.length := by simp
  dsimp only
  rw [parseDwarfLoop_fuel (show (data.drop k).length < data.length + 1 by omega)
    (show (data.drop k).length < (data.drop k).length + 1 by omega)]

/-- A block's operations are read one after the other: the expression comes back exactly when each
operation is faithful. -/
theorem parseDwarfExpression_exprBytes {expr : DwarfExpr} (hs : ∀ instr ∈ expr, instr.type.encodeShape ≠ Option.none)
    (hlen : (exprBytes expr).length < 2 ^ 32) (rest : List UInt8) :
    ((∀ instr ∈ expr, instr.Faithful) →
      ∃ expr', parseDwarfExpression (exprBytes expr ++ rest) (exprBytes expr).length = .ok expr' ∧
        List.Forall₂ Same expr' expr) ∧
    (∀ expr', parseDwarfExpression (exprBytes expr ++ rest) (exprBytes expr).length = .ok expr' →
      List.Forall₂ Same expr' expr → ∀ instr ∈ expr, instr.Faithful) := by
  induction expr with
  | nil =>
    refine ⟨fun _ => ⟨[], rfl, .nil⟩, ?_⟩
    intro expr' _ _ instr h
    cases h
  | cons instr expr ih =>
    have hbytes : exprBytes (instr :: expr) = UInt8.ofNat instr.type.code :: (instr.operandBytes ++ exprBytes expr) := rfl
    have hcode := ofByte_code (hs instr (by simp))
    rw [hbytes] at hlen ⊢
    simp only [List.length_cons, List.length_append] at hlen
    have hrest := ih (fun x hx => hs x (by simp [hx])) (by omega)
    have hlen' : uintSub (instr.operandBytes ++ exprBytes expr).length instr.operandBytes.length =
      (exprBytes expr).length := by
      rw [List.length_append, uintSub_of_le (by omega) (by omega)]; omega
    rw [List.length_cons, List.cons_append, parseDwarfExpression_cons, hcode, List.append_assoc]
    rcases parseDwarfOperand_operandBytes instr (exprBytes expr ++ rest) with ⟨v, hv, hiff⟩ | ⟨⟨e, he⟩, hnot⟩
    · rw [hv, bind_ok]
      dsimp only
      rw [List.drop_left, hlen']
      constructor
      · intro hall
        obtain ⟨expr', hexpr', hsame⟩ := hrest.1 fun x hx => hall x (by simp [hx])
        exact ⟨_, by rw [hexpr']; rfl, .cons (hiff.mpr (hall instr (by simp))) hsame⟩
      · intro expr' hparse hsame x hx
        obtain ⟨tail, htail, hparse⟩ := bind_eq_ok.mp hparse
        cases hparse
        obtain ⟨hhead, hsame⟩ := List.forall₂_cons.mp hsame
        rcases List.mem_cons.mp hx with rfl | hx
        · exact hiff.mp hhead
        · exact hrest.2 tail htail hsame x hx
    · rw [he]
      refine ⟨fun hall => absurd (hall instr (by simp)) hnot, fun expr' hparse => ?_⟩
      cases hparse

/-! ## Blocks -/

/-- Every operation is faithful, and the block with its length fits the `usint` that counts it. -/
def BlockFaithful (expr : DwarfExpr) : Prop := (exprBytes expr).length ≤ 65532 ∧ ∀ instr ∈ expr, instr.Faithful

instance (expr : DwarfExpr) : Decidable (BlockFaithful expr) := inferInstanceAs (Decidable (_ ∧ _))

/-- The length of a block leaves room for its own numeral exactly up to 65532 bytes. -/
theorem blockLen_iff (n : Nat) : ulebLen n + n < 65536 ↔ n ≤ 65532 := by
  have h3 := ulebLen_le_iff (n := n) (show 0 < 3 by norm_num)
  have h2 := ulebLen_le_iff (n := n) (show 0 < 2 by norm_num)
  norm_num at h3 h2
  omega

theorem usint_of_lt {n : Nat} (h : n < 65536) : usint n = n := Nat.mod_eq_of_lt h

theorem readExprBlock_faithful {expr : DwarfExpr} {bytes : List UInt8} (h : encodeDwarfExprAsFormBlock expr = .ok bytes)
    (hf : BlockFaithful expr) (rest : List UInt8) :
    ∃ expr', readExprBlock (bytes ++ rest) = .ok (expr', bytes.length) ∧ List.Forall₂ Same expr' expr := by
  obtain ⟨hs, hlt, rfl⟩ := encodeFormBlock_ok h
  have hlen := (blockLen_iff _).mpr hf.1
  rw [usint_of_lt hlen, List.take_of_length_le (by simp)]
  obtain ⟨expr', hexpr', hsame⟩ := (parseDwarfExpression_exprBytes hs (by omega) rest).1 hf.2
  refine ⟨expr', ?_, hsame⟩
  unfold readExprBlock
  rw [List.append_assoc, leb128ToUInt_uleb (by omega), if_pos (by omega), bind_ok]
  simp only [List.drop_left' (length_uleb _), hexpr', bind_ok, List.length_append, length_uleb]

/-- A block cut short by the `usint` never reads back. -/
theorem readExprBlock_cut {expr : DwarfExpr} (hlt : (exprBytes expr).length < 2 ^ 31) {n : Nat}
    (hn : n < ulebLen (exprBytes expr).length + (exprBytes expr).length) :
    ∃ e, readExprBlock ((uleb (exprBytes expr).length ++ exprBytes expr).take n) = .error e := by
  have hpos := ulebLen_pos (exprBytes expr).length
  unfold readExprBlock
  by_cases hcut : n < ulebLen (exprBytes expr).length
  · -- the length itself is cut
    refine ⟨.undefined, ?_⟩
    rw [List.take_append_of_le_length (by rw [length_uleb]; omega), uleb]
    have hshort : countSeptets ((mark (ulebDigits (exprBytes expr).length)).take n) = .error .undefined :=
      countSeptets_short (ulebDigits_lt _) (by unfold ulebDigits; rw [length_fixed]; exact hcut)
    unfold leb128ToUInt decodeLEB128
    rw [hshort]
    rfl
  · rw [List.take_append, List.take_of_length_le (by rw [length_uleb]; omega), leb128ToUInt_uleb (by omega),
      if_pos (by omega), bind_ok]
    simp only [List.drop_left' (length_uleb _), length_uleb]
    cases hparse : parseDwarfExpression ((exprBytes expr).take (n - ulebLen (exprBytes expr).length))
      (exprBytes expr).length with
    | error e => exact ⟨e, rfl⟩
    | ok e =>
      have hle := parseDwarfLoop_le (by omega) hparse
      rw [List.length_take] at hle
      omega

theorem faithful_of_readExprBlock {expr expr' : DwarfExpr} {bytes : List UInt8} {k : Nat}
    (h : encodeDwarfExprAsFormBlock expr = .ok bytes) (hr : readExprBlock bytes = .ok (expr', k))
    (hsame : List.Forall₂ Same expr' expr) : BlockFaithful expr := by
  obtain ⟨hs, hlt, rfl⟩ := encodeFormBlock_ok h
  by_cases hlen : ulebLen (exprBytes expr).length + (exprBytes expr).length < 65536
  · refine ⟨(blockLen_iff _).mp hlen, ?_⟩
    rw [usint_of_lt hlen, List.take_of_length_le (by simp)] at hr
    unfold readExprBlock at hr
    rw [leb128ToUInt_uleb (by omega), if_pos (by omega), bind_ok] at hr
    simp only [List.drop_left' (length_uleb _)] at hr
    obtain ⟨e, he, hr⟩ := bind_eq_ok.mp hr
    cases hr
    exact (parseDwarfExpression_exprBytes hs (by omega) []).2 expr' (by simpa using he) hsame
  · obtain ⟨e, he⟩ := readExprBlock_cut hlt (n := usint (ulebLen (exprBytes expr).length + (exprBytes expr).length))
      (by unfold usint; omega)
    rw [he] at hr
    cases hr

/-! ## The round trip -/

namespace DwarfExprInstr

/-- The operand is in the range of its operation's format; a LEB takes any word. -/
def InRange (instr : DwarfExprInstr) : Prop :=
  match instr.type with
  | .const1u | .pick | .derefSize | .xderefSize => instr.arg1.toNat < 2 ^ 8
  | .const1s => -2 ^ 7 ≤ instr.signedArg ∧ instr.signedArg < 2 ^ 7
  | .const2u => instr.arg1.toNat < 2 ^ 16
  | .const2s | .skip | .bra => -2 ^ 15 ≤ instr.signedArg ∧ instr.signedArg < 2 ^ 15
  | .const4u => instr.arg1.toNat < 2 ^ 32
  | .const4s => -2 ^ 31 ≤ instr.signedArg ∧ instr.signedArg < 2 ^ 31
  | _ => True

instance (instr : DwarfExprInstr) : Decidable instr.InRange := by
  unfold InRange; split <;> infer_instance

/-- The operation comes back: `DW_OP_bregx` has no decoder, and a signed LEB is not extended to a word. -/
def ComesBack (instr : DwarfExprInstr) : Prop :=
  match instr.type with
  | .bregx => False
  | .consts | .fbreg | .breg _ =>
    0 ≤ instr.signedArg ∧ instr.signedArg < 2 ^ 62 ∨ -2 ^ 62 ≤ instr.signedArg ∧ instr.signedArg < -2 ^ 55
  | _ => True

instance (instr : DwarfExprInstr) : Decidable instr.ComesBack := by
  unfold ComesBack; split <;> infer_instance

theorem faithful_iff {instr : DwarfExprInstr} (hs : instr.type.encodeShape ≠ Option.none) (hr : instr.InRange) :
    instr.Faithful ↔ instr.ComesBack := by
  have hlt := instr.arg1.toNat_lt
  obtain ⟨hlo, hhi⟩ := signedWord_range instr.arg1
  unfold InRange at hr
  unfold Faithful ComesBack
  unfold signedArg at *
  generalize Int.bmod instr.arg1.toNat (2 ^ 64) = z at *
  cases ht : instr.type <;> rw [ht] at hr hs <;> simp [DwOp.decodeShape, DwOp.encodeShape] at hr hs ⊢ <;> omega

end DwarfExprInstr

/-- The operations come back from the body of their block. -/
def BodyRoundTrips (expr : DwarfExpr) (body : List UInt8) : Prop :=
  ∃ expr', parseDwarfExpression body body.length = .ok expr' ∧ List.Forall₂ Same expr' expr

/-- The operations come back from a block, read by its LEB length. -/
def BlockRoundTrips (expr : DwarfExpr) (block : List UInt8) : Prop :=
  ∃ expr' k, readExprBlock block = .ok (expr', k) ∧ List.Forall₂ Same expr' expr

/-- **An expression comes back exactly when each of its operations does**, and from the block as it is counted exactly when
the block is short enough for its count too. -/
theorem expr_roundTrips_iff {expr : DwarfExpr} {body : GrowingBuffer} {block : List UInt8}
    (hbody : expr.foldlM (fun buf instr => encodeDwarfExprInstr instr buf) GrowingBuffer.zero = .ok body)
    (hblock : encodeDwarfExprAsFormBlock expr = .ok block) (hrange : ∀ instr ∈ expr, instr.InRange) :
    (BodyRoundTrips expr body.data ↔ ∀ instr ∈ expr, instr.ComesBack) ∧
    (BlockRoundTrips expr block ↔ body.len ≤ 65532 ∧ ∀ instr ∈ expr, instr.ComesBack) := by
  obtain ⟨hs, hdata⟩ := encodeExpr_ok hbody
  have hbytes : body.data = exprBytes expr := hdata
  have hlen : body.len = (exprBytes expr).length := congrArg List.length hbytes
  have hlt := body.len_lt
  have hiff : (∀ instr ∈ expr, instr.Faithful) ↔ ∀ instr ∈ expr, instr.ComesBack :=
    forall₂_congr fun instr hi => faithful_iff (hs instr hi) (hrange instr hi)
  rw [← hiff]
  constructor
  · have hparse := parseDwarfExpression_exprBytes hs (by omega) []
    rw [List.append_nil] at hparse
    rw [hbytes]
    constructor
    · intro h
      rcases h with ⟨expr', hread, hsame⟩
      exact hparse.2 expr' hread hsame
    · intro h
      exact hparse.1 h
  · rw [hlen]
    constructor
    · intro h
      rcases h with ⟨expr', k, hread, hsame⟩
      exact faithful_of_readExprBlock hblock hread hsame
    · intro h
      obtain ⟨expr', hread, hsame⟩ := readExprBlock_faithful hblock h []
      rw [List.append_nil] at hread
      exact ⟨expr', _, hread, hsame⟩

def sampleExpr : DwarfExpr := [⟨.breg ⟨7, by decide⟩, 8, 0⟩, ⟨.constu, 40, 0⟩, ⟨.plus, 0, 0⟩]

theorem expr_roundTrips_sampleExpr : ∃ body block,
    sampleExpr.foldlM (fun buf instr => encodeDwarfExprInstr instr buf) GrowingBuffer.zero = .ok body ∧
    encodeDwarfExprAsFormBlock sampleExpr = .ok block ∧
    (BodyRoundTrips sampleExpr body.data ↔ ∀ instr ∈ sampleExpr, instr.ComesBack) ∧
    (BlockRoundTrips sampleExpr block ↔ body.len ≤ 65532 ∧ ∀ instr ∈ sampleExpr, instr.ComesBack) := by
  obtain ⟨body, hbody⟩ : ∃ body,
      sampleExpr.foldlM (fun buf instr => encodeDwarfExprInstr instr buf) GrowingBuffer.zero = .ok body := ⟨_, rfl⟩
  obtain ⟨block, hblock⟩ : ∃ block, encodeDwarfExprAsFormBlock sampleExpr = .ok block := ⟨_, rfl⟩
  exact ⟨body, block, hbody, hblock, expr_roundTrips_iff hbody hblock (by decide)⟩

/-- A negative frame offset loses its sign. -/
theorem not_expr_roundTrips : ¬ ∀ (expr : DwarfExpr) (body : GrowingBuffer),
    expr.foldlM (fun buf instr => encodeDwarfExprInstr instr buf) GrowingBuffer.zero = .ok body →
    (∀ instr ∈ expr, instr.InRange) → BodyRoundTrips expr body.data := by
  intro h
  obtain ⟨expr', hread, hsame⟩ := h [⟨.fbreg, -8, 0⟩] _ rfl (by decide)
  have hvalue : parseDwarfExpression [0x91, 0x78] 2 = .ok [⟨.fbreg, 0xf8, 0⟩] := by decide
  have hexpr : expr' = [⟨.fbreg, 0xf8, 0⟩] := Except.ok.inj (hread.symm.trans hvalue)
  rw [hexpr] at hsame
  obtain ⟨hhead, -⟩ := List.forall₂_cons.mp hsame
  revert hhead
  decide

end Katana
