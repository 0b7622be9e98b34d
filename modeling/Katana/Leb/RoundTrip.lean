/-
  Katana.Leb.RoundTrip — what comes back from a LEB128 encoding (leb.c, util/growingBuffer.c).

  The encoders count their bytes in a `usint`, and the callers copy as many bytes as that counts. `intToLEB128` writes
  a number that is not negative as an unsigned one, and `sextend` widens numbers of up to four bytes only.

  Proved:
  - `codecExact_iff`: a number comes back from its shortest numeral, and from the one that is not shortened, exactly
    when its septets can be counted.
  - `intWrappers_iff`: every `uint` comes back, and an `int` exactly when its shortest signed numeral is what is written
    and has four septets at most.
  - `wordWrappers_iff`: every word comes back, and a signed word exactly when its numeral has up to four septets or nine.
-/
import Katana.Leb.Decode
import Katana.GrowingBuffer

namespace Katana

open Lib

/-! ## Numbers of any length -/

/-- The number some bytes spell, in two's complement if it is signed. -/
def spelled (signed : Bool) (bytes : List UInt8) : Int :=
  if signed then Int.bmod (leNat bytes) (256 ^ bytes.length : Nat) else leNat bytes

def numeralSpelled (signed : Bool) (n : Numeral) : Int := if signed then n.signedValue else n.value

/-- The bytes `*numBytesOut` counts. -/
def emittedNoOptimization (bytes : List UInt8) (signed : Bool) : List UInt8 :=
  (encodeAsLEB128NoOptimization bytes signed).take (usint (encodeAsLEB128NoOptimization bytes signed).length)

/-- `decodeLEB128` gives the number back from the numeral, whatever comes after it. -/
def DecodesTo (numeral : List UInt8) (signed : Bool) (z : Int) (read : Nat → Prop) : Prop :=
  ∀ rest, ∃ d, decodeLEB128 (numeral ++ rest) signed = .ok d ∧ spelled signed (d.result.take d.numBytes) = z ∧
    read d.numSeptetsRead

structure CodecExact (bytes : List UInt8) (signed : Bool) : Prop where
  decoded : DecodesTo (encodeAsLEB128 bytes signed) signed (spelled signed bytes) (· = (encodeAsLEB128 bytes signed).length)
  shortest : ∀ n : Numeral, numeralSpelled signed n = spelled signed bytes → (encodeAsLEB128 bytes signed).length ≤ n.length
  noOptimization : DecodesTo (emittedNoOptimization bytes signed) signed (spelled signed bytes) fun _ => True

section Numerals
variable {n : Numeral}

theorem spelled_unsigned (hn : n.length < 65536) (rest : List UInt8) :
    ∃ d, decodeLEB128 (n.bytes ++ rest) false = .ok d ∧ spelled false (d.result.take d.numBytes) = n.value ∧
      d.numSeptetsRead = n.length := by
  refine ⟨_, decode_numeral n rest, ?_, usint_length hn⟩
  simp [spelled, usint_unsignedBytes hn, leNat_numeral]

theorem spelled_signed (hn : n.length < 65536) (rest : List UInt8) :
    ∃ d, decodeLEB128 (n.bytes ++ rest) true = .ok d ∧ spelled true (d.result.take d.numBytes) = n.signedValue ∧
      d.numSeptetsRead = n.length := by
  refine ⟨_, decode_numeral_signed n rest, ?_, usint_length hn⟩
  have hb : usint ((n.length * 7 + 7) / 8) = (n.length * 7 + 7) / 8 := Nat.mod_eq_of_lt (by omega)
  obtain ⟨hlo, hhi⟩ := n.fits_signedValue
  have hle : ((128 ^ n.length : Nat) : Int) ≤ (256 ^ ((n.length * 7 + 7) / 8) : Nat) := by
    exact_mod_cast pow128_le_pow256 (show 7 * n.length ≤ 8 * ((n.length * 7 + 7) / 8) by omega)
  have hc : ((128 ^ n.length : Nat) : Int) = 128 ^ n.length := by norm_cast
  have hlen : ((toLE ((n.length * 7 + 7) / 8) (residueBytes n.signedValue ((n.length * 7 + 7) / 8))).take
      ((n.length * 7 + 7) / 8)).length = (n.length * 7 + 7) / 8 := by simp
  simp only [spelled, hb, if_true, leNat_residueBytes, hlen, bmod_residueBytes]
  exact Int.bmod_eq_of_le (by omega) (by omega)

/-- Either way a numeral whose septets can be counted gives back what it spells. -/
theorem numeral_decodesTo (signed : Bool) (hn : n.length < 65536) :
    DecodesTo n.bytes signed (numeralSpelled signed n) (· = n.length) := by
  intro rest
  cases signed with
  | false => exact spelled_unsigned hn rest
  | true => exact spelled_signed hn rest

end Numerals

/-- The shortest numeral of what some bytes spell. -/
def shortestNumeral (signed : Bool) (bytes : List UInt8) : Numeral :=
  if signed then .ofInt (spelled true bytes) else .ofNat (leNat bytes)

theorem numeralSpelled_shortest (signed : Bool) (bytes : List UInt8) :
    numeralSpelled signed (shortestNumeral signed bytes) = spelled signed bytes := by
  cases signed <;> simp [numeralSpelled, shortestNumeral, spelled]

/-- Every numeral of a number is as long as its shortest one. -/
theorem shortestNumeral_le {signed : Bool} {bytes : List UInt8} {n : Numeral}
    (h : numeralSpelled signed n = spelled signed bytes) : (shortestNumeral signed bytes).length ≤ n.length := by
  cases signed with
  | false =>
    have hv : n.value = leNat bytes := by simpa [numeralSpelled, spelled] using h
    have hlt := n.value_lt
    rw [hv] at hlt
    simpa [shortestNumeral] using (ulebLen_le_iff n.length_pos).mpr hlt
  | true =>
    have hv : n.signedValue = spelled true bytes := by simpa [numeralSpelled] using h
    have hfits := n.fits_signedValue
    rw [hv] at hfits
    simpa [shortestNumeral] using (slebLen_le_iff n.length_pos).mpr hfits

theorem numSeptetsFor_lt (k : Nat) : numSeptetsFor k < 65536 ↔ k ≤ 57343 := by
  unfold numSeptetsFor
  omega

section Encoded
variable {bytes : List UInt8} {signed : Bool}

theorem encodeAsLEB128_shortest (hne : bytes ≠ []) (hcount : numSeptetsFor bytes.length < 65536) :
    encodeAsLEB128 bytes signed = (shortestNumeral signed bytes).bytes := by
  cases signed with
  | false => simpa [shortestNumeral] using encodeAsLEB128_unsigned hne hcount
  | true => simpa [shortestNumeral, spelled] using encodeAsLEB128_signed hne hcount

/-- The numeral that is not shortened. -/
theorem encodeNoOptimization_numeral (hne : bytes ≠ []) :
    ∃ n : Numeral, encodeAsLEB128NoOptimization bytes signed = n.bytes ∧ n.length = numSeptetsFor bytes.length ∧
      numeralSpelled signed n = spelled signed bytes := by
  have hpos : 0 < bytes.length := List.length_pos_iff.mpr hne
  have hseptets := le_numSeptetsFor bytes.length
  have hnumeral : ∀ v, fixed 128 (numSeptetsFor bytes.length) v ≠ [] := by
    intro v
    rw [← List.length_pos_iff, length_fixed]
    omega
  cases signed with
  | false =>
    refine ⟨⟨_, hnumeral (leNat bytes), fixed_lt (by norm_num) _ _⟩, encodeNoOptimization_unsigned, length_fixed _ _ _, ?_⟩
    have hfit := lt_of_lt_of_le (leNat_lt bytes) (bytes_le_septets bytes.length)
    simp [numeralSpelled, spelled, Numeral.value, ofDigits_fixed, Nat.mod_eq_of_lt hfit]
  | true =>
    refine ⟨⟨_, hnumeral _, fixed_lt (by norm_num) _ _⟩, encodeNoOptimization_signed hne, length_fixed _ _ _, ?_⟩
    have heven : (256 : Nat) ^ bytes.length % 2 = 0 := by
      rw [← Nat.sub_add_cancel hpos, pow_succ]
      omega
    have hz := bmod_byte (leNat_lt bytes) heven
    have hx := leNat_lt bytes
    have hB : ((256 ^ bytes.length : Nat) : Int) ≤ 128 ^ numSeptetsFor bytes.length := by
      exact_mod_cast bytes_le_septets bytes.length
    have hfit : FitsSeptets (Int.bmod (leNat bytes) (256 ^ bytes.length : Nat)) (numSeptetsFor bytes.length) := by
      rw [FitsSeptets]
      split at hz <;> omega
    simp [numeralSpelled, spelled, Numeral.signedValue, Numeral.value, Numeral.length, ofDigits_fixed,
      Nat.mod_eq_of_lt (residue_lt _ _), bmod_residue hfit]

/-- A count that wraps cuts the numeral short, and no byte of what is left is its last. -/
theorem countSeptets_cut (n : Numeral) {k : Nat} (hk : k < n.length) :
    countSeptets (n.bytes.take k) = .error .undefined := by
  obtain ⟨l, hne, hlt⟩ := n
  unfold Numeral.bytes
  unfold Numeral.length at hk
  induction l generalizing k with
  | nil => exact absurd rfl hne
  | cons d l ih =>
    cases k with
    | zero => rfl
    | succ k =>
      have hl : l ≠ [] := by
        rintro rfl
        simp at hk
      have hd : d < 128 := hlt d (by simp)
      have htop : (UInt8.ofNat (d + 128)).toNat &&& 1 <<< 7 ≠ 0 := by
        rw [ne_eq, show 1 <<< 7 = 0x80 by rfl, and_top_bit (UInt8.toNat_lt _), UInt8.toNat_ofNat']
        omega
      rw [mark_cons hl, List.take_succ_cons, countSeptets, if_pos htop,
        ih hl (fun x hx => hlt x (by simp [hx])) (by simpa using hk)]
      rfl

theorem codecExact_of_counted (hne : bytes ≠ []) (hcount : numSeptetsFor bytes.length < 65536) :
    CodecExact bytes signed := by
  obtain ⟨n, hn, hlen, hspelled⟩ := @encodeNoOptimization_numeral bytes signed hne
  have hshort : (shortestNumeral signed bytes).length < 65536 := by
    have := shortestNumeral_le hspelled
    omega
  have hdec := numeral_decodesTo signed hshort
  rw [numeralSpelled_shortest] at hdec
  refine ⟨?_, ?_, ?_⟩
  · rw [encodeAsLEB128_shortest hne hcount, Numeral.length_bytes]
    exact hdec
  · intro m hm
    rw [encodeAsLEB128_shortest hne hcount, Numeral.length_bytes]
    exact shortestNumeral_le hm
  · have hall : emittedNoOptimization bytes signed = n.bytes := by
      unfold emittedNoOptimization
      rw [hn, Numeral.length_bytes, usint_length (by omega), List.take_of_length_le (by simp)]
    intro rest
    obtain ⟨d, hd, hz, -⟩ := numeral_decodesTo signed (show n.length < 65536 by omega) rest
    rw [hall]
    exact ⟨d, hd, hz.trans hspelled, trivial⟩

/-- From 65536 septets on the count is of no whole numeral. -/
theorem not_codecExact_of_uncounted (hne : bytes ≠ []) (hcount : ¬ numSeptetsFor bytes.length < 65536) :
    ¬ CodecExact bytes signed := by
  intro h
  obtain ⟨n, hn, hlen, -⟩ := @encodeNoOptimization_numeral bytes signed hne
  obtain ⟨d, hd, -⟩ := h.noOptimization []
  have hcut : usint n.length < n.length := by
    have : n.length % 65536 < 65536 := Nat.mod_lt _ (by norm_num)
    unfold usint
    omega
  have herror := countSeptets_cut n hcut
  unfold emittedNoOptimization at hd
  rw [hn, Numeral.length_bytes, List.append_nil, decodeLEB128, herror, bind_error] at hd
  cases hd

/-- **A number comes back exactly when its septets can be counted**: up to 57343 bytes. -/
theorem codecExact_iff (first : UInt8) (others : List UInt8) (signed : Bool) :
    CodecExact (first :: others) signed ↔ (first :: others).length ≤ 57343 := by
  have hne : first :: others ≠ [] := by simp
  rw [← numSeptetsFor_lt]
  refine ⟨fun h => ?_, codecExact_of_counted hne⟩
  by_contra hcount
  exact not_codecExact_of_uncounted hne hcount h

/-- The shortest number the count wraps on. -/
theorem not_codecExact : ¬ CodecExact (List.replicate 57344 0xFF) false := by
  refine not_codecExact_of_uncounted ?_ ?_
  · rw [← List.length_pos_iff, List.length_replicate]
    norm_num
  · rw [List.length_replicate, numSeptetsFor_lt]
    norm_num

end Encoded

/-! ## C integers -/

def UIntReturns (v : UInt32) : Prop :=
  ∀ rest, leb128ToUInt (uintToLEB128 v.toNat ++ rest) = .ok (v.toNat, (uintToLEB128 v.toNat).length)

def IntReturns (v : Int32) : Prop :=
  ∀ rest, leb128ToInt (intToLEB128 v.toInt ++ rest) = .ok (v.toInt, (intToLEB128 v.toInt).length)

/-- The sixth bit of the last of up to four septets is clear in a number that is not negative. -/
def ReturnsInt (v : Int) : Prop :=
  (-2 ^ 27 ≤ v ∧ v < 2 ^ 6) ∨ (2 ^ 7 ≤ v ∧ v < 2 ^ 13) ∨ (2 ^ 14 ≤ v ∧ v < 2 ^ 20) ∨ (2 ^ 21 ≤ v ∧ v < 2 ^ 27)

instance (v : Int) : Decidable (ReturnsInt v) := inferInstanceAs (Decidable (_ ∨ _))

theorem uint_returns (v : UInt32) : UIntReturns v := by
  intro rest
  have hv : v.toNat < 2 ^ 32 := v.toNat_lt
  rw [uintToLEB128_eq hv, leb128ToUInt_uleb (by omega), if_pos hv, length_uleb]

/-- An unsigned numeral read as a signed one. -/
theorem leb128ToInt_uleb {v : Nat} (hv : v < 2 ^ 32) (rest : List UInt8) :
    leb128ToInt (uleb v ++ rest) =
      if ulebLen v ≤ 4 then .ok (Int.bmod v (128 ^ ulebLen v : Nat), ulebLen v) else .error .assertion := by
  have h := leb128ToInt_numeral (n := .ofNat v) (by simpa using ulebLen_word (show v < 2 ^ 64 by omega)) rest
  simpa only [Numeral.bytes_ofNat, Numeral.length_ofNat, Numeral.signedValue, Numeral.value_ofNat] using h

/-- The septets of an unsigned number spell it in two's complement when they leave room for a sign bit. -/
theorem bmod_ulebLen {v : Nat} : Int.bmod v (128 ^ ulebLen v : Nat) = v ↔ 2 * v < 128 ^ ulebLen v := by
  have hlt := lt_pow_ulebLen v
  have heven : 128 ^ ulebLen v % 2 = 0 := by
    rw [ulebLen, pow_succ]
    omega
  have h := bmod_byte hlt heven
  split at h
  · rename_i hroom
    simp [hroom, h]
  · rename_i hroom
    rw [h]
    constructor
    · intro heq
      omega
    · intro hroom'
      exact absurd hroom' hroom

/-- Up to four septets with room for a sign bit. -/
theorem ulebLen_room {v : Nat} : ulebLen v ≤ 4 ∧ 2 * v < 128 ^ ulebLen v ↔ ReturnsInt v := by
  have h1 := ulebLen_le_iff (n := v) (show 0 < 1 by norm_num)
  have h2 := ulebLen_le_iff (n := v) (show 0 < 2 by norm_num)
  have h3 := ulebLen_le_iff (n := v) (show 0 < 3 by norm_num)
  have h4 := ulebLen_le_iff (n := v) (show 0 < 4 by norm_num)
  have hpos := ulebLen_pos v
  unfold ReturnsInt
  norm_num at h1 h2 h3 h4 ⊢
  by_cases hle : ulebLen v ≤ 4
  · obtain h | h | h | h : ulebLen v = 1 ∨ ulebLen v = 2 ∨ ulebLen v = 3 ∨ ulebLen v = 4 := by omega
    · rw [h] at h1 h2 h3 h4 ⊢
      norm_num at *
      omega
    · rw [h] at h1 h2 h3 h4 ⊢
      norm_num at *
      omega
    · rw [h] at h1 h2 h3 h4 ⊢
      norm_num at *
      omega
    · rw [h] at h1 h2 h3 h4 ⊢
      norm_num at *
      omega
  · omega

theorem int_returns_nonneg {v : Int32} (h0 : 0 ≤ v.toInt) : IntReturns v ↔ ReturnsInt v.toInt := by
  have hhi : v.toInt < 2 ^ 31 := Int32.toInt_lt v
  obtain ⟨x, hx⟩ := Int.eq_ofNat_of_zero_le h0
  unfold IntReturns
  rw [hx, intToLEB128_of_nonneg (by omega) (by omega), Int.toNat_natCast, length_uleb, ← ulebLen_room]
  have hread := leb128ToInt_uleb (v := x) (by omega)
  constructor
  · intro h
    have hnil := h []
    rw [hread] at hnil
    split at hnil
    · rename_i h4
      rw [Except.ok.injEq, Prod.mk.injEq] at hnil
      exact ⟨h4, bmod_ulebLen.mp hnil.1⟩
    · cases hnil
  · intro ⟨h4, hroom⟩ rest
    rw [hread, if_pos h4, bmod_ulebLen.mpr hroom]

theorem int_returns_neg {v : Int32} (h0 : v.toInt < 0) : IntReturns v ↔ ReturnsInt v.toInt := by
  have hlo : -2 ^ 31 ≤ v.toInt := Int32.le_toInt v
  have hfour : slebLen v.toInt ≤ 4 ↔ ReturnsInt v.toInt := by
    rw [slebLen_le_iff (by norm_num), FitsSeptets, ReturnsInt]
    norm_num
    omega
  unfold IntReturns
  rw [intToLEB128_of_neg h0 hlo, length_sleb, ← hfour]
  constructor
  · intro h
    have hnil := h []
    rw [leb128ToInt_sleb (by omega) (by omega)] at hnil
    split at hnil
    · assumption
    · cases hnil
  · intro h4 rest
    rw [leb128ToInt_sleb (by omega) (by omega), if_pos h4]

/-- **The wrappers for C ints.** -/
theorem intWrappers_iff (u : UInt32) (v : Int32) : UIntReturns u ∧ (IntReturns v ↔ ReturnsInt v.toInt) := by
  refine ⟨uint_returns u, ?_⟩
  by_cases h0 : 0 ≤ v.toInt
  · exact int_returns_nonneg h0
  · exact int_returns_neg (by omega)

/-- 64 is written as `0x40`, which is read as -64. -/
theorem not_intReturns : ¬ IntReturns 64 := by
  intro h
  have hread := h []
  revert hread
  decide

/-! ## Words -/

def UlebReturns (w : UInt64) : Prop :=
  ∀ buf buf', addUlebToGrowingBuffer buf w.toNat = .ok buf' →
    ∀ rest, leb128ToUWord (buf'.data.drop buf.len ++ rest) = .ok (w.toNat, buf'.len - buf.len)

def SlebReturns (w : Int64) : Prop :=
  ∀ buf buf', addSlebToGrowingBuffer buf (UInt64.ofInt w.toInt).toNat = .ok buf' →
    ∀ rest, leb128ToSWord (buf'.data.drop buf.len ++ rest) = .ok (w.toInt, buf'.len - buf.len)

/-- Four septets at most, or nine. -/
def ReturnsWord (w : Int) : Prop :=
  (-2 ^ 27 ≤ w ∧ w < 2 ^ 27) ∨ (-2 ^ 62 ≤ w ∧ w < -2 ^ 55) ∨ (2 ^ 55 ≤ w ∧ w < 2 ^ 62)

instance (w : Int) : Decidable (ReturnsWord w) := inferInstanceAs (Decidable (_ ∨ _))

/-- What was appended to a buffer. -/
theorem appended {buf buf' : GrowingBuffer} {bytes : List UInt8} (h : buf'.data = buf.data ++ bytes) :
    buf'.data.drop buf.len = bytes ∧ buf'.len - buf.len = bytes.length := by
  unfold GrowingBuffer.len
  rw [h]
  simp

theorem uleb_returns (w : UInt64) : UlebReturns w := by
  intro buf buf' hadd rest
  obtain ⟨hbytes, hlen⟩ := appended (addUlebToGrowingBuffer_ok w.toNat_lt hadd)
  rw [hbytes, hlen, leb128ToUWord_uleb w.toNat_lt, length_uleb]

theorem slebLen_returns {w : Int} : slebLen w ≤ 4 ∨ slebLen w = 9 ↔ ReturnsWord w := by
  have h4 := slebLen_le_iff (z := w) (show 0 < 4 by norm_num)
  have h8 := slebLen_le_iff (z := w) (show 0 < 8 by norm_num)
  have h9 := slebLen_le_iff (z := w) (show 0 < 9 by norm_num)
  have hnine : slebLen w = 9 ↔ slebLen w ≤ 9 ∧ ¬ slebLen w ≤ 8 := by omega
  rw [hnine, h4, h8, h9]
  unfold FitsSeptets ReturnsWord
  norm_num
  omega

theorem sleb_returns (w : Int64) : SlebReturns w ↔ ReturnsWord w.toInt := by
  have hlo : -2 ^ 63 ≤ w.toInt := Int64.le_toInt w
  have hhi : w.toInt < 2 ^ 63 := Int64.toInt_lt w
  rw [← slebLen_returns]
  constructor
  · intro h
    have hten : slebLen w.toInt ≤ 10 := by
      rw [slebLen_le_iff (by norm_num), FitsSeptets]
      norm_num
      omega
    obtain ⟨buf', hadd⟩ : ∃ buf', addSlebToGrowingBuffer .zero (UInt64.ofInt w.toInt).toNat = .ok buf' := by
      refine addToGrowingBuffer_total ?_
      have hz := encodeAsLEB128_toLE_signed (v := (UInt64.ofInt w.toInt).toNat) (show 0 < 8 by norm_num) le_rfl
      rw [show (256 : Nat) ^ 8 = 2 ^ 64 by norm_num, bmod_ofInt hlo hhi] at hz
      rw [hz, length_sleb, GrowingBuffer.len, GrowingBuffer.zero, List.length_nil]
      omega
    have hread := h .zero buf' hadd []
    obtain ⟨hbytes, -⟩ := appended (addSlebToGrowingBuffer_ok hlo hhi hadd)
    rw [hbytes, leb128ToSWord_sleb hlo hhi] at hread
    by_contra hnot
    rw [if_neg hnot] at hread
    split at hread <;> cases hread
  · intro hlen buf buf' hadd rest
    obtain ⟨hbytes, hcount⟩ := appended (addSlebToGrowingBuffer_ok hlo hhi hadd)
    rw [hbytes, hcount, leb128ToSWord_sleb hlo hhi, if_pos hlen, length_sleb]

/-- **The wrappers for words.** -/
theorem wordWrappers_iff (u : UInt64) (w : Int64) : UlebReturns u ∧ (SlebReturns w ↔ ReturnsWord w.toInt) :=
  ⟨uleb_returns u, sleb_returns w⟩

/-- Five septets decode to five bytes, and `sextend` shifts an int by 39. -/
theorem not_slebReturns : ¬ SlebReturns (-2 ^ 28) := by
  intro h
  have hread := h .zero ⟨[0x80, 0x80, 0x80, 0x80, 0x7F], 10, by simp, by norm_num⟩ (by decide) []
  revert hread
  decide

end Katana
