/-
  Katana.Leb.Decode — LEB128 decoding (leb.c) and `sextend` (util/util.c).

  Proved, for every numeral and whatever follows it in the buffer:
  - `fill_eq`: the decoder's loop state after any number of septets, in closed form.
  - `leb128ToUInt_uleb` / `leb128ToUWord_uleb`: unsigned numbers come back, or the size assertion
    fails exactly when they do not fit.
  - `leb128ToInt_sleb` / `leb128ToSWord_sleb`: signed numbers come back by their numeral's length;
    a word of five to eight septets asks `sextend` for a shift C leaves undefined.
-/
import Katana.Leb.Encode

namespace Katana

open Lib

/-! ## Reading memory -/

def readLE (k : Nat) (p : List UInt8) : Except Fault Nat := do
  defined (k ≤ p.length)
  .ok (leNat (p.take k))

theorem readLE_toLE (k x : Nat) (rest : List UInt8) : readLE k (toLE k x ++ rest) = .ok (x % 256 ^ k) := by
  unfold readLE
  rw [defined_of (by simp), bind_ok, List.take_left' (length_toLE k x), leNat_toLE]

/-! ## decodeLEB128 -/

/-- `while(bytes[numSeptets++]&(1<<7)) {}`; the read past the end of the buffer is undefined. -/
def countSeptets : List UInt8 → Except Fault Nat
  | [] => .error .undefined
  | x :: bytes =>
    if x.toNat &&& 1 <<< 7 ≠ 0 then do
      let n ← countSeptets bytes
      .ok (n + 1)
    else .ok 1

/-- The loop's state: the result so far, the byte being filled and how many of its bits are left. -/
structure Filling where
  result : List UInt8
  byteIdx : Nat
  bitsLeftInByte : Nat
  deriving DecidableEq, Repr

def fillSeptet (st : Filling) (x : UInt8) : Filling :=
  let septetBits := x.toNat &&& 0x7F
  let shift := 8 - st.bitsLeftInByte
  let old := (st.result.getD st.byteIdx 0).toNat
  let result := st.result.set st.byteIdx (UInt8.ofNat (old ||| (septetBits <<< shift) % 256))
  if st.bitsLeftInByte = 8 then ⟨result, st.byteIdx, 1⟩
  else if st.bitsLeftInByte = 7 then ⟨result, st.byteIdx + 1, 8⟩
  else ⟨result.set (st.byteIdx + 1) (UInt8.ofNat (septetBits >>> (8 - shift))), st.byteIdx + 1, st.bitsLeftInByte + 1⟩

/-- `for(i=8-bitsLeftInByte;i<=7;i++) b|=(1<<i)`. -/
def extendByte (bitsLeftInByte b : Nat) : Nat :=
  (List.range bitsLeftInByte).foldl (fun b i => b ||| 1 <<< (8 - bitsLeftInByte + i)) b

def signExtendTop (st : Filling) : List UInt8 :=
  let top := (st.result.getD st.byteIdx 0).toNat
  if st.bitsLeftInByte < 8 ∧ top &&& 1 <<< (7 - st.bitsLeftInByte) ≠ 0 then
    st.result.set st.byteIdx (UInt8.ofNat (extendByte st.bitsLeftInByte top))
  else st.result

/-- The bytes `decodeLEB128` returns, with `*numBytesOut` and `*numSeptetsRead`. -/
structure Decoded where
  result : List UInt8
  numBytes : Nat
  numSeptetsRead : Nat
  deriving DecidableEq, Repr

/-- The bytes filled so far, the one in progress included. -/
def Filling.numBytes (st : Filling) : Nat := if st.bitsLeftInByte = 8 then st.byteIdx else st.byteIdx + 1

/-- The unsigned decoder gives up a last byte that is zero. -/
def dropZeroByte (st : Filling) : Filling :=
  if st.bitsLeftInByte ≠ 8 ∧ st.result.getD st.byteIdx 0 = 0 ∧ 0 < st.byteIdx then { st with byteIdx := st.byteIdx - 1 }
  else st

def decodeLEB128 (bytes : List UInt8) (signed : Bool) : Except Fault Decoded := do
  let numSeptets ← countSeptets bytes
  let numBytesMax := (numSeptets * 7 + 7) / 8
  let st := (bytes.take numSeptets).foldl fillSeptet ⟨List.replicate numBytesMax 0, 0, 8⟩
  let st := if signed then { st with result := signExtendTop st } else dropZeroByte st
  .ok ⟨st.result.take st.numBytes, usint st.numBytes, usint numSeptets⟩

/-! ## The C types read back -/

/-- `sextend`; the mask is an `int`, so the shift is defined for one to four bytes only. -/
def sextend (val fromWhichByte : Nat) : Except Fault Nat := do
  if fromWhichByte = 8 then .ok val
  else
    assert (fromWhichByte < 8)
    defined (1 ≤ fromWhichByte ∧ fromWhichByte ≤ 4)
    -- `1<<31` is negative and widens with ones
    let mask := if fromWhichByte = 4 then 0xFFFFFFFF80000000 else 1 <<< (8 * fromWhichByte - 1)
    if val &&& mask ≠ 0 then
      .ok (leNat ((toLE 8 val).take fromWhichByte ++ List.replicate (8 - fromWhichByte) 0xFF))
    else .ok val

/-- The value read, and the number of LEB bytes it took. -/
def leb128ToUInt (bytes : List UInt8) : Except Fault (Nat × Nat) := do
  let d ← decodeLEB128 bytes false
  assert (d.numBytes ≤ 4)
  .ok (leNat (d.result.take d.numBytes), d.numSeptetsRead)

def leb128ToUWord (bytes : List UInt8) : Except Fault (Nat × Nat) := do
  let d ← decodeLEB128 bytes false
  assert (d.numBytes ≤ 8)
  .ok (leNat (d.result.take d.numBytes), d.numSeptetsRead)

def leb128ToInt (bytes : List UInt8) : Except Fault (Int × Nat) := do
  let d ← decodeLEB128 bytes true
  assert (d.numBytes ≤ 4)
  let val := leNat (d.result.take d.numBytes)
  let val ← if d.numBytes < 4 then sextend val d.numBytes else .ok val
  .ok (Int.bmod val (2 ^ 32), d.numSeptetsRead)

def leb128ToSWord (bytes : List UInt8) : Except Fault (Int × Nat) := do
  let d ← decodeLEB128 bytes true
  assert (d.numBytes ≤ 8)
  let val := leNat (d.result.take d.numBytes)
  let val ← if d.numBytes < 8 then sextend val d.numBytes else .ok val
  .ok (Int.bmod val (2 ^ 64), d.numSeptetsRead)

example : leb128ToUInt [0xe5, 0x8e, 0x26, 0x00] = .ok (624485, 3) := by decide

/-! ## The loop puts the digits back together -/

theorem countSeptets_mark {l : List Nat} (hl : ∀ d ∈ l, d < 128) (hne : l ≠ []) (rest : List UInt8) :
    countSeptets (mark l ++ rest) = .ok l.length := by
  induction l with
  | nil => exact absurd rfl hne
  | cons d l ih =>
    have hd : d < 128 := hl d (by simp)
    have htop : ∀ {x : Nat}, x < 256 → (x &&& 1 <<< 7 = 0 ↔ x < 128) := and_top_bit
    cases l with
    | nil =>
      have h : (UInt8.ofNat d).toNat &&& 1 <<< 7 = 0 := by
        rw [htop (UInt8.toNat_lt _), UInt8.toNat_ofNat']; omega
      rw [mark, List.singleton_append, countSeptets, if_neg (not_not.mpr h)]
      rfl
    | cons e l =>
      have h : (UInt8.ofNat (d + 128)).toNat &&& 1 <<< 7 ≠ 0 := by
        rw [ne_eq, htop (UInt8.toNat_lt _), UInt8.toNat_ofNat']; omega
      rw [mark_cons (by simp), List.cons_append, countSeptets, if_pos h,
        ih (fun x hx => hl x (by simp [hx])) (by simp)]
      rfl

/-- Adding to one byte of a word that has room for it. -/
theorem set_toLE {k q v c : Nat} {x : UInt8} (hq : q < k) (hx : x.toNat = v / 256 ^ q + c) :
    (toLE k v).set q x = toLE k (v + 256 ^ q * c) := by
  induction q generalizing k v with
  | zero =>
    obtain ⟨k, rfl⟩ := Nat.exists_eq_add_of_le' hq
    have := UInt8.toNat_lt x
    simp only [pow_zero, Nat.div_one, Nat.one_mul] at hx ⊢
    rw [toLE, toLE, List.set_cons_zero]
    congr 1
    · apply UInt8.toNat_inj.mp; rw [UInt8.toNat_ofNat']; omega
    · rw [Nat.div_eq_of_lt (by omega), Nat.div_eq_of_lt (by omega)]
  | succ q ih =>
    obtain ⟨k, rfl⟩ := Nat.exists_eq_add_of_le' (show 1 ≤ k by omega)
    rw [toLE, toLE, List.set_cons_succ]
    congr 1
    · apply UInt8.toNat_inj.mp
      rw [UInt8.toNat_ofNat', UInt8.toNat_ofNat', show 256 ^ (q + 1) * c = 2 ^ 8 * (256 ^ q * c) by ring,
        Nat.add_mul_mod_self_left]
    · rw [ih (v := v / 256) (by omega) (by rw [Nat.div_div_eq_div_mul, ← pow_succ']; exact hx), pow_succ',
        Nat.mul_assoc, Nat.add_mul_div_left _ _ (by norm_num)]

theorem getD_toLE {k q v : Nat} (hq : q < k) : ((toLE k v).getD q 0).toNat = v / 256 ^ q % 256 := by
  induction q generalizing k v with
  | zero =>
    obtain ⟨k, rfl⟩ := Nat.exists_eq_add_of_le' hq
    simp [toLE]
  | succ q ih =>
    obtain ⟨k, rfl⟩ := Nat.exists_eq_add_of_le' (show 1 ≤ k by omega)
    rw [toLE, List.getD_cons_succ, ih (by omega), Nat.div_div_eq_div_mul, ← pow_succ']

/-- The loop's state after `i` septets that spell `v`. -/
def filled (max v i : Nat) : Filling := ⟨toLE max v, 7 * i / 8, 8 - 7 * i % 8⟩

theorem shifted_low {d r : Nat} (hr : r < 8) : d * 2 ^ r % 256 = 2 ^ r * (d % 2 ^ (8 - r)) := by
  rw [show 256 = 2 ^ r * 2 ^ (8 - r) by rw [← pow_add, Nat.add_sub_cancel' (by omega)]; rfl, Nat.mul_comm d,
    Nat.mul_mod_mul_left]

/-- The low part of a septet shifted into a byte does not touch the bits already there. -/
theorem or_shifted {b d r : Nat} (hb : b < 2 ^ r) (hr : r < 8) :
    b ||| (d <<< r) % 256 = b + d * 2 ^ r % 256 ∧ b + d * 2 ^ r % 256 < 256 := by
  have hlow : d % 2 ^ (8 - r) + 1 ≤ 2 ^ (8 - r) := Nat.mod_lt _ (by positivity)
  have hmul := Nat.mul_le_mul_left (2 ^ r) hlow
  rw [← pow_add, Nat.add_sub_cancel' (by omega), Nat.mul_add] at hmul
  constructor
  · rw [Nat.shiftLeft_eq, shifted_low hr, Nat.mul_comm (2 ^ r), ← Nat.shiftLeft_eq, or_high hb, Nat.shiftLeft_eq,
      Nat.mul_comm _ (2 ^ r)]
  · rw [shifted_low hr]; omega

theorem fillSeptet_filled {max v i : Nat} {x : UInt8} (hv : v < 128 ^ i) (hroom : 7 * (i + 1) ≤ 8 * max) :
    fillSeptet (filled max v i) x = filled max (v + 128 ^ i * (x.toNat % 128)) (i + 1) := by
  obtain ⟨q, r, hr, hqr⟩ : ∃ q r, r < 8 ∧ 7 * i = 8 * q + r := ⟨7 * i / 8, 7 * i % 8, by omega, by omega⟩
  have hpow : 128 ^ i = 256 ^ q * 2 ^ r := by
    rw [show (128 : Nat) = 2 ^ 7 by norm_num, show (256 : Nat) = 2 ^ 8 by norm_num, ← pow_mul, ← pow_mul, hqr, pow_add]
  have hr2 : 2 ^ r ≤ 128 := Nat.pow_le_pow_right (by norm_num : 0 < 2) (show r ≤ 7 by omega)
  have htop : v / 256 ^ q < 2 ^ r := by
    rw [Nat.div_lt_iff_lt_mul (by positivity), Nat.mul_comm, ← hpow]; exact hv
  have hold : ((toLE max v).getD q 0).toNat = v / 256 ^ q := by
    rw [getD_toLE (by omega)]; exact Nat.mod_eq_of_lt (by omega)
  have hd : x.toNat % 128 < 128 := Nat.mod_lt _ (by norm_num)
  simp only [fillSeptet, filled, show 7 * i / 8 = q by omega, show 7 * i % 8 = r by omega,
    show 8 - (8 - r) = r by omega, and_septet, hold]
  generalize x.toNat % 128 = d at hd
  -- the bits of the septet that fit in this byte
  obtain ⟨hor, hbyte⟩ := or_shifted (d := d) htop hr
  have hlow : (toLE max v).set q (UInt8.ofNat (v / 256 ^ q ||| (d <<< r) % 256)) =
      toLE max (v + 256 ^ q * (d * 2 ^ r % 256)) := by
    apply set_toLE (by omega)
    rw [UInt8.toNat_ofNat', hor]
    exact Nat.mod_eq_of_lt hbyte
  rw [hlow]
  split
  · obtain rfl : r = 0 := by omega
    rw [show 7 * (i + 1) / 8 = q by omega, show 7 * (i + 1) % 8 = 7 by omega, hpow, pow_zero, Nat.mul_one, Nat.mul_one,
      Nat.mod_eq_of_lt (show d < 256 by omega)]
  · split
    · obtain rfl : r = 1 := by omega
      rw [show 7 * (i + 1) / 8 = q + 1 by omega, show 7 * (i + 1) % 8 = 0 by omega, hpow,
        Nat.mod_eq_of_lt (show d * 2 ^ 1 < 256 by omega), Nat.mul_assoc, Nat.mul_comm d]
    · -- the rest of the septet opens the next byte
      have hcarry : d >>> (8 - r) = d * 2 ^ r / 256 := by
        rw [Nat.shiftRight_eq_div_pow, show 256 = 2 ^ (8 - r) * 2 ^ r by rw [← pow_add, Nat.sub_add_cancel (by omega)]; rfl,
          Nat.mul_div_mul_right _ _ (by positivity)]
      have hnext : (v + 256 ^ q * (d * 2 ^ r % 256)) / 256 ^ (q + 1) = 0 := by
        rw [pow_succ, ← Nat.div_div_eq_div_mul, Nat.add_mul_div_left _ _ (by positivity), Nat.div_eq_of_lt hbyte]
      have hd256 : d * 2 ^ r / 256 < 256 := by
        rw [← hcarry, Nat.shiftRight_eq_div_pow]
        exact lt_of_le_of_lt (Nat.div_le_self _ _) (by omega)
      rw [hcarry, set_toLE (c := d * 2 ^ r / 256) (by omega)
        (by rw [hnext, UInt8.toNat_ofNat', Nat.mod_eq_of_lt hd256, Nat.zero_add]),
        show 7 * (i + 1) / 8 = q + 1 by omega, show 8 - r + 1 = 8 - 7 * (i + 1) % 8 by omega]
      congr 2
      calc v + 256 ^ q * (d * 2 ^ r % 256) + 256 ^ (q + 1) * (d * 2 ^ r / 256)
          = v + 256 ^ q * (d * 2 ^ r % 256 + 256 * (d * 2 ^ r / 256)) := by rw [pow_succ]; ring
        _ = v + 128 ^ i * d := by rw [Nat.mod_add_div, hpow]; ring

theorem replicate_zero_eq (k : Nat) : List.replicate k (0 : UInt8) = toLE k 0 := by
  induction k with
  | zero => rfl
  | succ k ih => rw [List.replicate_succ, ih]; rfl

theorem fill_filled {max v i : Nat} (xs : List UInt8) (hv : v < 128 ^ i) (hroom : 7 * (i + xs.length) ≤ 8 * max) :
    xs.foldl fillSeptet (filled max v i) =
      filled max (v + 128 ^ i * Nat.ofDigits 128 (xs.map fun x => x.toNat % 128)) (i + xs.length) := by
  induction xs generalizing v i with
  | nil => simp
  | cons x xs ih =>
    rw [List.length_cons] at hroom
    have hx : x.toNat % 128 + 1 ≤ 128 := Nat.mod_lt _ (by norm_num)
    have hnext : v + 128 ^ i * (x.toNat % 128) < 128 ^ (i + 1) := by
      have := Nat.mul_le_mul_left (128 ^ i) hx
      rw [pow_succ]; linarith
    rw [List.foldl_cons, fillSeptet_filled hv (by omega), ih hnext (by omega), List.map_cons, Nat.ofDigits_cons,
      List.length_cons, pow_succ]
    congr 1
    · ring
    · omega

/-- The loop over a numeral's bytes. -/
theorem fill_eq {l : List Nat} (hl : ∀ d ∈ l, d < 128) {max : Nat} (hroom : 7 * l.length ≤ 8 * max) :
    (mark l).foldl fillSeptet ⟨List.replicate max 0, 0, 8⟩ = filled max (Nat.ofDigits 128 l) l.length := by
  have h := fill_filled (mark l) (show 0 < 128 ^ 0 by norm_num)
    (show 7 * (0 + (mark l).length) ≤ 8 * max by simpa using hroom)
  rw [mark_and_digits hl, pow_zero, Nat.one_mul, Nat.zero_add, Nat.zero_add, length_mark] at h
  rw [replicate_zero_eq]
  exact h

/-! ## What decodeLEB128 returns -/

/-- The number of bytes an unsigned numeral of `n` septets that spells `v` decodes to. -/
def unsignedBytes (v n : Nat) : Nat :=
  if 7 * n % 8 = 0 ∨ v / 256 ^ (7 * n / 8) = 0 ∧ 0 < 7 * n / 8 then 7 * n / 8 else 7 * n / 8 + 1

/-- What the unsigned decoder keeps of its last state. -/
theorem dropZeroByte_filled {v n : Nat} (hv : v < 128 ^ n) :
    (dropZeroByte (filled ((n * 7 + 7) / 8) v n)).result = toLE ((n * 7 + 7) / 8) v ∧
    (dropZeroByte (filled ((n * 7 + 7) / 8) v n)).numBytes = unsignedBytes v n := by
  obtain ⟨q, r, hr, hqr⟩ : ∃ q r, r < 8 ∧ 7 * n = 8 * q + r := ⟨7 * n / 8, 7 * n % 8, by omega, by omega⟩
  have hq : 7 * n / 8 = q := by omega
  have hrem : 7 * n % 8 = r := by omega
  have hpow : 128 ^ n = 256 ^ q * 2 ^ r := by
    rw [show (128 : Nat) = 2 ^ 7 by norm_num, show (256 : Nat) = 2 ^ 8 by norm_num, ← pow_mul, ← pow_mul, hqr, pow_add]
  have htop : v / 256 ^ q < 2 ^ r := by
    rw [Nat.div_lt_iff_lt_mul (by positivity), Nat.mul_comm, ← hpow]; exact hv
  have hr2 : 2 ^ r ≤ 128 := Nat.pow_le_pow_right (by norm_num : 0 < 2) (show r ≤ 7 by omega)
  have hzero : r ≠ 0 → ((toLE ((n * 7 + 7) / 8) v).getD q 0 = 0 ↔ v / 256 ^ q = 0) := by
    intro hr0
    rw [← UInt8.toNat_inj, getD_toLE (by omega), Nat.mod_eq_of_lt (by omega)]; rfl
  simp only [dropZeroByte, filled, hq, hrem, unsignedBytes]
  by_cases hr0 : r = 0
  · subst hr0; simp [Filling.numBytes]
  · by_cases hdrop : v / 256 ^ q = 0 ∧ 0 < q
    · rw [if_pos ⟨by omega, (hzero hr0).mpr hdrop.1, hdrop.2⟩, if_pos (.inr hdrop)]
      simp only [Filling.numBytes, if_neg (show 8 - r ≠ 8 by omega)]
      exact ⟨trivial, by omega⟩
    · rw [if_neg (fun h => hdrop ⟨(hzero hr0).mp h.2.1, h.2.2⟩), if_neg (by omega)]
      simp only [Filling.numBytes, if_neg (show 8 - r ≠ 8 by omega)]
      exact ⟨trivial, trivial⟩

theorem unsignedBytes_le (v n : Nat) : unsignedBytes v n ≤ (n * 7 + 7) / 8 := by
  rw [unsignedBytes]; split <;> omega

theorem pow256_le_pow128 {i j : Nat} (h : 8 * j ≤ 7 * i) : 256 ^ j ≤ 128 ^ i := by
  calc 256 ^ j = 2 ^ (8 * j) := by rw [pow_mul]; norm_num
    _ ≤ 2 ^ (7 * i) := Nat.pow_le_pow_right (by norm_num) h
    _ = 128 ^ i := by rw [pow_mul]; norm_num

theorem pow128_le_pow256 {i j : Nat} (h : 7 * i ≤ 8 * j) : 128 ^ i ≤ 256 ^ j := by
  calc 128 ^ i = 2 ^ (7 * i) := by rw [pow_mul]; norm_num
    _ ≤ 2 ^ (8 * j) := Nat.pow_le_pow_right (by norm_num) h
    _ = 256 ^ j := by rw [pow_mul]; norm_num

/-- The bytes kept are enough for the number. -/
theorem lt_unsignedBytes {v n : Nat} (hv : v < 128 ^ n) : v < 256 ^ unsignedBytes v n := by
  unfold unsignedBytes
  split
  · rename_i h
    rcases h with h | ⟨h, -⟩
    · exact lt_of_lt_of_le hv (pow128_le_pow256 (by omega))
    · exact (Nat.div_eq_zero_iff_lt (by positivity)).mp h
  · exact lt_of_lt_of_le hv (pow128_le_pow256 (by omega))

theorem decode_unsigned {l : List Nat} (hl : ∀ d ∈ l, d < 128) (hne : l ≠ []) (rest : List UInt8) :
    decodeLEB128 (mark l ++ rest) false =
      .ok ⟨toLE (unsignedBytes (Nat.ofDigits 128 l) l.length) (Nat.ofDigits 128 l),
        usint (unsignedBytes (Nat.ofDigits 128 l) l.length), usint l.length⟩ := by
  have hv := Nat.ofDigits_lt_base_pow_length (by norm_num : 1 < 128) hl
  obtain ⟨hres, hnum⟩ := dropZeroByte_filled hv
  rw [decodeLEB128, countSeptets_mark hl hne, bind_ok]
  simp only [List.take_left' (length_mark l), fill_eq hl (show 7 * l.length ≤ 8 * ((l.length * 7 + 7) / 8) by omega),
    Bool.false_eq_true, if_false, hres, hnum, take_toLE (unsignedBytes_le _ _)]

def residueBytes (z : Int) (k : Nat) : Nat := (z % 256 ^ k).toNat

theorem setBits_eq {r top : Nat} (htop : top < 2 ^ r) (n : Nat) :
    (List.range n).foldl (fun b i => b ||| 1 <<< (r + i)) top = top + (2 ^ (r + n) - 2 ^ r) := by
  induction n with
  | zero => simp
  | succ n ih =>
    have hle : 2 ^ r ≤ 2 ^ (r + n) := Nat.pow_le_pow_right (by omega) (Nat.le_add_right r n)
    have hset : top + (2 ^ (r + n) - 2 ^ r) < 2 ^ (r + n) := by omega
    have hnext : 2 ^ (r + (n + 1)) = 2 ^ (r + n) + 2 ^ (r + n) := by rw [← Nat.add_assoc, pow_succ, Nat.mul_two]
    have hor := Nat.two_pow_add_eq_or_of_lt hset 1
    rw [Nat.mul_one] at hor
    rw [List.range_succ, List.foldl_append, ih, List.foldl_cons, List.foldl_nil, Nat.one_shiftLeft, Nat.or_comm, ← hor,
      hnext]
    omega

theorem signBit_iff {r top : Nat} (hr : 0 < r) (hr8 : r < 8) (htop : top < 2 ^ r) :
    (top &&& 1 <<< (7 - (8 - r)) ≠ 0 ↔ 2 ^ r ≤ 2 * top) ∧ extendByte (8 - r) top = top + (256 - 2 ^ r) := by
  constructor
  · obtain ⟨k, rfl⟩ : ∃ k, r = k + 1 := ⟨r - 1, by omega⟩
    rw [show 7 - (8 - (k + 1)) = k by omega, Nat.one_shiftLeft, and_bit, pow_succ]
    rw [pow_succ] at htop
    have hpos : 0 < 2 ^ k := Nat.two_pow_pos k
    have hquot : top / 2 ^ k < 2 := Nat.div_lt_of_lt_mul htop
    have hbit : 1 ≤ top / 2 ^ k ↔ 2 ^ k ≤ top := by rw [Nat.le_div_iff_mul_le hpos, Nat.one_mul]
    rw [Nat.mod_eq_of_lt hquot, Nat.mul_ne_zero_iff]
    generalize top / 2 ^ k = q at hbit
    omega
  · have hset := setBits_eq htop (8 - r)
    rw [show r + (8 - r) = 8 by omega] at hset
    rw [extendByte, show 8 - (8 - r) = r by omega]
    exact hset
theorem residueBytes_of_nonneg {x k : Nat} (h : x < 256 ^ k) : residueBytes x k = x := by
  rw [residueBytes]
  exact_mod_cast Nat.mod_eq_of_lt h

theorem residueBytes_of_neg {x M k : Nat} (hx : x < M) (hM : M ≤ 256 ^ k) :
    residueBytes ((x : Int) - M) k = x + (256 ^ k - M) := by
  have hc : ((256 ^ k : Nat) : Int) = 256 ^ k := by norm_cast
  rw [residueBytes, ← Int.add_mul_emod_self_left ((x : Int) - M) _ 1, mul_one, Int.emod_eq_of_lt] <;> rw [← hc] <;> omega

/-- What the signed decoder keeps: the bytes of the number the septets spell in two's complement. -/
theorem signExtendTop_filled {v n : Nat} (hv : v < 128 ^ n) (hn : 0 < n) :
    signExtendTop (filled ((n * 7 + 7) / 8) v n) =
      toLE ((n * 7 + 7) / 8) (residueBytes (Int.bmod v (128 ^ n : Nat)) ((n * 7 + 7) / 8)) := by
  obtain ⟨q, r, hr, hqr⟩ : ∃ q r, r < 8 ∧ 7 * n = 8 * q + r := ⟨7 * n / 8, 7 * n % 8, by omega, by omega⟩
  have hpow : 128 ^ n = 256 ^ q * 2 ^ r := by
    rw [show (128 : Nat) = 2 ^ 7 by norm_num, show (256 : Nat) = 2 ^ 8 by norm_num, ← pow_mul, ← pow_mul, hqr, pow_add]
  have heven : 128 ^ n % 2 = 0 := by rw [← Nat.sub_add_cancel hn, pow_succ]; omega
  simp only [signExtendTop, filled, show 7 * n / 8 = q by omega, show 7 * n % 8 = r by omega]
  by_cases hr0 : r = 0
  · -- the septets fill their bytes exactly
    subst hr0
    have hB : 128 ^ n = 256 ^ ((n * 7 + 7) / 8) := by rw [hpow, show (n * 7 + 7) / 8 = q by omega, pow_zero, Nat.mul_one]
    have hres : residueBytes (Int.bmod v (128 ^ n : Nat)) ((n * 7 + 7) / 8) = v := by
      have hc : (256 : Int) ^ ((n * 7 + 7) / 8) = ((128 ^ n : Nat) : Int) := by rw [hB]; norm_cast
      rw [residueBytes, hc, Int.bmod_emod, ← Int.natCast_emod, Int.toNat_natCast, Nat.mod_eq_of_lt hv]
    simp only [Nat.sub_zero, lt_irrefl, false_and, if_false, hres]
  · have hmax : (n * 7 + 7) / 8 = q + 1 := by omega
    have hr2 : 2 ^ r ≤ 128 := Nat.pow_le_pow_right (by norm_num : 0 < 2) (show r ≤ 7 by omega)
    have htop : v / 256 ^ q < 2 ^ r := by
      rw [Nat.div_lt_iff_lt_mul (by positivity), Nat.mul_comm, ← hpow]; exact hv
    have hle : 128 ^ n ≤ 256 ^ (q + 1) := by
      rw [hpow, pow_succ]; exact Nat.mul_le_mul_left _ (by omega)
    obtain ⟨hbit, hext⟩ := signBit_iff (by omega) hr htop
    have hsign : 2 ^ r ≤ 2 * (v / 256 ^ q) ↔ ¬ 2 * v < 128 ^ n := by
      obtain ⟨r, rfl⟩ := Nat.exists_eq_add_of_le' (show 1 ≤ r by omega)
      have h : 2 ^ r ≤ v / 256 ^ q ↔ 2 ^ r * 256 ^ q ≤ v := Nat.le_div_iff_mul_le (by positivity)
      have hM : 128 ^ n = 2 * (2 ^ r * 256 ^ q) := by rw [hpow, pow_succ]; ring
      rw [hM, pow_succ]
      omega
    rw [hmax, getD_toLE (by omega), Nat.mod_eq_of_lt (by omega), bmod_byte hv heven]
    by_cases hneg : 2 * v < 128 ^ n
    · rw [if_neg (fun h => hsign.mp (hbit.mp h.2) hneg), if_pos hneg, residueBytes_of_nonneg (by omega)]
    · rw [if_pos ⟨by omega, hbit.mpr (hsign.mpr hneg)⟩, if_neg hneg, residueBytes_of_neg hv hle, hext,
        set_toLE (c := 256 - 2 ^ r) (by omega) (by rw [UInt8.toNat_ofNat']; omega), hpow, Nat.mul_sub, pow_succ,
        Nat.mul_comm (256 ^ q) 256]

theorem numBytes_filled (res : List UInt8) (n : Nat) :
    Filling.numBytes ⟨res, 7 * n / 8, 8 - 7 * n % 8⟩ = (n * 7 + 7) / 8 := by
  simp only [Filling.numBytes]
  split <;> omega

theorem decode_signed {l : List Nat} (hl : ∀ d ∈ l, d < 128) (hne : l ≠ []) (rest : List UInt8) :
    decodeLEB128 (mark l ++ rest) true =
      .ok ⟨toLE ((l.length * 7 + 7) / 8)
          (residueBytes (Int.bmod (Nat.ofDigits 128 l : Nat) (128 ^ l.length : Nat)) ((l.length * 7 + 7) / 8)),
        usint ((l.length * 7 + 7) / 8), usint l.length⟩ := by
  have hv := Nat.ofDigits_lt_base_pow_length (by norm_num : 1 < 128) hl
  have hnum : ∀ res, Filling.numBytes { filled ((l.length * 7 + 7) / 8) (Nat.ofDigits 128 l) l.length with result := res } =
      (l.length * 7 + 7) / 8 := fun res => numBytes_filled res l.length
  rw [decodeLEB128, countSeptets_mark hl hne, bind_ok]
  simp only [List.take_left' (length_mark l), fill_eq hl (show 7 * l.length ≤ 8 * ((l.length * 7 + 7) / 8) by omega),
    if_true, hnum, signExtendTop_filled hv (List.length_pos_iff.mpr hne), take_toLE le_rfl]

/-! ## sextend -/

theorem leNat_replicate_ff (k : Nat) : leNat (List.replicate k 0xFF) = 256 ^ k - 1 := by
  induction k with
  | zero => rfl
  | succ k ih =>
    have h1 : 1 ≤ 256 ^ k := Nat.one_le_pow _ _ (by norm_num)
    rw [List.replicate_succ, leNat_cons, ih, pow_succ', show (0xFF : UInt8).toNat = 255 by rfl]
    omega

/-- The mask tests the sign bit of a number of `n` bytes. -/
theorem sextend_mask {x n : Nat} (hn : 1 ≤ n) (hn4 : n ≤ 4) (hx : x < 256 ^ n) :
    x &&& (if n = 4 then 0xFFFFFFFF80000000 else 1 <<< (8 * n - 1)) ≠ 0 ↔ 256 ^ n ≤ 2 * x := by
  obtain ⟨j, hj, hmask⟩ : ∃ j, 0 < j ∧
      (if n = 4 then 0xFFFFFFFF80000000 else 1 <<< (8 * n - 1)) = (2 ^ j - 1) <<< (8 * n - 1) := by
    by_cases h4 : n = 4
    · subst h4; exact ⟨33, by norm_num, by decide⟩
    · exact ⟨1, by norm_num, by simp [h4]⟩
  have hpow : 256 ^ n = 2 * 2 ^ (8 * n - 1) := by
    rw [← pow_succ', Nat.sub_add_cancel (by omega), pow_mul]; norm_num
  have hdiv : x / 2 ^ (8 * n - 1) < 2 := by
    rw [Nat.div_lt_iff_lt_mul (by positivity), ← hpow]; exact hx
  have h2j : 2 ≤ 2 ^ j := by
    calc 2 = 2 ^ 1 := rfl
      _ ≤ 2 ^ j := Nat.pow_le_pow_right (by norm_num) hj
  have hle : 2 ^ (8 * n - 1) ≤ x ↔ 1 ≤ x / 2 ^ (8 * n - 1) := by
    rw [Nat.le_div_iff_mul_le (by positivity), Nat.one_mul]
  rw [hmask, and_shifted_mask, Nat.mod_eq_of_lt (by omega), Nat.shiftLeft_eq, ne_eq, Nat.mul_eq_zero, hpow]
  have hne : (2 : Nat) ^ (8 * n - 1) ≠ 0 := by positivity
  generalize x / 2 ^ (8 * n - 1) = t at *
  generalize 2 ^ (8 * n - 1) = p at *
  omega

/-- Up to four bytes, `sextend` widens a two's-complement number to the full word. -/
theorem sextend_eq {z : Int} {n : Nat} (hn : 1 ≤ n) (hn4 : n ≤ 4)
    (hlo : -(256 ^ n : Int) ≤ 2 * z) (hhi : 2 * z < 256 ^ n) :
    sextend (residueBytes z n) n = .ok (residueBytes z 8) := by
  have hc : ((256 ^ n : Nat) : Int) = 256 ^ n := by norm_cast
  have h8 : 256 ^ n ≤ 256 ^ 8 := Nat.pow_le_pow_right (by norm_num) (by omega)
  rw [← hc] at hlo hhi
  rw [sextend, if_neg (by omega), assert_of (by omega), bind_ok, defined_of ⟨hn, hn4⟩, bind_ok]
  by_cases hneg : z < 0
  · obtain ⟨x, hx, hz⟩ : ∃ x : Nat, x < 256 ^ n ∧ z = (x : Int) - (256 ^ n : Nat) :=
      ⟨(z + (256 ^ n : Nat)).toNat, by omega, by omega⟩
    have hz8 : z = ((x + (256 ^ 8 - 256 ^ n) : Nat) : Int) - (256 ^ 8 : Nat) := by omega
    have hr : residueBytes z n = x := by
      rw [hz, residueBytes_of_neg hx le_rfl, Nat.sub_self, Nat.add_zero]
    have hr8 : residueBytes z 8 = x + (256 ^ 8 - 256 ^ n) := by
      rw [hz8, residueBytes_of_neg (by omega) le_rfl, Nat.sub_self, Nat.add_zero]
    have hfill : 256 ^ n * (256 ^ (8 - n) - 1) = 256 ^ 8 - 256 ^ n := by
      rw [Nat.mul_sub, ← pow_add, Nat.add_sub_cancel' (by omega), Nat.mul_one]
    rw [hr, hr8, if_pos ((sextend_mask hn hn4 hx).mpr (by omega)), take_toLE (by omega), leNat_append, leNat_toLE,
      length_toLE, leNat_replicate_ff, hfill, Nat.mod_eq_of_lt hx]
  · obtain ⟨x, rfl⟩ : ∃ x : Nat, z = x := ⟨z.toNat, by omega⟩
    rw [residueBytes_of_nonneg (by omega), residueBytes_of_nonneg (by omega),
      if_neg (mt (sextend_mask hn hn4 (by omega)).mp (by omega))]

/-! ## Numerals of any length come back -/

theorem leNat_residueBytes (z : Int) (k : Nat) : leNat ((toLE k (residueBytes z k)).take k) = residueBytes z k := by
  have h := Int.emod_lt_of_pos z (show (0 : Int) < 256 ^ k by positivity)
  have hc : ((256 ^ k : Nat) : Int) = 256 ^ k := by norm_cast
  rw [take_toLE le_rfl, leNat_toLE]
  apply Nat.mod_eq_of_lt
  rw [residueBytes]
  omega

theorem bmod_residueBytes {z : Int} (k : Nat) : Int.bmod (residueBytes z k)
    (256 ^ k : Nat) = Int.bmod z (256 ^ k : Nat) := by
  have h0 := Int.emod_nonneg z (show (256 : Int) ^ k ≠ 0 by positivity)
  have hc : ((256 ^ k : Nat) : Int) = 256 ^ k := by norm_cast
  rw [residueBytes, Int.toNat_of_nonneg h0, ← hc, Int.emod_bmod]

section Numerals
variable (n : Numeral) (rest : List UInt8)

theorem decode_numeral : decodeLEB128 (n.bytes ++ rest) false =
    .ok ⟨toLE (unsignedBytes n.value n.length) n.value, usint (unsignedBytes n.value n.length), usint n.length⟩ :=
  decode_unsigned n.digits_lt n.digits_ne rest

theorem decode_numeral_signed : decodeLEB128 (n.bytes ++ rest) true =
    .ok ⟨toLE ((n.length * 7 + 7) / 8) (residueBytes n.signedValue ((n.length * 7 + 7) / 8)),
      usint ((n.length * 7 + 7) / 8), usint n.length⟩ :=
  decode_signed n.digits_lt n.digits_ne rest

theorem numeralBytes_pos : 0 < unsignedBytes n.value n.length := by
  have hpos := n.length_pos
  unfold unsignedBytes
  split <;> omega

theorem usint_unsignedBytes {n : Numeral} (hn : n.length < 65536) :
    usint (unsignedBytes n.value n.length) = unsignedBytes n.value n.length := by
  have hle := unsignedBytes_le n.value n.length
  exact Nat.mod_eq_of_lt (by omega)

theorem usint_length {n : Numeral} (hn : n.length < 65536) : usint n.length = n.length := Nat.mod_eq_of_lt hn

theorem leNat_numeral : leNat ((toLE (unsignedBytes n.value n.length) n.value).take
    (unsignedBytes n.value n.length)) = n.value := by
  rw [take_toLE le_rfl, leNat_toLE, Nat.mod_eq_of_lt (lt_unsignedBytes n.value_lt)]

/-- However long a numeral is, its length is counted in a `usint`. -/
theorem leb128ToUInt_length {n : Numeral} {rest : List UInt8} {x k : Nat} (h : leb128ToUInt (n.bytes ++ rest) = .ok (x, k)) :
    k = usint n.length := by
  unfold leb128ToUInt at h
  rw [decode_numeral, bind_ok] at h
  obtain ⟨-, -, h⟩ := bind_eq_ok.mp h
  cases h
  rfl

theorem leb128ToUWord_length {n : Numeral} {rest : List UInt8} {x k : Nat}
    (h : leb128ToUWord (n.bytes ++ rest) = .ok (x, k)) :
    k = usint n.length := by
  unfold leb128ToUWord at h
  rw [decode_numeral, bind_ok] at h
  obtain ⟨-, -, h⟩ := bind_eq_ok.mp h
  cases h
  rfl

theorem leb128ToInt_length {n : Numeral} {rest : List UInt8} {x : Int} {k : Nat}
    (h : leb128ToInt (n.bytes ++ rest) = .ok (x, k)) : k = usint n.length := by
  unfold leb128ToInt at h
  rw [decode_numeral_signed, bind_ok] at h
  obtain ⟨-, -, h⟩ := bind_eq_ok.mp h
  dsimp only at h
  split at h
  · obtain ⟨val, -, h⟩ := bind_eq_ok.mp h
    simp only [Except.ok.injEq, Prod.mk.injEq] at h
    exact h.2.symm
  · rw [bind_ok] at h
    simp only [Except.ok.injEq, Prod.mk.injEq] at h
    exact h.2.symm

theorem leb128ToUInt_numeral {n : Numeral} (hn : n.length < 65536) (rest : List UInt8) :
    leb128ToUInt (n.bytes ++ rest) =
      if unsignedBytes n.value n.length ≤ 4 then .ok (n.value, n.length) else .error .assertion := by
  unfold leb128ToUInt
  rw [decode_numeral, bind_ok]
  simp only [usint_unsignedBytes hn, usint_length hn, leNat_numeral]
  split
  · rename_i h
    rw [assert_of h, bind_ok]
  · rename_i h
    rw [assert_not h, bind_error]

theorem leb128ToUWord_numeral {n : Numeral} (hn : n.length < 65536) (rest : List UInt8) :
    leb128ToUWord (n.bytes ++ rest) =
      if unsignedBytes n.value n.length ≤ 8 then .ok (n.value, n.length) else .error .assertion := by
  unfold leb128ToUWord
  rw [decode_numeral, bind_ok]
  simp only [usint_unsignedBytes hn, usint_length hn, leNat_numeral]
  split
  · rename_i h
    rw [assert_of h, bind_ok]
  · rename_i h
    rw [assert_not h, bind_error]

/-- A signed numeral of up to four septets decodes to as many bytes, which `sextend` widens. -/
theorem sextend_numeral {n : Numeral} (h4 : n.length ≤ 4) :
    (n.length * 7 + 7) / 8 = n.length ∧ sextend (residueBytes n.signedValue n.length) n.length =
    .ok (residueBytes n.signedValue 8) := by
  have hpos := n.length_pos
  obtain ⟨hlo, hhi⟩ := n.fits_signedValue
  have hle : (128 : Int) ^ n.length ≤ 256 ^ n.length := pow_le_pow_left₀ (by norm_num) (by norm_num) _
  exact ⟨by omega, sextend_eq hpos h4 (by omega) (by omega)⟩

/-- What fits in a few septets fits in the word. -/
theorem signedValue_range {n : Numeral} {m : Nat} (h : n.length ≤ m) :
    -(128 ^ m : Int) ≤ 2 * n.signedValue ∧ 2 * n.signedValue < 128 ^ m := by
  obtain ⟨hlo, hhi⟩ := n.fits_signedValue
  have hle : (128 : Int) ^ n.length ≤ 128 ^ m := pow_le_pow_right₀ (by norm_num) h
  constructor <;> omega

theorem leb128ToInt_numeral {n : Numeral} (hn : n.length < 65536) (rest : List UInt8) :
    leb128ToInt (n.bytes ++ rest) = if n.length ≤ 4 then .ok (n.signedValue, n.length) else .error .assertion := by
  have hb : usint ((n.length * 7 + 7) / 8) = (n.length * 7 + 7) / 8 := Nat.mod_eq_of_lt (by omega)
  unfold leb128ToInt
  rw [decode_numeral_signed, bind_ok]
  simp only [hb, usint_length hn, leNat_residueBytes]
  by_cases h4 : n.length ≤ 4
  · obtain ⟨hlen, hsext⟩ := sextend_numeral h4
    obtain ⟨hl, hh⟩ := signedValue_range h4
    have hz : Int.bmod n.signedValue (2 ^ 32) = n.signedValue :=
      Int.bmod_eq_of_le (by norm_num at *; omega) (by norm_num at *; omega)
    have h8 : Int.bmod (residueBytes n.signedValue 8) (2 ^ 32) = n.signedValue := by
      have h0 := Int.emod_nonneg n.signedValue (show (256 : Int) ^ 8 ≠ 0 by positivity)
      rw [residueBytes, Int.toNat_of_nonneg h0, ← Int.emod_bmod, Int.emod_emod_of_dvd _ (by norm_num), Int.emod_bmod, hz]
    rw [hlen, assert_of h4, bind_ok, if_pos h4]
    by_cases hlt : n.length < 4
    · rw [if_pos hlt, hsext, bind_ok, h8]
    · have h : n.length = 4 := by omega
      rw [if_neg hlt, bind_ok, h, show (2 : Nat) ^ 32 = 256 ^ 4 by norm_num, bmod_residueBytes,
        show (256 : Nat) ^ 4 = 2 ^ 32 by norm_num, hz]
  · rw [assert_not (by omega), if_neg h4, bind_error]

theorem leb128ToSWord_numeral {n : Numeral} (hn : n.length < 65536) (rest : List UInt8) :
    leb128ToSWord (n.bytes ++ rest) =
      if n.length ≤ 4 ∨ n.length = 9 then .ok (n.signedValue, n.length)
      else if n.length ≤ 8 then .error .undefined else .error .assertion := by
  have hb : usint ((n.length * 7 + 7) / 8) = (n.length * 7 + 7) / 8 := Nat.mod_eq_of_lt (by omega)
  have h8 : n.length ≤ 9 → Int.bmod (residueBytes n.signedValue 8) (2 ^ 64) = n.signedValue := by
    intro h9
    obtain ⟨hl, hh⟩ := signedValue_range h9
    rw [show (2 : Nat) ^ 64 = 256 ^ 8 by norm_num, bmod_residueBytes]
    exact Int.bmod_eq_of_le (by norm_num at *; omega) (by norm_num at *; omega)
  unfold leb128ToSWord
  rw [decode_numeral_signed, bind_ok]
  simp only [hb, usint_length hn, leNat_residueBytes]
  by_cases h4 : n.length ≤ 4
  · obtain ⟨hlen, hsext⟩ := sextend_numeral h4
    rw [hlen, assert_of (by omega), bind_ok, if_pos (show n.length < 8 by omega), hsext, bind_ok, h8 (by omega),
      if_pos (.inl h4)]
  · by_cases h9 : n.length = 9
    · have hb : (n.length * 7 + 7) / 8 = 8 := by omega
      rw [hb, assert_of (by omega), bind_ok, if_neg (show ¬ 8 < 8 by omega), bind_ok, h8 (by omega),
        if_pos (show n.length ≤ 4 ∨ n.length = 9 from .inr h9)]
    · rw [if_neg (show ¬ (n.length ≤ 4 ∨ n.length = 9) by omega)]
      by_cases hle : n.length ≤ 8
      · -- the widening shift is past the width of an int
        have hb : (n.length * 7 + 7) / 8 < 8 := by omega
        rw [assert_of (by omega), bind_ok, if_pos hb, if_pos hle, sextend, if_neg (by omega), assert_of hb, bind_ok,
          defined_not (by omega)]
        rfl
      · rw [assert_not (by omega), if_neg hle]; rfl

end Numerals

/-! ## Numbers come back -/

/-- The shortest numeral decodes to as few bytes as the number has. -/
theorem unsignedBytes_ulebLen {v m : Nat} (hm : 0 < m) : unsignedBytes v (ulebLen v) ≤ m ↔ v < 256 ^ m := by
  have hpos := ulebLen_pos v
  have hv := lt_unsignedBytes (lt_pow_ulebLen v)
  have hmin : 1 < ulebLen v → 128 ^ (ulebLen v - 1) ≤ v := by
    intro h1
    by_contra hlt
    have := (ulebLen_le_iff (n := v) (m := ulebLen v - 1) (by omega)).mpr (by omega)
    omega
  refine ⟨fun hle => lt_of_lt_of_le hv (Nat.pow_le_pow_right (by norm_num) hle), fun hlt => ?_⟩
  by_contra hgt
  generalize ulebLen v = n at *
  unfold unsignedBytes at hgt
  split at hgt
  · have hge := hmin (by omega)
    have := pow256_le_pow128 (i := n - 1) (j := m) (by omega)
    omega
  · rename_i h
    have hne : v / 256 ^ (7 * n / 8) ≠ 0 := fun h0 => h (.inr ⟨h0, by omega⟩)
    have hge : 256 ^ (7 * n / 8) ≤ v := by
      by_contra hlt'
      exact hne (Nat.div_eq_of_lt (by omega))
    have := Nat.pow_le_pow_right (by norm_num : 0 < 256) (show m ≤ 7 * n / 8 by omega)
    omega

theorem ulebLen_word {v : Nat} (hv : v < 2 ^ 64) : ulebLen v < 65536 := by
  have h : ulebLen v ≤ 10 := (ulebLen_le_iff (by norm_num)).mpr (lt_of_lt_of_le hv (by norm_num))
  omega

theorem slebLen_word {z : Int} (hlo : -2 ^ 63 ≤ z) (hhi : z < 2 ^ 63) : slebLen z < 65536 := by
  have h : slebLen z ≤ 10 := (slebLen_le_iff (by norm_num)).mpr ⟨by norm_num; omega, by norm_num; omega⟩
  omega

theorem decode_uleb {v : Nat} (hv : v < 2 ^ 64) (rest : List UInt8) :
    decodeLEB128 (uleb v ++ rest) false =
      .ok ⟨toLE (unsignedBytes v (ulebLen v)) v, unsignedBytes v (ulebLen v), ulebLen v⟩ := by
  have hn : (Numeral.ofNat v).length < 65536 := by simpa using ulebLen_word hv
  have h := decode_numeral (.ofNat v) rest
  rw [usint_unsignedBytes hn, usint_length hn] at h
  simpa only [Numeral.bytes_ofNat, Numeral.value_ofNat, Numeral.length_ofNat] using h

theorem decode_sleb {z : Int} (hlo : -2 ^ 63 ≤ z) (hhi : z < 2 ^ 63) (rest : List UInt8) :
    decodeLEB128 (sleb z ++ rest) true =
      .ok ⟨toLE ((slebLen z * 7 + 7) / 8) (residueBytes z ((slebLen z * 7 + 7) / 8)), (slebLen z * 7 + 7) / 8,
        slebLen z⟩ := by
  have hn : (Numeral.ofInt z).length < 65536 := by simpa using slebLen_word hlo hhi
  have hb : usint (((Numeral.ofInt z).length * 7 + 7) / 8) = ((Numeral.ofInt z).length * 7 + 7) / 8 :=
    Nat.mod_eq_of_lt (by omega)
  have h := decode_numeral_signed (.ofInt z) rest
  rw [hb, usint_length hn] at h
  simpa only [Numeral.bytes_ofInt, Numeral.signedValue_ofInt, Numeral.length_ofInt] using h

theorem leb128ToUInt_uleb {v : Nat} (hv : v < 2 ^ 64) (rest : List UInt8) :
    leb128ToUInt (uleb v ++ rest) = if v < 2 ^ 32 then .ok (v, ulebLen v) else .error .assertion := by
  have hiff : unsignedBytes v (ulebLen v) ≤ 4 ↔ v < 2 ^ 32 := unsignedBytes_ulebLen (by norm_num)
  have h := leb128ToUInt_numeral (n := .ofNat v) (by simpa using ulebLen_word hv) rest
  simpa only [Numeral.bytes_ofNat, Numeral.value_ofNat, Numeral.length_ofNat, hiff] using h

theorem leb128ToUWord_uleb {v : Nat} (hv : v < 2 ^ 64) (rest : List UInt8) :
    leb128ToUWord (uleb v ++ rest) = .ok (v, ulebLen v) := by
  have hle : unsignedBytes v (ulebLen v) ≤ 8 := (unsignedBytes_ulebLen (by norm_num)).mpr hv
  have h := leb128ToUWord_numeral (n := .ofNat v) (by simpa using ulebLen_word hv) rest
  simpa only [Numeral.bytes_ofNat, Numeral.value_ofNat, Numeral.length_ofNat, if_pos hle] using h

theorem leb128ToInt_sleb {z : Int} (hlo : -2 ^ 63 ≤ z) (hhi : z < 2 ^ 63) (rest : List UInt8) :
    leb128ToInt (sleb z ++ rest) = if slebLen z ≤ 4 then .ok (z, slebLen z) else .error .assertion := by
  have h := leb128ToInt_numeral (n := .ofInt z) (by simpa using slebLen_word hlo hhi) rest
  simpa only [Numeral.bytes_ofInt, Numeral.signedValue_ofInt, Numeral.length_ofInt] using h

theorem leb128ToSWord_sleb {z : Int} (hlo : -2 ^ 63 ≤ z) (hhi : z < 2 ^ 63) (rest : List UInt8) :
    leb128ToSWord (sleb z ++ rest) =
      if slebLen z ≤ 4 ∨ slebLen z = 9 then .ok (z, slebLen z)
      else if slebLen z ≤ 8 then .error .undefined else .error .assertion := by
  have h := leb128ToSWord_numeral (n := .ofInt z) (by simpa using slebLen_word hlo hhi) rest
  simpa only [Numeral.bytes_ofInt, Numeral.signedValue_ofInt, Numeral.length_ofInt] using h

end Katana
