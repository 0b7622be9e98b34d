/-
  Katana.Lsda.TypeBase — the type table's base, and the header an LSDA is read from (exceptTable.c).

  The base is an offset from behind its own numeral, and the table is aligned, so the numeral's length feeds back into
  the offset. The writer guesses the offset without the alignment, and reserves one byte more where adding three to the
  guess might carry past its last septet.

  Proved:
  - `ttBaseLEB_ok`: the reserved bytes always fit the final offset with one byte of slack at most, and the table is
    aligned.
  - `writeLSDA_ok`: an LSDA is its header, its tables and its padded type table.
  - `parseLsdaHeader_written`: the header is read back, its base being the end of the type table.
  - `typeTable_base`: the three together.
-/
import Katana.Lsda.Layout
import Katana.Lsda.Read

namespace Katana

open Lib

/-! ## Room in a numeral -/

/-- `ttBaseOffsetNumBytes`: the bytes reserved for the base. -/
def reservedBytes (guess : Nat) : Nat :=
  if foundRoom (encodeAsLEB128 (toLE 8 guess) false) then (encodeAsLEB128 (toLE 8 guess) false).length
  else (encodeAsLEB128 (toLE 8 guess) false).length + 1

/-- The tests of `foundRoom` on one byte. -/
theorem room_byte (b : UInt8) : (b.toNat &&& 0x7f ≠ 0x7f → b.toNat % 128 < 127) ∧
    (b.toNat &&& 0x70 ≠ 0x70 → b.toNat % 128 < 112) := by
  have h : ∀ n < 256, (n &&& 0x7f ≠ 0x7f → n % 128 < 127) ∧ (n &&& 0x70 ≠ 0x70 → n % 128 < 112) := by decide +kernel
  exact h b.toNat b.toNat_lt

/-- A septet that is not full takes a carry; the lowest one takes three when its upper three bits are not all set. -/
theorem add_three_lt {v L i d : Nat} (hv : v < 128 ^ L) (hi : i < L) (hd : v / 128 ^ i % 128 = d)
    (hroom : (d < 127 ∧ 0 < i) ∨ d < 112) : v + 3 < 128 ^ L := by
  obtain ⟨m, rfl⟩ : ∃ m, L = i + (m + 1) := ⟨L - i - 1, by omega⟩
  have hpow : 128 ^ (i + (m + 1)) = 128 ^ i * (128 * 128 ^ m) := by rw [pow_add, pow_succ']
  have hP : 0 < 128 ^ i := by positivity
  rw [hpow] at hv ⊢
  have hq : v / 128 ^ i < 128 * 128 ^ m := (Nat.div_lt_iff_lt_mul hP).mpr (by rw [Nat.mul_comm]; exact hv)
  have hhigh : v / 128 ^ i / 128 < 128 ^ m := by omega
  -- what the septet leaves of its place
  have hlow : v < 128 ^ i * (v / 128 ^ i + 1) := Nat.lt_mul_div_succ v hP
  have hsplit : v / 128 ^ i = 128 * (v / 128 ^ i / 128) + d := by omega
  rcases hroom with ⟨hd127, hi0⟩ | hd112
  · have h128 : 128 ≤ 128 ^ i := by
      calc 128 = 128 ^ 1 := rfl
        _ ≤ 128 ^ i := Nat.pow_le_pow_right (by norm_num) hi0
    have hle : 128 ^ i * (v / 128 ^ i + 1) ≤ 128 ^ i * (128 * 128 ^ m - 1) := Nat.mul_le_mul_left _ (by omega)
    rw [Nat.mul_sub] at hle
    have hmul : 128 ^ i * 1 ≤ 128 ^ i * (128 * 128 ^ m) := Nat.mul_le_mul_left _ (by omega)
    omega
  · have hle : 128 ^ i * (v / 128 ^ i + 1) ≤ 128 ^ i * (128 * 128 ^ m - 15) := Nat.mul_le_mul_left _ (by omega)
    rw [Nat.mul_sub] at hle
    have hmul : 128 ^ i * 15 ≤ 128 ^ i * (128 * 128 ^ m) := Nat.mul_le_mul_left _ (by omega)
    omega

theorem foundRoom_uleb {v : Nat} (h : foundRoom (uleb v) = true) : v + 3 < 128 ^ ulebLen v := by
  unfold foundRoom at h
  obtain ⟨i, hi, hroom⟩ := List.any_eq_true.mp h
  rw [List.mem_range, length_uleb] at hi
  have hdigit : ((uleb v).getD i 0).toNat % 128 = v / 128 ^ i % 128 := by
    rw [uleb, mark_getD (ulebDigits_lt v), ulebDigits, getD_fixed, if_pos hi]
  obtain ⟨h127, h112⟩ := room_byte ((uleb v).getD i 0)
  refine add_three_lt (lt_pow_ulebLen v) hi hdigit.symm ?_
  simp only [Bool.or_eq_true, Bool.and_eq_true, bne_iff_ne, decide_eq_true_eq] at hroom
  rcases hroom with ⟨hfull, hpos⟩ | hupper
  · exact .inl ⟨h127 hfull, hpos⟩
  · exact .inr (h112 hupper)

/-! ## A padded numeral -/

/-- The shortest numeral with one more septet, which is zero. -/
def paddedNumeral (v : Nat) : Numeral where
  digits := ulebDigits v ++ [0]
  digits_ne := by simp
  digits_lt := by
    intro d hd
    rw [List.mem_append, List.mem_singleton] at hd
    rcases hd with hd | rfl
    · exact ulebDigits_lt v d hd
    · norm_num

@[simp] theorem length_paddedNumeral (v : Nat) : (paddedNumeral v).length = ulebLen v + 1 := by
  simp [paddedNumeral, Numeral.length, ulebDigits]

@[simp] theorem value_paddedNumeral (v : Nat) : (paddedNumeral v).value = v := by
  simp [paddedNumeral, Numeral.value, Nat.ofDigits_append, ofDigits_ulebDigits]

theorem padLEB_mark {l : List Nat} (hl : ∀ d ∈ l, d < 128) (hne : l ≠ []) : padLEB (mark l) = mark (l ++ [0]) := by
  induction l with
  | nil => exact absurd rfl hne
  | cons d l ih =>
    have hd : d < 128 := hl d (by simp)
    cases l with
    | nil =>
      have hbyte : (UInt8.ofNat d).toNat = d := by
        rw [UInt8.toNat_ofNat']
        omega
      have hor : d ||| 0x80 = d + 128 := or_continuation hd
      show [UInt8.ofNat ((UInt8.ofNat d).toNat ||| 0x80), 0] = [UInt8.ofNat (d + 128), UInt8.ofNat 0]
      rw [hbyte, hor]
      rfl
    | cons e l =>
      have ih := ih (fun x hx => hl x (by simp [hx])) (by simp)
      have hmark : mark (e :: l) ≠ [] := by
        rw [← List.length_pos_iff, length_mark]
        simp
      have hcons : mark (d :: e :: l) = UInt8.ofNat (d + 128) :: mark (e :: l) := rfl
      have hcons' : mark (d :: e :: l ++ [0]) = UInt8.ofNat (d + 128) :: mark (e :: l ++ [0]) := rfl
      rw [hcons, hcons', ← ih]
      unfold padLEB
      rw [List.dropLast_cons_of_ne_nil hmark, List.cons_append, List.getLastD_cons, List.getLastD_eq_getLast?,
        List.getLastD_eq_getLast?, List.getLast?_eq_some_getLast hmark]
      rfl

theorem padLEB_uleb (v : Nat) : padLEB (uleb v) = (paddedNumeral v).bytes := by
  have hne : ulebDigits v ≠ [] := by
    rw [← List.length_pos_iff, ulebDigits, length_fixed]
    exact ulebLen_pos v
  exact padLEB_mark (ulebDigits_lt v) hne

/-! ## The base -/

/-- What is written for the base, in the bytes reserved for it, and the padding that aligns the table. -/
structure BaseWritten (before tables ttSize : Nat) (leb : List UInt8) (misalignment : Nat) : Prop where
  reserved : leb.length = reservedBytes (tables + ttSize)
  /-- The final offset needs no more than is reserved, and leaves one byte at most. -/
  needed : ulebLen (tables + misalignment + ttSize) ≤ leb.length ∧ leb.length ≤ ulebLen (tables + misalignment + ttSize) + 1
  spells : ∃ n : Numeral, leb = n.bytes ∧ n.value = tables + misalignment + ttSize
  aligned : (before + leb.length + tables + misalignment) % 4 = 0
  small : misalignment < 4

theorem ulebLen_mono {a b : Nat} (h : a ≤ b) : ulebLen a ≤ ulebLen b :=
  (ulebLen_le_iff (ulebLen_pos b)).mpr (lt_of_le_of_lt h (lt_pow_ulebLen b))

/-- The reserved bytes, by the length of the guess. -/
theorem reservedBytes_bounds {guess m : Nat} (hguess : guess < 2 ^ 32) (hm : m < 4) :
    ulebLen (guess + m) ≤ reservedBytes guess ∧ reservedBytes guess ≤ ulebLen (guess + m) + 1 := by
  have hleb : encodeAsLEB128 (toLE 8 guess) false = uleb guess :=
    encodeAsLEB128_toLE (by norm_num) le_rfl (by norm_num; omega)
  have hmono := ulebLen_mono (show guess ≤ guess + m by omega)
  have hpos := ulebLen_pos guess
  unfold reservedBytes
  rw [hleb, length_uleb]
  split
  · rename_i hroom
    have hlt := foundRoom_uleb hroom
    have := (ulebLen_le_iff hpos).mpr (show guess + m < 128 ^ ulebLen guess by omega)
    omega
  · have hlt := lt_pow_ulebLen guess
    have hpow : 128 ^ (ulebLen guess + 1) = 128 ^ ulebLen guess * 128 := pow_succ ..
    have hbig : 1 ≤ 128 ^ ulebLen guess := Nat.one_le_pow _ _ (by norm_num)
    have := (ulebLen_le_iff (Nat.succ_pos (ulebLen guess))).mpr (show guess + m < 128 ^ (ulebLen guess + 1) by omega)
    omega

/-- **The base always fits the bytes reserved for it**, and the assertion about the slack holds. -/
theorem ttBaseLEB_ok {before tables ttSize : Nat} (hsmall : tables + ttSize < 2 ^ 31) :
    ∃ leb misalignment, ttBaseLEB before tables ttSize = .ok (leb, misalignment) ∧
      BaseWritten before tables ttSize leb misalignment := by
  obtain ⟨m, hm4, hmis, halign⟩ : ∃ m, m < 4 ∧
      (if (before + reservedBytes (tables + ttSize) + tables) % 4 ≠ 0 then
        4 - (before + reservedBytes (tables + ttSize) + tables) % 4 else 0) = m ∧
      (before + reservedBytes (tables + ttSize) + tables + m) % 4 = 0 := by
    refine ⟨_, ?_, rfl, ?_⟩
    · split <;> omega
    · split <;> omega
  obtain ⟨hneeded, hslack⟩ := reservedBytes_bounds (show tables + ttSize < 2 ^ 32 by omega) hm4
  have hsum : tables + ttSize + m = tables + m + ttSize := by omega
  rw [hsum] at hneeded hslack
  have hoffset : before + reservedBytes (tables + ttSize) + tables + m + ttSize - before - reservedBytes (tables + ttSize) =
      tables + m + ttSize := by omega
  have hleb : encodeAsLEB128 (toLE 8 (tables + m + ttSize)) false = uleb (tables + m + ttSize) :=
    encodeAsLEB128_toLE (by norm_num) le_rfl (by norm_num; omega)
  have hunfold : ttBaseLEB before tables ttSize =
      if (uleb (tables + m + ttSize)).length < reservedBytes (tables + ttSize) then do
        assert (reservedBytes (tables + ttSize) - (uleb (tables + m + ttSize)).length = 1)
        .ok (padLEB (uleb (tables + m + ttSize)), m)
      else .ok ((uleb (tables + m + ttSize)).take (reservedBytes (tables + ttSize)), m) := by
    rw [← hleb, ← hoffset, ← hmis]
    rfl
  rw [hunfold, length_uleb]
  split
  · rename_i hlt
    have hlen : (padLEB (uleb (tables + m + ttSize))).length = reservedBytes (tables + ttSize) := by
      rw [padLEB_uleb, Numeral.length_bytes, length_paddedNumeral]
      omega
    refine ⟨_, m, by rw [assert_of (by omega), bind_ok], hlen, ?_, ⟨_, padLEB_uleb _, value_paddedNumeral _⟩, ?_, hm4⟩
    · rw [hlen]
      exact ⟨hneeded, hslack⟩
    · rw [hlen]
      exact halign
  · have hlen : (uleb (tables + m + ttSize)).take (reservedBytes (tables + ttSize)) = uleb (tables + m + ttSize) :=
      List.take_of_length_le (by rw [length_uleb]; exact hneeded)
    have hreserved : (uleb (tables + m + ttSize)).length = reservedBytes (tables + ttSize) := by
      rw [length_uleb]
      omega
    refine ⟨_, m, rfl, ?_, ?_, ⟨.ofNat _, ?_, Numeral.value_ofNat _⟩, ?_, hm4⟩
    · rw [hlen, hreserved]
    · rw [hlen, hreserved]
      exact ⟨hneeded, hslack⟩
    · rw [hlen, Numeral.bytes_ofNat]
    · rw [hlen, hreserved]
      exact halign

/-! ## The bytes of an LSDA -/

structure LsdaParts where
  actions : ActionState
  callSites : GrowingBuffer
  ttEntrySize : Nat
  base : List UInt8
  misalignment : Nat

namespace LsdaParts
variable (p : LsdaParts)

def tables : List UInt8 := 0x01 :: (uleb p.callSites.len ++ (p.callSites.data ++ p.actions.buf.data))

def ttSize (lsda : LSDA) : Nat := p.ttEntrySize * lsda.typeTable.length

end LsdaParts

def LSDA.start (lsda : LSDA) : List UInt8 :=
  (if lsda.lpStart ≠ 0 then 0x01 :: uleb lsda.lpStart.toNat else [ehPeOmit]) ++ [lsda.ttEncoding]

/-- The entries from the last to the first, the table starting at `start` of the section. -/
def typeBytes (exceptTableAddress : UInt64) (ttEncoding : UInt8) (ttEntrySize start : Nat) : List (UInt64 × Nat) → List UInt8
  | [] => []
  | (type, j) :: entries =>
    typeBytes exceptTableAddress ttEncoding ttEntrySize start entries ++
      toLE ttEntrySize (storedPointer type (exceptTableAddress + UInt64.ofNat (start + ttEntrySize * entries.length) +
        UInt64.ofNat (j * ttEntrySize)) ttEncoding).toNat

@[simp] theorem length_typeBytes (exceptTableAddress : UInt64) (ttEncoding : UInt8) (ttEntrySize start : Nat)
    (entries : List (UInt64 × Nat)) :
    (typeBytes exceptTableAddress ttEncoding ttEntrySize start entries).length = ttEntrySize * entries.length := by
  induction entries with
  | nil => rfl
  | cons entry entries ih => simp [typeBytes, ih, Nat.mul_add]

/-- The parts of an LSDA that was written at `start` of the section. -/
structure LsdaWritten (config : ElfBitwidth) (lsda : LSDA) (p : LsdaParts) : Prop where
  actions : writeActionTable lsda.actionTable = .ok p.actions
  callSites : writeCallSiteTable p.actions.actionIdxToOffset lsda.callSiteTable = .ok p.callSites
  ttEntrySize : getPointerSizeFromEHPointerEncoding config lsda.ttEncoding = .ok p.ttEntrySize
  small : p.tables.length + p.ttSize lsda < 2 ^ 31
  base : BaseWritten lsda.start.length p.tables.length (p.ttSize lsda) p.base p.misalignment

def LsdaParts.front (p : LsdaParts) (lsda : LSDA) : List UInt8 :=
  lsda.start ++ ((if lsda.ttEncoding ≠ ehPeOmit then p.base else []) ++ p.tables)

def LsdaParts.back (p : LsdaParts) (exceptTableAddress : UInt64) (lsda : LSDA) (start : Nat) : List UInt8 :=
  if lsda.ttEncoding ≠ ehPeOmit then
    toLE p.misalignment 0 ++
      typeBytes exceptTableAddress lsda.ttEncoding p.ttEntrySize (start + p.misalignment) lsda.typeTable.zipIdx
  else []

theorem writeTypeTable_ok {config : ElfBitwidth} {exceptTableAddress : UInt64} {ttEncoding : UInt8} {ttEntrySize : Nat}
    {entries : List (UInt64 × Nat)} {buf buf' : GrowingBuffer}
    (h : writeTypeTable config exceptTableAddress ttEncoding ttEntrySize entries buf = .ok buf') :
    buf'.data = buf.data ++ typeBytes exceptTableAddress ttEncoding ttEntrySize buf.len entries := by
  induction entries generalizing buf' with
  | nil =>
    cases h
    simp [typeBytes]
  | cons entry entries ih =>
    rcases entry with ⟨type, j⟩
    unfold writeTypeTable at h
    obtain ⟨buf1, h1, h⟩ := bind_eq_ok.mp h
    obtain ⟨⟨typeinfo, numBytesOut⟩, hencoded, h⟩ := bind_eq_ok.mp h
    obtain ⟨-, -, hadd⟩ := bind_eq_ok.mp h
    have hdata := ih h1
    have hlen : buf1.len = buf.len + ttEntrySize * entries.length := by
      unfold GrowingBuffer.len
      rw [hdata, List.length_append, length_typeBytes]
    obtain ⟨-, -, rfl⟩ := encodeEHPointer_ok hencoded
    rw [addToGrowingBuffer_ok hadd, hdata, typeBytes, List.append_assoc, hlen]

def writeLsdaStart (buf : GrowingBuffer) (lsda : LSDA) : Except Fault GrowingBuffer :=
  (if lsda.lpStart ≠ 0 then addToGrowingBuffer buf [0x01] >>= fun buf => addUlebToGrowingBuffer buf lsda.lpStart.toNat
    else addToGrowingBuffer buf [ehPeOmit]) >>= fun buf => addToGrowingBuffer buf [lsda.ttEncoding]

def writeLsdaTables (config : ElfBitwidth) (exceptTableAddress : UInt64) (lsda : LSDA) (p : LsdaParts)
    (buf : GrowingBuffer) :
    Except Fault GrowingBuffer :=
  (if lsda.ttEncoding ≠ ehPeOmit then addToGrowingBuffer buf p.base else .ok buf) >>= fun buf => do
    let buf ← addToGrowingBuffer buf [0x01]
    let buf ← addToGrowingBuffer buf (encodeAsLEB128 (toLE 4 p.callSites.len) false)
    let buf ← addToGrowingBuffer buf p.callSites.data
    let buf ← addToGrowingBuffer buf p.actions.buf.data
    if lsda.ttEncoding ≠ ehPeOmit then
      let buf ← addToGrowingBuffer buf (toLE p.misalignment 0)
      writeTypeTable config exceptTableAddress lsda.ttEncoding p.ttEntrySize lsda.typeTable.zipIdx buf
    else .ok buf

theorem writeLSDA_eq (config : ElfBitwidth) (exceptTableAddress : UInt64) (buf : GrowingBuffer) (lsda : LSDA) :
    writeLSDA config exceptTableAddress buf lsda =
      writeLsdaStart buf lsda >>= fun buf1 =>
      writeActionTable lsda.actionTable >>= fun actions =>
      writeCallSiteTable actions.actionIdxToOffset lsda.callSiteTable >>= fun callSites =>
      getPointerSizeFromEHPointerEncoding config lsda.ttEncoding >>= fun ttEntrySize =>
      defined (1 + (encodeAsLEB128 (toLE 4 callSites.len) false).length + callSites.len + actions.buf.len +
        ttEntrySize * lsda.typeTable.length < 2 ^ 31) >>= fun _ =>
      ttBaseLEB (buf1.len - buf.len) (1 +
        (encodeAsLEB128 (toLE 4 callSites.len) false).length + callSites.len + actions.buf.len)
        (ttEntrySize * lsda.typeTable.length) >>= fun base =>
      writeLsdaTables config exceptTableAddress lsda ⟨actions, callSites, ttEntrySize, base.1, base.2⟩ buf1 := by
  unfold writeLSDA writeLsdaStart writeLsdaTables
  by_cases hlp : lsda.lpStart = 0
  · by_cases henc : lsda.ttEncoding = ehPeOmit
    · simp [hlp, henc]
    · simp [hlp, henc]
  · by_cases henc : lsda.ttEncoding = ehPeOmit
    · simp [hlp, henc]
    · simp [hlp, henc]

theorem writeLsdaStart_ok {buf buf' : GrowingBuffer} {lsda : LSDA} (h : writeLsdaStart buf lsda = .ok buf') :
    buf'.data = buf.data ++ lsda.start := by
  obtain ⟨buf2, hstart, hencoding⟩ := bind_eq_ok.mp h
  rw [addToGrowingBuffer_ok hencoding]
  unfold LSDA.start
  by_cases hlp : lsda.lpStart = 0
  · rw [if_neg (not_not.mpr hlp)] at hstart ⊢
    rw [addToGrowingBuffer_ok hstart]
    simp
  · rw [if_pos hlp] at hstart ⊢
    obtain ⟨buf1, h1, h2⟩ := bind_eq_ok.mp hstart
    rw [addUlebToGrowingBuffer_ok lsda.lpStart.toNat_lt h2, addToGrowingBuffer_ok h1]
    simp

theorem writeLsdaTables_ok {config : ElfBitwidth} {exceptTableAddress : UInt64} {buf buf' : GrowingBuffer} {lsda : LSDA}
    {p : LsdaParts} (h : writeLsdaTables config exceptTableAddress lsda p buf = .ok buf') :
    buf'.data = buf.data ++ ((if lsda.ttEncoding ≠ ehPeOmit then p.base else []) ++ p.tables) ++
      p.back exceptTableAddress lsda (buf.len + ((if lsda.ttEncoding ≠ ehPeOmit then p.base else []) ++
        p.tables).length) := by
  obtain ⟨buf2, h2, h⟩ := bind_eq_ok.mp h
  obtain ⟨buf3, h3, h⟩ := bind_eq_ok.mp h
  obtain ⟨buf4, h4, h⟩ := bind_eq_ok.mp h
  obtain ⟨buf5, h5, h⟩ := bind_eq_ok.mp h
  obtain ⟨buf6, h6, h⟩ := bind_eq_ok.mp h
  have hleb : encodeAsLEB128 (toLE 4 p.callSites.len) false = uleb p.callSites.len :=
    encodeAsLEB128_toLE (by norm_num) (by norm_num) (by have := p.callSites.len_lt; norm_num; omega)
  have hdata2 : buf2.data = buf.data ++ if lsda.ttEncoding ≠ ehPeOmit then p.base else [] := by
    by_cases henc : lsda.ttEncoding = ehPeOmit
    · rw [if_neg (not_not.mpr henc)] at h2 ⊢
      cases h2
      rw [List.append_nil]
    · rw [if_pos henc] at h2 ⊢
      exact addToGrowingBuffer_ok h2
  have hdata6 : buf6.data = buf.data ++ ((if lsda.ttEncoding ≠ ehPeOmit then p.base else []) ++ p.tables) := by
    rw [addToGrowingBuffer_ok h6, addToGrowingBuffer_ok h5, addToGrowingBuffer_ok h4, addToGrowingBuffer_ok h3, hdata2, hleb]
    simp [LsdaParts.tables]
  have hlen6 : buf6.len = buf.len + ((if lsda.ttEncoding ≠ ehPeOmit then p.base else []) ++ p.tables).length := by
    unfold GrowingBuffer.len
    rw [hdata6, List.length_append]
  rw [← hdata6, ← hlen6]
  unfold LsdaParts.back
  by_cases henc : lsda.ttEncoding = ehPeOmit
  · rw [if_neg (not_not.mpr henc)] at h ⊢
    cases h
    rw [List.append_nil]
  · rw [if_pos henc] at h ⊢
    obtain ⟨buf7, h7, h8⟩ := bind_eq_ok.mp h
    have hdata7 := addToGrowingBuffer_ok h7
    have hlen7 : buf7.len = buf6.len + p.misalignment := by
      unfold GrowingBuffer.len
      rw [hdata7]
      simp
    rw [writeTypeTable_ok h8, hdata7, hlen7, List.append_assoc]

theorem length_tables (p : LsdaParts) :
    p.tables.length = 1 + ulebLen p.callSites.len + p.callSites.len + p.actions.buf.len := by
  unfold LsdaParts.tables GrowingBuffer.len
  rw [List.length_cons, List.length_append, List.length_append, length_uleb]
  omega

/-- **An LSDA is its header, its tables and its padded type table.** -/
theorem writeLSDA_ok {config : ElfBitwidth} {exceptTableAddress : UInt64} {buf buf' : GrowingBuffer} {lsda : LSDA}
    (h : writeLSDA config exceptTableAddress buf lsda = .ok buf') :
    ∃ p, LsdaWritten config lsda p ∧
      buf'.data = buf.data ++ (p.front lsda ++ p.back exceptTableAddress lsda (buf.len + (p.front lsda).length)) := by
  rw [writeLSDA_eq] at h
  obtain ⟨buf1, h1, h⟩ := bind_eq_ok.mp h
  obtain ⟨actions, hactions, h⟩ := bind_eq_ok.mp h
  obtain ⟨callSites, hcallSites, h⟩ := bind_eq_ok.mp h
  obtain ⟨ttEntrySize, hsize, h⟩ := bind_eq_ok.mp h
  obtain ⟨⟨⟩, hsmall, h⟩ := bind_eq_ok.mp h
  obtain ⟨⟨base, misalignment⟩, hbase, h⟩ := bind_eq_ok.mp h
  have hstart := writeLsdaStart_ok h1
  have hleb : encodeAsLEB128 (toLE 4 callSites.len) false = uleb callSites.len :=
    encodeAsLEB128_toLE (by norm_num) (by norm_num) (by have := callSites.len_lt; norm_num; omega)
  have htables := length_tables ⟨actions, callSites, ttEntrySize, base, misalignment⟩
  rw [hleb, length_uleb, ← htables] at hsmall hbase
  have hsmall' : (LsdaParts.tables ⟨actions, callSites, ttEntrySize, base, misalignment⟩).length +
      ttEntrySize * lsda.typeTable.length < 2 ^ 31 := by
    by_contra hnot
    rw [defined_not hnot] at hsmall
    cases hsmall
  have hlen1 : buf1.len = buf.len + lsda.start.length := by
    unfold GrowingBuffer.len
    rw [hstart, List.length_append]
  rw [hlen1, Nat.add_sub_cancel_left] at hbase
  obtain ⟨base', misalignment', hbase', hwritten⟩ := @ttBaseLEB_ok lsda.start.length _ _ hsmall'
  rw [hbase'] at hbase
  cases hbase
  refine ⟨⟨actions, callSites, ttEntrySize, base, misalignment⟩, ⟨hactions, hcallSites, hsize, hsmall', hwritten⟩, ?_⟩
  have hdata := writeLsdaTables_ok h
  rw [hstart, hlen1] at hdata
  rw [hdata]
  unfold LsdaParts.front
  simp only [List.append_assoc, List.length_append, Nat.add_assoc]

/-! ## Reading the header -/

section Parsing
variable {config : ElfBitwidth} {data rest : List UInt8} {sectionAddress : UInt64} {offset : Nat}

theorem byteAt_of_drop {b : UInt8} (h : data.drop offset = b :: rest) : byteAt data offset = .ok b := by
  have hget : data[offset]? = some b := by
    rw [← List.head?_drop, h]
    rfl
  unfold byteAt
  rw [hget]

theorem drop_past {a b : List UInt8} (h : data.drop offset = a ++ b) : data.drop (offset + a.length) = b := by
  rw [← List.drop_drop, h, List.drop_left]

theorem decodeAt_uleb {v : Nat} (hv : v < 2 ^ 64) (h : data.drop offset = uleb v ++ rest) :
    decodeAt config data sectionAddress offset 0x01 = .ok (UInt64.ofNat v, ulebLen v) := by
  have hlen : ulebLen v ≤ 10 := (ulebLen_le_iff (by norm_num)).mpr (lt_of_lt_of_le hv (by norm_num))
  have hread := @readEHPointer_mark config 0x01 (.inl (by decide)) _ (Numeral.ofNat v).digits_ne (Numeral.ofNat v).digits_lt
    (show (Numeral.ofNat v).length ≤ 10 by simpa using hlen) rest (cInt (data.length - offset))
  have hvalue : Nat.ofDigits 128 (Numeral.ofNat v).digits = v := Numeral.value_ofNat v
  rw [hvalue, if_pos hv] at hread
  have hdecoded := @decodeEHPointer_of config 0x01 (sectionAddress + UInt64.ofNat offset) _ _ _ _ hread (.inl (by decide))
  unfold decodeAt
  rw [h]
  refine hdecoded.trans ?_
  have horigin : pointerOrigin 0x01 (sectionAddress + UInt64.ofNat offset) = 0 := if_neg (by decide)
  rw [horigin, UInt64.add_zero]
  exact congrArg (fun n => Except.ok (UInt64.ofNat v, n)) (Numeral.length_ofNat v)

/-- The base, padded or not. -/
theorem decodeBase {n : Numeral} (hn : n.length ≤ 8) (h : data.drop offset = n.bytes ++ rest) :
    ∃ d, decodeLEB128 (data.drop offset) false = .ok d ∧ d.numBytes ≤ 8 ∧ leNat (d.result.take d.numBytes) = n.value ∧
      d.numSeptetsRead = n.length := by
  have hle := unsignedBytes_le n.value n.length
  refine ⟨_, by rw [h]; exact decode_numeral n rest, ?_, ?_, usint_length (show n.length < 65536 by omega)⟩
  · show usint (unsignedBytes n.value n.length) ≤ 8
    rw [usint_unsignedBytes (by omega)]
    omega
  · show leNat ((toLE (unsignedBytes n.value n.length) n.value).take (usint (unsignedBytes n.value n.length))) = n.value
    rw [usint_unsignedBytes (by omega), leNat_numeral]

/-- The format byte, `lpStart` and the encoding. -/
theorem readStart {lsda : LSDA} (h : data.drop offset = lsda.start ++ rest) :
    ∃ format n, byteAt data offset = .ok format ∧ n + 2 = lsda.start.length ∧
      (format ≠ ehPeOmit → decodeAt config data sectionAddress (offset + 1) format = .ok (lsda.lpStart, n)) ∧
      (format = ehPeOmit → lsda.lpStart = 0 ∧ n = 0) ∧ byteAt data (offset + 1 + n) = .ok lsda.ttEncoding := by
  unfold LSDA.start at h ⊢
  by_cases hlp : lsda.lpStart = 0
  · rw [if_neg (not_not.mpr hlp)] at h ⊢
    refine ⟨ehPeOmit, 0, byteAt_of_drop h, rfl, fun hne => absurd rfl hne, fun _ => ⟨hlp, rfl⟩, ?_⟩
    exact byteAt_of_drop (drop_past (a := [ehPeOmit]) h)
  · rw [if_pos hlp, List.append_assoc] at h
    rw [if_pos hlp]
    have hnumeral : data.drop (offset + 1) = uleb lsda.lpStart.toNat ++ ([lsda.ttEncoding] ++ rest) :=
      drop_past (a := [0x01]) h
    have hencoding := drop_past hnumeral
    rw [length_uleb] at hencoding
    refine ⟨0x01, ulebLen lsda.lpStart.toNat, byteAt_of_drop h, by simp, fun _ => ?_, fun habs => absurd habs (by decide),
      byteAt_of_drop hencoding⟩
    have hread := @decodeAt_uleb config data _ sectionAddress _ _ lsda.lpStart.toNat_lt hnumeral
    rw [UInt64.ofNat_toNat] at hread
    exact hread

end Parsing

/-- Where the base leads, for an LSDA at `offset`. -/
def LsdaParts.ttBase (p : LsdaParts) (lsda : LSDA) (offset : Nat) : Nat :=
  if lsda.ttEncoding ≠ ehPeOmit then offset + (p.front lsda).length + p.misalignment + p.ttSize lsda else 0

def LsdaParts.headerLength (p : LsdaParts) (lsda : LSDA) : Nat :=
  lsda.start.length + (if lsda.ttEncoding ≠ ehPeOmit then p.base.length else 0) + (1 + ulebLen p.callSites.len)

/-- **The header is read back**, the base being where the type table ends. -/
theorem parseLsdaHeader_written {config : ElfBitwidth} {data rest : List UInt8} {sectionAddress : UInt64} {offset : Nat}
    {lsda : LSDA} {p : LsdaParts} (hw : LsdaWritten config lsda p) (hdata : data.drop offset = p.front lsda ++ rest)
    (hend : offset + (p.front lsda).length + p.misalignment + p.ttSize lsda < 2 ^ 64) :
    parseLsdaHeader config data sectionAddress offset =
      .ok ⟨lsda.lpStart, lsda.ttEncoding, p.ttBase lsda offset, 0x01, p.callSites.len, offset + p.headerLength lsda⟩ := by
  have hcallSites := p.callSites.len_lt
  have hfront : 0 < (p.front lsda).length := by
    unfold LsdaParts.front LsdaParts.tables
    rw [List.length_append, List.length_append, List.length_cons]
    omega
  have hinside := record_end hfront hdata
  unfold LsdaParts.front at hdata
  rw [List.append_assoc] at hdata
  obtain ⟨format, n, hformat, hn, hlpStart, homit, hencoding⟩ := @readStart config _ _ sectionAddress _ _ hdata
  have hbase := drop_past hdata
  have hsize : (UInt64.ofNat p.callSites.len).toNat = p.callSites.len :=
    UInt64.toNat_ofNat_of_lt' (show p.callSites.len < 2 ^ 64 by omega)
  -- the call-site format and length, behind the base
  have htables : ∀ k, data.drop k = p.tables ++ rest → byteAt data k = .ok 0x01 ∧
      decodeAt config data sectionAddress (k + 1) 0x01 = .ok (UInt64.ofNat p.callSites.len, ulebLen p.callSites.len) := by
    intro k hk
    refine ⟨byteAt_of_drop hk, ?_⟩
    have htail : p.tables ++ rest = [0x01] ++ (uleb p.callSites.len ++
      (p.callSites.data ++ p.actions.buf.data ++ rest)) := by
      simp [LsdaParts.tables]
    rw [htail] at hk
    exact decodeAt_uleb (show p.callSites.len < 2 ^ 64 by omega) (drop_past hk)
  have hheader : p.headerLength lsda ≤ (p.front lsda).length := by
    have hlen := length_tables p
    unfold LsdaParts.headerLength LsdaParts.front
    rw [List.length_append, List.length_append]
    split <;> simp <;> omega
  by_cases henc : lsda.ttEncoding = ehPeOmit
  · rw [if_neg (not_not.mpr henc), List.nil_append] at hbase
    obtain ⟨hformat1, hlength⟩ := htables _ hbase
    unfold LsdaParts.headerLength at hheader ⊢
    unfold LsdaParts.ttBase
    rw [if_neg (not_not.mpr henc)] at hheader ⊢
    have hat : offset + 1 + n + 1 = offset + lsda.start.length := by omega
    rw [← hat] at hformat1 hlength
    have hshort : ¬ data.length < offset + 1 + n + 1 + 1 + ulebLen p.callSites.len := by omega
    by_cases hf : format = ehPeOmit
    · obtain ⟨hlp, hn0⟩ := homit hf
      subst hn0
      simp [parseLsdaHeader, hformat, hf, hencoding, henc, hformat1, hlength, hshort, hlp, hsize]
      omega
    · simp [parseLsdaHeader, hformat, hf, hlpStart hf, hencoding, henc, hformat1, hlength, hshort, hsize]
      omega
  · rw [if_pos henc, List.append_assoc] at hbase
    obtain ⟨m, hm, hvalue⟩ := hw.base.spells
    have hmlen : m.length = p.base.length := by rw [hm, Numeral.length_bytes]
    have hm8 : m.length ≤ 8 := by
      have hfive := (ulebLen_le_iff (n := p.tables.length + p.misalignment + p.ttSize lsda) (show 0 < 5 by norm_num)).mpr (by
        have := hw.small
        have := hw.base.small
        norm_num
        omega)
      have := hw.base.needed
      omega
    have hat : offset + 1 + n + 1 = offset + lsda.start.length := by omega
    obtain ⟨hformat1, hlength⟩ := htables _ (drop_past hbase)
    rw [hm] at hbase
    rw [← hat] at hbase
    rw [← hat, ← hmlen] at hformat1 hlength
    obtain ⟨d, hd, hd8, hdvalue, hdread⟩ := decodeBase hm8 hbase
    have hends : m.value + (offset + 1 + n + 1 + m.length) =
        offset + (p.front lsda).length + p.misalignment + p.ttSize lsda := by
      unfold LsdaParts.front
      rw [List.length_append, List.length_append, if_pos henc]
      omega
    have hmod : (m.value + (offset + 1 + n + 1 + m.length)) % 2 ^ 64 = p.ttBase lsda offset := by
      unfold LsdaParts.ttBase
      rw [if_pos henc, hends, Nat.mod_eq_of_lt hend]
    unfold LsdaParts.headerLength at hheader ⊢
    rw [if_pos henc, ← hmlen] at hheader ⊢
    have hshort : ¬ data.length < offset + 1 + n + 1 + m.length + 1 + ulebLen p.callSites.len := by omega
    by_cases hf : format = ehPeOmit
    · obtain ⟨hlp, hn0⟩ := homit hf
      subst hn0
      simp only [Nat.add_zero] at hencoding hd hformat1 hlength hmod hshort
      simp [parseLsdaHeader, hformat, hf, hencoding, henc, hd, hd8, hdvalue, hdread, hformat1, hlength, hshort, hlp, hsize]
      exact ⟨hmod, by omega⟩
    · simp [parseLsdaHeader, hformat, hf, hlpStart hf, hencoding, henc, hd, hd8, hdvalue, hdread, hformat1, hlength,
        hshort, hsize]
      exact ⟨hmod, by omega⟩

/-! ## The type table's place -/

/-- The type table of an LSDA written at `start`: its base is written in the bytes reserved for it, the table starts at a
multiple of four and ends with the LSDA, where a reader of the section finds the base to lead. -/
def TypeTablePlaced (config : ElfBitwidth) (exceptTableAddress : UInt64) (buf : GrowingBuffer) (lsda : LSDA)
    (buf' : GrowingBuffer) : Prop :=
  ∃ p : LsdaParts, LsdaWritten config lsda p ∧
    buf'.data.take (buf.len + lsda.start.length + p.base.length) = buf.data ++ (lsda.start ++ p.base) ∧
    p.base.length = reservedBytes (p.tables.length + p.ttSize lsda) ∧
    (∃ typeTableStart, (typeTableStart - buf.len) % 4 = 0 ∧ buf.len ≤ typeTableStart ∧
      typeTableStart + p.ttSize lsda = buf'.len ∧
      buf'.data.drop typeTableStart =
        typeBytes exceptTableAddress lsda.ttEncoding p.ttEntrySize typeTableStart lsda.typeTable.zipIdx) ∧
    ∀ rest sectionAddress, ∃ header, parseLsdaHeader config (buf'.data ++ rest) sectionAddress buf.len = .ok header ∧
      header.ttBase = buf'.len

/-- The base of every written type table. -/
theorem typeTable_placed {config : ElfBitwidth} {exceptTableAddress : UInt64} {buf buf' : GrowingBuffer} {lsda : LSDA}
    (h : writeLSDA config exceptTableAddress buf lsda = .ok buf') (henc : lsda.ttEncoding ≠ ehPeOmit) :
    TypeTablePlaced config exceptTableAddress buf lsda buf' := by
  obtain ⟨p, hw, hdata⟩ := writeLSDA_ok h
  have hlen' := buf'.len_lt
  have hback : p.back exceptTableAddress lsda (buf.len + (p.front lsda).length) = toLE p.misalignment 0 ++
      typeBytes exceptTableAddress lsda.ttEncoding p.ttEntrySize (buf.len + (p.front lsda).length + p.misalignment)
        lsda.typeTable.zipIdx := if_pos henc
  have hfront : p.front lsda = lsda.start ++ (p.base ++ p.tables) := by
    unfold LsdaParts.front
    rw [if_pos henc]
  have hlen : buf'.len = buf.len + (p.front lsda).length + p.misalignment + p.ttSize lsda := by
    unfold GrowingBuffer.len
    rw [hdata, hback]
    simp [LsdaParts.ttSize]
    omega
  have hbase : (p.front lsda).length = lsda.start.length + p.base.length + p.tables.length := by
    rw [hfront]
    simp
    omega
  refine ⟨p, hw, ?_, hw.base.reserved, ⟨buf.len + (p.front lsda).length + p.misalignment, ?_, by omega, by omega, ?_⟩, ?_⟩
  · have hsplit : buf'.data = (buf.data ++ (lsda.start ++ p.base)) ++
        (p.tables ++ p.back exceptTableAddress lsda (buf.len + (p.front lsda).length)) := by
      rw [hdata, hfront]
      simp
    rw [hsplit]
    refine List.take_left' ?_
    simp [GrowingBuffer.len]
    omega
  · have haligned := hw.base.aligned
    have hsub : buf.len + (p.front lsda).length + p.misalignment - buf.len =
        lsda.start.length + p.base.length + p.tables.length + p.misalignment := by omega
    rw [hsub]
    exact haligned
  · have hsplit : buf'.data = (buf.data ++ (p.front lsda ++ toLE p.misalignment 0)) ++
        typeBytes exceptTableAddress lsda.ttEncoding p.ttEntrySize (buf.len + (p.front lsda).length + p.misalignment)
          lsda.typeTable.zipIdx := by
      rw [hdata, hback]
      simp
    rw [hsplit]
    refine List.drop_left' ?_
    simp [GrowingBuffer.len]
    omega
  · intro rest sectionAddress
    have hdrop : (buf'.data ++ rest).drop buf.len =
        p.front lsda ++ (p.back exceptTableAddress lsda (buf.len + (p.front lsda).length) ++ rest) := by
      rw [hdata, List.append_assoc, List.append_assoc]
      exact List.drop_left' rfl
    refine ⟨_, parseLsdaHeader_written hw hdrop (by omega), ?_⟩
    show p.ttBase lsda buf.len = buf'.len
    unfold LsdaParts.ttBase
    rw [if_pos henc, hlen]

/-- **The reserved bytes always fit and the table is where the base leads**, for any sizes. -/
theorem typeTable_base :
    (∀ before tables ttSize, tables + ttSize < 2 ^ 31 →
      ∃ leb misalignment, ttBaseLEB before tables ttSize = .ok (leb, misalignment) ∧
        BaseWritten before tables ttSize leb misalignment) ∧
    ∀ config exceptTableAddress buf lsda buf', writeLSDA config exceptTableAddress buf lsda = .ok buf' →
      lsda.ttEncoding ≠ ehPeOmit → TypeTablePlaced config exceptTableAddress buf lsda buf' :=
  ⟨fun _ _ _ hsmall => ttBaseLEB_ok hsmall, fun _ _ _ _ _ h henc => typeTable_placed h henc⟩

/-- Two type-table entries behind one call site without an action. -/
def sampleLsda : LSDA where
  lpStart := 0
  callSiteTable := [⟨0, 4, 0, 0, false⟩]
  actionTable := []
  ttEncoding := 0x00
  typeTable := [0x601000, 0x601040]

theorem typeTable_base_sampleLsda : ∃ buf', writeLSDA .elf64 0x400000 .zero sampleLsda = .ok buf' ∧
    TypeTablePlaced .elf64 0x400000 .zero sampleLsda buf' :=
  ⟨_, rfl, typeTable_base.2 .elf64 0x400000 .zero sampleLsda _ rfl (by decide)⟩

end Katana
