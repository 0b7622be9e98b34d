/-
  Katana.EhPe — pointer encodings of `.eh_frame` and `.gcc_except_table` (eh_pe.c).

  An encoding byte names a format (the low nibble) and an application (the high one);
  `DW_EH_PE_indirect` is carried along and changes nothing.

  Proved:
  - `encodeEHPointer_ok`: what is stored, per application.
  - `pcrel_points`: a stored difference and a location give the pointer back exactly when the
    location is the one the difference was taken from.
  - `ehPointer_iff`: a pointer that fits its format comes back exactly when nothing is to be sign-extended
    and the format is not eight bytes long, for which four are reported.
-/
import Katana.Leb.Decode

namespace Katana

open Lib

/-! ## Encodings -/

inductive PeFormat where
  | absptr | uleb128 | udata2 | udata4 | udata8 | sleb128 | sdata2 | sdata4 | sdata8 | other
  deriving DecidableEq, Repr

inductive PeApplication where
  | absolute | pcrel | textrel | datarel | funcrel | aligned | other
  deriving DecidableEq, Repr

def ehPeOmit : UInt8 := 0xFF

def peFormat (encoding : UInt8) : PeFormat :=
  match encoding.toNat &&& 0xF with
  | 0x0 => .absptr | 0x1 => .uleb128 | 0x2 => .udata2 | 0x3 => .udata4 | 0x4 => .udata8
  | 0x9 => .sleb128 | 0xA => .sdata2 | 0xB => .sdata4 | 0xC => .sdata8
  | _ => .other

/-- The high nibble without `DW_EH_PE_indirect`. -/
def peApplication (encoding : UInt8) : PeApplication :=
  match encoding.toNat &&& 0x70 with
  | 0x00 => .absolute | 0x10 => .pcrel | 0x20 => .textrel | 0x30 => .datarel | 0x40 => .funcrel | 0x50 => .aligned
  | _ => .other

/-- `config.recent_elf_bitwidth`: that of the ELF file read last, if there was one. -/
inductive ElfBitwidth where
  | unset | elf32 | elf64
  deriving DecidableEq, Repr

/-- `config.recent_elf_bitwidth? config.recent_elf_bitwidth/8 : sizeof(addr_t)`. -/
def ElfBitwidth.ptrSize : ElfBitwidth → Nat
  | unset => 8 | elf32 => 4 | elf64 => 8

/-! ## Encoding and decoding -/

def getPointerSizeFromEHPointerEncoding (config : ElfBitwidth) (encoding : UInt8) : Except Fault Nat :=
  if encoding = ehPeOmit then .ok 0
  else match peFormat encoding with
    | .absptr => .ok config.ptrSize
    | .udata2 | .sdata2 => .ok 2
    | .udata4 | .sdata4 => .ok 4
    | .udata8 | .sdata8 => .ok 8
    | .uleb128 | .sleb128 => .error (.death "getPointerSize not implemented for LEB encodings yet\n")
    | .other => .error (.death "getPointerSize not implemented for unknown eh_frame pointer encoding yet\n")

/-- The value to store and `*numBytesOut`, how many of its bytes to use. -/
def encodeEHPointerFromEncoding (config : ElfBitwidth) (pointer : UInt64) (encoding : UInt8) (pointerLocation : UInt64) :
    Except Fault (UInt64 × Nat) := do
  let numBytesOut ← getPointerSizeFromEHPointerEncoding config encoding
  match peApplication encoding with
  | .absolute => .ok (pointer, numBytesOut)
  | .pcrel => .ok (pointer - pointerLocation, numBytesOut)
  | .textrel => .error (.death "DW_EH_PE_textrel not implemented yet")
  | .datarel => .error (.death "DW_EH_PE_datarel not implemented yet")
  | .funcrel => .error (.death "DW_EH_PE_funcrel not implemented yet")
  | .aligned => .error (.death "DW_EH_PE_aligned not implemented yet")
  | .other => .error (.death "Unknown eh_frame pointer encoding\n")

/-- The stored value at `data` and `byteSize`. -/
def readEHPointer (config : ElfBitwidth) (data : List UInt8) (len : Int) (encoding : UInt8) : Except Fault (Nat × Nat) := do
  match peFormat encoding with
  | .absptr =>
    defined (0 ≤ len)
    let byteSize := min len.toNat config.ptrSize
    let result ← readLE byteSize data
    .ok (result, byteSize)
  | .sdata2 | .udata2 =>
    assert (2 ≤ len)
    let result ← readLE 2 data
    .ok (result, 2)
  | .sdata4 | .udata4 =>
    assert (4 ≤ len)
    let result ← readLE 4 data
    .ok (result, 4)
  | .udata8 | .sdata8 =>
    assert (8 ≤ len)
    let result ← readLE 8 data
    -- `byteSize` is 4 here all the same
    .ok (result, 4)
  | .uleb128 | .sleb128 =>
    -- the signed case asks for an unsigned decoding too
    let d ← decodeLEB128 data false
    assert (d.numBytes ≤ 8)
    .ok (leNat (d.result.take d.numBytes), d.numSeptetsRead)
  | .other => .error (.death "decodeEHPointer not implemented for unknown eh_frame pointer encoding yet\n")

/-- The pointer stored at `data`, whose first byte is loaded at `dataStartAddress`, and `*bytesRead`. -/
def decodeEHPointer (config : ElfBitwidth) (data : List UInt8) (len : Int) (dataStartAddress : UInt64) (encoding : UInt8) :
    Except Fault (UInt64 × Nat) := do
  let (result, byteSize) ← readEHPointer config data len encoding
  match peApplication encoding with
  | .absolute => .ok (UInt64.ofNat result, byteSize)
  | .pcrel => .ok (UInt64.ofNat result + dataStartAddress, byteSize)
  | .textrel => .error (.death "DW_EH_PE_textrel not implemented yet")
  | .datarel => .error (.death "DW_EH_PE_datarel not implemented yet")
  | .funcrel => .error (.death "DW_EH_PE_funcrel not implemented yet")
  | .aligned => .error (.death "DW_EH_PE_aligned not implemented yet")
  | .other => .error (.death "Unknown DW_EH_PE application\n")

/-! ## What is stored -/

/-- The value stored for a pointer at a location, per application. -/
def storedPointer (pointer pointerLocation : UInt64) (encoding : UInt8) : UInt64 :=
  if peApplication encoding = .pcrel then pointer - pointerLocation else pointer

theorem encodeEHPointer_ok {config : ElfBitwidth} {pointer loc v : UInt64} {encoding : UInt8} {k : Nat}
    (h : encodeEHPointerFromEncoding config pointer encoding loc = .ok (v, k)) :
    getPointerSizeFromEHPointerEncoding config encoding = .ok k ∧
      (peApplication encoding = .absolute ∨ peApplication encoding = .pcrel) ∧ v = storedPointer pointer loc encoding := by
  obtain ⟨n, hn, h⟩ := bind_eq_ok.mp h
  unfold storedPointer
  cases happ : peApplication encoding <;> rw [happ] at h <;> cases h
  · exact ⟨hn, .inl rfl, rfl⟩
  · exact ⟨hn, .inr rfl, rfl⟩

/-- The size of a pointer that can be encoded. -/
theorem pointerSize_cases {config : ElfBitwidth} {encoding : UInt8} {k : Nat}
    (h : getPointerSizeFromEHPointerEncoding config encoding = .ok k) (ho : encoding ≠ ehPeOmit) :
    k = 2 ∨ k = 4 ∨ k = 8 := by
  unfold getPointerSizeFromEHPointerEncoding at h
  rw [if_neg ho] at h
  cases hf : peFormat encoding <;> rw [hf] at h <;> cases h <;> try simp
  cases config <;> simp [ElfBitwidth.ptrSize]

theorem pointerSize_le {config : ElfBitwidth} {encoding : UInt8} {k : Nat}
    (h : getPointerSizeFromEHPointerEncoding config encoding = .ok k) : k ≤ 8 := by
  by_cases ho : encoding = ehPeOmit
  · unfold getPointerSizeFromEHPointerEncoding at h
    rw [if_pos ho] at h
    cases h; omega
  · rcases pointerSize_cases h ho with rfl | rfl | rfl <;> omega

theorem not_omit_of_application {encoding : UInt8}
    (h : peApplication encoding = .absolute ∨ peApplication encoding = .pcrel) : encoding ≠ ehPeOmit := by
  rintro rfl
  revert h
  decide

/-! ## Pc-relative pointers -/

/-- The `size` bytes stored at `off` in a section loaded at `base`, added to their own address, give
`pointer` modulo `2 ^ (8 * size)`. -/
def PointsTo (sec : List UInt8) (base : UInt64) (off size : Nat) (pointer : UInt64) : Prop :=
  (leNat ((sec.drop off).take size) + (base + UInt64.ofNat off).toNat) % 256 ^ size = pointer.toNat % 256 ^ size

instance (sec : List UInt8) (base : UInt64) (off size : Nat) (pointer : UInt64) :
    Decidable (PointsTo sec base off size pointer) := inferInstanceAs (Decidable (_ = _))

theorem toNat_sub_add_mod {p l m : UInt64} {k : Nat} (hk : k ≤ 8) :
    ((p - l).toNat % 256 ^ k + m.toNat) % 256 ^ k = (p - l + m).toNat % 256 ^ k := by
  obtain ⟨c, hc⟩ : 256 ^ k ∣ 2 ^ 64 := by
    rw [show (2 : Nat) ^ 64 = 256 ^ 8 by norm_num]
    exact pow_dvd_pow 256 hk
  rw [UInt64.toNat_add, Nat.mod_mod_of_dvd _ ⟨c, hc⟩, Nat.mod_add_mod]

/-- A difference taken at `l` and stored at `m` points `m - l` past the pointer. -/
theorem pcrel_points {p l m : UInt64} {k : Nat} (hk : k ≤ 8) :
    ((p - l).toNat % 256 ^ k + m.toNat) % 256 ^ k = (p + (m - l)).toNat % 256 ^ k := by
  rw [toNat_sub_add_mod hk]
  have h : p - l + m = p + (m - l) := by grind
  rw [h]

/-! ## What is read -/

def PeFormat.signed : PeFormat → Bool
  | sleb128 | sdata2 | sdata4 | sdata8 => true
  | _ => false

/-- What a pointer stored at `location` is counted from. -/
def pointerOrigin (encoding : UInt8) (location : UInt64) : UInt64 :=
  if peApplication encoding = .pcrel then location else 0

def Supported (encoding : UInt8) : Prop := peApplication encoding = .absolute ∨ peApplication encoding = .pcrel

instance (encoding : UInt8) : Decidable (Supported encoding) := inferInstanceAs (Decidable (_ ∨ _))

section Pointers
variable {config : ElfBitwidth} {encoding : UInt8} {location : UInt64} {k : Nat}

theorem storedPointer_add_origin (pointer location : UInt64) (encoding : UInt8) :
    storedPointer pointer location encoding + pointerOrigin encoding location = pointer := by
  unfold storedPointer pointerOrigin
  split <;> grind

/-- The formats of eight bytes whose name says so. -/
def EightByteFormat (encoding : UInt8) : Prop := peFormat encoding = .udata8 ∨ peFormat encoding = .sdata8

instance (encoding : UInt8) : Decidable (EightByteFormat encoding) := inferInstanceAs (Decidable (_ ∨ _))

/-- How many bytes the decoder says it has read of a pointer of `k`. -/
def bytesRead (encoding : UInt8) (k : Nat) : Nat := if EightByteFormat encoding then 4 else k

theorem decodeEHPointer_of {data : List UInt8} {len : Int} {result n : Nat}
    (h : readEHPointer config data len encoding = .ok (result, n)) (hs : Supported encoding) :
    decodeEHPointer config data len location encoding = .ok (UInt64.ofNat result + pointerOrigin encoding location, n) := by
  unfold decodeEHPointer pointerOrigin
  rw [h, bind_ok]
  rcases hs with happ | happ <;> rw [happ]
  · simp
  · simp

theorem not_decodeEHPointer {data : List UInt8} {len : Int} (hs : ¬ Supported encoding) :
    ¬ (decodeEHPointer config data len location encoding).isOk := by
  unfold decodeEHPointer
  cases readEHPointer config data len encoding with
  | error e => rw [bind_error]; exact Bool.false_ne_true
  | ok r =>
    rw [bind_ok]
    cases happ : peApplication encoding with
    | absolute => exact absurd (.inl happ) hs
    | pcrel => exact absurd (.inr happ) hs
    | _ => exact Bool.false_ne_true

/-- A pointer of `k` bytes is read with all its bytes, and eight of them count as four. -/
theorem readEHPointer_toLE (hk : getPointerSizeFromEHPointerEncoding config encoding = .ok k) (ho : encoding ≠ ehPeOmit)
    (x : Nat) (rest : List UInt8) {len : Int} (hlen : k ≤ len) :
    readEHPointer config (toLE k x ++ rest) len encoding = .ok (x % 256 ^ k, bytesRead encoding k) := by
  unfold getPointerSizeFromEHPointerEncoding at hk
  rw [if_neg ho] at hk
  have hread : ∀ n, n = bytesRead encoding k → (Except.ok (x % 256 ^ k, n) : Except Fault (Nat × Nat)) =
      .ok (x % 256 ^ k, bytesRead encoding k) := by rintro n rfl; rfl
  have hcount : bytesRead encoding k = if peFormat encoding = .udata8 ∨ peFormat encoding = .sdata8 then 4 else k := rfl
  unfold readEHPointer
  generalize hf : peFormat encoding = f at hk hcount
  cases f <;> cases hk
  · have hmin : min len.toNat config.ptrSize = config.ptrSize := by omega
    simp only
    rw [defined_of (by omega), bind_ok, hmin, readLE_toLE]
    exact hread _ (by simp [hcount])
  all_goals
    simp only
    rw [assert_of (by exact_mod_cast hlen), bind_ok, readLE_toLE]
    exact hread _ (by simp [hcount])

/-- A numeral is read up to the size of a word. -/
theorem readEHPointer_mark (hf : peFormat encoding = .uleb128 ∨ peFormat encoding = .sleb128) {l : List Nat} (hne : l ≠ [])
    (hl : ∀ d ∈ l, d < 128) (hlen : l.length ≤ 10) (rest : List UInt8) (len : Int) :
    readEHPointer config (mark l ++ rest) len encoding =
      if Nat.ofDigits 128 l < 2 ^ 64 then .ok (Nat.ofDigits 128 l, l.length) else .error .assertion := by
  have hv := Nat.ofDigits_lt_base_pow_length (by norm_num : 1 < 128) hl
  have hlt := lt_unsignedBytes hv
  have hle := unsignedBytes_le (Nat.ofDigits 128 l) l.length
  have hbytes : unsignedBytes (Nat.ofDigits 128 l) l.length ≤ 8 ↔ Nat.ofDigits 128 l < 2 ^ 64 := by
    constructor
    · intro h8
      have hpow := Nat.pow_le_pow_right (show 0 < 256 by norm_num) h8
      norm_num at hpow ⊢
      omega
    · intro hword
      by_cases h10 : l.length = 10
      · unfold unsignedBytes
        rw [h10, if_pos (.inr ⟨by norm_num; omega, by norm_num⟩)]
      · omega
  have hdecode : decodeLEB128 (mark l ++ rest) false =
      .ok ⟨toLE (unsignedBytes (Nat.ofDigits 128 l) l.length) (Nat.ofDigits 128 l),
        unsignedBytes (Nat.ofDigits 128 l) l.length, l.length⟩ := by
    rw [decode_unsigned hl hne rest]
    unfold usint
    rw [Nat.mod_eq_of_lt (by omega), Nat.mod_eq_of_lt (show l.length < 65536 by omega)]
  have hvalue : leNat ((toLE (unsignedBytes (Nat.ofDigits 128 l) l.length) (Nat.ofDigits 128 l)).take
      (unsignedBytes (Nat.ofDigits 128 l) l.length)) = Nat.ofDigits 128 l := by
    rw [List.take_of_length_le (by simp), leNat_toLE, Nat.mod_eq_of_lt hlt]
  have hassert : (assert (unsignedBytes (Nat.ofDigits 128 l) l.length ≤ 8) >>= fun _ =>
      (.ok (Nat.ofDigits 128 l, l.length) : Except Fault (Nat × Nat))) =
      if Nat.ofDigits 128 l < 2 ^ 64 then .ok (Nat.ofDigits 128 l, l.length) else .error .assertion := by
    by_cases hword : Nat.ofDigits 128 l < 2 ^ 64
    · rw [assert_of (hbytes.mpr hword), if_pos hword]
      rfl
    · rw [assert_not fun h => hword (hbytes.mp h), if_neg hword]
      rfl
  unfold readEHPointer
  rcases hf with hf | hf <;> rw [hf] <;> simp only [hdecode, bind_ok, hvalue] <;> exact hassert

end Pointers

/-! ## Pointers come back -/

/-- Encodings of a fixed size that can be both written and read. -/
def FixedSize (encoding : UInt8) : Prop :=
  (peFormat encoding ≠ .uleb128 ∧ peFormat encoding ≠ .sleb128 ∧ peFormat encoding ≠ .other) ∧ Supported encoding

instance (encoding : UInt8) : Decidable (FixedSize encoding) := inferInstanceAs (Decidable (_ ∧ _))

/-- A word fits `k` bytes, in two's complement for a signed format. -/
def FitsFormat (encoding : UInt8) (k : Nat) (v : UInt64) : Prop :=
  if (peFormat encoding).signed then -(256 ^ k : Int) ≤ 2 * v.toInt64.toInt ∧ 2 * v.toInt64.toInt < 256 ^ k
  else v.toNat < 256 ^ k

instance (encoding : UInt8) (k : Nat) (v : UInt64) : Decidable (FitsFormat encoding k v) := by
  unfold FitsFormat
  infer_instance

/-- What is stored for a pointer at a location decodes to it there, with all its bytes read. -/
def PointerReturns (config : ElfBitwidth) (pointer location : UInt64) (encoding : UInt8) : Prop :=
  ∃ v k, encodeEHPointerFromEncoding config pointer encoding location = .ok (v, k) ∧
    getPointerSizeFromEHPointerEncoding config encoding = .ok k ∧
    ∀ rest, decodeEHPointer config (toLE k v.toNat ++ rest) (toLE k v.toNat ++ rest).length location encoding =
      .ok (pointer, k)

section Returns
variable {config : ElfBitwidth} {pointer location v : UInt64} {encoding : UInt8} {k : Nat}

theorem encodeEHPointer_supported (h : Supported encoding)
    (hsize : getPointerSizeFromEHPointerEncoding config encoding = .ok k) :
    encodeEHPointerFromEncoding config pointer encoding location = .ok (storedPointer pointer location encoding, k) := by
  unfold encodeEHPointerFromEncoding storedPointer
  rw [hsize, bind_ok]
  rcases h with happ | happ
  · simp [happ]
  · simp [happ]

/-- The low bytes of a word are the word when it is below their range. -/
theorem ofNat_mod_eq (hk : k ≤ 8) : UInt64.ofNat (v.toNat % 256 ^ k) = v ↔ v.toNat < 256 ^ k := by
  have hv : v.toNat < 256 ^ 8 := v.toNat_lt
  have hpos : 0 < 256 ^ k := by positivity
  have hmod := Nat.mod_lt v.toNat hpos
  have hle : 256 ^ k ≤ 256 ^ 8 := Nat.pow_le_pow_right (by norm_num) hk
  rw [← UInt64.toNat_inj, UInt64.toNat_ofNat_of_lt' (show v.toNat % 256 ^ k < 2 ^ 64 by norm_num at *; omega)]
  exact ⟨fun heq => heq ▸ hmod, Nat.mod_eq_of_lt⟩

/-- A pointer comes back when its stored value does. -/
theorem add_origin_eq {w : UInt64} : w + pointerOrigin encoding location = pointer ↔
    w = storedPointer pointer location encoding := by
  have hsum := storedPointer_add_origin pointer location encoding
  constructor
  · intro h
    grind
  · intro h
    rw [h, hsum]

/-- What fits a format of fewer bytes than a word is below its range when it is not negative. -/
theorem FitsFormat.lt_iff (hk : k ≤ 8) (hfits : FitsFormat encoding k v) :
    v.toNat < 256 ^ k ↔ k = 8 ∨ ((peFormat encoding).signed → 0 ≤ v.toInt64.toInt) := by
  have hv : v.toNat < 256 ^ 8 := v.toNat_lt
  have hint : v.toInt64.toInt = if 2 * v.toNat < 2 ^ 64 then (v.toNat : Int) else v.toNat - 2 ^ 64 := by
    have hcond := BitVec.toInt_eq_toNat_cond v.toBitVec
    exact_mod_cast hcond
  by_cases h8 : k = 8
  · subst h8
    simpa using hv
  · have hpow : 256 ^ k ≤ 256 ^ 7 := Nat.pow_le_pow_right (by norm_num) (by omega)
    have hc : ((256 ^ k : Nat) : Int) = 256 ^ k := by norm_cast
    unfold FitsFormat at hfits
    rw [hint] at hfits ⊢
    by_cases hsigned : (peFormat encoding).signed
    · simp only [hsigned, if_true, h8, false_or, forall_const] at hfits ⊢
      rw [← hc] at hfits
      norm_num at hpow hv ⊢
      split at hfits <;> omega
    · rw [if_neg hsigned] at hfits
      simp [hsigned, hfits]

/-- Signed formats of eight bytes. -/
theorem sdata8_of_signed (h : FixedSize encoding) (hsize : getPointerSizeFromEHPointerEncoding config encoding = .ok 8)
    (hsigned : (peFormat encoding).signed) : EightByteFormat encoding := by
  have homit := not_omit_of_application h.2
  obtain ⟨⟨-, hsleb, -⟩, -⟩ := h
  unfold getPointerSizeFromEHPointerEncoding at hsize
  rw [if_neg homit] at hsize
  unfold EightByteFormat
  cases hf : peFormat encoding <;> simp_all [PeFormat.signed]

/-- Four bytes are reported for eight. -/
theorem bytesRead_eq_iff (homit : encoding ≠ ehPeOmit)
    (hsize : getPointerSizeFromEHPointerEncoding config encoding = .ok k) :
    bytesRead encoding k = k ↔ ¬ EightByteFormat encoding := by
  unfold getPointerSizeFromEHPointerEncoding at hsize
  rw [if_neg homit] at hsize
  unfold bytesRead
  by_cases h8 : EightByteFormat encoding
  · rw [if_pos h8]
    rcases h8 with hf | hf
    · rw [hf] at hsize
      cases hsize
      simp [EightByteFormat, hf]
    · rw [hf] at hsize
      cases hsize
      simp [EightByteFormat, hf]
  · simp [h8]

end Returns

/-- **A pointer whose stored value fits comes back** exactly when the value is not negative in its format and the
format is not eight bytes long. -/
theorem ehPointer_iff {config : ElfBitwidth} {pointer location : UInt64} {encoding : UInt8} {k : Nat}
    (h : FixedSize encoding)
    (hsize : getPointerSizeFromEHPointerEncoding config encoding = .ok k)
    (hfits : FitsFormat encoding k (storedPointer pointer location encoding)) :
    PointerReturns config pointer location encoding ↔ ¬ EightByteFormat encoding ∧
      ((peFormat encoding).signed → 0 ≤ (storedPointer pointer location encoding).toInt64.toInt) := by
  have hk := pointerSize_le hsize
  have homit := not_omit_of_application h.2
  have hlt := hfits.lt_iff hk
  have hdecoded := fun rest => @decodeEHPointer_of config encoding location _ _ _ _
    (readEHPointer_toLE hsize homit (storedPointer pointer location encoding).toNat rest
      (show k ≤ ((toLE k (storedPointer pointer location encoding).toNat ++ rest).length : Int) by simp)) h.2
  constructor
  · intro ⟨v, k', hencoded, hsize', hreturns⟩
    rw [encodeEHPointer_supported h.2 hsize] at hencoded
    cases hencoded
    have hnil := hreturns []
    rw [hdecoded, Except.ok.injEq, Prod.mk.injEq, add_origin_eq, ofNat_mod_eq hk, hlt, bytesRead_eq_iff homit hsize] at hnil
    obtain ⟨hvalue, hformat⟩ := hnil
    refine ⟨hformat, ?_⟩
    rcases hvalue with rfl | hnonneg
    · intro hsigned
      exact absurd (sdata8_of_signed h hsize hsigned) hformat
    · exact hnonneg
  · intro ⟨hformat, hnonneg⟩
    refine ⟨_, k, encodeEHPointer_supported h.2 hsize, hsize, fun rest => ?_⟩
    rw [hdecoded, add_origin_eq.mpr ((ofNat_mod_eq hk).mpr (hlt.mpr (.inr hnonneg))),
      (bytesRead_eq_iff homit hsize).mpr hformat]

/-- A personality routine 16 bytes after the pointer to it, in four bytes. -/
theorem pcrel_sdata4_returns : FitsFormat 0x1B 4 (storedPointer 0x1010 0x1000 0x1B) ∧
    PointerReturns .elf64 0x1010 0x1000 0x1B :=
  ⟨by decide, (@ehPointer_iff .elf64 0x1010 0x1000 0x1B 4 (by decide) (by decide) (by decide)).mpr (by decide)⟩

/-- The difference to a pointer 16 bytes before it is not sign-extended. -/
theorem not_pointerReturns : FitsFormat 0x1B 4 (storedPointer 0x1000 0x1010 0x1B) ∧
    ¬ PointerReturns .elf64 0x1000 0x1010 0x1B := by
  refine ⟨by decide, ?_⟩
  intro h
  obtain ⟨v, k, hencoded, -, hreturns⟩ := h
  cases hencoded
  have hnil := hreturns []
  revert hnil
  decide

end Katana
